/-
# What `fragmentDict` stores

`Fragment` keeps the payload, the offset and `MF` of a fragment, but not the
addresses it carried. Here the whole buffers are kept beside it: `stored as k`
are the buffers whose fragments are under the key `k` after the arrivals `as`
(`after_stored`).

* `stored_one_datagram`: the fragments under one key have one identification, but
  their addresses agree only in the sums of their bytes. A datagram and an answer
  to it share a key (`answer_shares_key`).
* `delivered_iff`: a fragment that comes twice before its datagram is complete
  stands twice in the entry, and the datagram is never handed up.

Key definitions: `stored`, `Datagram`, `Datagram.Delivered`.
-/
import Mathlib.Data.List.Perm.Subperm
import NachosNet.Network.Sent

namespace Nachos
namespace IPLayer

open Basis

def offsetOf (b : Bytes 1500) : ℕ := (fragOf b).offset

/-- `insertToMap` and `check` on the buffers of one key. -/
def storedStep (l : List (Bytes 1500)) (b : Bytes 1500) : List (Bytes 1500) :=
  if complete ((insertBy offsetOf b l).map fragOf) then [] else insertBy offsetOf b l

/-- The buffers whose fragments are stored under `k` after the arrivals `as`, in
the order of the vector. -/
def stored (as : List (Bytes 1500)) (k : Text) : List (Bytes 1500) :=
  (as.filter fun b => keyOf b = k).foldl storedStep []

theorem map_insertBy_fragOf (b : Bytes 1500) (l : List (Bytes 1500)) :
    (insertBy offsetOf b l).map fragOf = insertBy Fragment.offset (fragOf b) (l.map fragOf) :=
  map_insertBy fragOf fun _ _ => ⟨Iff.rfl, Iff.rfl⟩

theorem stored_concat_self {as : List (Bytes 1500)} {b : Bytes 1500} :
    stored (as ++ [b]) (keyOf b) = storedStep (stored as (keyOf b)) b := by
  simp [stored]

theorem stored_concat_ne {as : List (Bytes 1500)} {b : Bytes 1500} {k : Text} (h : keyOf b ≠ k) :
    stored (as ++ [b]) k = stored as k := by
  simp [stored, h]

theorem after_stored (as : List (Bytes 1500)) (k : Text) :
    (after emptyDict as k).getD [] = (stored as k).map fragOf := by
  induction as using List.reverseRecOn with
  | nil => rfl
  | append_singleton as b ih =>
    rw [after_concat]
    by_cases hk : keyOf b = k
    · subst hk
      rw [receive_fst_self, stored_concat_self, entryStep, ih, storedStep, map_insertBy_fragOf]
      split
      · rfl
      · rw [Option.getD_some, map_insertBy_fragOf]
    · rw [receive_fst_ne _ _ (Ne.symm hk), stored_concat_ne hk, ih]

theorem receive_stored (as : List (Bytes 1500)) (b : Bytes 1500) : (receive (after emptyDict as) b).2 =
    if complete ((insertBy offsetOf b (stored as (keyOf b))).map fragOf) then
      some (((insertBy offsetOf b (stored as (keyOf b))).map fun b => (fragOf b).data.1).flatten)
    else none := by
  rw [receive_snd, entryStep, after_stored, ← map_insertBy_fragOf]
  split
  · rw [List.map_map]
    rfl
  · rfl

theorem mem_storedStep {l : List (Bytes 1500)} {b c : Bytes 1500} (h : c ∈ storedStep l b) : c = b ∨ c ∈ l := by
  unfold storedStep at h
  split at h
  · simp at h
  · exact mem_insertBy.mp h

theorem mem_stored {as : List (Bytes 1500)} {k : Text} {b : Bytes 1500} (h : b ∈ stored as k) :
    b ∈ as ∧ keyOf b = k := by
  induction as using List.reverseRecOn with
  | nil => simp [stored] at h
  | append_singleton as c ih =>
    by_cases hk : keyOf c = k
    · subst hk
      rw [stored_concat_self] at h
      rcases mem_storedStep h with rfl | h
      · exact ⟨by simp, rfl⟩
      · exact ⟨List.mem_append_left _ (ih h).1, (ih h).2⟩
    · rw [stored_concat_ne hk] at h
      exact ⟨List.mem_append_left _ (ih h).1, (ih h).2⟩

theorem offsetOf_lt (b : Bytes 1500) : offsetOf b < 8192 := (IPFragment.ofBytes b).fragmentOffset.isLt

theorem length_handedUp {as : List (Bytes 1500)} {b : Bytes 1500} {buf : List Byte}
    (h : (receive (after emptyDict as) b).2 = some buf) : ∃ n, 0 < n ∧ n ≤ 45 ∧ buf.length = 1480 * n := by
  rw [receive_stored] at h
  split at h
  · rename_i hc
    obtain ⟨hpos, hle⟩ := length_le_of_complete hc fun f hf => by
      obtain ⟨c, -, rfl⟩ := List.mem_map.mp hf
      exact offsetOf_lt c
    rw [List.length_map] at hpos hle
    refine ⟨_, hpos, hle, ?_⟩
    rw [← Option.some.inj h, List.length_flatten, List.map_map]
    have hlen : (List.length ∘ fun b => (fragOf b).data.1) = fun _ : Bytes 1500 => 1480 :=
      funext fun b => (fragOf b).data.2
    rw [hlen, List.map_const', List.sum_replicate_nat, Nat.mul_comm]
  · simp at h

/-! ### What has come for a key -/

/-- The parts of a datagram, each once, in any order: their offsets count from 0
on, and the part with the largest one has `MF = 0`. -/
def Whole (fs : List Fragment) : Prop :=
  (fs.map Fragment.offset).Perm ((List.range fs.length).map (· * 185)) ∧
    ∃ f ∈ fs, f.offset = (fs.length - 1) * 185 ∧ f.mf = false

instance decidableWhole (fs : List Fragment) : Decidable (Whole fs) := inferInstanceAs (Decidable (_ ∧ _))

/-- The fragments that have arrived with the key `k` since those before them were
whole. -/
def pending (as : List (Bytes 1500)) (k : Text) : List Fragment :=
  (as.filter fun b => keyOf b = k).foldl
    (fun fs b => if Whole (fs ++ [fragOf b]) then [] else fs ++ [fragOf b]) []

theorem whole_congr {fs gs : List Fragment} (h : fs.Perm gs) : Whole fs ↔ Whole gs := by
  unfold Whole
  rw [h.length_eq, (h.map Fragment.offset).congr_left]
  simp only [h.mem_iff]

theorem Whole.nodup {fs : List Fragment} (h : Whole fs) : (fs.map Fragment.offset).Nodup := by
  rw [h.1.nodup_iff]
  exact List.nodup_range.map fun a b hab => Nat.eq_of_mul_eq_mul_right (by decide) hab

theorem complete_iff_whole {v : List Fragment} (hs : v.Pairwise fun f g => f.offset ≤ g.offset) :
    complete v = true ↔ Whole v := by
  rw [complete_iff]
  have hlast : ∀ {f}, v.getLast? = some f → v.map Fragment.offset = (List.range v.length).map (· * 185) →
      f.offset = (v.length - 1) * 185 := by
    intro f hf hoff
    have hpos : v.length ≠ 0 := by
      rw [ne_eq, List.length_eq_zero_iff]
      rintro rfl
      simp at hf
    have h := congrArg List.getLast? hoff
    rw [List.getLast?_map, hf, List.getLast?_map, List.getLast?_range, if_neg hpos] at h
    exact Option.some.inj h
  constructor
  · rintro ⟨hoff, f, hf, hmf⟩
    exact ⟨List.Perm.of_eq hoff, f, List.mem_of_getLast? hf, hlast hf hoff, hmf⟩
  · intro h
    have hoff : v.map Fragment.offset = (List.range v.length).map (· * 185) :=
      List.Perm.eq_of_pairwise' (r := (· ≤ ·)) (List.pairwise_map.mpr hs)
        (List.pairwise_map.mpr (List.pairwise_le_range.imp fun hab => Nat.mul_le_mul_right _ hab)) h.1
    obtain ⟨f, hf, hfo, hmf⟩ := h.2
    obtain ⟨g, hg⟩ := Option.ne_none_iff_exists'.mp (fun he => List.ne_nil_of_mem hf (List.getLast?_eq_none_iff.mp he))
    have hgf : g = f := List.inj_on_of_nodup_map h.nodup (List.mem_of_getLast? hg) hf ((hlast hg hoff).trans hfo.symm)
    exact ⟨hoff, g, hg, hgf ▸ hmf⟩

theorem insertBy_pending {l : List (Bytes 1500)} {fs : List Fragment} {b : Bytes 1500}
    (h : (l.map fragOf).Perm fs ∧ (l.map fragOf).Pairwise fun f g => f.offset ≤ g.offset) :
    ((insertBy offsetOf b l).map fragOf).Perm (fs ++ [fragOf b]) ∧
    ((insertBy offsetOf b l).map fragOf).Pairwise fun f g => f.offset ≤ g.offset := by
  rw [map_insertBy_fragOf]
  exact ⟨perm_insertBy.trans ((h.1.cons _).trans (List.perm_append_singleton _ _).symm), pairwise_insertBy h.2⟩

theorem perm_pending (as : List (Bytes 1500)) (k : Text) :
    ((stored as k).map fragOf).Perm (pending as k) ∧
    ((stored as k).map fragOf).Pairwise fun f g => f.offset ≤ g.offset := by
  induction as using List.reverseRecOn with
  | nil => exact ⟨.refl _, .nil⟩
  | append_singleton as b ih =>
    by_cases hk : keyOf b = k
    · subst hk
      have hp : pending (as ++ [b]) (keyOf b) = if Whole (pending as (keyOf b) ++ [fragOf b]) then []
          else pending as (keyOf b) ++ [fragOf b] := by
        unfold pending
        rw [List.filter_append, List.foldl_append, List.filter_singleton, decide_eq_true rfl]
        rfl
      obtain ⟨hperm, hsort⟩ := insertBy_pending (b := b) ih
      have hc := (complete_iff_whole hsort).trans (whole_congr hperm)
      rw [stored_concat_self, hp, storedStep]
      by_cases hw : Whole (pending as (keyOf b) ++ [fragOf b])
      · rw [if_pos (hc.mpr hw), if_pos hw]
        exact ⟨.refl _, .nil⟩
      · rw [if_neg (mt hc.mp hw), if_neg hw]
        exact ⟨hperm, hsort⟩
    · have hp : pending (as ++ [b]) k = pending as k := by simp [pending, hk]
      rwa [stored_concat_ne hk, hp]

/-- What `IP_Layer::Receive` hands up, by what has arrived: nothing before the
fragments of the key are whole, and then their payloads by offset. -/
theorem receive_pending {as : List (Bytes 1500)} {b : Bytes 1500} {buf : List Byte}
    (h : (receive (after emptyDict as) b).2 = some buf) : ∃ v : List Fragment,
      v.Perm (pending as (keyOf b) ++ [fragOf b]) ∧ v.map Fragment.offset = (List.range v.length).map (· * 185) ∧
      Whole (pending as (keyOf b) ++ [fragOf b]) ∧ buf = (v.map fun f => f.data.1).flatten := by
  rw [receive_stored] at h
  obtain ⟨hperm, hsort⟩ := insertBy_pending (b := b) (perm_pending as (keyOf b))
  obtain ⟨hc, h⟩ := Option.ite_none_right_eq_some.mp h
  refine ⟨_, hperm, ((complete_iff _).mp hc).1, (whole_congr hperm).mp ((complete_iff_whole hsort).mp hc), ?_⟩
  rw [← Option.some.inj h, List.map_map]
  rfl

/-! ### Keys -/

/-- The two buffers carried the same addresses and identification. -/
def SameHeader (b c : Bytes 1500) : Prop :=
  (IPFragment.ofBytes b).srcIP = (IPFragment.ofBytes c).srcIP ∧
  (IPFragment.ofBytes b).destIP = (IPFragment.ofBytes c).destIP ∧
  (IPFragment.ofBytes b).identification = (IPFragment.ofBytes c).identification

/-- Buffers with one key and one destination come from one source and have one
identification. -/
theorem sameHeader_of_key {b c : Bytes 1500} (hk : keyOf b = keyOf c)
    (hd : (IPFragment.ofBytes b).destIP = (IPFragment.ofBytes c).destIP) : SameHeader b c := by
  obtain ⟨hsums, hid⟩ := computeHash_eq_iff.mp hk
  rw [hd] at hsums
  exact ⟨eq_of_sums_eq hsums, hd, BitVec.eq_of_toNat_eq hid⟩

/-- **Keys and datagrams.** After any arrivals, all fragments stored under one key
carried the same addresses and identification if those that arrived with one key
had one destination. In every state the identification and the sums of the two
addresses agree under a key, and the source addresses do exactly when the
destinations do. -/
theorem stored_one_datagram (as : List (Bytes 1500)) (k : Text) :
    (after emptyDict as k).getD [] = (stored as k).map fragOf ∧
    ((∀ b ∈ as, ∀ c ∈ as, keyOf b = keyOf c →
        (IPFragment.ofBytes b).destIP = (IPFragment.ofBytes c).destIP) →
      ∀ b ∈ stored as k, ∀ c ∈ stored as k, SameHeader b c) ∧
    ∀ b ∈ stored as k, ∀ c ∈ stored as k,
      (IPFragment.ofBytes b).identification = (IPFragment.ofBytes c).identification ∧
      sums (IPFragment.ofBytes b).srcIP (IPFragment.ofBytes b).destIP =
        sums (IPFragment.ofBytes c).srcIP (IPFragment.ofBytes c).destIP ∧
      (SameHeader b c ↔ (IPFragment.ofBytes b).destIP = (IPFragment.ofBytes c).destIP) := by
  have hkey : ∀ b ∈ stored as k, ∀ c ∈ stored as k, keyOf b = keyOf c := fun b hb c hc =>
    (mem_stored hb).2.trans (mem_stored hc).2.symm
  refine ⟨after_stored as k, fun h b hb c hc => ?_, fun b hb c hc => ?_⟩
  · apply sameHeader_of_key (hkey b hb c hc)
    exact h b (mem_stored hb).1 c (mem_stored hc).1 (hkey b hb c hc)
  · obtain ⟨hsums, hid⟩ := computeHash_eq_iff.mp (hkey b hb c hc)
    exact ⟨BitVec.eq_of_toNat_eq hid, hsums, fun h => h.2.1, sameHeader_of_key (hkey b hb c hc)⟩

/-- A fragment of a longer datagram, not the last one. -/
def partOf (srcIP destIP : IP) (identification : BitVec 16) (fragmentOffset : BitVec 13) : IPFragment where
  version := 4
  ihl := 5
  dscp := 0
  ecn := 0
  totalLength := 3020
  identification := identification
  reserved := 0
  df := 0
  mf := 1
  fragmentOffset := fragmentOffset
  timeToLive := 1
  protocol := 17
  checksum := 0
  srcIP := srcIP
  destIP := destIP
  payload := Bytes.pad 1480 []

/-- The first two fragments of a datagram from machine 0 to machine 1. -/
def firstTwo : List (Bytes 1500) :=
  [(partOf (ippool 0) (ippool 1) 7 0).toBytes, (partOf (ippool 0) (ippool 1) 7 185).toBytes]

/-- The second one comes from machine 1, with the same identification. -/
def firstAndAnswer : List (Bytes 1500) :=
  [(partOf (ippool 0) (ippool 1) 7 0).toBytes, (partOf (ippool 1) (ippool 0) 7 185).toBytes]

theorem stored_firstTwo : stored firstTwo (computeHash (ippool 0) (ippool 1) 7) = firstTwo := by decide +kernel

theorem stored_one_datagram_firstTwo :
    stored firstTwo (computeHash (ippool 0) (ippool 1) 7) = firstTwo ∧
      ∀ b ∈ firstTwo, ∀ c ∈ firstTwo, SameHeader b c := by
  obtain ⟨-, h, -⟩ := stored_one_datagram firstTwo (computeHash (ippool 0) (ippool 1) 7)
  rw [stored_firstTwo] at h
  refine ⟨stored_firstTwo, h fun b hb c hc _ => ?_⟩
  have hdest : ∀ b ∈ firstTwo, (IPFragment.ofBytes b).destIP = ippool 1 := by decide +kernel
  exact (hdest b hb).trans (hdest c hc).symm

/-- A fragment and one of an answer to its sender are stored under one key. -/
theorem answer_shares_key : stored firstAndAnswer (computeHash (ippool 0) (ippool 1) 7) = firstAndAnswer ∧
    ∃ b ∈ firstAndAnswer, ∃ c ∈ firstAndAnswer,
      (IPFragment.ofBytes b).srcIP ≠ (IPFragment.ofBytes c).srcIP ∧
      (IPFragment.ofBytes b).destIP ≠ (IPFragment.ofBytes c).destIP := by
  decide +kernel

end IPLayer

/-! ### Repeated fragments -/

open Basis IPLayer

/-- A call `IP_Layer::Send(data, size, destIP)` on machine `host`; `rand` is what
`rand()` returns in it. -/
structure Datagram where
  host : Host
  rand : ℕ
  data : List Byte
  destIP : IP

namespace Datagram

variable (d : Datagram)

def num : ℕ := numOfFragments d.data.length

/-- The buffers given to the link layer, in order. -/
def emit : List (Bytes 1500) := (IPLayer.send d.host d.rand d.data d.destIP).map Prod.snd

def key : Text := computeHash (ippool d.host) d.destIP (getRandomIdentification d.rand).toNat

/-- Fragment `i` as it is sent. -/
def buffer (i : ℕ) : Bytes 1500 := (fragment d.host (getRandomIdentification d.rand) d.data d.destIP i).toBytes

/-- In the arrivals `as` one of the datagram's fragments makes `IP_Layer::Receive`
call `UDP_Layer::Receive` with the datagram, followed by the zeros of the last
fragment. -/
def Delivered (as : List (Bytes 1500)) : Prop :=
  ∃ pre b post, as = pre ++ b :: post ∧ b ∈ d.emit ∧
    (receive (after emptyDict pre) b).2 = some (d.data ++ List.replicate (1480 * d.num - d.data.length) 0)

theorem emit_eq : d.emit = (List.range d.num).map d.buffer := by
  simp only [emit, IPLayer.send, List.map_map]
  rfl

theorem length_emit : d.emit.length = d.num := by simp [emit_eq]

theorem keyOf_buffer (i : ℕ) : keyOf (d.buffer i) = d.key := by
  unfold keyOf buffer
  rw [IPFragment.ofBytes_toBytes]
  rfl

theorem keyOf_of_mem {b : Bytes 1500} (h : b ∈ d.emit) : keyOf b = d.key := by
  rw [emit_eq] at h
  obtain ⟨i, -, rfl⟩ := List.mem_map.mp h
  exact d.keyOf_buffer i

theorem data_buffer (i : ℕ) : (fragOf (d.buffer i)).data = Bytes.pad 1480 (chunk 1480 i d.data) := by
  unfold fragOf buffer
  rw [IPFragment.ofBytes_toBytes]
  rfl

theorem mf_buffer (i : ℕ) : (fragOf (d.buffer i)).mf = decide (i < d.num - 1) := by
  unfold fragOf buffer
  rw [IPFragment.ofBytes_toBytes]
  show decide ((if i < d.num - 1 then (1 : BitVec 1) else 0) = 1) = _
  by_cases h : i < d.num - 1
  · simp [h]
  · simp [h]

theorem offset_buffer (i : ℕ) : (fragOf (d.buffer i)).offset = i * 185 % 8192 := by
  unfold fragOf buffer
  rw [IPFragment.ofBytes_toBytes]
  show (BitVec.ofNat 13 (i * 1480 / 8)).toNat = _
  rw [BitVec.toNat_ofNat]
  omega

theorem offset_buffer_of_lt {i : ℕ} (hle : d.num ≤ 45) (hi : i < d.num) :
    (fragOf (d.buffer i)).offset = i * 185 := by
  rw [offset_buffer]
  omega

theorem pairwise_emit (hle : d.num ≤ 45) : d.emit.Pairwise fun b c => offsetOf b < offsetOf c := by
  rw [emit_eq, List.pairwise_map]
  refine List.pairwise_lt_range.imp_of_mem ?_
  intro i j hi hj hij
  show (fragOf (d.buffer i)).offset < (fragOf (d.buffer j)).offset
  rw [d.offset_buffer_of_lt hle (List.mem_range.mp hi), d.offset_buffer_of_lt hle (List.mem_range.mp hj)]
  omega

theorem nodup_emit (hle : d.num ≤ 45) : d.emit.Nodup :=
  (d.pairwise_emit hle).imp fun h he => absurd (he ▸ h) (lt_irrefl _)

variable {d}

/-- Buffers of the datagram are complete only when they are those that were sent,
in order. -/
theorem complete_iff_eq (hpos : 0 < d.num) (hle : d.num ≤ 45) {X : List (Bytes 1500)} (hX : ∀ b ∈ X, b ∈ d.emit) :
    complete (X.map fragOf) = true ↔ X = d.emit := by
  have hnum : ∀ L : List ℕ, (∀ i ∈ L, i < d.num) →
      (complete ((L.map d.buffer).map fragOf) = true ↔ L = List.range d.num) := by
    intro L hL
    rw [List.map_map]
    exact complete_numbered_iff hpos (fun i hi => d.offset_buffer_of_lt hle hi) (fun i _ => d.mf_buffer i) hL
  constructor
  · intro h
    have hex : ∀ b ∈ X, ∃ i, i < d.num ∧ d.buffer i = b := by
      intro b hb
      obtain ⟨i, hi, rfl⟩ := List.mem_map.mp (d.emit_eq ▸ hX b hb)
      exact ⟨i, List.mem_range.mp hi, rfl⟩
    choose! idx hidx using hex
    have hmap : (X.map idx).map d.buffer = X := by
      rw [List.map_map]
      exact (List.map_congr_left fun b hb => (hidx b hb).2).trans (List.map_id X)
    have hlt : ∀ i ∈ X.map idx, i < d.num := by
      intro i hi
      obtain ⟨b, hb, rfl⟩ := List.mem_map.mp hi
      exact (hidx b hb).1
    rw [← hmap, (hnum _ hlt).mp (hmap.symm ▸ h), emit_eq]
  · rintro rfl
    rw [emit_eq]
    exact (hnum _ fun i hi => List.mem_range.mp hi).mpr rfl

/-- The datagram's buffers, arranged as they come, are complete when each has come
once. -/
theorem complete_arrange_iff (hpos : 0 < d.num) (hle : d.num ≤ 45) {P : List (Bytes 1500)}
    (hP : ∀ b ∈ P, b ∈ d.emit) : complete ((arrange offsetOf P).map fragOf) = true ↔ P.Perm d.emit := by
  rw [complete_iff_eq hpos hle fun b hb => hP b ((perm_arrange P).mem_iff.mp hb)]
  exact ⟨fun h => h ▸ (perm_arrange P).symm, arrange_eq_of_perm (d.pairwise_emit hle)⟩

theorem stored_eq_arrange {as : List (Bytes 1500)} {k : Text}
    (h : ∀ Q, Q <+: as.filter (fun b => keyOf b = k) → complete ((arrange offsetOf Q).map fragOf) = false) :
    stored as k = arrange offsetOf (as.filter fun b => keyOf b = k) := by
  unfold stored
  generalize as.filter (fun b => keyOf b = k) = L at h ⊢
  induction L using List.reverseRecOn with
  | nil => rfl
  | append_singleton L b ih =>
    have hL := ih fun Q hQ => h Q (hQ.trans (List.prefix_append _ _))
    rw [List.foldl_append, hL, arrange_concat, List.foldl_cons, List.foldl_nil, storedStep, ← arrange_concat,
      h _ (List.prefix_refl _)]
    rfl

/-- When the first fragments of a datagram that come are not all different, no
arrival with its key hands up a buffer. -/
theorem receive_none_of_repeated (hpos : 0 < d.num) (hle : d.num ≤ 45) {as pre post : List (Bytes 1500)}
    {b : Bytes 1500} (hkey : ∀ b ∈ as, keyOf b = d.key → b ∈ d.emit)
    (hrep : ¬ ((as.filter fun b => keyOf b = d.key).take d.num).Nodup) (has : as = pre ++ b :: post)
    (hb : keyOf b = d.key) : (receive (after emptyDict pre) b).2 = none := by
  -- what came up to some arrival is never complete: it would be the first `num` buffers
  have hnot : ∀ Q, Q <+: as.filter (fun b => keyOf b = d.key) →
      complete ((arrange offsetOf Q).map fragOf) = false := by
    intro Q hQ
    rw [Bool.eq_false_iff]
    intro hc
    have hmem : ∀ c ∈ Q, c ∈ d.emit := fun c hc => by
      have := List.mem_filter.mp (hQ.subset hc)
      exact hkey c this.1 (of_decide_eq_true this.2)
    have hperm := (complete_arrange_iff hpos hle hmem).mp hc
    have hlen : Q.length = d.num := hperm.length_eq.trans d.length_emit
    apply hrep
    rw [← hlen, ← List.prefix_iff_eq_take.mp hQ]
    exact hperm.nodup_iff.mpr (d.nodup_emit hle)
  have hfilter : as.filter (fun b => keyOf b = d.key) =
      pre.filter (fun b => keyOf b = d.key) ++ b :: post.filter fun b => keyOf b = d.key := by
    rw [has, List.filter_append, List.filter_cons, if_pos (decide_eq_true hb)]
  have hstored : stored pre d.key = arrange offsetOf (pre.filter fun b => keyOf b = d.key) :=
    stored_eq_arrange fun Q hQ => hnot Q (hQ.trans (by rw [hfilter]; exact List.prefix_append _ _))
  have hpre : pre.filter (fun b => keyOf b = d.key) ++ [b] <+: as.filter fun b => keyOf b = d.key :=
    ⟨post.filter fun b => keyOf b = d.key, by rw [hfilter, List.append_assoc, List.singleton_append]⟩
  rw [receive_stored, hb, hstored, ← arrange_concat, hnot _ hpre, if_neg Bool.false_ne_true]

theorem perm_take (hle : d.num ≤ 45) {as : List (Bytes 1500)} (hkey : ∀ b ∈ as, keyOf b = d.key → b ∈ d.emit)
    (hall : ∀ b ∈ d.emit, b ∈ as) (hn : ((as.filter fun b => keyOf b = d.key).take d.num).Nodup) :
    ((as.filter fun b => keyOf b = d.key).take d.num).Perm d.emit := by
  have hsub : d.emit ⊆ as.filter fun b => keyOf b = d.key := fun b hb =>
    List.mem_filter.mpr ⟨hall b hb, decide_eq_true (d.keyOf_of_mem hb)⟩
  have hlen := (List.subperm_of_subset (d.nodup_emit hle) hsub).length_le
  rw [d.length_emit] at hlen
  refine (List.subperm_of_subset hn fun b hb => ?_).perm_of_length_le ?_
  · obtain ⟨hb, hk⟩ := List.mem_filter.mp (List.mem_of_mem_take hb)
    exact hkey b hb (of_decide_eq_true hk)
  · rw [d.length_emit, List.length_take_of_le hlen]

/-- When the first fragments that come are all different, the last of them hands
up the datagram. -/
theorem delivered_of_nodup (hpos : 0 < d.num) (hle : d.num ≤ 45) {as : List (Bytes 1500)}
    (hkey : ∀ b ∈ as, keyOf b = d.key → b ∈ d.emit) (hall : ∀ b ∈ d.emit, b ∈ as)
    (hn : ((as.filter fun b => keyOf b = d.key).take d.num).Nodup) : d.Delivered as := by
  have hperm := perm_take hle hkey hall hn
  generalize hF : as.filter (fun b => keyOf b = d.key) = F at hn hperm
  have htake : (F.take d.num).length = d.num := hperm.length_eq.trans d.length_emit
  have hmem : ∀ b ∈ F.take d.num, b ∈ d.emit := fun b hb => hperm.mem_iff.mp hb
  -- the arrival that completes them
  obtain ⟨Q, b, hQ⟩ : ∃ Q b, F.take d.num = Q ++ [b] :=
    ⟨_, _, (List.dropLast_append_getLast (List.ne_nil_of_length_pos (by omega))).symm⟩
  have hsplit : as.filter (fun b => keyOf b = d.key) = Q ++ (b :: F.drop d.num) := by
    rw [hF, List.append_cons, ← hQ, List.take_append_drop]
  obtain ⟨pre, rest, rfl, hpre, hrest⟩ := List.filter_eq_append_iff.mp hsplit
  obtain ⟨mid, post, rfl, hmid, hb, -⟩ := List.filter_eq_cons_iff.mp hrest
  refine ⟨pre ++ mid, b, post, by simp, hmem b (by rw [hQ]; simp), ?_⟩
  have hQpre : (pre ++ mid).filter (fun b => keyOf b = d.key) = Q := by
    rw [List.filter_append, hpre, List.filter_eq_nil_iff.mpr hmid, List.append_nil]
  have hstored : stored (pre ++ mid) d.key = arrange offsetOf Q := by
    rw [← hQpre]
    refine stored_eq_arrange fun R hR => ?_
    rw [hQpre] at hR
    rw [Bool.eq_false_iff]
    intro hc
    have hRperm := (complete_arrange_iff hpos hle fun c hc => hmem c (by
      rw [hQ]
      exact List.mem_append_left _ (hR.subset hc))).mp hc
    have h1 := hR.length_le
    have h2 := hRperm.length_eq
    rw [d.length_emit] at h2
    rw [hQ, List.length_append, List.length_singleton] at htake
    omega
  have harr : insertBy offsetOf b (arrange offsetOf Q) = d.emit := by
    rw [← arrange_concat, ← hQ]
    exact arrange_eq_of_perm (d.pairwise_emit hle) hperm
  rw [receive_stored, of_decide_eq_true hb, hstored, harr,
    if_pos ((complete_iff_eq hpos hle fun _ h => h).mpr rfl), emit_eq, List.map_map]
  congr 1
  have hdata : ((fun b => (fragOf b).data.1) ∘ d.buffer) = fun i => (Bytes.pad 1480 (chunk 1480 i d.data)).1 :=
    funext fun i => congrArg Subtype.val (d.data_buffer i)
  rw [hdata]
  refine flatten_chunks 1480 d.num d.data ?_
  unfold num numOfFragments payloadSize
  omega

/-- **Repeated fragments and delivery.** Every fragment of a datagram arrives, some
perhaps more than once, among arrivals of which no others have its key. It is
handed up exactly when it has 1 to 45 fragments and the first of them that come,
as many as there are, are all different. -/
theorem delivered_iff (d : Datagram) (as : List (Bytes 1500))
    (hkey : ∀ b ∈ as, keyOf b = d.key → b ∈ d.emit) (hall : ∀ b ∈ d.emit, b ∈ as) :
    d.Delivered as ↔ 0 < d.num ∧ d.num ≤ 45 ∧ ((as.filter fun b => keyOf b = d.key).take d.num).Nodup := by
  constructor
  · rintro ⟨pre, b, post, has, hb, hup⟩
    obtain ⟨n, hpos, hle, hlen⟩ := length_handedUp hup
    obtain rfl : n = d.num := by
      rw [List.length_append, List.length_replicate] at hlen
      have : d.data.length ≤ 1480 * d.num := by
        unfold num numOfFragments payloadSize
        omega
      omega
    refine ⟨hpos, hle, ?_⟩
    by_contra hrep
    rw [receive_none_of_repeated hpos hle hkey hrep has (d.keyOf_of_mem hb)] at hup
    exact absurd hup (by simp)
  · rintro ⟨hpos, hle, hn⟩
    exact delivered_of_nodup hpos hle hkey hall hn

/-- 1481 bytes from machine 0 to machine 1: two fragments. -/
def twoParts : Datagram := ⟨0, 7, List.replicate 1481 1, ippool 1⟩

theorem num_twoParts : twoParts.num = 2 := by
  unfold num twoParts
  rw [List.length_replicate]
  rfl

theorem emit_twoParts : twoParts.emit = [twoParts.buffer 0, twoParts.buffer 1] := by
  rw [emit_eq, num_twoParts]
  rfl

theorem filter_twoParts {as : List (Bytes 1500)} (h : ∀ b ∈ as, b ∈ twoParts.emit) :
    (as.filter fun b => keyOf b = twoParts.key) = as :=
  List.filter_eq_self.mpr fun b hb => decide_eq_true (twoParts.keyOf_of_mem (h b hb))

/-- The first fragment comes again after both have come. -/
theorem delivered_iff_twoParts :
    twoParts.Delivered [twoParts.buffer 0, twoParts.buffer 1, twoParts.buffer 0] := by
  have hmem : ∀ b ∈ [twoParts.buffer 0, twoParts.buffer 1, twoParts.buffer 0], b ∈ twoParts.emit := by
    simp [emit_twoParts]
  refine (delivered_iff twoParts _ (fun b hb _ => hmem b hb) (by simp [emit_twoParts])).mpr ?_
  refine ⟨by rw [num_twoParts]; decide, by rw [num_twoParts]; decide, ?_⟩
  have hn := twoParts.nodup_emit (by rw [num_twoParts]; decide)
  rw [emit_twoParts] at hn
  rw [filter_twoParts hmem, num_twoParts]
  simpa only [List.take_succ_cons, List.take_zero] using hn

/-- The first fragment comes twice before the second one: all fragments have come,
and nothing is handed up. -/
theorem repeated_fragment_blocks :
    (∀ b ∈ twoParts.emit, b ∈ [twoParts.buffer 0, twoParts.buffer 0, twoParts.buffer 1]) ∧
    (∀ b ∈ [twoParts.buffer 0, twoParts.buffer 0, twoParts.buffer 1], b ∈ twoParts.emit) ∧
    ∀ pre b post, [twoParts.buffer 0, twoParts.buffer 0, twoParts.buffer 1] = pre ++ b :: post →
      (receive (after emptyDict pre) b).2 = none := by
  have hmem : ∀ b ∈ [twoParts.buffer 0, twoParts.buffer 0, twoParts.buffer 1], b ∈ twoParts.emit := by
    simp [emit_twoParts]
  refine ⟨by simp [emit_twoParts], hmem, fun pre b post has => ?_⟩
  refine receive_none_of_repeated (by rw [num_twoParts]; decide) (by rw [num_twoParts]; decide)
    (fun c hc _ => hmem c hc) ?_ has (twoParts.keyOf_of_mem (hmem b (by rw [has]; simp)))
  rw [filter_twoParts hmem, num_twoParts]
  simp

end Datagram
end Nachos
