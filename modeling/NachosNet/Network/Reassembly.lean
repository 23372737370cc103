/-
# Reassembly at one host

Datagrams `ds` are sent to the host `dest`, and fragments of them arrive in
any order (`Arrival`). What the host stores and hands up is read off the
arrivals before: the fragments stored under a key are some of those that
arrived with it (`entryAfter_sub`), and as long as a datagram's fragments
arrive at most once and nothing else has their key, the entry holds exactly
the ones that arrived, and is gone once all have (`entryAfter_pieces`).

* `fragments_roundtrip`: with different keys, fragmentation and reassembly
  are inverse under any order, loss and duplication of the arrivals.
* `reassembly_one_datagram`: when keys repeat, a buffer still comes from
  fragments with one source and identification. Nothing ages the entries, so
  it comes from one datagram only if no datagram with the same key is left
  incomplete when another begins to arrive (`stale_fragment_mixes`).
-/
import NachosNet.Network.Sent

namespace Nachos
namespace IPLayer

open Basis

/-! ### One key -/

section Entry

variable {α : Type*} (g : α → Fragment)

theorem insertBy_map (a : α) (L : List α) :
    insertBy Fragment.offset (g a) (L.map g) = (insertBy (fun x => (g x).offset) a L).map g :=
  (map_insertBy g fun _ _ => ⟨Iff.rfl, Iff.rfl⟩).symm

theorem entryAfter_sub (L : List α) : ∃ L' : List α, (∀ x ∈ L', x ∈ L) ∧
    (entryAfter none (L.map g)).getD [] = L'.map g := by
  induction L using List.reverseRecOn with
  | nil => exact ⟨[], by simp, rfl⟩
  | append_singleton L a ih =>
    obtain ⟨L', hL', he⟩ := ih
    rw [List.map_append, List.map_singleton, entryAfter_concat, entryStep, he, insertBy_map]
    split
    · exact ⟨[], by simp, rfl⟩
    · refine ⟨insertBy (fun x => (g x).offset) a L', fun x hx => ?_, rfl⟩
      rcases mem_insertBy.mp hx with rfl | hx
      · simp
      · exact List.mem_append_left _ (hL' x hx)

/-- A buffer handed up is made of fragments that came, complete when put in
order. -/
theorem entryStep_sub (L : List α) (a : α) {buf : List Byte}
    (h : (entryStep (entryAfter none (L.map g)) (g a)).2 = some buf) :
    ∃ L' : List α, (∀ x ∈ L', x = a ∨ x ∈ L) ∧ complete (L'.map g) = true ∧
      buf = (L'.map fun x => (g x).data.1).flatten := by
  obtain ⟨L', hL', he⟩ := entryAfter_sub g L
  rw [entryStep, he, insertBy_map] at h
  split at h
  · rename_i hc
    refine ⟨_, fun x hx => ?_, hc, ?_⟩
    · rcases mem_insertBy.mp hx with rfl | hx
      · exact Or.inl rfl
      · exact Or.inr (hL' x hx)
    · simpa [List.map_map, Function.comp_def] using h.symm
  · simp at h

end Entry

end IPLayer

namespace Sent

open Basis IPLayer

variable (d : Sent)

/-- The fragments of `d` among `L`, in order. -/
def got (L : List ℕ) : List Fragment := ((List.range d.num).filter (· ∈ L)).map d.piece

theorem insertBy_got {L : List ℕ} {i : ℕ} (hi : i < d.num) (hn : i ∉ L) :
    insertBy Fragment.offset (d.piece i) (d.got L) = d.got (L ++ [i]) := by
  unfold got
  rw [← map_insertBy (k := id) d.piece (fun b _ => by simp [piece]),
    insertBy_filter_range (q := fun j => decide (j ∈ L ++ [i])) hi (by simpa using hn)]
  intro j _
  rw [Bool.eq_iff_iff]
  simp

theorem complete_got {L : List ℕ} : complete (d.got L) = true ↔ ∀ i < d.num, i ∈ L := by
  unfold got
  rw [complete_pieces_iff d (fun i hi => List.mem_range.mp (List.mem_filter.mp hi).1),
    filter_range_eq_range]
  simp

theorem entryStep_got {L : List ℕ} {i : ℕ} {e : Option (List Fragment)} (he : e.getD [] = d.got L)
    (hi : i < d.num) (hn : i ∉ L) : entryStep e (d.piece i) =
      if ∀ j < d.num, j ∈ L ++ [i] then
        (none, some (d.bytes ++ List.replicate (1480 * d.num - d.bytes.length) 0))
      else (some (d.got (L ++ [i])), none) := by
  rw [entryStep, he, insertBy_got d hi hn]
  by_cases hc : ∀ j < d.num, j ∈ L ++ [i]
  · have hall : (List.range d.num).filter (· ∈ L ++ [i]) = List.range d.num :=
      filter_range_eq_range.mpr (by simpa using hc)
    rw [if_pos (d.complete_got.mpr hc), if_pos hc, ← flatten_pieces]
    unfold got
    rw [hall, List.map_map]
    rfl
  · rw [if_neg (fun h => hc (d.complete_got.mp h)), if_neg hc]

theorem getD_of_missing {L : List ℕ} {i : ℕ} (hid : i < d.num) (hi : i ∉ L) :
    (if L = [] ∨ ∀ i < d.num, i ∈ L then none else some (d.got L)).getD [] = d.got L := by
  have hin : ¬ ∀ j < d.num, j ∈ L := fun h => hi (h i hid)
  by_cases h0 : L = []
  · simp [h0, got]
  · simp [h0, hin]

/-- The entry of a key under which only fragments of `d` came, each at most
once. -/
theorem entryAfter_pieces {L : List ℕ} (hn : L.Nodup) (hL : ∀ i ∈ L, i < d.num) :
    entryAfter none (L.map d.piece) =
      if L = [] ∨ ∀ i < d.num, i ∈ L then none else some (d.got L) := by
  induction L using List.reverseRecOn with
  | nil => simp
  | append_singleton L i ih =>
    obtain ⟨hnL, -, hdisj⟩ := List.nodup_append.mp hn
    have hi : i ∉ L := fun h => hdisj i h i (by simp) rfl
    have hid : i < d.num := hL i (by simp)
    have hget : (entryAfter none (L.map d.piece)).getD [] = d.got L := by
      rw [ih hnL fun j hj => hL j (List.mem_append_left _ hj)]
      exact d.getD_of_missing hid hi
    rw [List.map_append, List.map_singleton, entryAfter_concat, entryStep_got d hget hid hi]
    simp only [List.append_eq_nil_iff, List.cons_ne_nil, and_false, false_or]
    split <;> rfl

/-- The arrival of one more fragment under such a key hands the datagram up
exactly when no fragment is missing any more. -/
theorem entryStep_pieces {L : List ℕ} {i : ℕ} (hn : (L ++ [i]).Nodup) (hL : ∀ j ∈ L ++ [i], j < d.num) :
    (entryStep (entryAfter none (L.map d.piece)) (d.piece i)).2 =
      if ∀ j < d.num, j ∈ L ++ [i] then
        some (d.bytes ++ List.replicate (1480 * d.num - d.bytes.length) 0) else none := by
  obtain ⟨hnL, -, hdisj⟩ := List.nodup_append.mp hn
  have hi : i ∉ L := fun h => hdisj i h i (by simp) rfl
  have hid : i < d.num := hL i (by simp)
  have hget : (entryAfter none (L.map d.piece)).getD [] = d.got L := by
    rw [d.entryAfter_pieces hnL fun j hj => hL j (List.mem_append_left _ hj)]
    exact d.getD_of_missing hid hi
  rw [entryStep_got d hget hid hi]
  split <;> rfl

end Sent

namespace Reassembly

open Basis IPLayer

/-! ### Arrivals -/

section Arrivals

variable {ι : Type*} (ds : ι → Sent) (dest : Host)

/-- The arrival of one of the buffers emitted for the datagrams `ds`. -/
abbrev Arrival := Σ k, Fin ((ds k).emit dest).length

variable {ds dest}

def buffer (a : Arrival ds dest) : Bytes 1500 := ((ds a.1).emit dest).get a.2

/-- `fragmentDict` after the arrivals `as`, from an empty one. -/
def dictAfter (as : List (Arrival ds dest)) : FragmentDict := after emptyDict (as.map buffer)

/-- What `IP_Layer::Receive` hands up at the arrival `a`, after `as`. -/
def handedUp (as : List (Arrival ds dest)) (a : Arrival ds dest) : Option (List Byte) :=
  (receive (dictAfter as) (buffer a)).2

/-- The fragment of an arrival, as it is stored. -/
def pieceOf (a : Arrival ds dest) : Fragment := (ds a.1).piece a.2

theorem fragOf_buffer (a : Arrival ds dest) : fragOf (buffer a) = pieceOf a :=
  Sent.fragOf_get_emit _ _ _

theorem keyOf_buffer (a : Arrival ds dest) : keyOf (buffer a) = (ds a.1).key dest :=
  Sent.keyOf_get_emit _ _ _

theorem lt_num (a : Arrival ds dest) : a.2.1 < (ds a.1).num := by
  simpa [Sent.length_emit] using a.2.2

theorem dictAfter_key (as : List (Arrival ds dest)) (K : Text) : dictAfter as K =
    entryAfter none ((as.filter fun a => (ds a.1).key dest = K).map pieceOf) := by
  have hf : (fun b => decide (keyOf b = K)) ∘ buffer =
      fun a : Arrival ds dest => decide ((ds a.1).key dest = K) := by
    funext a
    simp [keyOf_buffer]
  have hm : fragOf ∘ buffer = (pieceOf : Arrival ds dest → Fragment) := funext fragOf_buffer
  rw [dictAfter, after_key, List.filter_map, List.map_map, hf, hm]
  rfl

theorem handedUp_eq (as : List (Arrival ds dest)) (a : Arrival ds dest) :
    handedUp as a = (entryStep (dictAfter as ((ds a.1).key dest)) (pieceOf a)).2 := by
  rw [handedUp, receive_snd, keyOf_buffer, fragOf_buffer]

theorem dictAfter_concat_self (as : List (Arrival ds dest)) (a : Arrival ds dest) :
    dictAfter (as ++ [a]) ((ds a.1).key dest) =
      (entryStep (dictAfter as ((ds a.1).key dest)) (pieceOf a)).1 := by
  rw [dictAfter, List.map_append, List.map_singleton, after_concat, ← keyOf_buffer, receive_fst_self,
    fragOf_buffer]
  rfl

theorem dictAfter_concat_ne (as : List (Arrival ds dest)) (a : Arrival ds dest) {K : Text}
    (h : K ≠ (ds a.1).key dest) : dictAfter (as ++ [a]) K = dictAfter as K := by
  rw [dictAfter, List.map_append, List.map_singleton, after_concat,
    receive_fst_ne _ _ (by rwa [keyOf_buffer])]
  rfl

theorem flatten_of_one {k : ι} {L : List (Arrival ds dest)} (hL : ∀ x ∈ L, x.1 = k)
    (hc : complete (L.map pieceOf) = true) : (L.map fun x => (pieceOf x).data.1).flatten =
      (ds k).bytes ++ List.replicate (1480 * (ds k).num - (ds k).bytes.length) 0 := by
  have hp : ∀ x ∈ L, pieceOf x = (ds k).piece x.2.1 := by
    rintro ⟨k', i⟩ hx
    obtain rfl : k' = k := hL _ hx
    rfl
  have hm : L.map pieceOf = (L.map fun x => x.2.1).map (ds k).piece := by
    rw [List.map_map]
    exact List.map_congr_left hp
  have hlt : ∀ i ∈ L.map (fun x => x.2.1), i < (ds k).num := by
    intro i hi
    obtain ⟨x, hx, rfl⟩ := List.mem_map.mp hi
    rw [← hL x hx]
    exact lt_num x
  rw [hm, Sent.complete_pieces_iff _ hlt] at hc
  rw [← Sent.flatten_pieces, ← hc, List.map_map]
  congr 1
  refine List.map_congr_left fun x hx => ?_
  rw [hp x hx]
  rfl

/-- The call of `putData` carries the datagram `d`: its port, its size and
exactly its bytes. -/
def Carries (c : UDPLayer.PutData) (d : Sent) : Prop :=
  c.port = d.destPort ∧ c.size = d.data.length ∧ c.data.take d.data.length = d.data

theorem carries_bytes (d : Sent) (z : List Byte) : Carries (UDPLayer.receive (d.bytes ++ z)) d := by
  obtain ⟨h1, h2, h3⟩ := d.receive_bytes z
  exact ⟨h1, h2, by rw [h3]; simp⟩

/-! ### The fragments of one datagram among the arrivals -/

/-- All fragments of datagram `k` are among the arrivals. -/
def All (k : ι) (as : List (Arrival ds dest)) : Prop := ∀ i, ⟨k, i⟩ ∈ as

theorem not_all_nil (k : ι) : ¬ All k ([] : List (Arrival ds dest)) := fun h =>
  absurd (h ⟨0, by rw [Sent.length_emit]; exact (ds k).num_pos⟩) (by simp)

variable [DecidableEq ι]

/-- The numbers of the fragments of datagram `k` among the arrivals. -/
def idx (k : ι) (as : List (Arrival ds dest)) : List ℕ :=
  as.filterMap fun a => if a.1 = k then some a.2.1 else none

theorem mem_idx {k : ι} {as : List (Arrival ds dest)} {i : ℕ} :
    i ∈ idx k as ↔ ∃ a ∈ as, a.1 = k ∧ a.2.1 = i := by
  unfold idx
  simp only [List.mem_filterMap, Option.ite_none_right_eq_some, Option.some.injEq]

theorem mem_idx_fin {k : ι} {as : List (Arrival ds dest)} {i : Fin ((ds k).emit dest).length} :
    i.1 ∈ idx k as ↔ ⟨k, i⟩ ∈ as := by
  rw [mem_idx]
  constructor
  · rintro ⟨⟨k', j⟩, ha, hk, hi⟩
    obtain rfl : k' = k := hk
    obtain rfl : j = i := Fin.ext hi
    exact ha
  · exact fun h => ⟨_, h, rfl, rfl⟩

theorem idx_lt {k : ι} {as : List (Arrival ds dest)} : ∀ i ∈ idx k as, i < (ds k).num := by
  intro i hi
  obtain ⟨a, -, rfl, rfl⟩ := mem_idx.mp hi
  exact lt_num a

theorem idx_append (k : ι) (as bs : List (Arrival ds dest)) : idx k (as ++ bs) = idx k as ++ idx k bs :=
  List.filterMap_append

theorem idx_eq {k : ι} {a : Arrival ds dest} (h : a.1 = k) : idx k [a] = [a.2.1] := by simp [idx, h]

theorem idx_ne {k : ι} {a : Arrival ds dest} (h : a.1 ≠ k) : idx k [a] = [] := by simp [idx, h]

theorem nodup_idx {k : ι} : ∀ {as : List (Arrival ds dest)}, (∀ i, as.count ⟨k, i⟩ ≤ 1) →
    (idx k as).Nodup
  | [], _ => by simp [idx]
  | a :: as, h => by
    have htl : ∀ i, as.count ⟨k, i⟩ ≤ 1 := fun i => le_trans List.count_le_count_cons (h i)
    rw [← List.singleton_append, idx_append]
    by_cases hk : a.1 = k
    · obtain ⟨k', i⟩ := a
      obtain rfl : k' = k := hk
      have hi : (⟨k', i⟩ : Arrival ds dest) ∉ as := by
        have := h i
        rw [List.count_cons_self] at this
        exact List.count_eq_zero.mp (by omega)
      rw [idx_eq (k := k') rfl, List.singleton_append, List.nodup_cons]
      exact ⟨fun hm => hi (mem_idx_fin.mp hm), nodup_idx htl⟩
    · rw [idx_ne hk, List.nil_append]
      exact nodup_idx htl

theorem all_iff {k : ι} {as : List (Arrival ds dest)} : All k as ↔ ∀ i < (ds k).num, i ∈ idx k as := by
  constructor
  · intro h i hi
    have hi' : i < ((ds k).emit dest).length := by rwa [Sent.length_emit]
    exact mem_idx_fin.mpr (h ⟨i, hi'⟩)
  · intro h i
    exact mem_idx_fin.mp (h i.1 (by simpa [Sent.length_emit] using i.2))

theorem exists_last {k : ι} {as : List (Arrival ds dest)} (h : All k as) :
    ∃ pre a post, as = pre ++ a :: post ∧ a.1 = k ∧ All k (pre ++ [a]) ∧ ∀ b ∈ post, b.1 ≠ k := by
  induction as using List.reverseRecOn with
  | nil => exact absurd h (not_all_nil k)
  | append_singleton as a ih =>
    by_cases hk : a.1 = k
    · exact ⟨as, a, [], rfl, hk, h, by simp⟩
    · have has : All k as := by
        intro i
        rcases List.mem_append.mp (h i) with hm | hm
        · exact hm
        · rw [List.mem_singleton] at hm
          exact absurd (hm ▸ rfl) hk
      obtain ⟨pre, b, post, rfl, hb, hall, hpost⟩ := ih has
      refine ⟨pre, b, post ++ [a], by simp, hb, hall, fun c hc => ?_⟩
      rcases List.mem_append.mp hc with hc | hc
      · exact hpost c hc
      · rw [List.mem_singleton.mp hc]
        exact hk

theorem map_pieceOf_filter (k : ι) : ∀ as : List (Arrival ds dest),
    (as.filter fun a => a.1 = k).map pieceOf = (idx k as).map (ds k).piece
  | [] => rfl
  | a :: as => by
    have ih := map_pieceOf_filter k as
    rw [← List.singleton_append, idx_append, List.filter_append, List.map_append, List.map_append, ih]
    congr 1
    by_cases hk : a.1 = k
    · obtain ⟨k', i⟩ := a
      obtain rfl : k' = k := hk
      simp [idx, pieceOf]
    · simp [idx, hk]

/-- The arrivals of `k` hand it up exactly when none of its fragments is
missing any more, if their key's entry was made by them alone. -/
theorem handedUp_of_entry {as : List (Arrival ds dest)} {a : Arrival ds dest}
    (he : dictAfter as ((ds a.1).key dest) = entryAfter none ((idx a.1 as).map (ds a.1).piece))
    (hn : (idx a.1 (as ++ [a])).Nodup) : handedUp as a =
      if ∀ j < (ds a.1).num, j ∈ idx a.1 (as ++ [a]) then
        some ((ds a.1).bytes ++ List.replicate (1480 * (ds a.1).num - (ds a.1).bytes.length) 0)
      else none := by
  have hidx : idx a.1 (as ++ [a]) = idx a.1 as ++ [a.2.1] := by rw [idx_append, idx_eq rfl]
  have hlt : ∀ j ∈ idx a.1 as ++ [a.2.1], j < (ds a.1).num := by
    rw [← hidx]
    exact idx_lt
  rw [hidx] at hn ⊢
  rw [handedUp_eq, he]
  exact (ds a.1).entryStep_pieces hn hlt

end Arrivals

/-! ### Different keys -/

section Distinct

variable {ι : Type*} [DecidableEq ι] {ds : ι → Sent} {dest : Host}

theorem dictAfter_of_distinct
    (hd : ∀ k k', ippool (ds k).host = ippool (ds k').host ∧
      (ds k).identification = (ds k').identification → k = k')
    (as : List (Arrival ds dest)) (k : ι) :
    dictAfter as ((ds k).key dest) = entryAfter none ((idx k as).map (ds k).piece) := by
  rw [dictAfter_key, ← map_pieceOf_filter]
  congr 2
  refine List.filter_congr fun a _ => ?_
  rw [decide_eq_decide, Sent.key_eq_iff]
  exact ⟨hd _ _, fun h => by rw [h]; exact ⟨rfl, rfl⟩⟩

omit [DecidableEq ι] in
theorem carries_of_handedUp
    (hd : ∀ k k', ippool (ds k).host = ippool (ds k').host ∧
      (ds k).identification = (ds k').identification → k = k')
    {pre : List (Arrival ds dest)} {a : Arrival ds dest} {buf : List Byte} (hbuf : handedUp pre a = some buf) :
    Carries (UDPLayer.receive buf) (ds a.1) := by
  rw [handedUp_eq, dictAfter_key] at hbuf
  obtain ⟨L, hL, hc, rfl⟩ := entryStep_sub pieceOf _ a hbuf
  have hone : ∀ x ∈ L, x.1 = a.1 := by
    intro x hx
    rcases hL x hx with rfl | hx
    · rfl
    · have hkey := (List.mem_filter.mp hx).2
      rw [decide_eq_true_eq, Sent.key_eq_iff] at hkey
      exact hd _ _ hkey
  rw [flatten_of_one hone hc]
  exact carries_bytes _ _

/-- Up to another arrival of the datagram, its last fragment `a` has not come. -/
theorem notMem_of_other_arrival {as pre post pre' post' : List (Arrival ds dest)} {a a' : Arrival ds dest}
    (hcount : as.count a = 1) (has : as = pre ++ a :: post) (hpost : ∀ b ∈ post, b.1 ≠ a.1)
    (has' : as = pre' ++ a' :: post') (hk : a'.1 = a.1) (hne : pre' ≠ pre) : a ∉ pre' ++ [a'] := by
  intro hmem
  have heq := has.symm.trans has'
  rcases List.append_eq_append_iff.mp heq with ⟨c, hc1, hc2⟩ | ⟨c, hc1, hc2⟩
  · -- the arrival `a'` comes after `a`, the last one of its datagram
    cases c with
    | nil => exact hne (by simp [hc1])
    | cons x c =>
      simp only [List.cons_append, List.cons.injEq] at hc2
      exact hpost a' (by rw [hc2.2]; simp) hk
  · -- the arrival `a'` comes before `a`, so `a` would arrive twice
    cases c with
    | nil => exact hne (by simp [hc1])
    | cons x c =>
      simp only [List.cons_append, List.cons.injEq] at hc2
      have hin : a ∈ pre := by
        rw [hc1, ← hc2.1]
        rcases List.mem_append.mp hmem with h | h
        · exact List.mem_append_left _ h
        · exact List.mem_append_right _ (by rw [List.mem_singleton.mp h]; exact List.mem_cons_self)
      have htwice : 0 < pre.count a := List.count_pos_iff.mpr hin
      rw [has, List.count_append, List.count_cons_self] at hcount
      omega

/-- **Fragmentation and reassembly are inverse.** Datagrams with different
pairs of source address and identification are sent to `dest`, and fragments
of them arrive in any order, some missing and some repeated. Every buffer
handed up carries the datagram of the fragment that completed it. A datagram
each of whose fragments arrives exactly once is handed up at the arrival of
the last missing one and at no other arrival of its fragments, and has no
entry in `fragmentDict` from then on. -/
theorem fragments_roundtrip (ds : ι → Sent) (dest : Host)
    (hd : ∀ k k', ippool (ds k).host = ippool (ds k').host ∧
      (ds k).identification = (ds k').identification → k = k')
    (as : List (Arrival ds dest)) :
    (∀ pre a post buf, as = pre ++ a :: post → handedUp pre a = some buf →
      Carries (UDPLayer.receive buf) (ds a.1)) ∧
    ∀ k, (∀ i, as.count ⟨k, i⟩ = 1) →
      ∃ pre a post, as = pre ++ a :: post ∧ a.1 = k ∧ All k (pre ++ [a]) ∧
        (∃ buf, handedUp pre a = some buf ∧ Carries (UDPLayer.receive buf) (ds k)) ∧
        (∀ pre' a' post', as = pre' ++ a' :: post' → a'.1 = k → pre' ≠ pre → handedUp pre' a' = none) ∧
        ∀ post', post' <+: post → dictAfter (pre ++ a :: post') ((ds k).key dest) = none := by
  constructor
  · exact fun pre a post buf _ hbuf => carries_of_handedUp hd hbuf
  · intro k hcount
    have hall : All k as := fun i => List.count_pos_iff.mp (by rw [hcount i]; exact Nat.one_pos)
    have hnd : (idx k as).Nodup := nodup_idx fun i => (hcount i).le
    -- the fragments of `k` in a part of the run are different, as in all of it
    have hpre : ∀ bs cs, as = bs ++ cs → (idx k bs).Nodup := by
      intro bs cs h
      rw [h, idx_append] at hnd
      exact (List.nodup_append.mp hnd).1
    obtain ⟨pre, a, post, has, rfl, hlast, hpost⟩ := exists_last hall
    have hentry : ∀ (bs : List (Arrival ds dest)) (k : ι), dictAfter bs ((ds k).key dest) =
        entryAfter none ((idx k bs).map (ds k).piece) := dictAfter_of_distinct hd
    have hup := handedUp_of_entry (hentry pre a.1) (hpre (pre ++ [a]) post (by simp [has]))
    rw [if_pos (all_iff.mp hlast)] at hup
    refine ⟨pre, a, post, has, rfl, hlast, ⟨_, hup, carries_bytes _ _⟩, ?_, ?_⟩
    · intro pre' a' post' has' hk hne
      rw [handedUp_of_entry (hentry pre' a'.1) (by
        rw [hk]
        exact hpre (pre' ++ [a']) post' (by simp [has'])), if_neg]
      intro hall'
      exact notMem_of_other_arrival (hcount a.2) has hpost has' hk hne (all_iff.mpr (hk ▸ hall') a.2)
    · rintro post' ⟨post'', rfl⟩
      have hall' : All a.1 (pre ++ a :: post') := by
        intro i
        have := hlast i
        rw [List.append_cons]
        exact List.mem_append_left _ this
      rw [hentry, Sent.entryAfter_pieces _ (hpre _ post'' (by simp [has])) idx_lt,
        if_pos (Or.inr (all_iff.mp hall'))]

/-- A message of `n` bytes `b` to port 6000. -/
def message (host : Host) (rand n : ℕ) (b : Byte) (h : n ≤ 65527) : Sent :=
  ⟨host, rand, 0, List.replicate n b, 5000, 6000, by simpa using h, by decide, by decide⟩

theorem num_message (host : Host) (rand n : ℕ) (b : Byte) (h : n ≤ 65527) :
    (message host rand n b h).num = (n + 1487) / 1480 := by
  rw [Sent.num, Sent.length_bytes]
  simp [message, numOfFragments, payloadSize]

theorem length_emit_message (host : Host) (rand n : ℕ) (b : Byte) (h : n ≤ 65527) (dest : Host) :
    ((message host rand n b h).emit dest).length = (n + 1487) / 1480 := by
  rw [Sent.length_emit, num_message]

/-- Two messages with one identification, of two fragments from machine 1
and of one from machine 2. -/
def twoSent : Bool → Sent
  | true => message 1 7 1500 1 (by decide)
  | false => message 2 7 3 2 (by decide)

/-- The fragments of `twoSent`, those of the first message in reverse. -/
def twoArrivals : List (Arrival twoSent 0) :=
  [⟨true, 1, by simp [twoSent, length_emit_message]⟩, ⟨false, 0, by simp [twoSent, length_emit_message]⟩,
    ⟨true, 0, by simp [twoSent, length_emit_message]⟩]

theorem fragments_roundtrip_two : ∃ pre a post, twoArrivals = pre ++ a :: post ∧ a.1 = true ∧
    All true (pre ++ [a]) ∧
    (∃ buf, handedUp pre a = some buf ∧ Carries (UDPLayer.receive buf) (twoSent true)) ∧
    (∀ pre' a' post', twoArrivals = pre' ++ a' :: post' → a'.1 = true → pre' ≠ pre →
      handedUp pre' a' = none) ∧
    ∀ post', post' <+: post → dictAfter (pre ++ a :: post') ((twoSent true).key 0) = none := by
  refine (fragments_roundtrip twoSent 0 (by decide) twoArrivals).2 true fun i => ?_
  have hi : i.1 < 2 := by simpa [twoSent, length_emit_message] using i.2
  rcases i with ⟨i, hlt⟩
  have h01 : i = 0 ∨ i = 1 := by
    simp only at hi
    omega
  rcases h01 with rfl | rfl <;> rfl

end Distinct

/-! ### Repeated keys -/

section Repeated

variable {ι : Type*} (ds : ι → Sent) (dest : Host)

/-- The buffer is made of the payloads of these fragments. -/
def MadeOf {ds : ι → Sent} {dest : Host} (buf : List Byte) (L : List (Arrival ds dest)) : Prop :=
  buf = (L.map fun a => (IPFragment.ofBytes (buffer a)).payload.1).flatten

/-- The buffer consists of fragments of one single datagram. -/
def OfOne (buf : List Byte) : Prop :=
  ∃ k, ∃ L : List (Arrival ds dest), (∀ a ∈ L, a.1 = k) ∧ MadeOf buf L

/-- Whenever a fragment arrives, no other datagram with its source and
identification has arrived in part only. -/
def Separate (as : List (Arrival ds dest)) : Prop :=
  ∀ pre a post, as = pre ++ a :: post → ∀ k, k ≠ a.1 → ippool (ds k).host = ippool (ds a.1).host →
    (ds k).identification = (ds a.1).identification → (∃ i, ⟨k, i⟩ ∈ pre) → All k pre

variable {ds dest}

theorem Separate.init {as bs : List (Arrival ds dest)} (h : Separate ds dest (as ++ bs)) :
    Separate ds dest as :=
  fun pre a post has => h pre a (post ++ bs) (by rw [has]; simp)

theorem payload_buffer (a : Arrival ds dest) :
    (IPFragment.ofBytes (buffer a)).payload = (pieceOf a).data :=
  congrArg Fragment.data (fragOf_buffer a)

variable [DecidableEq ι]

theorem nodup_idx_of_nodup {as : List (Arrival ds dest)} (hn : as.Nodup) (k : ι) : (idx k as).Nodup :=
  nodup_idx fun _ => List.nodup_iff_count_le_one.mp hn _

/-- In a separate run the entry of a key is made by the arrivals of a single
datagram, if no other with that key is there in part. The induction is on
the arrivals; a datagram that completes leaves no entry behind. -/
theorem dictAfter_of_separate {as : List (Arrival ds dest)} (hn : as.Nodup) (hs : Separate ds dest as) :
    ∀ k, (∀ k', k' ≠ k → (ds k').key dest = (ds k).key dest → (∃ i, ⟨k', i⟩ ∈ as) → All k' as) →
      dictAfter as ((ds k).key dest) = entryAfter none ((idx k as).map (ds k).piece) := by
  induction as using List.reverseRecOn with
  | nil => exact fun k _ => rfl
  | append_singleton as a ih =>
    have hna : as.Nodup := (List.nodup_append.mp hn).1
    specialize ih hna hs.init
    -- what `Separate` says of the arrival `a`
    have ha : ∀ k', k' ≠ a.1 → (ds k').key dest = (ds a.1).key dest → (∃ i, ⟨k', i⟩ ∈ as) → All k' as := by
      intro k' hne hkey
      obtain ⟨h1, h2⟩ := (Sent.key_eq_iff _ _ _).mp hkey
      exact hs as a [] rfl k' hne h1 h2
    have hself : dictAfter (as ++ [a]) ((ds a.1).key dest) =
        entryAfter none ((idx a.1 (as ++ [a])).map (ds a.1).piece) := by
      have hidx : idx a.1 (as ++ [a]) = idx a.1 as ++ [a.2.1] := by rw [idx_append, idx_eq rfl]
      rw [dictAfter_concat_self, ih a.1 ha, hidx, List.map_append, List.map_singleton, entryAfter_concat]
      rfl
    intro k hk
    by_cases hkey : (ds k).key dest = (ds a.1).key dest
    · by_cases hka : a.1 = k
      · subst hka
        exact hself
      · -- `a` belongs to another datagram: it completes it
        have hall : All a.1 (as ++ [a]) := hk a.1 hka hkey.symm ⟨a.2, by simp⟩
        have hnone : entryAfter none ((idx a.1 (as ++ [a])).map (ds a.1).piece) = none := by
          rw [Sent.entryAfter_pieces _ (nodup_idx_of_nodup hn _) idx_lt, if_pos (Or.inr (all_iff.mp hall))]
        have hdict : dictAfter (as ++ [a]) ((ds a.1).key dest) = none := by
          rw [hself, hnone]
        rw [hkey, hdict, idx_append, idx_ne hka, List.append_nil,
          Sent.entryAfter_pieces _ (nodup_idx_of_nodup hna _) idx_lt, if_pos]
        by_cases h0 : idx k as = []
        · exact Or.inl h0
        · obtain ⟨i, hi⟩ := List.exists_mem_of_ne_nil _ h0
          obtain ⟨⟨k', j⟩, hb, rfl, -⟩ := mem_idx.mp hi
          exact Or.inr (all_iff.mp (ha _ (fun h => hka h.symm) hkey ⟨j, hb⟩))
    · have hka : a.1 ≠ k := fun h => hkey (by rw [h])
      rw [dictAfter_concat_ne _ _ hkey, idx_append, idx_ne hka, List.append_nil]
      refine ih k fun k' hne hkk ⟨i, hi⟩ j => ?_
      rcases List.mem_append.mp (hk k' hne hkk ⟨i, List.mem_append_left _ hi⟩ j) with h | h
      · exact h
      · rw [List.mem_singleton] at h
        exact absurd (by rw [← hkk, ← h]) hkey

theorem handedUp_of_separate {as : List (Arrival ds dest)} {a : Arrival ds dest} (hn : (as ++ [a]).Nodup)
    (hs : Separate ds dest (as ++ [a])) : handedUp as a =
      if ∀ j < (ds a.1).num, j ∈ idx a.1 (as ++ [a]) then
        some ((ds a.1).bytes ++ List.replicate (1480 * (ds a.1).num - (ds a.1).bytes.length) 0)
      else none := by
  refine handedUp_of_entry (dictAfter_of_separate (List.nodup_append.mp hn).1 hs.init a.1 ?_)
    (nodup_idx_of_nodup hn _)
  intro k' hne hkey
  obtain ⟨h1, h2⟩ := (Sent.key_eq_iff _ _ _).mp hkey
  exact hs as a [] rfl k' hne h1 h2

/-- **A buffer comes from one source and identification.** Datagrams with
any identifications are sent to `dest`, fragments are lost and the others
arrive in any order, each at most once. A buffer handed up is made of arrived
fragments with one source address and identification. If the run is
separate, they are fragments of one single datagram. -/
theorem reassembly_one_datagram (ds : ι → Sent) (dest : Host) (as : List (Arrival ds dest)) (hn : as.Nodup) :
    ∀ pre a post buf, as = pre ++ a :: post → handedUp pre a = some buf →
      (∃ L : List (Arrival ds dest), MadeOf buf L ∧ ∀ x ∈ L, x ∈ pre ++ [a] ∧
        ippool (ds x.1).host = ippool (ds a.1).host ∧
        (ds x.1).identification = (ds a.1).identification) ∧
      (Separate ds dest as → OfOne ds dest buf ∧ Carries (UDPLayer.receive buf) (ds a.1)) := by
  intro pre a post buf has hup
  constructor
  · rw [handedUp_eq, dictAfter_key] at hup
    obtain ⟨L, hL, -, rfl⟩ := entryStep_sub pieceOf _ a hup
    refine ⟨L, ?_, fun x hx => ?_⟩
    · unfold MadeOf
      simp only [payload_buffer]
    · rcases hL x hx with rfl | hx
      · exact ⟨by simp, rfl, rfl⟩
      · obtain ⟨hmem, hkey⟩ := List.mem_filter.mp hx
        rw [decide_eq_true_eq, Sent.key_eq_iff] at hkey
        exact ⟨List.mem_append_left _ hmem, hkey⟩
  · intro hs
    rw [has, List.append_cons] at hn hs
    rw [handedUp_of_separate (List.nodup_append.mp hn).1 hs.init] at hup
    split at hup
    · obtain rfl := Option.some.inj hup
      refine ⟨⟨a.1, (List.finRange _).map fun i => ⟨a.1, i⟩, by simp, ?_⟩, carries_bytes _ _⟩
      unfold MadeOf
      rw [← Sent.flatten_pieces, ← Sent.length_emit _ dest, ← List.map_coe_finRange_eq_range]
      simp only [List.map_map, Function.comp_def, payload_buffer]
      rfl
    · simp at hup

end Repeated

/-- Two messages of one fragment, sent by machine 1 with one identification. -/
def repeatSent (b : Bool) : Sent := message 1 7 3 (if b then 2 else 1) (by decide)

/-- The fragment of one of them. -/
def repeatArrival (b : Bool) : Arrival repeatSent 0 := ⟨b, 0, by simp [repeatSent, length_emit_message]⟩

theorem all_repeat (b : Bool) : All b [repeatArrival b] := by
  intro i
  have hi : i.1 < 1 := by simpa [repeatSent, length_emit_message] using i.2
  rw [List.mem_singleton]
  exact congrArg (Sigma.mk b) (Fin.ext (Nat.lt_one_iff.mp hi))

theorem separate_repeat : Separate repeatSent 0 [repeatArrival false, repeatArrival true] := by
  rintro pre a post h k hk - - ⟨i, hi⟩
  rcases pre with _ | ⟨x, _ | ⟨y, pre⟩⟩
  · simp at hi
  · simp only [List.cons_append, List.nil_append, List.cons.injEq] at h
    obtain ⟨rfl, rfl, -⟩ := h
    cases k with
    | false => exact all_repeat false
    | true => exact absurd rfl hk
  · simp at h

theorem handedUp_repeat : ∃ buf, handedUp [repeatArrival false] (repeatArrival true) = some buf := by
  refine ⟨_, (handedUp_of_separate (by decide) separate_repeat).trans (if_pos ?_)⟩
  exact all_iff.mp fun i => List.mem_append_right _ (all_repeat true i)

theorem reassembly_one_datagram_repeat :
    ∃ buf, handedUp [repeatArrival false] (repeatArrival true) = some buf ∧
      OfOne repeatSent 0 buf ∧ Carries (UDPLayer.receive buf) (repeatSent true) := by
  obtain ⟨buf, hbuf⟩ := handedUp_repeat
  exact ⟨buf, hbuf, (reassembly_one_datagram repeatSent 0 [repeatArrival false, repeatArrival true] (by decide)
    [repeatArrival false] (repeatArrival true) [] buf rfl hbuf).2 separate_repeat⟩

/-- The message's byte is in each of its full fragments. -/
theorem mem_piece_message (host : Host) (rand : ℕ) {n i : ℕ} (b : Byte) (h : n ≤ 65527) (hi : 1480 * i < n) :
    b ∈ ((message host rand n b h).piece i).data.1 := by
  have hdrop : (message host rand n b h).bytes.drop 8 = List.replicate n b := by
    rw [Sent.bytes_eq]
    rfl
  have hget : (chunk 1480 i (message host rand n b h).bytes)[8]? = some b := by
    unfold chunk
    rw [List.getElem?_take_of_lt (by decide), List.getElem?_drop, Nat.add_comm, ← List.getElem?_drop, hdrop,
      List.getElem?_replicate_of_lt hi]
  show b ∈ (Bytes.pad 1480 _).1
  rw [Bytes.pad_of_le (length_chunk_le _ _ _)]
  exact List.mem_append_left _ (List.mem_of_getElem? hget)

theorem mem_bytes_of_mem_piece {d : Sent} {i : ℕ} {x : Byte} (h : x ∈ (d.piece i).data.1) (h0 : x ≠ 0) :
    x ∈ d.bytes := by
  unfold Sent.piece at h
  rw [Bytes.pad_of_le (length_chunk_le _ _ _)] at h
  rcases List.mem_append.mp h with h | h
  · exact List.mem_of_mem_drop (List.mem_of_mem_take h)
  · exact absurd (List.eq_of_mem_replicate h) h0

theorem mem_bytes_message {host : Host} {rand n : ℕ} {b x : Byte} (h : n ≤ 65527)
    (hx : x ∈ (message host rand n b h).bytes) :
    x ∈ le16 5000 ++ (le16 6000 ++ (le16 (BitVec.ofNat 16 (n + 8)) ++ le16 0)) ∨ x = b := by
  rw [Sent.bytes_eq] at hx
  simp only [message, List.length_replicate, ← List.append_assoc] at hx ⊢
  rcases List.mem_append.mp hx with hx | hx
  · exact Or.inl hx
  · exact Or.inr (List.eq_of_mem_replicate hx)

/-- Two messages of two fragments, sent by machine 1 with one identification. -/
def staleSent : Bool → Sent
  | false => message 1 7 2000 1 (by decide)
  | true => message 1 7 2000 2 (by decide)

/-- The last fragment of the first message; its other one is lost. -/
def staleLast : Arrival staleSent 0 := ⟨false, 1, by simp [staleSent, length_emit_message]⟩

/-- The first fragment of the second message. -/
def nextFirst : Arrival staleSent 0 := ⟨true, 0, by simp [staleSent, length_emit_message]⟩

theorem entryStep_pair {f g : Fragment} (hf : f.offset = 0) (hg : g.offset = 185) (hmf : g.mf = false) :
    (entryStep (entryAfter none [g]) f).2 = some (f.data.1 ++ g.data.1) := by
  simp [entryAfter, entryStep, complete, inOrder, insertBy, hf, hg, hmf]

theorem handedUp_stale : handedUp [staleLast] nextFirst =
    some ((pieceOf nextFirst).data.1 ++ (pieceOf staleLast).data.1) := by
  have hkey : (staleSent staleLast.1).key 0 = (staleSent nextFirst.1).key 0 :=
    (Sent.key_eq_iff _ _ _).mpr ⟨rfl, rfl⟩
  rw [handedUp_eq, dictAfter_key]
  simp only [List.filter_cons, List.filter_nil, hkey, decide_true, if_true, List.map_cons, List.map_nil]
  exact entryStep_pair rfl rfl (by simp [pieceOf, Sent.piece, staleLast, staleSent, num_message])

/-- A stale fragment completes a later message: what is handed up has bytes
of both. -/
theorem stale_fragment_mixes : [staleLast, nextFirst].Nodup ∧
    ∃ buf, handedUp [staleLast] nextFirst = some buf ∧ ¬ OfOne staleSent 0 buf := by
  refine ⟨by decide, _, handedUp_stale, ?_⟩
  rintro ⟨k, L, hL, hbuf⟩
  have hfrom : ∀ x ∈ (pieceOf nextFirst).data.1 ++ (pieceOf staleLast).data.1, x ≠ 0 →
      x ∈ (staleSent k).bytes := by
    intro x hx h0
    rw [hbuf] at hx
    obtain ⟨l, hl, hx⟩ := List.mem_flatten.mp hx
    obtain ⟨a, ha, rfl⟩ := List.mem_map.mp hl
    rw [payload_buffer] at hx
    rw [← hL a ha]
    exact mem_bytes_of_mem_piece hx h0
  have h1 : 1 ∈ (staleSent k).bytes :=
    hfrom 1 (List.mem_append_right _ (mem_piece_message 1 7 1 (by decide) (by decide))) (by decide)
  have h2 : 2 ∈ (staleSent k).bytes :=
    hfrom 2 (List.mem_append_left _ (mem_piece_message 1 7 2 (by decide) (by decide))) (by decide)
  cases k with
  | false => exact absurd (mem_bytes_message (by decide) h2) (by decide)
  | true => exact absurd (mem_bytes_message (by decide) h1) (by decide)

end Reassembly

end Nachos
