/-
# Messages from machine to machine

All layers together: threads on the four machines are in `UDP_Layer::Send`, each handing the
fragments of its datagram to the link layer one after the other; the frames go through the switch to
the cards (`Lan`); the thread `Ethernet_Layer::ethrecv` of each machine takes them from the queue and
gives them to `IP_Layer::Receive`, which calls `putData` with what is complete. All of these steps
interleave freely, so that fragments of different datagrams mix on the way.

What is in the queue of a machine is, up to its order, part of the fragments that were sent to it
(`Lan.subperm_messages`), and each was sent once; `calls_of_arrivals` says what `putData` is called
with for any such arrivals. So each datagram is delivered at its destination once and whole, and
nowhere else, and nothing that was sent stays on the way (`datagrams_delivered_once`).

Key definitions: `Inbox`, `Posting`, `Internet`, `Internet.step`, `Internet.Paced`, `Internet.Quiet`.
-/
import NachosNet.Network.Lan
import NachosNet.Network.Reassembly
import Mathlib.Algebra.Order.BigOperators.Group.Finset

namespace Nachos

open Basis IPLayer

/-! ### One machine's inbox -/

/-- What `ethrecv` and the layers above it keep: `fragmentDict` and the calls of `putData` so far. -/
structure Inbox where
  dict : FragmentDict
  calls : List UDPLayer.PutData

namespace Inbox

def empty : Inbox := ⟨emptyDict, []⟩

/-- `IP_Layer::Receive`, up to the call of `putData` if there is one. -/
def receive (b : Inbox) (data : Bytes 1500) : Inbox :=
  ⟨(IPLayer.receive b.dict data).1, b.calls ++ ((IPLayer.receive b.dict data).2.map UDPLayer.receive).toList⟩

theorem dict_foldl (bs : List (Bytes 1500)) (b : Inbox) : (bs.foldl receive b).dict = after b.dict bs := by
  induction bs generalizing b with
  | nil => rfl
  | cons x bs ih => exact ih (b.receive x)

end Inbox

section Arrivals

open Reassembly

variable {ι : Type*} [DecidableEq ι] {ds : ι → Sent} {dest : Host}

omit [DecidableEq ι] in
theorem all_concat_of_ne {k : ι} {as : List (Arrival ds dest)} {a : Arrival ds dest} (h : a.1 ≠ k) :
    All k (as ++ [a]) ↔ All k as := by
  refine ⟨fun hall i => ?_, fun hall i => List.mem_append_left _ (hall i)⟩
  rcases List.mem_append.mp (hall i) with hm | hm
  · exact hm
  · rw [List.mem_singleton] at hm
    exact absurd (hm ▸ rfl) h

/-- The calls of `putData` for arrivals of different fragments: the datagrams all of whose fragments
are among them, each once. -/
theorem calls_of_arrivals (hd : ∀ k k', ippool (ds k).host = ippool (ds k').host ∧
      (ds k).identification = (ds k').identification → k = k')
    (as : List (Arrival ds dest)) (hn : as.Nodup) :
    ∃ ks : List ι, ks.Nodup ∧ (∀ k, k ∈ ks ↔ All k as) ∧
      List.Forall₂ (fun c k => Carries c (ds k)) ((as.map buffer).foldl Inbox.receive .empty).calls ks := by
  induction as using List.reverseRecOn with
  | nil => exact ⟨[], List.nodup_nil, fun k => by simpa using not_all_nil k, .nil⟩
  | append_singleton as a ih =>
    obtain ⟨hna, -, hdisj⟩ := List.nodup_append.mp hn
    have ha : a ∉ as := fun h => hdisj a h a (List.mem_singleton_self a) rfl
    obtain ⟨ks, hks, hmem, hcalls⟩ := ih hna
    -- what is handed up at `a`
    have hdict : ((as.map buffer).foldl Inbox.receive .empty).dict = dictAfter as := Inbox.dict_foldl _ _
    have hup : (IPLayer.receive ((as.map buffer).foldl Inbox.receive .empty).dict (buffer a)).2 = handedUp as a := by
      rw [hdict, handedUp]
    have hlast := handedUp_of_entry (dictAfter_of_distinct hd as a.1) (nodup_idx_of_nodup hn a.1)
    rw [List.map_append, List.map_singleton, List.foldl_append]
    simp only [List.foldl_cons, List.foldl_nil, Inbox.receive, hup]
    by_cases hall : All a.1 (as ++ [a])
    · rw [hlast, if_pos (all_iff.mp hall)]
      have hnot : a.1 ∉ ks := fun h => ha ((hmem a.1).mp h a.2)
      refine ⟨ks ++ [a.1], ?_, fun k => ?_, List.rel_append hcalls (.cons (carries_bytes _ _) .nil)⟩
      · exact List.nodup_append.mpr ⟨hks, List.nodup_singleton _, fun k hk k' hk' => by
          rw [List.mem_singleton.mp hk']
          rintro rfl
          exact hnot hk⟩
      · rw [List.mem_append, List.mem_singleton, hmem]
        by_cases hk : a.1 = k
        · subst hk
          exact iff_of_true (Or.inr rfl) hall
        · rw [all_concat_of_ne hk, or_iff_left (Ne.symm hk)]
    · rw [hlast, if_neg fun h => hall (all_iff.mpr h)]
      refine ⟨ks, hks, fun k => ?_, by simpa using hcalls⟩
      rw [hmem]
      by_cases hk : a.1 = k
      · subst hk
        exact iff_of_false (fun h => hall fun i => List.mem_append_left _ (h i)) hall
      · exact (all_concat_of_ne hk).symm

end Arrivals

/-! ### The machines -/

/-- A call of `UDP_Layer::Send` on the machine at port `src`, for the machine at port `dest`. -/
structure Posting where
  src : Port
  dest : Port
  sent : Sent
  host_eq : sent.host = src.host

namespace Posting

/-- The port of a machine that has one. -/
def portOf (h : Host) : Option Port := if hlt : h.1 < 4 then some ⟨h.1, hlt⟩ else none

/-- The calls of `Ethernet_Layer::Send` that it makes, in order. -/
def sends (p : Posting) : List Lan.Event :=
  (UDPLayer.send p.src.host p.sent.rand p.sent.checksum p.sent.data (ippool p.dest.host) p.sent.srcPort
    p.sent.destPort).filterMap fun x => (x.1.bind portOf).map fun j => .send p.src j x.2

/-- The number of its fragments. -/
def num (p : Posting) : ℕ := p.sent.num

theorem portOf_host (j : Port) : (destMachine (ippool j.host)).bind portOf = some j := by
  revert j
  decide

theorem sends_eq (p : Posting) : p.sends = (p.sent.emit p.dest.host).map fun data => .send p.src p.dest data := by
  unfold sends Sent.emit UDPLayer.send IPLayer.send
  rw [p.host_eq, List.filterMap_map, List.map_map, List.map_map, ← List.filterMap_eq_map]
  congr 1
  funext i
  simp only [Function.comp_apply, portOf_host, Option.map_some]

theorem getElem?_sends (p : Posting) (i : ℕ) :
    p.sends[i]? = ((p.sent.emit p.dest.host)[i]?).map fun data => .send p.src p.dest data := by
  rw [sends_eq, List.getElem?_map]

theorem length_sends (p : Posting) : p.sends.length = p.num := by
  rw [sends_eq, List.length_map, Sent.length_emit, num]

theorem lt_num {p : Posting} {i : ℕ} {e : Lan.Event} (h : p.sends[i]? = some e) : i < p.num := by
  rw [← p.length_sends]
  exact (List.getElem?_eq_some_iff.mp h).1

end Posting

/-- The network, how many fragments each sender has handed to the link layer, how many frames each
machine's `ethrecv` has taken from `messages`, and the inboxes. -/
structure Internet (ι : Type*) where
  lan : Lan
  emitted : ι → ℕ
  taken : Port → ℕ
  inbox : Port → Inbox

namespace Internet

variable {ι : Type*} [DecidableEq ι]

/-- The next fragment of a sender, a step of the switch, a card or `pktrecv`, and a round of
`ethrecv`. -/
inductive Event (ι : Type*)
  | emit (k : ι)
  | lan (e : Lan.Event)
  | ethrecv (j : Port)

/-- The steps that are not a call of `Ethernet_Layer::Send`. -/
def inner : Lan.Event → Bool
  | .send _ _ _ => false
  | _ => true

def step (ps : ι → Posting) (s : Internet ι) : Event ι → Option (Internet ι)
  | .emit k =>
    match (ps k).sends[s.emitted k]? with
    | none => none
    | some e => (s.lan.step e).map fun lan =>
        { s with lan := lan, emitted := Function.update s.emitted k (s.emitted k + 1) }
  | .lan e => if inner e then (s.lan.step e).map fun lan => { s with lan := lan } else none
  | .ethrecv j =>
    -- `RemoveFront` waits while there is nothing in the queue
    match (s.lan.cards j).messages[s.taken j]? with
    | none => none
    | some f => some { s with
        taken := Function.update s.taken j (s.taken j + 1)
        inbox := Function.update s.inbox j ((s.inbox j).receive (Frame.payload f)) }

def init (packets : Port → Frame) : Internet ι := ⟨Lan.init packets, fun _ => 0, fun _ => 0, fun _ => .empty⟩

/-- A card reads a packet only when its thread has taken the one before. -/
def Paced (s : Internet ι) : Event ι → Prop
  | .lan e => Lan.Processed s.lan e
  | _ => True

/-- Everything has been sent, nothing is on its way and every queue is empty. -/
def Quiet (ps : ι → Posting) (s : Internet ι) : Prop :=
  (∀ k, s.emitted k = (ps k).num) ∧ Lan.Idle s.lan ∧ ∀ j, s.taken j = (s.lan.cards j).messages.length

/-! ### What has been sent to a machine -/

section Sending

open Reassembly

variable (ps : ι → Posting)

/-- The datagrams for machine `j`. -/
def sentFor (j : Port) (k : { k // (ps k).dest = j }) : Sent := (ps k.1).sent

/-- A fragment for machine `j`. -/
abbrev Part (j : Port) := Arrival (sentFor ps j) j.host

variable {ps}

/-- The frame of a fragment. -/
def frame {j : Port} (a : Part ps j) : Frame := EthernetLayer.send (ps a.1.1).src.host (buffer a) (macpool j.host)

omit [DecidableEq ι] in
theorem payload_frame {j : Port} (a : Part ps j) : Frame.payload (frame a) = buffer a := Frame.payload_toBytes _

/-- The fragments handed to the link layer are those sent, each sent once. -/
structure Sends (ps : ι → Posting) (emitted : ι → ℕ) (es : List Lan.Event) (j : Port) (as : List (Part ps j)) : Prop where
  nodup : as.Nodup
  mem_iff : ∀ a, a ∈ as ↔ a.2.1 < emitted a.1.1
  frames : Lan.sentTo j es = as.map frame

omit [DecidableEq ι] in
theorem sends_nil (j : Port) : Sends ps (fun _ => 0) [] j [] :=
  ⟨List.nodup_nil, fun a => by simp, rfl⟩

omit [DecidableEq ι] in
theorem Sends.inner {emitted : ι → ℕ} {es : List Lan.Event} {j : Port} {as : List (Part ps j)}
    (h : Sends ps emitted es j as) {e : Lan.Event} (he : inner e = true) : Sends ps emitted (es ++ [e]) j as := by
  refine ⟨h.nodup, h.mem_iff, ?_⟩
  rw [Lan.sentTo_concat, ← h.frames]
  cases e with
  | send i j data => simp [Internet.inner] at he
  | _ => exact List.append_nil _

/-- One more fragment. -/
theorem Sends.emit {emitted : ι → ℕ} {es : List Lan.Event} {j : Port} {as : List (Part ps j)}
    (h : Sends ps emitted es j as) {k : ι} {e : Lan.Event} (he : (ps k).sends[emitted k]? = some e) :
    ∃ as', Sends ps (Function.update emitted k (emitted k + 1)) (es ++ [e]) j as' := by
  rw [Posting.getElem?_sends, Option.map_eq_some_iff] at he
  obtain ⟨data, hdata, rfl⟩ := he
  obtain ⟨hlt, hget⟩ := List.getElem?_eq_some_iff.mp hdata
  by_cases hj : (ps k).dest = j
  · subst hj
    have hnew : (⟨⟨k, rfl⟩, emitted k, hlt⟩ : Part ps (ps k).dest) ∉ as := by
      rw [h.mem_iff]
      exact Nat.lt_irrefl _
    refine ⟨as ++ [⟨⟨k, rfl⟩, emitted k, hlt⟩], ?_, fun a => ?_, ?_⟩
    · exact List.nodup_append.mpr ⟨h.nodup, List.nodup_singleton _, fun a ha b hb => by
        rw [List.mem_singleton.mp hb]
        rintro rfl
        exact hnew ha⟩
    · obtain ⟨⟨k', hk'⟩, i⟩ := a
      rw [List.mem_append, List.mem_singleton, h.mem_iff]
      by_cases hk : k' = k
      · subst hk
        rw [Function.update_self, Nat.lt_succ_iff_lt_or_eq]
        refine or_congr_right ⟨fun heq => ?_, fun heq => ?_⟩
        · rw [heq]
        · exact congrArg (Sigma.mk _) (Fin.ext heq)
      · rw [Function.update_of_ne hk, or_iff_left]
        intro heq
        exact hk (congrArg (fun a : Part ps (ps k).dest => a.1.1) heq)
    · have hbuf : buffer (⟨⟨k, rfl⟩, emitted k, hlt⟩ : Part ps (ps k).dest) = data := hget
      rw [Lan.sentTo_concat, h.frames, List.map_append, List.map_singleton, frame, hbuf]
      simp [Lan.sentTo]
  · refine ⟨as, h.nodup, fun a => ?_, ?_⟩
    · rw [h.mem_iff, Function.update_of_ne]
      rintro rfl
      exact hj a.1.2
    · rw [Lan.sentTo_concat, ← h.frames]
      simp [Lan.sentTo, hj]

end Sending

/-! ### What a machine has received -/

section Receiving

theorem messages_recvStep {host : Host} {c c' : Card} (h : c.recvStep host = some c') :
    ∃ l, c'.messages = c.messages ++ l ∧ l.length ≤ 1 := by
  unfold Card.recvStep at h
  cases hp : c.pktrecv with
  | wait =>
    rw [hp] at h
    dsimp only at h
    split at h
    all_goals
      obtain rfl := Option.some.inj h
      exact ⟨[], (List.append_nil _).symm, Nat.zero_le _⟩
  | asleep =>
    rw [hp] at h
    cases h
  | receive =>
    rw [hp] at h
    obtain rfl := Option.some.inj h
    exact ⟨[], (List.append_nil _).symm, Nat.zero_le _⟩
  | append bf =>
    rw [hp] at h
    obtain rfl := Option.some.inj h
    by_cases hf : Card.forHost host bf = true
    · exact ⟨[bf], if_pos hf, Nat.le_refl _⟩
    · exact ⟨[], (if_neg hf).trans (List.append_nil _).symm, Nat.zero_le _⟩

/-- The frames that a step can append to the queue of machine `j`. -/
def grows : Lan.Event → Port → ℕ
  | .pktrecv i, j => if j = i then 1 else 0
  | _, _ => 0

theorem sum_grows_le (e : Lan.Event) : ∑ j, grows e j ≤ 1 := by
  cases e with
  | pktrecv i => simp [grows]
  | _ => simp [grows]

theorem messages_step {s s' : Lan} {e : Lan.Event} (h : s.step e = some s') (j : Port) :
    ∃ l, (s'.cards j).messages = (s.cards j).messages ++ l ∧ l.length ≤ grows e j := by
  have hsame : (s'.cards j).messages = (s.cards j).messages →
      ∃ l, (s'.cards j).messages = (s.cards j).messages ++ l ∧ l.length ≤ grows e j :=
    fun h => ⟨[], by rw [h, List.append_nil], Nat.zero_le _⟩
  cases e with
  | send i j' data =>
    obtain rfl := Option.some.inj h
    exact hsame rfl
  | switch i =>
    cases hq : s.toSwitch i with
    | nil => simp [Lan.step, hq] at h
    | cons f fs =>
      rw [Lan.step_switch hq] at h
      obtain rfl := Option.some.inj h
      exact hsame rfl
  | callBack i =>
    cases hq : s.toMachine i with
    | nil =>
      rw [Lan.step_callBack_nil hq] at h
      obtain rfl := Option.some.inj h
      exact hsame rfl
    | cons f fs =>
      rw [Lan.step_callBack hq] at h
      obtain rfl := Option.some.inj h
      apply hsame
      by_cases hj : j = i
      · subst hj
        simp [Card.callBack]
      · simp [Function.update_of_ne hj]
  | pktrecv i =>
    cases hr : (s.cards i).recvStep i.host with
    | none => simp [Lan.step, hr] at h
    | some c =>
      rw [Lan.step_pktrecv hr] at h
      obtain rfl := Option.some.inj h
      by_cases hj : j = i
      · subst hj
        obtain ⟨l, hl, hle⟩ := messages_recvStep hr
        exact ⟨l, by simp [hl], by simpa [grows] using hle⟩
      · exact hsame (by simp [Function.update_of_ne hj])

end Receiving

/-- The network has delivered some of what was sent; `ethrecv` has given what it took to the inbox. -/
structure Inv (ps : ι → Posting) (s : Internet ι) : Prop where
  lan : ∃ es, Lan.Inv es s.lan ∧ ∀ j, ∃ as, Sends ps s.emitted es j as
  emitted_le : ∀ k, s.emitted k ≤ (ps k).num
  taken_le : ∀ j, s.taken j ≤ (s.lan.cards j).messages.length
  inbox : ∀ j, s.inbox j =
    (((s.lan.cards j).messages.take (s.taken j)).map Frame.payload).foldl Inbox.receive .empty

variable {ps : ι → Posting} {s s' : Internet ι}

omit [DecidableEq ι] in
theorem inv_init (packets : Port → Frame) : Inv ps (init packets) where
  lan := ⟨[], Lan.inv_init packets, fun j => ⟨[], sends_nil j⟩⟩
  emitted_le _ := Nat.zero_le _
  taken_le _ := Nat.zero_le _
  inbox _ := rfl

omit [DecidableEq ι] in
theorem inv_lan (hi : Inv ps s) {lan : Lan} {e : Lan.Event} (hstep : s.lan.step e = some lan) {emitted : ι → ℕ}
    (hlan : ∃ es, Lan.Inv es lan ∧ ∀ j, ∃ as, Sends ps emitted es j as) (hle : ∀ k, emitted k ≤ (ps k).num) :
    Inv ps { s with lan := lan, emitted := emitted } := by
  refine ⟨hlan, hle, fun j => ?_, fun j => ?_⟩
  · obtain ⟨l, hl, -⟩ := messages_step hstep j
    rw [hl, List.length_append]
    exact (hi.taken_le j).trans (Nat.le_add_right _ _)
  · obtain ⟨l, hl, -⟩ := messages_step hstep j
    dsimp only
    rw [hl, List.take_append_of_le_length (hi.taken_le j)]
    exact hi.inbox j

theorem inv_step {e : Event ι} (hi : Inv ps s) (hc : Paced s e) (h : step ps s e = some s') : Inv ps s' := by
  obtain ⟨es, hinv, hsends⟩ := hi.lan
  cases e with
  | emit k =>
    simp only [step] at h
    split at h
    · cases h
    · rename_i e he
      obtain ⟨lan, hlan, rfl⟩ := Option.map_eq_some_iff.mp h
      have hproc : Lan.Processed s.lan e := by
        rw [Posting.getElem?_sends, Option.map_eq_some_iff] at he
        obtain ⟨data, -, rfl⟩ := he
        trivial
      refine inv_lan hi hlan ⟨es ++ [e], Lan.inv_step hinv hproc hlan, fun j => ?_⟩ fun k' => ?_
      · obtain ⟨as, has⟩ := hsends j
        exact has.emit he
      · by_cases hk : k' = k
        · subst hk
          rw [Function.update_self]
          exact Posting.lt_num he
        · rw [Function.update_of_ne hk]
          exact hi.emitted_le k'
  | lan e =>
    simp only [step] at h
    split at h
    · rename_i he
      obtain ⟨lan, hlan, rfl⟩ := Option.map_eq_some_iff.mp h
      refine inv_lan hi hlan ⟨es ++ [e], Lan.inv_step hinv hc hlan, fun j => ?_⟩ hi.emitted_le
      obtain ⟨as, has⟩ := hsends j
      exact ⟨as, has.inner he⟩
    · cases h
  | ethrecv j =>
    simp only [step] at h
    split at h
    · cases h
    · rename_i f hf
      obtain rfl := Option.some.inj h
      obtain ⟨hlt, hget⟩ := List.getElem?_eq_some_iff.mp hf
      refine ⟨hi.lan, hi.emitted_le, fun j' => ?_, fun j' => ?_⟩
      · by_cases hj : j' = j
        · subst hj
          dsimp only
          rw [Function.update_self]
          exact hlt
        · dsimp only
          rw [Function.update_of_ne hj]
          exact hi.taken_le j'
      · by_cases hj : j' = j
        · subst hj
          dsimp only
          rw [Function.update_self, Function.update_self, List.take_add_one, hf, hi.inbox]
          simp
        · dsimp only
          rw [Function.update_of_ne hj, Function.update_of_ne hj]
          exact hi.inbox j'

/-- Datagrams for one machine have different sources or identifications. -/
def Distinct (ps : ι → Posting) : Prop := ∀ k k', (ps k).dest = (ps k').dest →
  (ps k).src = (ps k').src → (ps k).sent.identification = (ps k').sent.identification → k = k'

theorem ippool_port_inj : ∀ i j : Port, ippool i.host = ippool j.host → i = j := by decide

omit [DecidableEq ι] in
theorem Distinct.sentFor (hd : Distinct ps) (j : Port) (k k' : { k // (ps k).dest = j })
    (h : ippool (sentFor ps j k).host = ippool (sentFor ps j k').host ∧
      (sentFor ps j k).identification = (sentFor ps j k').identification) : k = k' := by
  apply Subtype.ext
  refine hd k.1 k'.1 (k.2.trans k'.2.symm) ?_ h.2
  apply ippool_port_inj
  rw [← (ps k.1).host_eq, ← (ps k'.1).host_eq]
  exact h.1

/-- The calls of `putData` on a machine carry the datagrams `ks`, in this order. -/
def Delivered (ps : ι → Posting) (s : Internet ι) (j : Port) (ks : List ι) : Prop :=
  List.Forall₂ (fun c k => Reassembly.Carries c (ps k).sent) (s.inbox j).calls ks

theorem delivered (hd : Distinct ps) (hi : Inv ps s) (j : Port) :
    ∃ ks : List ι, Delivered ps s j ks ∧ ks.Nodup ∧ (∀ k ∈ ks, (ps k).dest = j) ∧
      (Quiet ps s → ∀ k, (ps k).dest = j → k ∈ ks) := by
  obtain ⟨es, hinv, hsends⟩ := hi.lan
  obtain ⟨as, has⟩ := hsends j
  have hsub := Lan.subperm_messages hinv j
  rw [has.frames] at hsub
  obtain ⟨bs, hbs, hmap⟩ := exists_map_eq_of_subperm hsub
  have hbuf : (((s.lan.cards j).messages.take (s.taken j)).map Frame.payload) =
      (bs.take (s.taken j)).map Reassembly.buffer := by
    rw [← hmap, ← List.map_take, List.map_map]
    exact List.map_congr_left fun a _ => payload_frame a
  have hnodup : (bs.take (s.taken j)).Nodup := by
    obtain ⟨cs, hperm, hcs⟩ := hbs
    exact (hperm.nodup (has.nodup.sublist hcs)).sublist (List.take_sublist _ _)
  obtain ⟨ks, hks, hmem, hcalls⟩ := calls_of_arrivals (hd.sentFor j) _ hnodup
  refine ⟨ks.map Subtype.val, ?_, ?_, ?_, ?_⟩
  · rw [Delivered, hi.inbox, hbuf, List.forall₂_map_right_iff]
    exact hcalls
  · exact hks.map Subtype.val_injective
  · intro k hk
    obtain ⟨k', -, rfl⟩ := List.mem_map.mp hk
    exact k'.2
  · rintro ⟨hemit, hidle, htaken⟩ k hk
    refine List.mem_map.mpr ⟨⟨k, hk⟩, (hmem _).mpr fun i => ?_, rfl⟩
    have hlen : bs.length = (s.lan.cards j).messages.length := by rw [← hmap, List.length_map]
    rw [htaken j, ← hlen, List.take_length]
    have hperm := Lan.perm_messages hinv hidle j
    rw [has.frames, ← hmap] at hperm
    have hall : bs.Perm as := hbs.perm_of_length_le (by simpa using hperm.length_eq.ge)
    rw [hall.mem_iff, has.mem_iff, hemit]
    exact lt_of_lt_of_eq i.2 (Sent.length_emit _ _)

/-! ### Everything arrives -/

/-- The frames that `ethrecv` has to take. -/
def backlog (s : Internet ι) : ℕ := ∑ j, ((s.lan.cards j).messages.length - s.taken j)

/-- The fragments that have not been handed to the link layer. -/
def unsent [Fintype ι] (ps : ι → Posting) (s : Internet ι) : ℕ := ∑ k, ((ps k).num - s.emitted k)

/-- A bound for the steps until everything is quiet: a frame takes at most 17 steps through the
network, and each may bring one to a queue. -/
def rank [Fintype ι] (ps : ι → Posting) (s : Internet ι) : ℕ := 36 * unsent ps s + 2 * s.lan.rank + s.backlog

theorem rank_send {l l' : Lan} {i j : Port} {data : Bytes 1500} (h : l.step (.send i j data) = some l') :
    l'.rank = l.rank + 17 := by
  obtain rfl := Option.some.inj h
  have hlen := (gather_concat (List.nodup_finRange 4) (List.mem_finRange i) l.toSwitch
    (EthernetLayer.send i.host data (macpool j.host))).length_eq
  rw [List.length_append, List.length_singleton] at hlen
  simp only [Lan.rank, Lan.atSwitch, hlen]
  omega

omit [DecidableEq ι] in
theorem backlog_lan {lan : Lan} {e : Lan.Event} (h : s.lan.step e = some lan) (emitted : ι → ℕ) :
    backlog { s with lan := lan, emitted := emitted } ≤ s.backlog + ∑ j, grows e j := by
  unfold backlog
  rw [← Finset.sum_add_distrib]
  refine Finset.sum_le_sum fun j _ => ?_
  obtain ⟨l, hl, hle⟩ := messages_step h j
  dsimp only
  rw [hl, List.length_append]
  omega

variable [Fintype ι]

theorem rank_emit {k : ι} {data : Bytes 1500} {lan : Lan} (hlt : s.emitted k < (ps k).num)
    (h : s.lan.step (.send (ps k).src (ps k).dest data) = some lan) :
    rank ps { s with lan := lan, emitted := Function.update s.emitted k (s.emitted k + 1) } < rank ps s := by
  have hback := backlog_lan h (Function.update s.emitted k (s.emitted k + 1))
  have hgrows : ∑ j, grows (.send (ps k).src (ps k).dest data) j = 0 := Finset.sum_const_zero
  have hrank := rank_send h
  have hunsent : unsent ps { s with lan := lan, emitted := Function.update s.emitted k (s.emitted k + 1) } <
      unsent ps s := by
    refine Finset.sum_lt_sum (fun k' _ => ?_) ⟨k, Finset.mem_univ k, ?_⟩
    · by_cases hk : k' = k
      · subst hk
        dsimp only
        rw [Function.update_self]
        omega
      · dsimp only
        rw [Function.update_of_ne hk]
    · dsimp only
      rw [Function.update_self]
      omega
  unfold rank
  dsimp only at hrank ⊢
  omega

/-- While anything is left to do, a step brings the end nearer. -/
theorem progress (hi : Inv ps s) (h : ¬ Quiet ps s) :
    ∃ e s', Paced s e ∧ step ps s e = some s' ∧ Inv ps s' ∧ rank ps s' < rank ps s := by
  -- a fragment to send, a frame on its way, or only frames in the queues
  by_cases hemit : ∃ k, s.emitted k ≠ (ps k).num
  · obtain ⟨k, hk⟩ := hemit
    have hlt : s.emitted k < (ps k).num := lt_of_le_of_ne (hi.emitted_le k) hk
    have hlen : s.emitted k < ((ps k).sent.emit (ps k).dest.host).length := by rwa [Sent.length_emit]
    have hsend : (ps k).sends[s.emitted k]? =
        some (.send (ps k).src (ps k).dest ((ps k).sent.emit (ps k).dest.host)[s.emitted k]) := by
      rw [Posting.getElem?_sends, List.getElem?_eq_getElem hlen]
      rfl
    obtain ⟨lan, hlan⟩ : ∃ lan, s.lan.step
        (.send (ps k).src (ps k).dest ((ps k).sent.emit (ps k).dest.host)[s.emitted k]) = some lan := ⟨_, rfl⟩
    have hs : step ps s (.emit k) =
        some { s with lan := lan, emitted := Function.update s.emitted k (s.emitted k + 1) } := by
      simp only [step, hsend, hlan, Option.map_some]
    exact ⟨.emit k, _, trivial, hs, inv_step (e := .emit k) hi trivial hs, rank_emit hlt hlan⟩
  by_cases hidle : Lan.Idle s.lan
  · push Not at hemit
    obtain ⟨j, hj⟩ : ∃ j, s.taken j ≠ (s.lan.cards j).messages.length := by
      by_contra hc
      push Not at hc
      exact h ⟨hemit, hidle, hc⟩
    have hlt : s.taken j < (s.lan.cards j).messages.length := lt_of_le_of_ne (hi.taken_le j) hj
    have hs : step ps s (.ethrecv j) = some { s with
        taken := Function.update s.taken j (s.taken j + 1)
        inbox := Function.update s.inbox j
          ((s.inbox j).receive (Frame.payload (s.lan.cards j).messages[s.taken j])) } := by
      simp only [step, List.getElem?_eq_getElem hlt]
    refine ⟨.ethrecv j, _, trivial, hs, inv_step (e := .ethrecv j) hi trivial hs, Nat.add_lt_add_left ?_ _⟩
    refine Finset.sum_lt_sum (fun j' _ => ?_) ⟨j, Finset.mem_univ j, ?_⟩
    · by_cases hj' : j' = j
      · subst hj'
        dsimp only
        rw [Function.update_self]
        omega
      · dsimp only
        rw [Function.update_of_ne hj']
    · dsimp only
      rw [Function.update_self]
      omega
  · obtain ⟨es, hinv, -⟩ := hi.lan
    obtain ⟨e, lan, hne, hproc, hlan, -, hlt⟩ := Lan.progress hinv hidle
    have hinner : inner e = true := by
      cases e with
      | send i j data => exact absurd rfl (hne i j data)
      | _ => rfl
    have hs : step ps s (.lan e) = some { s with lan := lan } := by
      simp only [step, hinner, hlan, Option.map_some, if_true]
    refine ⟨.lan e, _, hproc, hs, inv_step (e := .lan e) hi hproc hs, ?_⟩
    have hback := backlog_lan hlan s.emitted
    have hgrows := sum_grows_le e
    unfold rank
    have hun : unsent ps { s with lan := lan } = unsent ps s := rfl
    dsimp only at hback ⊢
    rw [hun]
    omega

/-- **Each datagram is delivered once.** Any number of datagrams are sent between the machines at the
same time, and each packet is processed before the next one is read. At any time the calls of
`putData` on a machine carry different datagrams for it, unchanged; when everything is quiet they
carry all of them; and from every state the steps of the machines lead there. -/
theorem datagrams_delivered_once (ps : ι → Posting) (hd : Distinct ps) (packets : Port → Frame) (es : List (Event ι))
    (s : Internet ι) (hc : Along (step ps) Paced (init packets) es) (h : exec (step ps) (init packets) es = some s) :
    (∀ j, ∃ ks : List ι, Delivered ps s j ks ∧ ks.Nodup ∧ (∀ k ∈ ks, (ps k).dest = j) ∧
      (Quiet ps s → ∀ k, (ps k).dest = j → k ∈ ks)) ∧
    ∃ fs s', Along (step ps) Paced s fs ∧ exec (step ps) s fs = some s' ∧ Quiet ps s' ∧
      ∀ j, ∃ ks : List ι, Delivered ps s' j ks ∧ ks.Nodup ∧ ∀ k, k ∈ ks ↔ (ps k).dest = j := by
  have hi : Inv ps s := exec_induction_along (P := fun _ => Inv ps) (inv_init packets)
    (fun _ _ _ _ hi hc h => inv_step hi hc h) es s hc h
  refine ⟨delivered hd hi, ?_⟩
  have hdrain := exec_drain (C := Paced) (A := fun _ => True) (I := Inv ps) (Q := fun s => Inv ps s ∧ Quiet ps s) (rank ps)
    (fun s hi hq => by
      obtain ⟨e, s', hp, hs, hi', hlt⟩ := progress hi fun hquiet => hq ⟨hi, hquiet⟩
      exact ⟨e, s', trivial, hp, hs, hi', hlt⟩) s hi
  obtain ⟨fs, s', -, halong, hrun, hi', hquiet⟩ := hdrain
  refine ⟨fs, s', halong, hrun, hquiet, fun j => ?_⟩
  obtain ⟨ks, hdel, hnodup, hdest, hall⟩ := delivered hd hi' j
  exact ⟨ks, hdel, hnodup, fun k => ⟨hdest k, hall hquiet k⟩⟩

/-- A message of two fragments from machine 1 and one of a single fragment from machine 2, with the
same identification, both for machine 0. -/
theorem datagrams_delivered_once_two : ∃ ps : Bool → Posting,
    (∀ k, (ps k).sent = Reassembly.twoSent k) ∧ (∀ k, (ps k).dest = 0) ∧
    ∃ fs s' ks, exec (step ps) (init fun _ => Bytes.pad 1526 []) fs = some s' ∧
      Delivered ps s' 0 ks ∧ ks.Perm [true, false] := by
  refine ⟨fun k => ⟨if k then 1 else 2, 0, Reassembly.twoSent k, by cases k <;> rfl⟩, fun _ => rfl, fun _ => rfl, ?_⟩
  obtain ⟨-, fs, s', -, hrun, -, hall⟩ := datagrams_delivered_once
    (fun k : Bool => ⟨if k then 1 else 2, 0, Reassembly.twoSent k, by cases k <;> rfl⟩)
    (by unfold Distinct; decide) (fun _ => Bytes.pad 1526 []) [] _ trivial rfl
  obtain ⟨ks, hdel, hnodup, hmem⟩ := hall 0
  refine ⟨fs, s', ks, hrun, hdel, (List.perm_ext_iff_of_nodup hnodup (by decide)).mpr fun k => ?_⟩
  rw [hmem]
  revert k
  decide

end Internet

end Nachos
