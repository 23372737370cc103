/-
# Four machines on the switch

Machine `i` sends to the switch's socket `i`; the switch sends to the
machines' sockets; each machine's card reads its socket. Nothing is lost in
the sockets, and the steps of the machines, of the switch, of the cards and
of the receive threads interleave freely.

A frame sent to machine `k` is at the switch, in the socket or on the card of
`k`, or in its `messages`, and in one of these places only: the switch never
has a wrong port for one of the four addresses, and floods a frame for `k`
only when it came at another port (`count_handle`). Copies of flooded frames
elsewhere are dropped by the address comparison. So every frame reaches the
queue of its destination exactly once (`unicast_delivery`).
-/
import NachosNet.Basis.Queues
import NachosNet.Network.Card
import NachosNet.Network.Switch
import Mathlib.Data.Fintype.Basic

namespace Nachos

open Basis

/-- The machine at a port of the switch. -/
def Port.host (i : Port) : Host := i.castLE (by decide)

theorem Port.host_inj {i j : Port} (h : Port.host i = Port.host j) : i = j := by
  simpa [Port.host] using h

/-- The sockets `/tmp/switch<i>` and `/tmp/machine<i>`, the switch and the
machines' cards. -/
structure Lan where
  toSwitch : Port → List Frame
  switchMap : Switch.SwitchMap
  toMachine : Port → List Frame
  cards : Port → Card

namespace Lan

/-- A call of `Ethernet_Layer::Send` on machine `i` for machine `j`, the switch
reading a frame at port `i`, the interrupt of the card of machine `j`, a step
of its thread `pktrecv`. -/
inductive Event
  | send (i j : Port) (data : Bytes 1500)
  | switch (i : Port)
  | callBack (j : Port)
  | pktrecv (j : Port)

def step (s : Lan) : Event → Option Lan
  | .send i j data =>
    let buffer := EthernetLayer.send i.host data (macpool j.host)
    some { s with toSwitch := Function.update s.toSwitch i (s.toSwitch i ++ [buffer]) }
  | .switch i =>
    match s.toSwitch i with
    | [] => none
    | f :: fs =>
      some { s with
        toSwitch := Function.update s.toSwitch i fs
        switchMap := (Switch.handle s.switchMap i f).1
        toMachine := multicast s.toMachine (Switch.handle s.switchMap i f).2 f }
  | .callBack j =>
    match s.toMachine j with
    | [] => some { s with cards := Function.update s.cards j ((s.cards j).callBack none) }
    | f :: fs =>
      some { s with
        toMachine := Function.update s.toMachine j fs
        cards := Function.update s.cards j ((s.cards j).callBack (some f)) }
  | .pktrecv j => ((s.cards j).recvStep j.host).map fun c => { s with cards := Function.update s.cards j c }

/-- Empty sockets and an empty `switchMap`; `packets` is what the cards'
buffers hold. -/
def init (packets : Port → Frame) : Lan :=
  ⟨fun _ => [], fun _ => none, fun _ => [], fun j => Card.init (packets j)⟩

/-- A card reads a packet only when its thread has taken the one before. -/
def Processed (s : Lan) : Event → Prop
  | .callBack j => s.toMachine j ≠ [] →
      (s.cards j).messageAvailable.value = 0 ∧ (s.cards j).pktrecv ≠ .receive
  | _ => True

/-- The frames sent to machine `k`, in the order of the calls. -/
def sentTo (k : Port) (es : List Event) : List Frame :=
  es.filterMap fun
    | .send i j data => if j = k then some (EthernetLayer.send i.host data (macpool j.host)) else none
    | _ => none

/-- Nothing is on its way. -/
def Idle (s : Lan) : Prop :=
  ∀ j, s.toSwitch j = [] ∧ s.toMachine j = [] ∧ (s.cards j).taken = [] ∧ (s.cards j).signalled = []

theorem step_switch {s : Lan} {i : Port} {f : Frame} {fs : List Frame} (h : s.toSwitch i = f :: fs) :
    s.step (.switch i) = some { s with
      toSwitch := Function.update s.toSwitch i fs
      switchMap := (Switch.handle s.switchMap i f).1
      toMachine := multicast s.toMachine (Switch.handle s.switchMap i f).2 f } := by
  simp [step, h]

theorem step_callBack_nil {s : Lan} {j : Port} (h : s.toMachine j = []) : s.step (.callBack j) = some s := by
  simp [step, h, Card.callBack]

theorem step_callBack {s : Lan} {j : Port} {f : Frame} {fs : List Frame} (h : s.toMachine j = f :: fs) :
    s.step (.callBack j) = some { s with
      toMachine := Function.update s.toMachine j fs
      cards := Function.update s.cards j ((s.cards j).callBack (some f)) } := by
  simp [step, h]

theorem step_pktrecv {s : Lan} {j : Port} {c : Card} (h : (s.cards j).recvStep j.host = some c) :
    s.step (.pktrecv j) = some { s with cards := Function.update s.cards j c } := by
  simp [step, h]

/-! ### Frames and the switch -/

theorem forHost_send (i : Host) (data : Bytes 1500) (j k : Port) :
    Card.forHost k.host (EthernetLayer.send i data (macpool j.host)) = decide (j = k) := by
  unfold Card.forHost EthernetLayer.send
  rw [Frame.destMAC_toBytes, decide_eq_decide]
  exact ⟨fun h => Port.host_inj (macpool_inj _ _ h), fun h => by rw [h]⟩

theorem srcMAC_send (i : Host) (data : Bytes 1500) (m : MAC) :
    Frame.srcMAC (EthernetLayer.send i data m) = macpool i := Frame.srcMAC_toBytes _

theorem macpool_ne_broadcast : ∀ j, macpool j ≠ Switch.broadcast := by decide

theorem count_others : ∀ i k : Port, k ≠ i → (Switch.others i).count k = 1 := by decide

/-- What `switchMap` has for the four addresses is right. -/
def Learned (m : Switch.SwitchMap) : Prop :=
  ∀ j p : Port, m (Switch.macString (macpool j.host)) = some p → p = j

theorem learned_handle {m : Switch.SwitchMap} {i : Port} {f : Frame} (hm : Learned m)
    (hf : Frame.srcMAC f = macpool i.host) : Learned (Switch.handle m i f).1 := by
  intro j p h
  rw [Switch.handle_fst, hf] at h
  by_cases hij : j = i
  · subst hij
    rw [Function.update_self] at h
    exact (Option.some.inj h).symm
  · rw [Function.update_of_ne] at h
    · exact hm j p h
    · exact fun he => hij (Port.host_inj (macpool_inj _ _ (Switch.macString_inj he)))

/-- A frame for machine `k` is sent to port `k` exactly once. If the address
is unknown, the frame did not come from `k` itself, whose address was recorded
just before. -/
theorem count_handle {m : Switch.SwitchMap} {i k : Port} {f : Frame} (hm : Learned m)
    (hs : Frame.srcMAC f = macpool i.host) (hd : Frame.destMAC f = macpool k.host) :
    (Switch.handle m i f).2.count k = 1 := by
  have hdest : Switch.getString f true = Switch.macString (macpool k.host) := by
    rw [← hd]
    rfl
  have hl := learned_handle hm hs
  rw [Switch.handle_fst] at hl
  unfold Switch.handle
  rw [if_neg (fun h => macpool_ne_broadcast k.host (hd ▸ (Switch.getString_eq_broadcast f).mp h))]
  split
  · rename_i p hp
    rw [hdest] at hp
    rw [hl k p hp]
    simp
  · rename_i hp
    have hki : k ≠ i := by
      rintro rfl
      rw [hdest, ← hs] at hp
      exact absurd hp (by simp [Switch.getString])
    exact count_others i k hki

/-! ### Where the frames are -/

/-- The frames in the switch's sockets. -/
def atSwitch (s : Lan) : List Frame := gather (List.finRange 4) s.toSwitch

/-- The frames for machine `k` that its card has read, those in its socket and
those at the switch are the frames sent to it. -/
structure Inv (es : List Event) (s : Lan) : Prop where
  frames : ∀ i, ∀ f ∈ s.toSwitch i, Frame.srcMAC f = macpool i.host ∧
    ∃ j : Port, Frame.destMAC f = macpool j.host
  learned : Learned s.switchMap
  packets : ∀ k, ∃ ces, Card.Inv k.host ces (s.cards k) ∧
    ((Card.reads ces ++ s.toMachine k ++ s.atSwitch).filter (Card.forHost k.host)).Perm (sentTo k es)

variable {es : List Event} {s s' : Lan}

theorem sentTo_concat (k : Port) (es : List Event) (e : Event) :
    sentTo k (es ++ [e]) = sentTo k es ++ sentTo k [e] := List.filterMap_append

theorem inv_init (packets : Port → Frame) : Inv [] (init packets) where
  frames i f hf := by simp [init] at hf
  learned j p h := by simp [init] at h
  packets k := ⟨[], Card.inv_init _, by simp [init, atSwitch, gather, Card.reads, sentTo]⟩

theorem inv_send (hi : Inv es s) (i j : Port) (data : Bytes 1500)
    (h : s.step (.send i j data) = some s') : Inv (es ++ [.send i j data]) s' := by
  obtain rfl := Option.some.inj h
  refine ⟨fun i' f hf => ?_, hi.learned, fun k => ?_⟩
  · by_cases hii : i' = i
    · subst hii
      simp only [Function.update_self, List.mem_append, List.mem_singleton] at hf
      rcases hf with hf | rfl
      · exact hi.frames i' f hf
      · exact ⟨srcMAC_send _ _ _, j, Frame.destMAC_toBytes _⟩
    · simp only [Function.update_of_ne hii] at hf
      exact hi.frames i' f hf
  · obtain ⟨ces, hces, hp⟩ := hi.packets k
    refine ⟨ces, hces, ?_⟩
    have hsent : sentTo k [.send i j data] =
        [EthernetLayer.send i.host data (macpool j.host)].filter (Card.forHost k.host) := by
      rw [List.filter_singleton, forHost_send]
      by_cases hjk : j = k
      · simp [sentTo, hjk]
      · simp [sentTo, hjk]
    have hat := gather_concat (List.nodup_finRange 4) (List.mem_finRange i) s.toSwitch
      (EthernetLayer.send i.host data (macpool j.host))
    rw [sentTo_concat, hsent]
    refine (((hat.append_left _).filter _).trans ?_)
    rw [← List.append_assoc, List.filter_append]
    exact hp.append_right _

theorem inv_switch (hi : Inv es s) (i : Port) (h : s.step (.switch i) = some s') :
    Inv (es ++ [.switch i]) s' := by
  cases hq : s.toSwitch i with
  | nil => simp [step, hq] at h
  | cons f fs =>
    rw [step_switch hq] at h
    obtain rfl := Option.some.inj h
    obtain ⟨hsrc, j, hdest⟩ := hi.frames i f (by rw [hq]; exact List.mem_cons_self)
    refine ⟨fun i' g hg => ?_, learned_handle hi.learned hsrc, fun k => ?_⟩
    · by_cases hii : i' = i
      · subst hii
        simp only [Function.update_self] at hg
        exact hi.frames i' g (by rw [hq]; exact List.mem_cons_of_mem _ hg)
      · simp only [Function.update_of_ne hii] at hg
        exact hi.frames i' g hg
    · obtain ⟨ces, hces, hp⟩ := hi.packets k
      refine ⟨ces, hces, ?_⟩
      have hsent : sentTo k (es ++ [.switch i]) = sentTo k es := by
        rw [sentTo_concat]
        exact List.append_nil _
      -- the copies of `f` that go to port `k` are one if it is for `k`, else they are dropped there
      have hcopies : (List.replicate ((Switch.handle s.switchMap i f).2.count k) f).filter
          (Card.forHost k.host) = [f].filter (Card.forHost k.host) := by
        by_cases hf : Card.forHost k.host f = true
        · have hk : Frame.destMAC f = macpool k.host := by simpa [Card.forHost] using hf
          rw [count_handle hi.learned hsrc hk]
          rfl
        · simp [hf]
      have hat := gather_tail (List.nodup_finRange 4) (List.mem_finRange i) hq
      rw [hsent]
      refine List.Perm.trans ?_ hp
      simp only [multicast_apply, List.filter_append, hcopies, List.append_assoc]
      refine (List.Perm.append_left _ (List.Perm.append_left _ ?_))
      rw [← List.filter_append]
      exact hat.symm.filter _

theorem inv_card (hi : Inv es s) (j : Port) {e : Event} {c : Card} {q : List Frame} (he : ∀ k, sentTo k [e] = [])
    (hc : ∀ ces, Card.Inv j.host ces (s.cards j) → ∃ ces', Card.Inv j.host ces' c ∧
      Card.reads ces' ++ q = Card.reads ces ++ s.toMachine j) :
    Inv (es ++ [e])
      { s with toMachine := Function.update s.toMachine j q, cards := Function.update s.cards j c } := by
  refine ⟨hi.frames, hi.learned, fun k => ?_⟩
  rw [sentTo_concat, he, List.append_nil]
  obtain ⟨ces, hces, hp⟩ := hi.packets k
  by_cases hk : k = j
  · subst hk
    obtain ⟨ces', hces', hreads⟩ := hc ces hces
    refine ⟨ces', by simpa using hces', ?_⟩
    simpa [atSwitch, hreads] using hp
  · refine ⟨ces, by simpa [Function.update_of_ne hk] using hces, ?_⟩
    simpa [atSwitch, Function.update_of_ne hk] using hp

theorem inv_step {e : Event} (hi : Inv es s) (hc : Processed s e) (h : s.step e = some s') :
    Inv (es ++ [e]) s' := by
  cases e with
  | send i j data => exact inv_send hi i j data h
  | switch i => exact inv_switch hi i h
  | callBack j =>
    cases hq : s.toMachine j with
    | nil =>
      rw [step_callBack_nil hq] at h
      obtain rfl := Option.some.inj h
      have hcard := inv_card hi j (e := .callBack j) (c := s.cards j) (q := s.toMachine j)
        (fun _ => rfl) fun ces hces => ⟨ces, hces, rfl⟩
      rwa [Function.update_eq_self, Function.update_eq_self] at hcard
    | cons f fs =>
      rw [step_callBack hq] at h
      obtain rfl := Option.some.inj h
      obtain ⟨hv, hr⟩ := hc (by rw [hq]; simp)
      refine inv_card hi j (fun _ => rfl) fun ces hces => ⟨_, Card.inv_callBack hces f hv hr, ?_⟩
      rw [Card.reads_concat, List.append_assoc, hq]
      rfl
  | pktrecv j =>
    cases hr : (s.cards j).recvStep j.host with
    | none => simp [step, hr] at h
    | some c =>
      rw [step_pktrecv hr] at h
      obtain rfl := Option.some.inj h
      have hcard := inv_card hi j (e := .pktrecv j) (c := c) (q := s.toMachine j) (fun _ => rfl) fun ces hces =>
        ⟨_, Card.inv_recvStep hces hr, by rw [Card.reads_concat]; simp [Card.reads]⟩
      rwa [Function.update_eq_self] at hcard

/-! ### Everything arrives -/

/-- The steps a card has left for the packets it holds. -/
def work (c : Card) : ℕ :=
  3 * c.messageAvailable.value.toNat + match c.pktrecv with
    | .receive => 2
    | .append _ => 1
    | _ => 0

/-- An upper bound for the steps until nothing is on its way: the switch
makes at most four copies of a frame, and a card takes four steps for one. -/
def rank (s : Lan) : ℕ :=
  17 * s.atSwitch.length + 4 * (gather (List.finRange 4) s.toMachine).length + ∑ j, work (s.cards j)

theorem length_handle_le (m : Switch.SwitchMap) (i : Port) (f : Frame) : (Switch.handle m i f).2.length ≤ 4 := by
  have ho : ∀ i, (Switch.others i).length ≤ 4 := by decide
  simp only [Switch.handle]
  split
  · exact ho i
  · split
    · simp
    · exact ho i

theorem rank_switch {i : Port} {f : Frame} {fs : List Frame} (hq : s.toSwitch i = f :: fs)
    (h : s.step (.switch i) = some s') : s'.rank < s.rank := by
  rw [step_switch hq] at h
  obtain rfl := Option.some.inj h
  have h1 := (gather_tail (List.nodup_finRange 4) (List.mem_finRange i) hq).length_eq
  have h2 := length_gather_multicast (List.nodup_finRange 4) f
    (fun p (_ : p ∈ (Switch.handle s.switchMap i f).2) => List.mem_finRange p) s.toMachine
  have h3 := length_handle_le s.switchMap i f
  simp only [rank, atSwitch, h2]
  rw [h1, List.length_cons]
  omega

theorem exists_recvStep {host : Host} {ces : List Card.Event} {c : Card} (hi : Card.Inv host ces c)
    (h : ¬ (c.taken = [] ∧ c.signalled = [])) : ∃ c', c.recvStep host = some c' ∧ work c' < work c := by
  unfold Card.recvStep work
  cases hpc : c.pktrecv with
  | wait =>
    have hv : c.messageAvailable.value = 1 := by
      rcases hi.value with hv | hv
      · exact absurd ⟨by simp [Card.taken, hpc], if_pos hv⟩ h
      · exact hv
    rw [Semaphore.P_ne (by rw [hv]; decide)]
    exact ⟨_, rfl, by simp [hv]⟩
  | asleep => exact absurd ⟨by simp [Card.taken, hpc], if_pos (hi.asleep hpc).1⟩ h
  | receive => exact ⟨_, rfl, by simp⟩
  | append bf => exact ⟨_, rfl, by simp⟩

theorem work_callBack {c : Card} (f : Frame)
    (ht : c.taken = []) (hv : c.messageAvailable.value = 0) : work (c.callBack (some f)) = 3 := by
  unfold work Card.callBack
  cases hpc : c.pktrecv with
  | receive => simp [Card.taken, hpc] at ht
  | append bf => simp [Card.taken, hpc] at ht
  | _ => cases c.messageAvailable.V.2 <;> simp [Semaphore.V, hv, Card.wake]

/-- When something is on its way, a step brings it nearer. -/
theorem progress (hi : Inv es s) (h : ¬ Idle s) : ∃ e s', (∀ i j data, e ≠ .send i j data) ∧ Processed s e ∧
    s.step e = some s' ∧ Inv (es ++ [e]) s' ∧ s'.rank < s.rank := by
  -- a frame at the switch, a packet on a card, or only frames in the machines' sockets
  by_cases hsw : ∃ i, s.toSwitch i ≠ []
  · obtain ⟨i, hne⟩ := hsw
    obtain ⟨f, fs, hq⟩ := List.exists_cons_of_ne_nil hne
    have hs := step_switch hq
    exact ⟨.switch i, _, by simp, trivial, hs, inv_switch hi i hs, rank_switch hq hs⟩
  by_cases hcd : ∃ j, ¬ ((s.cards j).taken = [] ∧ (s.cards j).signalled = [])
  · obtain ⟨j, hj⟩ := hcd
    obtain ⟨ces, hces, -⟩ := hi.packets j
    obtain ⟨c, hc, hlt⟩ := exists_recvStep hces hj
    have hs := step_pktrecv hc
    refine ⟨.pktrecv j, _, by simp, trivial, hs, inv_step hi trivial hs, ?_⟩
    have hsum := sum_weight_update work s.cards j c
    simp only [rank, atSwitch]
    omega
  push Not at hsw hcd
  obtain ⟨j, hne⟩ : ∃ j, s.toMachine j ≠ [] := by
    by_contra hm
    push Not at hm
    exact h fun j => ⟨hsw j, hm j, hcd j⟩
  obtain ⟨f, fs, hq⟩ := List.exists_cons_of_ne_nil hne
  obtain ⟨ht, hsig⟩ := hcd j
  have hv : (s.cards j).messageAvailable.value = 0 := by
    by_contra hv
    simp [Card.signalled, hv] at hsig
  have hr : (s.cards j).pktrecv ≠ .receive := by
    intro hr
    simp [Card.taken, hr] at ht
  have hs := step_callBack hq
  have hproc : Processed s (.callBack j) := fun _ => ⟨hv, hr⟩
  refine ⟨.callBack j, _, by simp, hproc, hs, inv_step hi hproc hs, ?_⟩
  have hsum := sum_weight_update work s.cards j ((s.cards j).callBack (some f))
  rw [work_callBack f ht hv] at hsum
  have hlen := (gather_tail (List.nodup_finRange 4) (List.mem_finRange j) hq).length_eq
  rw [List.length_cons] at hlen
  simp only [rank, atSwitch]
  omega

theorem subperm_messages (hi : Inv es s) (k : Port) : (s.cards k).messages.Subperm (sentTo k es) := by
  obtain ⟨ces, hces, hp⟩ := hi.packets k
  refine List.Subperm.trans (List.Sublist.subperm ?_) hp.subperm
  rw [List.filter_append, List.filter_append, ← hces.packets]
  simp only [List.append_assoc]
  exact List.sublist_append_left _ _

theorem perm_messages (hi : Inv es s) (h : Idle s) (k : Port) : (s.cards k).messages.Perm (sentTo k es) := by
  obtain ⟨ces, hces, hp⟩ := hi.packets k
  have hat : s.atSwitch = [] := List.flatMap_eq_nil_iff.mpr fun i _ => (h i).1
  have hpk := hces.packets
  rw [(h k).2.2.1, (h k).2.2.2] at hpk
  rw [(h k).2.1, hat, List.append_nil, List.append_nil, ← hpk] at hp
  simpa using hp

theorem inv_of_run {packets : Port → Frame} (hc : Along step Processed (init packets) es)
    (h : exec step (init packets) es = some s) : Inv es s :=
  exec_induction_along (P := Inv) (inv_init packets) (fun _ _ _ _ hi hc h => inv_step hi hc h) es s hc h

theorem sentTo_of_no_send (k : Port) {fs : List Event} (h : ∀ e ∈ fs, ∀ i j data, e ≠ .send i j data) :
    sentTo k (es ++ fs) = sentTo k es := by
  have hfs : sentTo k fs = [] := by
    refine List.filterMap_eq_nil_iff.mpr fun e he => ?_
    cases e with
    | send i j data => exact absurd rfl (h _ he i j data)
    | _ => rfl
  unfold sentTo at hfs ⊢
  rw [List.filterMap_append, hfs, List.append_nil]

/-- **Unicast delivery.** In every run in which each packet is processed
before the next is read, no queue ever holds a frame that was not sent to its
machine or holds one more often than it was sent. When nothing is on its way
every queue holds exactly the frames sent to its machine, and from every state
reached the steps of the switch, the cards and the threads lead there. -/
theorem unicast_delivery (packets : Port → Frame) (es : List Event) (s : Lan)
    (hc : Along step Processed (init packets) es) (h : exec step (init packets) es = some s) :
    (∀ k, (s.cards k).messages.Subperm (sentTo k es)) ∧
    (Idle s → ∀ k, (s.cards k).messages.Perm (sentTo k es)) ∧
    ∃ fs s', (∀ e ∈ fs, ∀ i j data, e ≠ .send i j data) ∧ Along step Processed s fs ∧
      exec step s fs = some s' ∧ Idle s' ∧ ∀ k, (s'.cards k).messages.Perm (sentTo k es) := by
  have hi := inv_of_run hc h
  refine ⟨subperm_messages hi, perm_messages hi, ?_⟩
  have hdrain := exec_drain (I := fun s => ∃ es, Inv es s) (Q := Idle) rank (fun s ⟨es, hi⟩ hidle => by
    obtain ⟨e, s', h1, h2, h3, h4, h5⟩ := progress hi hidle
    exact ⟨e, s', h1, h2, h3, ⟨_, h4⟩, h5⟩) s ⟨es, hi⟩
  obtain ⟨fs, s', hfs, hcs, hs', hidle⟩ := hdrain
  have hrun : exec step (init packets) (es ++ fs) = some s' := by
    rw [exec_append, h]
    exact hs'
  have halong : Along step Processed (init packets) (es ++ fs) :=
    (along_append step Processed es fs _).mpr ⟨hc, fun t ht => by
      rw [h] at ht
      rwa [← Option.some.inj ht]⟩
  refine ⟨fs, s', hfs, hcs, hs', hidle, fun k => ?_⟩
  rw [← sentTo_of_no_send k hfs]
  exact perm_messages (inv_of_run halong hrun) hidle k

/-- Machine 0 sends to machine 1, and machine 1 to itself. -/
def twoSends : List Event := [.send 0 1 (Bytes.pad 1500 []), .send 1 1 (Bytes.pad 1500 [])]

theorem unicast_delivery_twoSends : ∃ s fs s', exec step (init fun _ => Bytes.pad 1526 []) twoSends = some s ∧
    exec step s fs = some s' ∧ (s'.cards 1).messages.Perm
      [EthernetLayer.send 0 (Bytes.pad 1500 []) (macpool 1), EthernetLayer.send 1 (Bytes.pad 1500 []) (macpool 1)] ∧
    (s'.cards 0).messages = [] := by
  obtain ⟨-, -, fs, s', -, -, hs', -, hm⟩ :=
    unicast_delivery (fun _ => Bytes.pad 1526 []) twoSends _ ⟨trivial, fun _ _ => ⟨trivial, fun _ _ => trivial⟩⟩ rfl
  exact ⟨_, fs, s', rfl, hs', hm 1, List.Perm.eq_nil (hm 0)⟩

end Lan

end Nachos
