/-
# The network card and the receive thread

`NetworkInput` of `machine/network.cc` keeps one packet, `current_packet`.
Its interrupt reads a packet from the socket over it and signals
`messageAvailable`; the thread `Ethernet_Layer::pktrecv` waits for the signal,
copies the packet and appends it to `messages` if it is addressed to this
host. Interrupts come between any two steps of the thread.

The semaphore counts packets and the buffer holds one. When an interrupt
finds a signal pending, or the thread between its `P` and its copy, the packet
before is overwritten and the new one is received twice
(`messages_not_prefix`). In runs where no interrupt comes then, nothing is
lost or repeated (`messages_prefix`).
-/
import NachosNet.Basis.Run
import NachosNet.Network.Post
import NachosNet.Threads.Synch

namespace Nachos

open Basis

/-- Where `pktrecv` is: at the loop of `P`, asleep in it, before the copy,
or with its copy `bf` before the comparison of the addresses. -/
inductive PktRecv
  | wait
  | asleep
  | receive
  | append (bf : Frame)

/-- The card and the receive side of `Ethernet_Layer`. `messages` is what was
appended to the queue so far. -/
structure Card where
  currentPacket : Frame
  messageAvailable : Semaphore Unit
  pktrecv : PktRecv
  messages : List Frame

namespace Card

/-- The interrupt, with the packet the socket has for it, and a step of the
thread. -/
inductive Event
  | callBack (packet : Option Frame)
  | pktrecv

/-- The thread is made ready: it goes on in the loop of `P`. -/
def wake : PktRecv → PktRecv
  | .asleep => .wait
  | t => t

/-- `NetworkInput::CallBack`, with `Ethernet_Layer::CallBack`. -/
def callBack (s : Card) : Option Frame → Card
  | none => s
  | some packet =>
    { s with
      currentPacket := packet
      messageAvailable := s.messageAvailable.V.1
      pktrecv := s.messageAvailable.V.2.elim s.pktrecv fun _ => wake s.pktrecv }

/-- The comparison of the addresses in `pktrecv`. -/
def forHost (host : Host) (f : Frame) : Bool := Frame.destMAC f = macpool host

def recvStep (host : Host) (s : Card) : Option Card :=
  match s.pktrecv with
  | .wait =>
    match s.messageAvailable.P () with
    | (sem, true) => some { s with messageAvailable := sem, pktrecv := .receive }
    | (sem, false) => some { s with messageAvailable := sem, pktrecv := .asleep }
  | .asleep => none
  | .receive => some { s with pktrecv := .append s.currentPacket }
  | .append bf =>
    some { s with pktrecv := .wait, messages := if forHost host bf then s.messages ++ [bf] else s.messages }

def step (host : Host) (s : Card) : Event → Option Card
  | .callBack packet => some (s.callBack packet)
  | .pktrecv => s.recvStep host

/-- The card when the thread starts; `packet` is what the buffer holds. -/
def init (packet : Frame) : Card := ⟨packet, .mk0 0, .wait, []⟩

def reads (es : List Event) : List Frame :=
  es.filterMap fun
    | .callBack packet => packet
    | .pktrecv => none

/-- An interrupt that reads a packet comes when no signal is pending and the
thread is not before its copy. -/
def Spaced (s : Card) : Event → Prop
  | .callBack (some _) => s.messageAvailable.value = 0 ∧ s.pktrecv ≠ .receive
  | _ => True

/-! ### What the card holds -/

def taken (s : Card) : List Frame :=
  match s.pktrecv with
  | .receive => [s.currentPacket]
  | .append bf => [bf]
  | _ => []

/-- The packet whose signal is pending. -/
def signalled (s : Card) : List Frame := if s.messageAvailable.value = 0 then [] else [s.currentPacket]

/-- Every packet read is in the queue, with the thread or in the buffer, in
this order; the buffer is in use for one packet at most, and the thread
sleeps only when there is none. -/
structure Inv (host : Host) (es : List Event) (s : Card) : Prop where
  value : s.messageAvailable.value = 0 ∨ s.messageAvailable.value = 1
  receive : s.pktrecv = .receive → s.messageAvailable.value = 0
  asleep : s.pktrecv = .asleep → s.messageAvailable.value = 0 ∧ s.messageAvailable.queue ≠ []
  packets : s.messages ++ (s.taken ++ s.signalled).filter (forHost host) = (reads es).filter (forHost host)

variable {host : Host} {es : List Event} {s s' : Card}

theorem reads_concat (es : List Event) (e : Event) : reads (es ++ [e]) = reads es ++ reads [e] :=
  List.filterMap_append

theorem inv_init (packet : Frame) : Inv host [] (init packet) :=
  ⟨Or.inl rfl, fun _ => rfl, (fun h => nomatch h), rfl⟩

theorem inv_callBack (hi : Inv host es s) (packet : Frame) (hv : s.messageAvailable.value = 0)
    (hr : s.pktrecv ≠ .receive) : Inv host (es ++ [.callBack (some packet)]) (s.callBack (some packet)) := by
  have hval : (s.callBack (some packet)).messageAvailable.value = 1 := by
    simp [callBack, Semaphore.V, hv]
  have hsig : (s.callBack (some packet)).signalled = [packet] := by
    unfold signalled
    rw [hval]
    rfl
  -- a sleeping thread is woken, and has nothing taken before or after
  have hpc : (s.callBack (some packet)).pktrecv ≠ .receive ∧ (s.callBack (some packet)).pktrecv ≠ .asleep ∧
      (s.callBack (some packet)).taken = s.taken := by
    unfold taken callBack Semaphore.V
    cases hpc : s.pktrecv with
    | receive => exact absurd hpc hr
    | asleep =>
      obtain ⟨t, q, hq⟩ := List.exists_cons_of_ne_nil (hi.asleep hpc).2
      simp [hq, wake]
    | _ => cases s.messageAvailable.queue.head? <;> simp [wake]
  have hold : s.signalled = [] := if_pos hv
  refine ⟨Or.inr hval, fun h => absurd h hpc.1, fun h => absurd h hpc.2.1, ?_⟩
  have hp := hi.packets
  rw [hold, List.append_nil] at hp
  calc s.messages ++ ((s.callBack (some packet)).taken ++ (s.callBack (some packet)).signalled).filter (forHost host)
      = s.messages ++ s.taken.filter (forHost host) ++ [packet].filter (forHost host) := by
        rw [hsig, hpc.2.2, List.filter_append, List.append_assoc]
    _ = (reads (es ++ [.callBack (some packet)])).filter (forHost host) := by
        rw [hp, reads_concat, List.filter_append]
        rfl

theorem inv_recvStep (hi : Inv host es s) (h : s.recvStep host = some s') :
    Inv host (es ++ [.pktrecv]) s' := by
  have hreads : reads (es ++ [.pktrecv]) = reads es := by
    rw [reads_concat]
    exact List.append_nil _
  have hp := hi.packets
  rw [← hreads] at hp
  unfold recvStep at h
  cases hpc : s.pktrecv with
  | wait =>
    have htaken : s.taken = [] := by simp [taken, hpc]
    rw [hpc] at h
    rcases hi.value with hv | hv
    · rw [Semaphore.P_zero hv] at h
      obtain rfl := Option.some.inj h
      exact ⟨Or.inl hv, (fun h => nomatch h), fun _ => ⟨hv, by simp⟩, by rw [htaken] at hp; exact hp⟩
    · rw [Semaphore.P_ne (by rw [hv]; decide)] at h
      obtain rfl := Option.some.inj h
      have hv0 : s.messageAvailable.value - 1 = 0 := by rw [hv]; rfl
      refine ⟨Or.inl hv0, fun _ => hv0, (fun h => nomatch h), ?_⟩
      -- the signal is now with the thread
      have hsig : s.signalled = [s.currentPacket] := if_neg (by rw [hv]; decide)
      rw [htaken, hsig] at hp
      simp only [taken, signalled, hv0, if_true]
      exact hp
  | asleep => simp [hpc] at h
  | receive =>
    rw [hpc] at h
    obtain rfl := Option.some.inj h
    have htaken : s.taken = [s.currentPacket] := by simp [taken, hpc]
    rw [htaken] at hp
    exact ⟨hi.value, (fun h => nomatch h), (fun h => nomatch h), hp⟩
  | append bf =>
    rw [hpc] at h
    obtain rfl := Option.some.inj h
    have htaken : s.taken = [bf] := by simp [taken, hpc]
    rw [htaken, List.filter_append, ← List.append_assoc] at hp
    refine ⟨hi.value, (fun h => nomatch h), (fun h => nomatch h), ?_⟩
    rw [← hp]
    by_cases hf : forHost host bf = true
    · simp [hf, taken, signalled]
    · simp [hf, taken, signalled]

theorem inv_step {e : Event} (hi : Inv host es s) (hc : Spaced s e) (h : step host s e = some s') :
    Inv host (es ++ [e]) s' := by
  cases e with
  | pktrecv => exact inv_recvStep hi h
  | callBack packet =>
    obtain rfl := Option.some.inj h
    cases packet with
    | some packet => exact inv_callBack hi packet hc.1 hc.2
    | none =>
      have hreads : reads (es ++ [.callBack none]) = reads es := by
        rw [reads_concat]
        exact List.append_nil _
      exact ⟨hi.value, hi.receive, hi.asleep, by rw [hreads]; exact hi.packets⟩

/-- **No packet is lost or repeated, if the interrupts leave the thread its
time.** In every run in which an interrupt reads a packet only when no signal
is pending and the thread is not about to copy, what was appended to
`messages` is a prefix of the packets read for this host. -/
theorem messages_prefix (host : Host) (packet : Frame) (es : List Event) (s : Card)
    (hc : Along (step host) Spaced (init packet) es) (h : exec (step host) (init packet) es = some s) :
    s.messages <+: (reads es).filter (forHost host) := by
  have hi : Inv host es s := exec_induction_along (P := Inv host) (inv_init packet)
    (fun es e s s' hi hc h => inv_step hi hc h) es s hc h
  exact ⟨_, hi.packets⟩

def packetFor0 (b : Byte) : Frame := EthernetLayer.send 1 (Bytes.pad 1500 [b]) (macpool 0)

theorem forHost_packetFor0 (b : Byte) : forHost 0 (packetFor0 b) = true := by
  unfold forHost packetFor0 EthernetLayer.send
  rw [Frame.destMAC_toBytes, decide_eq_true_eq]

theorem packetFor0_ne : packetFor0 1 ≠ packetFor0 2 := by
  intro h
  have hp := congrArg Frame.payload h
  unfold packetFor0 EthernetLayer.send at hp
  rw [Frame.payload_toBytes, Frame.payload_toBytes] at hp
  have hb := congrArg (fun b => b.1.head?) hp
  simp only [Bytes.pad_of_le (show [(1 : Byte)].length ≤ 1500 by decide),
    Bytes.pad_of_le (show [(2 : Byte)].length ≤ 1500 by decide)] at hb
  exact absurd hb (by decide)

/-- The second interrupt comes while the thread has its copy of the first
packet. -/
def spacedRun : List Event :=
  [.callBack (some (packetFor0 1)), .pktrecv, .pktrecv, .callBack (some (packetFor0 2)), .pktrecv,
    .pktrecv, .pktrecv, .pktrecv]

theorem messages_prefix_spacedRun : ∃ s, exec (step 0) (init (packetFor0 0)) spacedRun = some s ∧
    s.messages = [packetFor0 1, packetFor0 2] ∧ s.messages <+: (reads spacedRun).filter (forHost 0) := by
  have hrun : exec (step 0) (init (packetFor0 0)) spacedRun =
      some ⟨packetFor0 2, ⟨0, []⟩, .wait, [packetFor0 1, packetFor0 2]⟩ := by
    simp [spacedRun, step, init, callBack, recvStep, Semaphore.V, Semaphore.P, Semaphore.mk0,
      forHost_packetFor0]
  refine ⟨_, hrun, rfl, messages_prefix 0 (packetFor0 0) spacedRun _ ?_ hrun⟩
  simp [spacedRun, Along, Spaced, step, init, callBack, recvStep, Semaphore.V, Semaphore.P, Semaphore.mk0]

/-- Two interrupts come before the thread runs. -/
def overrun : List Event :=
  [.callBack (some (packetFor0 1)), .callBack (some (packetFor0 2)), .pktrecv, .pktrecv, .pktrecv,
    .pktrecv, .pktrecv, .pktrecv]

/-- The first packet is lost and the second is there twice. -/
theorem messages_not_prefix : ∃ s, exec (step 0) (init (packetFor0 0)) overrun = some s ∧
    s.messages = [packetFor0 2, packetFor0 2] ∧ ¬ s.messages <+: (reads overrun).filter (forHost 0) := by
  have hrun : exec (step 0) (init (packetFor0 0)) overrun =
      some ⟨packetFor0 2, ⟨0, []⟩, .wait, [packetFor0 2, packetFor0 2]⟩ := by
    simp [overrun, step, init, callBack, recvStep, Semaphore.V, Semaphore.P, Semaphore.mk0,
      forHost_packetFor0]
  have hreads : (reads overrun).filter (forHost 0) = [packetFor0 1, packetFor0 2] := by
    simp [overrun, reads, forHost_packetFor0]
  refine ⟨_, hrun, rfl, ?_⟩
  rw [hreads, List.cons_prefix_cons]
  exact fun h => packetFor0_ne h.1.symm

end Card

end Nachos
