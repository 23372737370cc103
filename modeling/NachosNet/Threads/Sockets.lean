/-
# The socket tables of the kernel

The maps `connected_sockets`, `bind_sockets` and `datagrams` of
`threads/kernel.cc` and the functions the socket system calls and the receive
thread use on them. A call of `getData` finds the port of the socket, takes
the port's queue and waits in `RemoveFront` until it is not empty; any other
calls may happen while it waits.

`sockets_and_queues`: in every run, each bound port has its queue, a port has
one socket and keeps it until that socket is closed, and the messages returned
from a port and those still queued are the messages put there, in order.
-/
import NachosNet.Basis.OrdMap
import NachosNet.Basis.Run
import NachosNet.Basis.Text
import NachosNet.Network.Packet

namespace Nachos

open Basis

/-! ### Addresses as texts -/

def isSpace (c : Char) : Bool := c = ' ' ∨ (9 ≤ c.toNat ∧ c.toNat ≤ 13)

/-- `std::stoi`: blanks, a sign, digits, anything; `none` when it throws (no
digits, or not an `int`). -/
def stoi (s : Text) : Option ℤ :=
  let t := s.dropWhile isSpace
  let digits := (if t.head? = some '-' ∨ t.head? = some '+' then t.tail else t).takeWhile Char.isDigit
  let n : ℤ := Nat.ofDigitChars 10 digits 0
  let v := if t.head? = some '-' then -n else n
  if digits ≠ [] ∧ -2 ^ 31 ≤ v ∧ v < 2 ^ 31 then some v else none

/-- The loop of `get_ip_strToChar` from a character on: `ip` has the bytes
written so far. `none` when `stoi` throws, `some none` for -1. -/
def ipLoop (ip : List Byte) (intermediate : Text) : Text → Option (Option (List Byte))
  | [] =>
    if 4 ≤ ip.length then some none
    else (stoi intermediate).map fun v =>
      if ip.length + 1 = 4 then some (ip ++ [BitVec.ofInt 8 v]) else none
  | c :: str =>
    if c = '.' then
      if 4 ≤ ip.length then some none
      else (stoi intermediate).bind fun v => ipLoop (ip ++ [BitVec.ofInt 8 v]) [] str
    else ipLoop ip (intermediate ++ [c]) str

def getIpStrToChar (str : Text) : Option (Option (List Byte)) := ipLoop [] [] str

/-! ### The tables -/

structure SockStruct where
  ip : List Byte
  srcPort : ℤ
  destPort : ℤ

/-- A queued datagram: its size and the bytes from the pointer on. -/
abbrev Message := ℤ × List Byte

structure Sockets where
  currentSocket : ℤ
  connectedSockets : OrdMap ℤ SockStruct
  bindSockets : OrdMap ℤ ℤ
  datagrams : OrdMap ℤ (List Message)

namespace Sockets

def init : Sockets := ⟨1, .empty, .empty, .empty⟩

def getSocket (k : Sockets) : ℤ × Sockets := (k.currentSocket, { k with currentSocket := k.currentSocket + 1 })

/-- `insert_connect_socket`; `none` when `stoi` throws. -/
def insertConnectSocket (k : Sockets) (sockID : ℤ) (ip : Text) (srcPort destPort : ℤ) : Option (ℤ × Sockets) :=
  (getIpStrToChar ip).map fun
    | none => (-1, k)
    | some bytes => (1, { k with connectedSockets := k.connectedSockets.insert sockID ⟨bytes, srcPort, destPort⟩ })

/-- The queue of `port` is made if there is none. -/
def withQueue (k : Sockets) (port : ℤ) : Sockets :=
  match k.datagrams.find? port with
  | none => { k with datagrams := k.datagrams.insert port [] }
  | some _ => k

def insertBindSocket (k : Sockets) (sockID port : ℤ) : ℤ × Sockets :=
  match k.bindSockets.find? port with
  | some _ => (-1, k)
  | none => (1, { k with bindSockets := k.bindSockets.insert port sockID }.withQueue port)

/-- The loop over `bind_sockets` in `getData` and `deleteSocket`: -1 when no
port has the socket. -/
def portOf (k : Sockets) (sockID : ℤ) : ℤ := (k.bindSockets.firstKey fun s => s = sockID).getD (-1)

def putData (k : Sockets) (data : List Byte) (size port : ℤ) : Sockets :=
  let k := k.withQueue port
  { k with datagrams := k.datagrams.insert port ((k.datagrams.find? port).getD [] ++ [(size, data)]) }

def deleteSocket (k : Sockets) (sockID : ℤ) : Sockets :=
  let port := k.portOf sockID
  { k with
    connectedSockets := k.connectedSockets.erase sockID
    bindSockets := if port ≠ -1 then k.bindSockets.erase port else k.bindSockets }

/-- `RemoveFront` on the queue of `port`; `none` while it has to wait. -/
def removeFront (k : Sockets) (port : ℤ) : Option (Message × Sockets) :=
  match k.datagrams.find? port with
  | some (m :: q) => some (m, { k with datagrams := k.datagrams.insert port q })
  | _ => none

/-- What is in the queue of a port. -/
def queued (k : Sockets) (port : ℤ) : List Message := (k.datagrams.find? port).getD []

/-! ### What each call does to the queues -/

/-- The port has an allocated queue. -/
def HasQueue (k : Sockets) (port : ℤ) : Prop := ∃ q, k.datagrams.find? port = some q

theorem find?_withQueue (k : Sockets) (port p : ℤ) : (k.withQueue port).datagrams.find? p =
    if p = port then some (k.queued port) else k.datagrams.find? p := by
  unfold withQueue queued
  cases h : k.datagrams.find? port with
  | none => simp [OrdMap.find?_insert]
  | some q =>
    by_cases hp : p = port
    · simp [hp, h]
    · simp [hp]

theorem queued_withQueue (k : Sockets) (port p : ℤ) : (k.withQueue port).queued p = k.queued p := by
  by_cases h : p = port
  · simp [queued, find?_withQueue, h]
  · simp [queued, find?_withQueue, h]

theorem bindSockets_withQueue (k : Sockets) (port : ℤ) : (k.withQueue port).bindSockets = k.bindSockets := by
  unfold withQueue
  split <;> rfl

theorem HasQueue.withQueue {k : Sockets} {p : ℤ} (h : k.HasQueue p) (port : ℤ) : (k.withQueue port).HasQueue p := by
  unfold HasQueue
  rw [find?_withQueue]
  by_cases hp : p = port
  · simp [hp]
  · rw [if_neg hp]
    exact h

theorem hasQueue_withQueue (k : Sockets) (port : ℤ) : (k.withQueue port).HasQueue port := by
  simp [HasQueue, find?_withQueue]

theorem queued_putData (k : Sockets) (data : List Byte) (size port p : ℤ) :
    (k.putData data size port).queued p = if p = port then k.queued p ++ [(size, data)] else k.queued p := by
  have hq := queued_withQueue k port p
  unfold queued at hq
  unfold putData queued
  simp only [OrdMap.find?_insert]
  by_cases hp : p = port
  · subst hp
    simp [hq]
  · simp [hp, hq]

theorem bindSockets_putData (k : Sockets) (data : List Byte) (size port : ℤ) :
    (k.putData data size port).bindSockets = k.bindSockets := bindSockets_withQueue k port

theorem HasQueue.putData {k : Sockets} {p : ℤ} (h : k.HasQueue p) (data : List Byte) (size port : ℤ) :
    (k.putData data size port).HasQueue p := by
  obtain ⟨q, hq⟩ := h.withQueue port
  unfold HasQueue Sockets.putData
  simp only [OrdMap.find?_insert]
  by_cases hp : p = port
  · simp [hp]
  · simp [hp, hq]

theorem removeFront_eq {k k' : Sockets} {port : ℤ} {m : Message} (h : k.removeFront port = some (m, k')) :
    k.queued port = m :: k'.queued port ∧ (∀ p, p ≠ port → k'.queued p = k.queued p) ∧
      (∀ p, k.HasQueue p → k'.HasQueue p) ∧ k'.bindSockets = k.bindSockets := by
  unfold removeFront at h
  split at h
  · rename_i m' q hq
    obtain ⟨rfl, rfl⟩ := Prod.mk.inj (Option.some.inj h)
    refine ⟨by simp [queued, hq, OrdMap.find?_insert], fun p hp => ?_, fun p hp => ?_, rfl⟩
    · simp [queued, OrdMap.find?_insert, hp]
    · unfold HasQueue
      simp only [OrdMap.find?_insert]
      by_cases hpp : p = port
      · simp [hpp]
      · rw [if_neg hpp]
        exact hp
  · simp at h

theorem portOf_eq {k : Sockets} {sockID port : ℤ} (h : k.bindSockets.find? port = some sockID)
    (hone : ∀ q, k.bindSockets.find? q = some sockID → q = port) : k.portOf sockID = port := by
  unfold portOf
  cases hf : k.bindSockets.firstKey fun s => s = sockID with
  | none => exact absurd (OrdMap.firstKey_none hf h) (by simp)
  | some q =>
    obtain ⟨v, hv, hvs⟩ := OrdMap.firstKey_some hf
    rw [of_decide_eq_true hvs] at hv
    exact hone q hv

theorem find?_deleteSocket {k : Sockets} {sockID p x : ℤ} (h : (k.deleteSocket sockID).bindSockets.find? p = some x) :
    k.bindSockets.find? p = some x := by
  unfold deleteSocket at h
  simp only at h
  split at h
  · rw [OrdMap.find?_erase] at h
    by_cases hp : p = k.portOf sockID
    · simp [hp] at h
    · rwa [if_neg hp] at h
  · exact h

theorem find?_deleteSocket_of_ne {k : Sockets} {sockID p x : ℤ} (h : k.bindSockets.find? p = some x)
    (hx : x ≠ sockID) : (k.deleteSocket sockID).bindSockets.find? p = some x := by
  unfold deleteSocket
  simp only
  split
  · rename_i hport
    rw [OrdMap.find?_erase, if_neg, h]
    rintro rfl
    cases hf : k.bindSockets.firstKey fun s => s = sockID with
    | none => exact hport (by simp [portOf, hf])
    | some q =>
      obtain ⟨v, hv, hvs⟩ := OrdMap.firstKey_some hf
      have hq : k.portOf sockID = q := by simp [portOf, hf]
      rw [hq, hv] at h
      exact hx ((Option.some.inj h).symm.trans (of_decide_eq_true hvs))
  · exact h

end Sockets

/-! ### Runs -/

/-- The tables, the threads that wait in `getData` with the port of their
queue, what the queues have returned so far, and whether a missing queue was
used. -/
structure SocketRun (τ : Type*) where
  kernel : Sockets
  waiting : τ → Option ℤ
  returned : List (ℤ × Message)
  fault : Bool

namespace SocketRun

variable {τ : Type*}

/-- The socket calls; `getData` is the call up to `RemoveFront` and
`removeFront` the rest of it. -/
inductive Event (τ : Type*)
  | createSocket
  | bind (sockID port : ℤ)
  | connect (sockID : ℤ) (ip : Text) (srcPort destPort : ℤ)
  | closeSocket (sockID : ℤ)
  | getData (t : τ) (sockID : ℤ)
  | removeFront (t : τ)
  | putData (data : List Byte) (size port : ℤ)

def step [DecidableEq τ] (s : SocketRun τ) : Event τ → Option (SocketRun τ)
  | .createSocket => some { s with kernel := s.kernel.getSocket.2 }
  | .bind sockID port => some { s with kernel := (s.kernel.insertBindSocket sockID port).2 }
  | .connect sockID ip srcPort destPort =>
    (s.kernel.insertConnectSocket sockID ip srcPort destPort).map fun r => { s with kernel := r.2 }
  | .closeSocket sockID => some { s with kernel := s.kernel.deleteSocket sockID }
  | .getData t sockID =>
    if s.waiting t ≠ none then none
    else if s.kernel.portOf sockID = -1 then some s
    else match s.kernel.datagrams.find? (s.kernel.portOf sockID) with
      | none => some { s with fault := true }
      | some _ => some { s with waiting := Function.update s.waiting t (some (s.kernel.portOf sockID)) }
  | .removeFront t =>
    match s.waiting t with
    | none => none
    | some port => (s.kernel.removeFront port).map fun r =>
      { s with kernel := r.2, waiting := Function.update s.waiting t none, returned := s.returned ++ [(port, r.1)] }
  | .putData data size port => some { s with kernel := s.kernel.putData data size port }

def init : SocketRun τ := ⟨.init, fun _ => none, [], false⟩

/-- The messages `getData` has returned from a port. -/
def returnedFrom (s : SocketRun τ) (p : ℤ) : List Message := (s.returned.filter fun r => r.1 = p).map Prod.snd

/-- The messages `putData` has accepted for a port. -/
def accepted (p : ℤ) (es : List (Event τ)) : List Message :=
  es.filterMap fun
    | .putData data size port => if port = p then some (size, data) else none
    | _ => none

structure Inv (es : List (Event τ)) (s : SocketRun τ) : Prop where
  bound : ∀ p x, s.kernel.bindSockets.find? p = some x → s.kernel.HasQueue p
  fault : s.fault = false
  fifo : ∀ p, s.returnedFrom p ++ s.kernel.queued p = accepted p es

variable {es : List (Event τ)} {s s' : SocketRun τ}

theorem accepted_concat (p : ℤ) (es : List (Event τ)) (e : Event τ) :
    accepted p (es ++ [e]) = accepted p es ++ accepted p [e] := List.filterMap_append

theorem inv_init : Inv ([] : List (Event τ)) init :=
  ⟨fun p x h => by simp [init, Sockets.init] at h, rfl, fun _ => rfl⟩

theorem inv_kernel (hi : Inv es s) (e : Event τ) {k : Sockets}
    (hb : ∀ p x, k.bindSockets.find? p = some x → k.HasQueue p)
    (hq : ∀ p, k.queued p = s.kernel.queued p ++ accepted p [e]) : Inv (es ++ [e]) { s with kernel := k } := by
  refine ⟨hb, hi.fault, fun p => ?_⟩
  rw [accepted_concat, ← hi.fifo p, List.append_assoc]
  exact congrArg (s.returnedFrom p ++ ·) (hq p)

theorem inv_bind (hi : Inv es s) (sockID port : ℤ) :
    Inv (es ++ [.bind sockID port]) { s with kernel := (s.kernel.insertBindSocket sockID port).2 } := by
  have hnil : ∀ p, accepted p [(.bind sockID port : Event τ)] = [] := fun _ => rfl
  unfold Sockets.insertBindSocket
  cases hf : s.kernel.bindSockets.find? port with
  | some y => exact inv_kernel hi _ hi.bound fun p => by rw [hnil, List.append_nil]
  | none =>
    refine inv_kernel hi _ (fun p x hx => ?_) fun p => ?_
    · rw [Sockets.bindSockets_withQueue, OrdMap.find?_insert] at hx
      by_cases hp : p = port
      · rw [hp]
        exact Sockets.hasQueue_withQueue _ _
      · rw [if_neg hp] at hx
        obtain ⟨q, hq⟩ := hi.bound p x hx
        refine Sockets.HasQueue.withQueue (k := { s.kernel with bindSockets := _ }) ?_ port
        exact ⟨q, hq⟩
    · rw [hnil, List.append_nil, Sockets.queued_withQueue]
      rfl

theorem inv_connect (hi : Inv es s) {sockID : ℤ} {ip : Text} {srcPort destPort : ℤ} {r : ℤ × Sockets}
    (h : s.kernel.insertConnectSocket sockID ip srcPort destPort = some r) :
    Inv (es ++ [.connect sockID ip srcPort destPort]) { s with kernel := r.2 } := by
  obtain ⟨o, -, rfl⟩ := Option.map_eq_some_iff.mp h
  refine inv_kernel hi _ (fun p x hx => ?_) fun p => ?_
  · cases o with
    | none => exact hi.bound p x hx
    | some bytes => exact hi.bound p x hx
  · cases o with
    | none => exact (List.append_nil _).symm
    | some bytes => exact (List.append_nil _).symm

theorem inv_putData (hi : Inv es s) (data : List Byte) (size port : ℤ) :
    Inv (es ++ [.putData data size port]) { s with kernel := s.kernel.putData data size port } := by
  refine inv_kernel hi _ (fun p x hx => ?_) fun p => ?_
  · rw [Sockets.bindSockets_putData] at hx
    exact (hi.bound p x hx).putData data size port
  · rw [Sockets.queued_putData]
    by_cases hp : p = port
    · simp [hp, accepted]
    · simp [hp, Ne.symm hp, accepted]

variable [DecidableEq τ]

theorem inv_getData (hi : Inv es s) (t : τ) (sockID : ℤ) (h : s.step (.getData t sockID) = some s') :
    Inv (es ++ [.getData t sockID]) s' := by
  have hfifo : ∀ p, s.returnedFrom p ++ s.kernel.queued p = accepted p (es ++ [.getData t sockID]) := by
    intro p
    rw [accepted_concat, hi.fifo p]
    exact (List.append_nil _).symm
  simp only [step] at h
  by_cases hw : s.waiting t ≠ none
  · simp [hw] at h
  · rw [if_neg hw] at h
    by_cases hport : s.kernel.portOf sockID = -1
    · rw [if_pos hport] at h
      obtain rfl := Option.some.inj h
      exact ⟨hi.bound, hi.fault, hfifo⟩
    · rw [if_neg hport] at h
      obtain ⟨q, hq⟩ : s.kernel.HasQueue (s.kernel.portOf sockID) := by
        cases hf : s.kernel.bindSockets.firstKey fun x => x = sockID with
        | none => exact absurd (by simp [Sockets.portOf, hf]) hport
        | some p =>
          obtain ⟨x, hx, -⟩ := OrdMap.firstKey_some hf
          have hp : s.kernel.portOf sockID = p := by simp [Sockets.portOf, hf]
          rw [hp]
          exact hi.bound p x hx
      rw [hq] at h
      obtain rfl := Option.some.inj h
      exact ⟨hi.bound, hi.fault, hfifo⟩

theorem inv_removeFront (hi : Inv es s) (t : τ) (h : s.step (.removeFront t) = some s') :
    Inv (es ++ [.removeFront t]) s' := by
  simp only [step] at h
  cases hw : s.waiting t with
  | none => simp [hw] at h
  | some port =>
    rw [hw] at h
    obtain ⟨⟨m, k⟩, hr, rfl⟩ := Option.map_eq_some_iff.mp h
    obtain ⟨hself, hother, hhas, hbind⟩ := Sockets.removeFront_eq hr
    refine ⟨fun p x hx => hhas p (hi.bound p x (by rwa [hbind] at hx)), hi.fault, fun p => ?_⟩
    have hacc : accepted p (es ++ [.removeFront t]) = accepted p es := by
      rw [accepted_concat]
      exact List.append_nil _
    rw [hacc, ← hi.fifo p]
    unfold returnedFrom
    simp only [List.filter_append, List.map_append]
    by_cases hp : p = port
    · subst hp
      simp [hself]
    · simp [hother p hp, Ne.symm hp]

theorem inv_step {e : Event τ} (hi : Inv es s) (h : s.step e = some s') : Inv (es ++ [e]) s' := by
  cases e with
  | createSocket =>
    obtain rfl := Option.some.inj h
    exact inv_kernel hi _ hi.bound fun p => (List.append_nil _).symm
  | bind sockID port =>
    obtain rfl := Option.some.inj h
    exact inv_bind hi sockID port
  | connect sockID ip srcPort destPort =>
    obtain ⟨r, hr, rfl⟩ := Option.map_eq_some_iff.mp h
    exact inv_connect hi hr
  | closeSocket sockID =>
    obtain rfl := Option.some.inj h
    exact inv_kernel hi _ (fun p x hx => hi.bound p x (Sockets.find?_deleteSocket hx))
      fun p => (List.append_nil _).symm
  | getData t sockID => exact inv_getData hi t sockID h
  | removeFront t => exact inv_removeFront hi t h
  | putData data size port =>
    obtain rfl := Option.some.inj h
    exact inv_putData hi data size port

theorem bindSockets_step {e : Event τ} (h : s.step e = some s') (hbind : ∀ x p, e ≠ .bind x p)
    (hclose : ∀ x, e ≠ .closeSocket x) : s'.kernel.bindSockets = s.kernel.bindSockets := by
  cases e with
  | createSocket =>
    obtain rfl := Option.some.inj h
    rfl
  | bind sockID port => exact absurd rfl (hbind sockID port)
  | connect sockID ip srcPort destPort =>
    obtain ⟨r, hr, rfl⟩ := Option.map_eq_some_iff.mp h
    obtain ⟨o, -, rfl⟩ := Option.map_eq_some_iff.mp hr
    cases o with
    | none => rfl
    | some bytes => rfl
  | closeSocket sockID => exact absurd rfl (hclose sockID)
  | getData t sockID =>
    simp only [step] at h
    split at h
    · simp at h
    · split at h
      · obtain rfl := Option.some.inj h
        rfl
      · split at h <;> obtain rfl := Option.some.inj h <;> rfl
  | removeFront t =>
    simp only [step] at h
    split at h
    · simp at h
    · obtain ⟨⟨m, k⟩, hr, rfl⟩ := Option.map_eq_some_iff.mp h
      exact (Sockets.removeFront_eq hr).2.2.2
  | putData data size port =>
    obtain rfl := Option.some.inj h
    exact Sockets.bindSockets_putData ..

/-- Only closing its socket frees a port. -/
theorem bound_step {e : Event τ} {p x : ℤ} (h : s.step e = some s') (hb : s.kernel.bindSockets.find? p = some x)
    (he : e ≠ .closeSocket x) : s'.kernel.bindSockets.find? p = some x := by
  by_cases hbind : ∃ y q, e = .bind y q
  · obtain ⟨sockID, port, rfl⟩ := hbind
    obtain rfl := Option.some.inj h
    unfold Sockets.insertBindSocket
    cases hf : s.kernel.bindSockets.find? port with
    | some y => exact hb
    | none =>
      have hp : p ≠ port := by
        rintro rfl
        simp [hf] at hb
      simp only [Sockets.bindSockets_withQueue, OrdMap.find?_insert, if_neg hp]
      exact hb
  · by_cases hclose : ∃ y, e = .closeSocket y
    · obtain ⟨sockID, rfl⟩ := hclose
      obtain rfl := Option.some.inj h
      exact Sockets.find?_deleteSocket_of_ne hb fun hx => he (by rw [hx])
    · rwa [bindSockets_step h (fun y q hy => hbind ⟨y, q, hy⟩) fun y hy => hclose ⟨y, hy⟩]

/-- **Socket tables and port queues.** In every run of the socket calls: every
bound port has its queue, and no call used a missing one; a port is bound to
one socket at most, and stays bound to it until that socket is closed; the
messages returned from a port followed by those still queued are the
messages put there, in order. -/
theorem sockets_and_queues (es : List (Event τ)) (s : SocketRun τ) (h : exec step init es = some s) :
    ((∀ p x, s.kernel.bindSockets.find? p = some x → s.kernel.HasQueue p) ∧ s.fault = false) ∧
    ((∀ p x y, (p, x) ∈ s.kernel.bindSockets.entries → (p, y) ∈ s.kernel.bindSockets.entries → x = y) ∧
      ∀ e s', s.step e = some s' → ∀ p x, s.kernel.bindSockets.find? p = some x → e ≠ .closeSocket x →
        s'.kernel.bindSockets.find? p = some x) ∧
    ∀ p, s.returnedFrom p ++ s.kernel.queued p = accepted p es := by
  have hi : Inv es s := exec_induction (P := Inv) inv_init (fun _ _ _ _ hi h => inv_step hi h) es s h
  refine ⟨⟨hi.bound, hi.fault⟩, ⟨fun p x y hx hy => ?_, fun e s' hs p x => bound_step hs⟩, hi.fifo⟩
  have hxy := OrdMap.eq_of_mem hx hy rfl
  exact (Prod.mk.inj hxy).2

/-- A datagram comes before its port is bound; the socket is closed while a
thread waits for the next one, and the port is bound again. -/
def rebindRun : List (Event Unit) :=
  [.putData [7] 1 5, .bind 3 5, .getData () 3, .removeFront (), .getData () 3, .closeSocket 3, .bind 4 5,
    .putData [8] 1 5, .putData [9] 1 5, .removeFront ()]

theorem sockets_and_queues_rebindRun : ∃ s, exec step init rebindRun = some s ∧
    s.returnedFrom 5 = [(1, [7]), (1, [8])] ∧ s.kernel.bindSockets.find? 5 = some 4 ∧ s.kernel.HasQueue 5 ∧
    s.returnedFrom 5 ++ s.kernel.queued 5 = accepted 5 rebindRun := by
  have hrun : ∃ s, exec step init rebindRun = some s ∧ s.returnedFrom 5 = [(1, [7]), (1, [8])] ∧
      s.kernel.bindSockets.find? 5 = some 4 := ⟨_, rfl, rfl, rfl⟩
  obtain ⟨s, hs, hret, hbind⟩ := hrun
  obtain ⟨⟨hbound, -⟩, -, hfifo⟩ := sockets_and_queues rebindRun s hs
  exact ⟨s, hs, hret, hbind, hbound 5 4 hbind, hfifo 5⟩

end SocketRun

end Nachos
