/-
# Messages between user programs

The system calls `Send_Msg` and `Recv_Msg` over the socket tables and the
network stack. `Send_Msg` copies the string from the sender's memory and sends
it as one datagram; at the receiving host the fragments go through
`IP_Layer::Receive` into the queue of the port (`Receiver`), and `Recv_Msg`
copies the first message of the socket's queue to the caller's memory.

`message_delivered`: the message is read at the buffer, cut to the size asked
for, if the host stores no fragment under the message's key before the first of
its fragments comes. Entries of `fragmentDict` do not age, and a message that
meets one is not always handed up (`stale_fragment_blocks`).
-/
import NachosNet.Basis.Int32
import NachosNet.Network.Reassembly
import NachosNet.Threads.Sockets
import NachosNet.Userprog.UserString

namespace Nachos

open Basis IPLayer

/-! ### The calls -/

/-- `memcpy(dst, src, n)`. -/
def memcpy (dst src : List Byte) (n : ℕ) : List Byte := src.take n ++ dst.drop n

namespace Sockets

/-- `send_message`: the result and the calls of `ethernet_layer->Send`. -/
def sendMessage (k : Sockets) (hostName : Host) (rand : ℕ) (checksum : BitVec 16) (sockID : ℤ)
    (msg : List Byte) : ℤ × List (Option Host × Bytes 1500) :=
  match k.connectedSockets.find? sockID with
  | none => (0, [])
  | some s => (1, UDPLayer.send hostName rand checksum (msg.take (strlen msg)) (Bytes.pad 4 s.ip) s.srcPort s.destPort)

/-- `getData`: the result, the array afterwards and the tables. `none` while it
waits in `RemoveFront`, and when `memcpy` is given a negative size. -/
def getData (k : Sockets) (msg : List Byte) (size sockID : ℤ) : Option (ℤ × List Byte × Sockets) :=
  if k.portOf sockID = -1 then some (-1, msg, k)
  else match k.removeFront (k.portOf sockID) with
    | none => none
    | some (p, k) => if min size p.1 < 0 then none else some (1, memcpy msg p.2 (min size p.1).toNat, k)

end Sockets

/-- `handle_SC_Send_Msg`: the result in register 2, what is sent, and the
machine. -/
def handleSendMsg (fuel : ℕ) (k : Sockets) (hostName : Host) (rand : ℕ) (checksum : BitVec 16) (m : Machine)
    (sockID : ℤ) (virtAddr : BitVec 32) : Except Stop (ℤ × List (Option Host × Bytes 1500) × Machine) :=
  match m.stringUser2System fuel virtAddr (-1) with
  | .error e => .error e
  | .ok (msg, m) =>
    let r := k.sendMessage hostName rand checksum sockID msg
    .ok (r.1, r.2, m)

/-- `handle_SC_Recv_Msg`: the result in register 2, the tables and the machine.
`none` while `getData` does not return. A negative size leaves no room for a
terminator in the array, and `size + 1` overflows for the largest `int`; neither
is followed further. -/
def handleRecvMsg (k : Sockets) (m : Machine) (sockID : ℤ) (virtAddr : BitVec 32) (size : ℤ) :
    Option (Except ExceptionType (ℤ × Sockets × Machine)) :=
  if size < 0 ∨ maxInt < size + 1 then none
  else (k.getData (List.replicate (size + 1).toNat 0) size sockID).map fun r =>
    (m.stringSys2User r.2.1 virtAddr (-1)).map fun m => (r.1, r.2.2, m)

/-! ### Arrivals at a host -/

/-- `fragmentDict` and the socket tables of a host. -/
structure Receiver where
  dict : FragmentDict
  kernel : Sockets

namespace Receiver

/-- `ip_layer->Receive` on a buffer, up to the call of `putData`. -/
def arrive (r : Receiver) (b : Bytes 1500) : Receiver where
  dict := (receive r.dict b).1
  kernel := match (receive r.dict b).2 with
    | none => r.kernel
    | some buf => r.kernel.putData (UDPLayer.receive buf).data (UDPLayer.receive buf).size (UDPLayer.receive buf).port

def step (r : Receiver) (b : Bytes 1500) : Option Receiver := some (r.arrive b)

/-- The buffer has the key `K`, or brings no datagram for the port. -/
def Apart (K : Text) (port : ℤ) (r : Receiver) (b : Bytes 1500) : Prop :=
  keyOf b = K ∨ ∀ buf, (receive r.dict b).2 = some buf → (UDPLayer.receive buf).port ≠ port

theorem dict_arrive (r : Receiver) (b : Bytes 1500) :
    (r.arrive b).dict (keyOf b) = (entryStep (r.dict (keyOf b)) (fragOf b)).1 := receive_fst_self ..

theorem bindSockets_arrive (r : Receiver) (b : Bytes 1500) :
    (r.arrive b).kernel.bindSockets = r.kernel.bindSockets := by
  unfold arrive
  cases (receive r.dict b).2 with
  | none => rfl
  | some buf => exact Sockets.bindSockets_putData ..

theorem queued_arrive (r : Receiver) (b : Bytes 1500) (port : ℤ) : (r.arrive b).kernel.queued port =
    match (receive r.dict b).2 with
    | none => r.kernel.queued port
    | some buf => if port = (UDPLayer.receive buf).port then
        r.kernel.queued port ++ [((UDPLayer.receive buf).size, (UDPLayer.receive buf).data)]
      else r.kernel.queued port := by
  unfold arrive
  cases (receive r.dict b).2 with
  | none => rfl
  | some buf => exact Sockets.queued_putData ..

theorem arrive_apart {r : Receiver} {b : Bytes 1500} {K : Text} {port : ℤ} (hk : keyOf b ≠ K)
    (h : Apart K port r b) : (r.arrive b).dict K = r.dict K ∧ (r.arrive b).kernel.queued port = r.kernel.queued port := by
  refine ⟨receive_fst_ne _ _ (Ne.symm hk), ?_⟩
  rw [queued_arrive]
  cases hr : (receive r.dict b).2 with
  | none => rfl
  | some buf =>
    rcases h with h | h
    · exact absurd h hk
    · exact if_neg fun hp => h buf hr hp.symm

theorem kernel_arrive {r : Receiver} {b : Bytes 1500} (h : (entryStep (r.dict (keyOf b)) (fragOf b)).2 = none) :
    (r.arrive b).kernel = r.kernel := by
  unfold arrive
  rw [receive_snd, h]

variable {d : Sent} {dest : Host}

/-- What the message leaves in the queue of its port: its size, and its bytes
followed by the zeros of the last fragment. -/
def queuedAs (d : Sent) : Message :=
  (d.data.length, d.data ++ List.replicate (1480 * d.num - d.bytes.length) 0)

/-- A fragment of the message comes to the entry that holds those of `L`: the
message is queued when it was the last one missing. -/
theorem arrive_piece {r : Receiver} {b : Bytes 1500} {L : List ℕ} {i : ℕ} (hk : keyOf b = d.key dest)
    (hf : fragOf b = d.piece i) (hn : (L ++ [i]).Nodup) (hL : ∀ j ∈ L ++ [i], j < d.num)
    (he : r.dict (d.key dest) = entryAfter none (L.map d.piece)) :
    (r.arrive b).dict (d.key dest) = entryAfter none ((L ++ [i]).map d.piece) ∧
    (r.arrive b).kernel.queued d.destPort = r.kernel.queued d.destPort ++
      if ∀ j < d.num, j ∈ L ++ [i] then [queuedAs d] else [] := by
  constructor
  · rw [← hk, dict_arrive, hk, he, hf, List.map_append, List.map_singleton, entryAfter_concat]
  · rw [queued_arrive, receive_snd, hk, he, hf, d.entryStep_pieces hn hL]
    by_cases hall : ∀ j < d.num, j ∈ L ++ [i]
    · obtain ⟨hport, hsize, hdata⟩ := d.receive_bytes (List.replicate (1480 * d.num - d.bytes.length) 0)
      simp only [if_pos hall, hport, hsize, hdata, if_true]
      rfl
    · simp only [if_neg hall, List.append_nil]

/-- The entry of the message's key and the queue of its port after arrivals
among which the fragments `L` of the message came. The induction is on the
arrivals; only those with the message's key add to `L`. -/
theorem queued_of_arrivals {r : Receiver} (h0 : r.dict (d.key dest) = none) :
    ∀ as r', Along step (Apart (d.key dest) d.destPort) r as → exec step r as = some r' →
      ∀ L : List ℕ, (as.filter fun b => keyOf b = d.key dest).map fragOf = L.map d.piece → L.Nodup →
        (∀ i ∈ L, i < d.num) →
        r'.dict (d.key dest) = entryAfter none (L.map d.piece) ∧
        r'.kernel.queued d.destPort = r.kernel.queued d.destPort ++
          (if ∀ j < d.num, j ∈ L then [queuedAs d] else []) ∧
        r'.kernel.bindSockets = r.kernel.bindSockets := by
  refine exec_induction_along ?_ ?_
  · intro L hL _ _
    obtain rfl : L = [] := by simpa using hL.symm
    have hnot : ¬ ∀ j < d.num, j ∈ ([] : List ℕ) := fun h => by simpa using h 0 d.num_pos
    rw [if_neg hnot]
    exact ⟨h0, by simp, rfl⟩
  · intro as b s s' ih hapart hs L hL hn hlt
    obtain rfl : s.arrive b = s' := Option.some.inj hs
    rw [List.filter_append, List.map_append, List.filter_singleton] at hL
    by_cases hk : keyOf b = d.key dest
    · -- one more of the message's fragments
      rw [decide_eq_true hk] at hL
      obtain ⟨L', M, rfl, hL', hM⟩ := List.map_eq_append_iff.mp hL.symm
      obtain ⟨i, rfl, hi⟩ := List.map_eq_singleton_iff.mp hM
      have hn' := (List.nodup_append.mp hn).1
      obtain ⟨hdict, hqueue, hbind⟩ := ih L' hL'.symm hn' fun j hj => hlt j (List.mem_append_left _ hj)
      obtain ⟨hdict', hqueue'⟩ := arrive_piece hk hi.symm hn hlt hdict
      refine ⟨hdict', ?_, (bindSockets_arrive s b).trans hbind⟩
      -- `i` was missing before
      have hmiss : ¬ ∀ j < d.num, j ∈ L' := fun h =>
        (List.nodup_append.mp hn).2.2 i (h i (hlt i (by simp))) i (by simp) rfl
      rw [hqueue', hqueue, if_neg hmiss, List.append_nil]
    · rw [decide_eq_false hk] at hL
      obtain ⟨hdict, hqueue, hbind⟩ := ih L (by simpa using hL) hn hlt
      obtain ⟨hdict', hqueue'⟩ := arrive_apart hk hapart
      exact ⟨hdict'.trans hdict, hqueue'.trans hqueue, (bindSockets_arrive s b).trans hbind⟩

theorem exec_isSome (r : Receiver) : ∀ as, ∃ r', exec step r as = some r'
  | [] => ⟨r, rfl⟩
  | b :: as => exec_isSome (r.arrive b) as

theorem along_of_keys {K : Text} {port : ℤ} : ∀ (as : List (Bytes 1500)) (r : Receiver), (∀ b ∈ as, keyOf b = K) →
    Along step (Apart K port) r as
  | [], _, _ => trivial
  | b :: as, _, h => by
    obtain ⟨hb, has⟩ := List.forall_mem_cons.mp h
    exact ⟨Or.inl hb, fun r' _ => along_of_keys as r' has⟩

theorem exists_order {bs : List (Bytes 1500)} (h : bs.Perm (d.emit dest)) :
    ∃ L : List ℕ, bs.map fragOf = L.map d.piece ∧ L.Perm (List.range d.num) := by
  have hemit : (d.emit dest).map fragOf = (List.range d.num).map d.piece := by
    apply List.ext_get
    · simp [Sent.length_emit]
    · intro i h1 h2
      rw [List.length_map] at h1
      simpa using d.fragOf_get_emit dest ⟨i, h1⟩
  have hperm := h.map fragOf
  rw [hemit] at hperm
  have hcomp := congrFun (congrFun (List.eq_map_comp_perm d.piece) (bs.map fragOf)) (List.range d.num)
  exact hcomp.mpr hperm

/-- When every fragment of the message has come once, in any order and among
others, the message is in the queue. -/
theorem queued_of_all {r r' : Receiver} {as : List (Bytes 1500)} (h0 : r.dict (d.key dest) = none)
    (hperm : (as.filter fun b => keyOf b = d.key dest).Perm (d.emit dest))
    (hapart : Along step (Apart (d.key dest) d.destPort) r as) (hrun : exec step r as = some r') :
    r'.kernel.queued d.destPort = r.kernel.queued d.destPort ++ [queuedAs d] ∧
      r'.kernel.bindSockets = r.kernel.bindSockets := by
  obtain ⟨L, hL, hLp⟩ := exists_order hperm
  obtain ⟨-, hqueue, hbind⟩ := queued_of_arrivals h0 as r' hapart hrun L hL
    (hLp.nodup_iff.mpr List.nodup_range) fun i hi => List.mem_range.mp (hLp.mem_iff.mp hi)
  rw [if_pos fun j hj => hLp.mem_iff.mpr (List.mem_range.mpr hj)] at hqueue
  exact ⟨hqueue, hbind⟩

end Receiver

/-! ### The two ends -/

theorem Sockets.removeFront_cons {k : Sockets} {port : ℤ} {p : Message} {q : List Message}
    (h : k.queued port = p :: q) : ∃ k', k.removeFront port = some (p, k') := by
  unfold queued at h
  unfold removeFront
  cases hf : k.datagrams.find? port with
  | none => simp [hf] at h
  | some q' =>
    obtain rfl : q' = p :: q := by simpa [hf] using h
    exact ⟨_, rfl⟩

theorem Sockets.removeFront_nil {k : Sockets} {port : ℤ} (h : k.queued port = []) : k.removeFront port = none := by
  unfold queued at h
  unfold removeFront
  cases hf : k.datagrams.find? port with
  | none => rfl
  | some q =>
    obtain rfl : q = [] := by simpa [hf] using h
    rfl

theorem handleSendMsg_eq {fuel : ℕ} {k : Sockets} {m : Machine} {sockID : ℤ} {virtAddr : BitVec 32}
    {msg : List Byte} {dest : Host} {srcPort destPort : ℤ} (host : Host) (rand : ℕ) (checksum : BitVec 16)
    (hz : 0 ∉ msg) (hf : msg.length < fuel) (hm : m.Holds virtAddr (msg ++ [0]))
    (hc : k.connectedSockets.find? sockID = some ⟨(ippool dest).1, srcPort, destPort⟩) :
    ∃ m', handleSendMsg fuel k host rand checksum m sockID virtAddr =
      .ok (1, UDPLayer.send host rand checksum msg (ippool dest) srcPort destPort, m') := by
  obtain ⟨m', hm', -⟩ := Machine.stringUser2System_holds hz hf hm
  refine ⟨m', ?_⟩
  unfold handleSendMsg Sockets.sendMessage
  rw [hm']
  simp only [hc, strlen_append hz, List.take_left, Bytes.pad_of_length]

/-- What `getData` leaves in the cleared array: the message, cut to the size,
and a zero behind it. -/
theorem memcpy_message (msg z : List Byte) (size : ℕ) : ∃ rest,
    memcpy (List.replicate (size + 1) 0) (msg ++ z) (min size msg.length) = msg.take size ++ 0 :: rest := by
  refine ⟨List.replicate (size - min size msg.length) 0, ?_⟩
  unfold memcpy
  have htake : (msg ++ z).take (min size msg.length) = msg.take size := by
    rw [List.take_append_of_le_length (Nat.min_le_right _ _), ← List.take_take, List.take_length]
  have hdrop : size + 1 - min size msg.length = (size - min size msg.length) + 1 := by omega
  rw [htake, List.drop_replicate, hdrop, List.replicate_succ]

theorem handleRecvMsg_eq {k : Sockets} {m : Machine} {sockID port : ℤ} {buf : BitVec 32} {size : ℤ}
    {msg z : List Byte} {q : List Message} (hport : k.portOf sockID = port) (hnonneg : 0 ≤ port)
    (hq : k.queued port = ((msg.length : ℤ), msg ++ z) :: q) (hz : 0 ∉ msg) (hsize : 0 ≤ size)
    (hmax : size < maxInt) (hm : Machine.Mapped m.pageTable)
    (hbuf : buf.toNat + min msg.length size.toNat < m.pageTable.length * PageSize) :
    ∃ k' m', handleRecvMsg k m sockID buf size = some (.ok (1, k', m')) ∧
      m'.Holds buf (msg.take size.toNat ++ [0]) := by
  obtain ⟨n, rfl⟩ := Int.eq_ofNat_of_zero_le hsize
  obtain ⟨k', hk'⟩ := Sockets.removeFront_cons hq
  obtain ⟨rest, hrest⟩ := memcpy_message msg z n
  have hget : k.getData (List.replicate (n + 1) 0) n sockID = some (1, msg.take n ++ 0 :: rest, k') := by
    have hmin : min (n : ℤ) (msg.length : ℤ) = (min n msg.length : ℕ) := by omega
    unfold Sockets.getData
    rw [hport, if_neg (by omega), hk']
    simp only [hmin, Int.toNat_natCast, hrest]
    exact if_neg (by omega)
  have hzt : 0 ∉ msg.take n := fun h => hz (List.mem_of_mem_take h)
  obtain ⟨m', hm', hh⟩ := Machine.stringSys2User_holds rest hzt hm (by
    rw [List.length_take, Nat.min_comm]
    exact hbuf)
  refine ⟨k', m', ?_, hh⟩
  have hn1 : ((n : ℤ) + 1).toNat = n + 1 := by omega
  unfold handleRecvMsg
  rw [if_neg (by omega), hn1, hget]
  simp only [Option.map_some, hm', Except.map]

/-! ### Delivery -/

/-- **A sent message is received.** A process calls `Send_Msg` with a string
`d.data` in its memory, on a socket connected to the host `dest` and the port
`d.destPort`. At `dest` the port's queue is empty, the port is bound to the
socket `sockID` and to no other, and nothing is stored under the message's key.
Then `Send_Msg` returns 1, and after any arrivals among which each of the
message's fragments comes once, in any order, and none of the others brings a
datagram for the port, `Recv_Msg` with a size below the largest `int` returns 1
and the caller reads at `buf` the first `size` bytes of the message, or all if it
has no more, and a zero. -/
theorem message_delivered (d : Sent) (dest : Host) (hz : 0 ∉ d.data)
    (fuel : ℕ) (hf : d.data.length < fuel) (ks : Sockets) (sender : Machine) (sock : ℤ) (virtAddr : BitVec 32)
    (hstr : sender.Holds virtAddr (d.data ++ [0]))
    (hc : ks.connectedSockets.find? sock = some ⟨(ippool dest).1, d.srcPort, d.destPort⟩)
    (r : Receiver) (sockID : ℤ) (hq : r.kernel.queued d.destPort = [])
    (hb : r.kernel.bindSockets.find? d.destPort = some sockID)
    (hone : ∀ q, r.kernel.bindSockets.find? q = some sockID → q = d.destPort)
    (hkey : r.dict (d.key dest) = none)
    (m : Machine) (hm : Machine.Mapped m.pageTable) (buf : BitVec 32) (size : ℤ)
    (hsize : 0 ≤ size) (hmax : size < maxInt)
    (hbuf : buf.toNat + min d.data.length size.toNat < m.pageTable.length * PageSize) :
    (∃ sender', handleSendMsg fuel ks d.host d.rand d.checksum sender sock virtAddr =
      .ok (1, UDPLayer.send d.host d.rand d.checksum d.data (ippool dest) d.srcPort d.destPort, sender')) ∧
    ∀ as, (as.filter fun b => keyOf b = d.key dest).Perm (d.emit dest) →
      Along Receiver.step (Receiver.Apart (d.key dest) d.destPort) r as →
      ∃ r' k' m', exec Receiver.step r as = some r' ∧
        handleRecvMsg r'.kernel m sockID buf size = some (.ok (1, k', m')) ∧
        m'.Holds buf (d.data.take size.toNat ++ [0]) := by
  refine ⟨handleSendMsg_eq d.host d.rand d.checksum hz hf hstr hc, fun as hperm hapart => ?_⟩
  obtain ⟨r', hrun⟩ := Receiver.exec_isSome r as
  obtain ⟨hqueue, hbind⟩ := Receiver.queued_of_all hkey hperm hapart hrun
  rw [hq, List.nil_append] at hqueue
  have hport : r'.kernel.portOf sockID = d.destPort :=
    Sockets.portOf_eq (by rw [hbind, hb]) fun q h => hone q (by rwa [hbind] at h)
  obtain ⟨k', m', hrecv, hheld⟩ := handleRecvMsg_eq hport d.port_nonneg hqueue hz hsize hmax hm hbuf
  exact ⟨r', k', m', hrun, hrecv, hheld⟩

/-- Two bytes from machine 0 to port 6000. -/
def shortSent : Sent := Reassembly.message 0 7 2 104 (by decide)

/-- One page in frame `n`. -/
def onePage (n : BitVec 32) : PageTable := [⟨0, n, true, false, false, false⟩]

theorem mapped_onePage {n : BitVec 32} (h : n.toNat < NumPhysPages) : Machine.Mapped (onePage n) :=
  ⟨fun e he => by
    rw [List.mem_singleton.mp he]
    exact ⟨rfl, rfl, h⟩, List.nodup_singleton _⟩

/-- The sender, with the two bytes at address 4. -/
def shortSender : Machine := ⟨fun q => if q = 388 ∨ q = 389 then 104 else 0, onePage 3⟩

theorem holds_shortSender : shortSender.Holds 4 (shortSent.data ++ [0]) := by
  intro i b hi
  match i, hi with
  | 0, hi => exact (show shortSender.byteAt 4 = some 104 by decide).trans hi
  | 1, hi => exact (show shortSender.byteAt 5 = some 104 by decide).trans hi
  | 2, hi => exact (show shortSender.byteAt 6 = some 0 by decide).trans hi

/-- Its socket 3 is connected to machine 1. -/
def shortConnected : Sockets :=
  { Sockets.init with connectedSockets := OrdMap.empty.insert 3 ⟨(ippool 1).1, 5000, 6000⟩ }

/-- At machine 1 socket 1 is bound to port 6000. -/
def shortBound : Sockets := (Sockets.init.insertBindSocket 1 6000).2

theorem shortBound_only (q : ℤ) (h : shortBound.bindSockets.find? q = some 1) : q = 6000 := by
  by_contra hq
  have hb : shortBound.bindSockets = OrdMap.empty.insert 6000 1 := rfl
  rw [hb, OrdMap.find?_insert, if_neg hq] at h
  simp at h

/-- The receiver of one byte of it. -/
def shortReceiver : Machine := ⟨fun _ => 0, onePage 5⟩

theorem message_delivered_short : ∃ r' k' m',
    exec Receiver.step ⟨emptyDict, shortBound⟩ (shortSent.emit 1) = some r' ∧
      handleRecvMsg r'.kernel shortReceiver 1 16 1 = some (.ok (1, k', m')) ∧ m'.Holds 16 [104, 0] := by
  have hkeys := fun b => shortSent.keyOf_of_mem_emit 1 (b := b)
  refine (message_delivered shortSent 1 (by decide) 3 (by decide) shortConnected shortSender 3 4 holds_shortSender
    rfl ⟨emptyDict, shortBound⟩ 1 rfl rfl shortBound_only rfl shortReceiver (mapped_onePage (by decide)) 16 1
    (by decide) (by decide) (by decide)).2 (shortSent.emit 1) ?_ (Receiver.along_of_keys _ _ hkeys)
  rw [List.filter_eq_self.mpr fun b hb => decide_eq_true (hkeys b hb)]

/-- An older message of three fragments with the same identification. -/
def olderSent : Sent := Reassembly.message 0 7 3000 1 (by decide)

/-- Its middle fragment, the only one that arrived. -/
def olderMiddle : Bytes 1500 :=
  (olderSent.emit 1).get ⟨1, by rw [olderSent, Reassembly.length_emit_message]; decide⟩

/-- The host after that arrival. -/
def staleReceiver : Receiver := (⟨emptyDict, shortBound⟩ : Receiver).arrive olderMiddle

theorem mf_olderMiddle : (olderSent.piece 1).mf = true := by
  unfold Sent.piece
  rw [olderSent, Reassembly.num_message]
  rfl

theorem entryStep_middle {g : Fragment} (hg : g.offset = 185) : entryStep none g = (some [g], none) := by
  simp [entryStep, complete, inOrder, insertBy, hg]

theorem entryStep_before_middle {f g : Fragment} (hf : f.offset = 0) (hg : g.offset = 185) (hmf : g.mf = true) :
    (entryStep (some [g]) f).2 = none := by
  simp [entryStep, complete, inOrder, insertBy, hf, hg, hmf]

theorem key_olderMiddle : keyOf olderMiddle = shortSent.key 1 :=
  (olderSent.keyOf_get_emit 1 _).trans ((Sent.key_eq_iff _ _ _).mpr ⟨rfl, rfl⟩)

theorem fragOf_olderMiddle : fragOf olderMiddle = olderSent.piece 1 := olderSent.fragOf_get_emit 1 _

theorem kernel_staleReceiver : staleReceiver.kernel = shortBound := by
  refine Receiver.kernel_arrive ?_
  rw [fragOf_olderMiddle]
  exact congrArg Prod.snd (entryStep_middle rfl)

theorem dict_staleReceiver : staleReceiver.dict (shortSent.key 1) = some [olderSent.piece 1] := by
  rw [← key_olderMiddle, staleReceiver, Receiver.dict_arrive, fragOf_olderMiddle]
  exact congrArg Prod.fst (entryStep_middle rfl)

/-- The fragments of the short message come to the stale entry and nothing is
handed up. -/
theorem kernel_short_stale : ∃ r', exec Receiver.step staleReceiver (shortSent.emit 1) = some r' ∧
    r'.kernel = shortBound := by
  obtain ⟨b, hb⟩ := List.length_eq_one_iff.mp (show (shortSent.emit 1).length = 1 by
    rw [shortSent, Reassembly.length_emit_message])
  have hkey : keyOf b = shortSent.key 1 := shortSent.keyOf_of_mem_emit 1 (by simp [hb])
  have hfrag : fragOf b = shortSent.piece 0 := by
    have hget : ∀ h : 0 < (shortSent.emit 1).length, (shortSent.emit 1).get ⟨0, h⟩ = b := by
      rw [hb]
      exact fun _ => rfl
    rw [← hget (by simp [hb])]
    exact shortSent.fragOf_get_emit 1 _
  refine ⟨staleReceiver.arrive b, by rw [hb]; rfl, (Receiver.kernel_arrive ?_).trans kernel_staleReceiver⟩
  rw [hkey, hfrag, dict_staleReceiver]
  exact entryStep_before_middle rfl rfl mf_olderMiddle

/-- A stale fragment keeps a message back: the queue is empty, the port and
the socket are bound to each other only, every fragment of the message comes
once, and `Recv_Msg` waits. -/
theorem stale_fragment_blocks :
    exec Receiver.step ⟨emptyDict, shortBound⟩ [olderMiddle] = some staleReceiver ∧
    staleReceiver.kernel.queued 6000 = [] ∧ staleReceiver.kernel.bindSockets.find? 6000 = some 1 ∧
    (∀ q, staleReceiver.kernel.bindSockets.find? q = some 1 → q = 6000) ∧
    (∃ sender', handleSendMsg 3 shortConnected 0 7 0 shortSender 3 4 =
      .ok (1, UDPLayer.send 0 7 0 shortSent.data (ippool 1) 5000 6000, sender')) ∧
    ∃ r', exec Receiver.step staleReceiver
        ((UDPLayer.send 0 7 0 shortSent.data (ippool 1) 5000 6000).map Prod.snd) = some r' ∧
      handleRecvMsg r'.kernel shortReceiver 1 16 1 = none := by
  obtain ⟨r', hrun, hr'⟩ := kernel_short_stale
  have hport : shortBound.portOf 1 = 6000 := Sockets.portOf_eq rfl shortBound_only
  rw [kernel_staleReceiver]
  refine ⟨rfl, rfl, rfl, shortBound_only,
    handleSendMsg_eq 0 7 0 (by decide) (by decide) holds_shortSender rfl, r', hrun, ?_⟩
  have hget : shortBound.getData (List.replicate 2 0) 1 1 = none := by
    unfold Sockets.getData
    rw [hport, Sockets.removeFront_nil rfl]
    rfl
  unfold handleRecvMsg
  rw [hr', if_neg (by decide)]
  exact congrArg _ hget

end Nachos
