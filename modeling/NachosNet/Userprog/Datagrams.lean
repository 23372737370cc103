/-
# Datagrams between the calls and the network

What `UDP_Layer::Send` and `IP_Layer::Send` write into a datagram's headers and to
whom they address it, for every message and every argument of `Connect`, and what
`UDP_Layer::Receive` records of whatever a host receives.

* `header_fields`: the ports and the lengths are cut to 16 bits.
* `send_addressed`: an address that is in no table is only reported; its fragments
  are sent with `macpool[-1]`.
* `recorded_sizes`: the size of a queued datagram is what its length field says.
  When among the arriving fragments each first part of a whole datagram has a field
  of at least 8 and at most the bytes of all parts, `getData` copies bytes of the
  datagram only.

Key definitions: `UDPHeader`, `HostEvent`, `Receiver.hostStep`, `Receiver.FieldOk`.
-/
import NachosNet.Network.Stored
import NachosNet.Userprog.Bounds

namespace Nachos

open Basis IPLayer

/-! ### Header fields -/

/-- The fields of a datagram's header, as the cast reads them. -/
structure UDPHeader where
  sourcePort : BitVec 16
  destinationPort : BitVec 16
  length : BitVec 16

def UDPHeader.ofBytes (data : List Byte) : UDPHeader := ⟨ofLe16 data, ofLe16 (data.drop 2), ofLe16 (data.drop 4)⟩

theorem ofBytes_datagram {checksum : BitVec 16} {data : List Byte} {srcPort destPort : ℤ}
    (h : data.length ≤ 65536) (z : List Byte) :
    UDPHeader.ofBytes (UDPLayer.datagram checksum data srcPort destPort ++ z) =
      ⟨BitVec.ofInt 16 srcPort, BitVec.ofInt 16 destPort, BitVec.ofNat 16 (data.length + 8)⟩ := by
  rw [UDPLayer.datagram_eq h]
  unfold UDPHeader.ofBytes
  congr 1
  · exact ofLe16_le16 _ _
  · exact ofLe16_le16 _ _
  · exact ofLe16_le16 _ _

theorem length_datagram {checksum : BitVec 16} {data : List Byte} {srcPort destPort : ℤ}
    (h : data.length ≤ 65536) : (UDPLayer.datagram checksum data srcPort destPort).length = data.length + 8 := by
  rw [UDPLayer.datagram_eq h]
  simp
  omega

theorem ofBytes_send {hostName : Host} {rand : ℕ} {data : List Byte} {destIP : IP} {i : ℕ}
    (hi : i < numOfFragments data.length) :
    (IPLayer.send hostName rand data destIP)[i]?.map (fun p => IPFragment.ofBytes p.2) =
      some (fragment hostName (getRandomIdentification rand) data destIP i) := by
  unfold IPLayer.send
  rw [List.getElem?_map, List.getElem?_range hi, Option.map_some, Option.map_some, IPFragment.ofBytes_toBytes]

theorem toNat_ofInt_eq_iff (v : ℤ) : ((BitVec.ofInt 16 v).toNat : ℤ) = v ↔ 0 ≤ v ∧ v ≤ 65535 := by
  rw [BitVec.toNat_ofInt]
  omega

/-- **Header fields.** For every message that fits into the struct and any ports, the
receiver reads from the datagram and whatever follows it: each port as it was given
exactly when it is in 0..65535, and the length `size + 8` exactly when the size is
at most 65527. In every fragment it reads the identification and the offset as they
were meant, and the total length exactly when the size is at most 64647. -/
theorem header_fields (hostName : Host) (rand : ℕ) (checksum : BitVec 16) (data z : List Byte) (destIP : IP)
    (srcPort destPort : ℤ) (hsize : data.length ≤ 65536) :
    let header := UDPHeader.ofBytes (UDPLayer.datagram checksum data srcPort destPort ++ z)
    let num := numOfFragments (data.length + 8)
    ((header.sourcePort.toNat : ℤ) = srcPort ↔ 0 ≤ srcPort ∧ srcPort ≤ 65535) ∧
    ((header.destinationPort.toNat : ℤ) = destPort ↔ 0 ≤ destPort ∧ destPort ≤ 65535) ∧
    (header.length.toNat = data.length + 8 ↔ data.length ≤ 65527) ∧
    (UDPLayer.send hostName rand checksum data destIP srcPort destPort).length = num ∧
    ∀ i < num, ∃ f, (UDPLayer.send hostName rand checksum data destIP srcPort destPort)[i]?.map
        (fun p => IPFragment.ofBytes p.2) = some f ∧
      f.identification.toNat = rand % 65536 ∧ f.fragmentOffset.toNat = i * 185 ∧
      (f.totalLength.toNat = data.length + 8 + 20 * num ↔ data.length ≤ 64647) := by
  dsimp only
  have hlen := @length_datagram checksum data srcPort destPort hsize
  rw [ofBytes_datagram hsize]
  refine ⟨toNat_ofInt_eq_iff _, toNat_ofInt_eq_iff _, ?_, ?_, fun i hi => ?_⟩
  · rw [BitVec.toNat_ofNat]
    omega
  · unfold UDPLayer.send IPLayer.send
    rw [List.length_map, List.length_range, hlen]
  · refine ⟨_, ofBytes_send (by rwa [hlen]), ?_, ?_, ?_⟩
    · show (BitVec.ofNat 16 (rand % (64 * 1024))).toNat = _
      rw [BitVec.toNat_ofNat]
      omega
    · show (BitVec.ofNat 13 (i * 1480 / 8)).toNat = _
      unfold numOfFragments payloadSize at hi
      rw [BitVec.toNat_ofNat]
      omega
    · show (BitVec.ofNat 16 (_ + numOfFragments _ * 20)).toNat = _ ↔ _
      rw [hlen, BitVec.toNat_ofNat]
      unfold numOfFragments payloadSize
      omega

/-- What `Send_Msg` sends on a socket after `Connect` has returned 1. -/
theorem sendMessage_connected {k k' : Sockets} {sockID srcPort destPort : ℤ} {ip : Text}
    (h : k.insertConnectSocket sockID ip srcPort destPort = some (1, k')) (hostName : Host) (rand : ℕ)
    (checksum : BitVec 16) (msg : List Byte) : ∃ bytes, getIpStrToChar ip = some (some bytes) ∧
      k'.sendMessage hostName rand checksum sockID msg =
        (1, UDPLayer.send hostName rand checksum (msg.take (strlen msg)) (Bytes.pad 4 bytes) srcPort destPort) := by
  obtain ⟨o, ho, hk⟩ := Option.map_eq_some_iff.mp h
  cases o with
  | none => simp at hk
  | some bytes =>
    refine ⟨bytes, ho, ?_⟩
    rw [← (Prod.mk.inj hk).2]
    unfold Sockets.sendMessage
    rw [OrdMap.find?_insert, if_pos rfl]

/-- A message of three bytes between ports that are kept, all of its fields as meant. -/
theorem header_fields_short : ∃ f,
    (UDPLayer.send 0 7 0 [97, 98, 99] (ippool 1) 5000 6000)[0]?.map (fun p => IPFragment.ofBytes p.2) = some f ∧
      f.identification.toNat = 7 ∧ f.fragmentOffset.toNat = 0 ∧ f.totalLength.toNat = 31 ∧
      ((UDPHeader.ofBytes (UDPLayer.datagram 0 [97, 98, 99] 5000 6000)).destinationPort.toNat : ℤ) = 6000 := by
  obtain ⟨-, hport, -, -, h⟩ := header_fields 0 7 0 [97, 98, 99] [] (ippool 1) 5000 6000 (by decide)
  obtain ⟨f, hf, hid, hoff, htot⟩ := h 0 (by decide)
  rw [List.append_nil] at hport
  exact ⟨f, hf, hid, hoff, htot.mpr (by decide), hport.mpr (by decide)⟩

/-- Socket 1 of machine 0, connected to port 70000 of machine 1. -/
def farPort : Sockets :=
  { Sockets.init with connectedSockets := OrdMap.empty.insert 1 ⟨(ippool 1).1, 5000, 70000⟩ }

theorem connect_farPort :
    Sockets.init.insertConnectSocket 1 "174.50.24.217".toList 5000 70000 = some (1, farPort) := by
  have h : getIpStrToChar "174.50.24.217".toList = some (some (ippool 1).1) := by decide +kernel
  unfold Sockets.insertConnectSocket
  rw [h]
  rfl

/-- The one fragment of a message of one byte on it. -/
def farFragment : IPFragment :=
  fragment 0 (getRandomIdentification 7) (UDPLayer.datagram 0 [97] 5000 70000) (ippool 1) 0

/-- A message sent to port 70000 is put into the queue of port 4464. -/
theorem port_wraps : Sockets.init.insertConnectSocket 1 "174.50.24.217".toList 5000 70000 = some (1, farPort) ∧
    farPort.sendMessage 0 7 0 1 [97, 0] = (1, [(some 1, farFragment.toBytes)]) ∧
    (receive emptyDict farFragment.toBytes).2 = some farFragment.payload.1 ∧
    (UDPHeader.ofBytes farFragment.payload.1).destinationPort.toNat = 4464 ∧
    (UDPLayer.receive farFragment.payload.1).port = 4464 := by
  refine ⟨connect_farPort, ?_⟩
  decide +kernel

/-! ### Addresses -/

theorem destMachine_ippool : ∀ i, destMachine (ippool i) = some i := by decide

theorem destMachine_eq_none {destIP : IP} (h : ∀ i, destIP ≠ ippool i) : destMachine destIP = none := by
  refine List.find?_eq_none.mpr fun i _ => ?_
  rw [decide_eq_true_eq]
  exact fun he => h i he.symm

theorem send_eq_nil_iff {hostName : Host} {rand : ℕ} {data : List Byte} {destIP : IP} :
    IPLayer.send hostName rand data destIP = [] ↔ data = [] := by
  unfold IPLayer.send
  rw [List.map_eq_nil_iff, List.range_eq_nil, ← List.length_eq_zero_iff]
  unfold numOfFragments payloadSize
  omega

theorem fst_of_mem_send {hostName : Host} {rand : ℕ} {data : List Byte} {destIP : IP} {p : Option Host × Bytes 1500}
    (h : p ∈ IPLayer.send hostName rand data destIP) : p.1 = destMachine destIP := by
  obtain ⟨i, -, rfl⟩ := List.mem_map.mp h
  rfl

/-- **Addresses of fragments.** Every fragment for an address in `ippool` goes to
the hardware address of the same entry. For an address that is not there every
fragment reads `macpool[-1]`, and none is sent only when there are no bytes to send. -/
theorem send_addressed (hostName : Host) (rand : ℕ) (data : List Byte) (destIP : IP) :
    (∀ i, destIP = ippool i → ∀ p ∈ IPLayer.send hostName rand data destIP, p.1 = some i ∧
      ∀ j, p.1 = some j → Frame.destMAC (EthernetLayer.send hostName p.2 (macpool j)) = macpool i) ∧
    ((∀ i, destIP ≠ ippool i) → (∀ p ∈ IPLayer.send hostName rand data destIP, p.1 = none) ∧
      (IPLayer.send hostName rand data destIP = [] ↔ data = [])) := by
  constructor
  · rintro i rfl p hp
    have hfst := fst_of_mem_send hp
    rw [destMachine_ippool] at hfst
    refine ⟨hfst, fun j hj => ?_⟩
    obtain rfl : i = j := Option.some.inj (hfst.symm.trans hj)
    exact Frame.destMAC_toBytes _
  · intro hunknown
    refine ⟨fun p hp => ?_, send_eq_nil_iff⟩
    rw [fst_of_mem_send hp, destMachine_eq_none hunknown]

/-- A message to 10.0.0.1, which `Connect` accepts, is sent in one frame. -/
theorem unknown_address_sent : ∃ destIP : IP, (∀ i, destIP ≠ ippool i) ∧
    getIpStrToChar "10.0.0.1".toList = some (some destIP.1) ∧
    (UDPLayer.send 0 7 0 [97] destIP 5000 6000).map Prod.fst = [none] := by
  refine ⟨⟨[10, 0, 0, 1], rfl⟩, ?_⟩
  decide +kernel

/-! ### Recorded sizes -/

/-- What happens at a host: a fragment arrives, or a program makes a socket call. -/
inductive HostEvent
  | arrive (b : Bytes 1500)
  | createSocket
  | bind (sockID port : ℤ)
  | connect (sockID : ℤ) (ip : Text) (srcPort destPort : ℤ)
  | closeSocket (sockID : ℤ)
  | recvMsg (sockID size : ℤ)

namespace Receiver

/-- `none` while `Recv_Msg` does not return, and when `stoi` throws. -/
def hostStep (r : Receiver) : HostEvent → Option Receiver
  | .arrive b => some (r.arrive b)
  | .createSocket => some { r with kernel := r.kernel.getSocket.2 }
  | .bind sockID port => some { r with kernel := (r.kernel.insertBindSocket sockID port).2 }
  | .connect sockID ip srcPort destPort =>
    (r.kernel.insertConnectSocket sockID ip srcPort destPort).map fun x => { r with kernel := x.2 }
  | .closeSocket sockID => some { r with kernel := r.kernel.deleteSocket sockID }
  | .recvMsg sockID size =>
    (r.kernel.getData (List.replicate (size + 1).toNat 0) size sockID).map fun x => { r with kernel := x.2.2 }

def start : Receiver := ⟨emptyDict, .init⟩

/-- The size of a queued datagram is not negative, and its bytes are there. -/
def Covered (m : Message) : Prop := 0 ≤ m.1 ∧ m.1 ≤ m.2.length

/-- What `UDP_Layer::Receive` puts into a queue. -/
def messageOf (buf : List Byte) : Message := ((UDPLayer.receive buf).size, (UDPLayer.receive buf).data)

/-- The length field of a datagram whose parts are the fragments `fs`: the first
part has one that counts the header, and no more than the bytes of all parts. -/
def FieldOk (fs : List Fragment) : Prop :=
  Whole fs → ∀ f ∈ fs, f.offset = 0 → 8 ≤ (UDPHeader.ofBytes f.data.1).length.toNat ∧
    (UDPHeader.ofBytes f.data.1).length.toNat ≤ 1480 * fs.length

/-- The buffers that arrive in a run. -/
def arrivals (es : List HostEvent) : List (Bytes 1500) :=
  es.filterMap fun
    | .arrive b => some b
    | _ => none

/-- Whenever a fragment arrives and completes those that have come before it with
its key, the length field of the datagram is as it should be. -/
def FieldsOk (es : List HostEvent) : Prop :=
  ∀ pre b post, es = pre ++ .arrive b :: post → FieldOk (pending (arrivals pre) (keyOf b) ++ [fragOf b])

theorem FieldsOk.of_concat {es : List HostEvent} {e : HostEvent} (h : FieldsOk (es ++ [e])) : FieldsOk es :=
  fun pre b post he => h pre b (post ++ [e]) (by rw [he, List.append_assoc, List.cons_append])

theorem FieldsOk.last {es : List HostEvent} {b : Bytes 1500} (h : FieldsOk (es ++ [.arrive b])) :
    FieldOk (pending (arrivals es) (keyOf b) ++ [fragOf b]) := h es b [] rfl

theorem length_messageOf (buf : List Byte) : (messageOf buf).2.length = buf.length - 8 := List.length_drop

theorem length_ofBytes_append {data : Bytes 1480} (z : List Byte) :
    (UDPHeader.ofBytes (data.1 ++ z)).length = (UDPHeader.ofBytes data.1).length := by
  have h := data.2
  have hdrop : 2 ≤ (data.1.drop 4).length := by
    rw [List.length_drop]
    omega
  unfold UDPHeader.ofBytes ofLe16
  simp only [List.getD_eq_getElem?_getD]
  rw [List.drop_append_of_le_length (by omega), List.getElem?_append_left (by omega),
    List.getElem?_append_left (by omega)]

theorem covered_iff_fieldOk {as : List (Bytes 1500)} {b : Bytes 1500} {buf : List Byte}
    (h : (receive (after emptyDict as) b).2 = some buf) :
    8 ≤ buf.length ∧ (Covered (messageOf buf) ↔ FieldOk (pending as (keyOf b) ++ [fragOf b])) := by
  obtain ⟨v, hperm, hoff, hwhole, rfl⟩ := receive_pending h
  have hlen : ((v.map fun f => f.data.1).flatten).length = 1480 * v.length := by
    rw [List.length_flatten, List.map_map, show (List.length ∘ fun f : Fragment => f.data.1) = fun _ => 1480 from
      funext fun f => f.data.2, List.map_const', List.sum_replicate_nat, Nat.mul_comm]
  cases v with
  | nil => exact absurd hperm.length_eq (by simp)
  | cons f v =>
    have hf0 : f.offset = 0 := by
      rw [List.map_cons, List.length_cons, List.range_succ_eq_map, List.map_cons, List.cons.injEq, Nat.zero_mul] at hoff
      exact hoff.1
    -- the first part is the only one with offset 0
    have hfirst : ∀ g ∈ pending as (keyOf b) ++ [fragOf b], g.offset = 0 → g = f := fun g hg h0 =>
      List.inj_on_of_nodup_map hwhole.nodup hg (hperm.mem_iff.mp List.mem_cons_self) (h0.trans hf0.symm)
    have hfield : (messageOf (((f :: v).map fun f => f.data.1).flatten)).1 =
        ((UDPHeader.ofBytes f.data.1).length.toNat : ℤ) - 8 := by
      rw [← length_ofBytes_append ((v.map fun f => f.data.1).flatten)]
      rfl
    have hpos : 0 < (f :: v).length := Nat.succ_pos _
    refine ⟨by omega, ?_⟩
    unfold Covered
    rw [hfield, length_messageOf, hlen, hperm.length_eq]
    rw [hperm.length_eq] at hpos
    constructor
    · rintro hc - g hg h0
      rw [hfirst g hg h0]
      omega
    · intro hok
      have := hok hwhole f (hperm.mem_iff.mp List.mem_cons_self) hf0
      omega

/-- After the events `es`. -/
structure Inv (es : List HostEvent) (r : Receiver) : Prop where
  dict : r.dict = after emptyDict (arrivals es)
  covered : ∀ port, ∀ m ∈ r.kernel.queued port, Covered m

variable {r r' : Receiver} {es : List HostEvent}

/-- A call that adds nothing to the queues. -/
theorem Inv.kernel (hi : Inv es r) {e : HostEvent} (he : arrivals [e] = []) {k : Sockets}
    (hk : ∀ port, k.queued port ⊆ r.kernel.queued port) : Inv (es ++ [e]) { r with kernel := k } := by
  refine ⟨?_, fun port m hm => hi.covered port m (hk port hm)⟩
  have ha : arrivals (es ++ [e]) = arrivals es ++ arrivals [e] := List.filterMap_append
  rw [ha, he, List.append_nil]
  exact hi.dict

theorem Inv.arrive (hi : Inv es r) {b : Bytes 1500}
    (hok : FieldOk (pending (arrivals es) (keyOf b) ++ [fragOf b])) : Inv (es ++ [.arrive b]) (r.arrive b) := by
  constructor
  · have ha : arrivals (es ++ [.arrive b]) = arrivals es ++ [b] := List.filterMap_append
    rw [ha, after_concat, ← hi.dict]
    rfl
  · intro port m hm
    rw [queued_arrive] at hm
    cases hup : (receive r.dict b).2 with
    | none =>
      rw [hup] at hm
      exact hi.covered port m hm
    | some buf =>
      rw [hup] at hm
      simp only at hm
      split at hm
      · rcases List.mem_append.mp hm with hm | hm
        · exact hi.covered port m hm
        · rw [List.mem_singleton.mp hm]
          rw [hi.dict] at hup
          exact (covered_iff_fieldOk hup).2.mpr hok
      · exact hi.covered port m hm

theorem queued_getData {k k' : Sockets} {msg msg' : List Byte} {size sockID x : ℤ}
    (h : k.getData msg size sockID = some (x, msg', k')) (port : ℤ) : k'.queued port ⊆ k.queued port := by
  unfold Sockets.getData at h
  split at h
  · obtain ⟨-, -, rfl⟩ := h
    exact fun _ hm => hm
  · split at h
    · simp at h
    · rename_i p k'' hfront
      split at h
      · simp at h
      · obtain ⟨-, -, rfl⟩ := h
        obtain ⟨hself, hother, -⟩ := Sockets.removeFront_eq hfront
        intro m hm
        by_cases hp : port = k.portOf sockID
        · rw [hp] at hm ⊢
          rw [hself]
          exact List.mem_cons_of_mem _ hm
        · rwa [← hother port hp]

theorem Inv.step {e : HostEvent} (hi : Inv es r) (hok : FieldsOk (es ++ [e])) (h : r.hostStep e = some r') :
    Inv (es ++ [e]) r' := by
  cases e with
  | arrive b =>
    obtain rfl := Option.some.inj h
    exact hi.arrive hok.last
  | createSocket =>
    obtain rfl := Option.some.inj h
    exact hi.kernel rfl fun _ _ hm => hm
  | bind sockID port =>
    obtain rfl := Option.some.inj h
    refine hi.kernel rfl fun p m hm => ?_
    unfold Sockets.insertBindSocket at hm
    split at hm
    · exact hm
    · rwa [Sockets.queued_withQueue] at hm
  | connect sockID ip srcPort destPort =>
    obtain ⟨x, hx, rfl⟩ := Option.map_eq_some_iff.mp h
    obtain ⟨o, -, rfl⟩ := Option.map_eq_some_iff.mp hx
    refine hi.kernel rfl fun p m hm => ?_
    cases o with
    | none => exact hm
    | some bytes => exact hm
  | closeSocket sockID =>
    obtain rfl := Option.some.inj h
    exact hi.kernel rfl fun _ _ hm => hm
  | recvMsg sockID size =>
    obtain ⟨⟨x, msg, k⟩, hx, rfl⟩ := Option.map_eq_some_iff.mp h
    exact hi.kernel rfl (queued_getData hx)

theorem checkedGetData_safe {k : Sockets} (h : ∀ port, ∀ m ∈ k.queued port, Covered m) (sockID : ℤ) {size : ℤ}
    (hsize : 0 ≤ size) : (k.checkedGetData (List.replicate (size + 1).toNat 0) size sockID).Safe := by
  unfold Sockets.checkedGetData Checked.Safe
  split
  · trivial
  · rw [Checked.ensures_bind, Checked.ensures_ofOption]
    rintro ⟨p, k'⟩ hfront
    have hp : Covered p := h _ p (by rw [(Sockets.removeFront_eq hfront).1]; exact List.mem_cons_self)
    obtain ⟨hp0, hp1⟩ := hp
    rw [Checked.ensures_bind, Checked.ensures_check, Checked.ensures_map, Checked.ensures_check]
    refine ⟨⟨by omega, ?_⟩, ⟨by omega, by omega⟩, trivial⟩
    rw [List.length_replicate]
    omega

/-- **Recorded sizes.** In every run of arrivals and socket calls in which the first
part of each datagram whose parts have all arrived has a length field of at least 8
and at most the bytes of its parts, every queued size is covered by the bytes behind
it, and `getData` reads and writes inside its arrays for every size that is not
negative. The field decides it: the next datagram that is handed up is covered
exactly when its first part has such a field. -/
theorem recorded_sizes (es : List HostEvent) (r : Receiver) (hok : FieldsOk es) (h : exec hostStep start es = some r) :
    (∀ port, ∀ m ∈ r.kernel.queued port, 0 ≤ m.1 ∧ m.1 ≤ m.2.length) ∧
    (∀ sockID size : ℤ, 0 ≤ size →
      (r.kernel.checkedGetData (List.replicate (size + 1).toNat 0) size sockID).Safe) ∧
    ∀ b buf, (receive r.dict b).2 = some buf →
      (0 ≤ (UDPLayer.receive buf).size ∧ (UDPLayer.receive buf).size + 8 ≤ buf.length ↔
        FieldOk (pending (arrivals es) (keyOf b) ++ [fragOf b])) := by
  have hi : Inv es r := exec_induction (P := fun es r => FieldsOk es → Inv es r)
    (fun _ => ⟨rfl, fun port m hm => by simp [start, Sockets.init, Sockets.queued] at hm⟩)
    (fun _ _ _ _ ih hs hok => (ih hok.of_concat).step hok hs) es r h hok
  refine ⟨hi.covered, fun sockID size => checkedGetData_safe hi.covered sockID, fun b buf hup => ?_⟩
  rw [hi.dict] at hup
  obtain ⟨hlen, hcov⟩ := covered_iff_fieldOk hup
  rw [← hcov]
  unfold Covered
  rw [length_messageOf]
  unfold messageOf
  omega

/-- A datagram of one fragment for port 6000, with any length field. -/
def single (length : BitVec 16) : IPFragment :=
  { partOf (ippool 0) (ippool 1) 7 0 with
    mf := 0
    payload := Bytes.pad 1480 (le16 5000 ++ le16 6000 ++ le16 length ++ le16 0) }

/-- Socket 1 is bound to port 6000, and such a datagram arrives. -/
def singleRun (length : BitVec 16) : List HostEvent := [.bind 1 6000, .arrive (single length).toBytes]

theorem fieldsOk_singleRun {length : BitVec 16} (h : FieldOk [Fragment.of (single length)]) :
    FieldsOk (singleRun length) := by
  intro pre b post he
  unfold singleRun at he
  match pre, he with
  | [], he => cases he
  | [e], he =>
    simp only [List.cons_append, List.nil_append, List.cons.injEq, HostEvent.arrive.injEq] at he
    obtain ⟨rfl, rfl, -⟩ := he
    rw [fragOf, IPFragment.ofBytes_toBytes]
    exact h
  | _ :: _ :: pre, he =>
    simp at he

theorem recorded_sizes_single : ∃ r, exec hostStep start (singleRun 1480) = some r ∧
    (r.kernel.queued 6000).map Prod.fst = [1472] ∧
    ∀ size : ℤ, 0 ≤ size → (r.kernel.checkedGetData (List.replicate (size + 1).toNat 0) size 1).Safe := by
  have hok : FieldOk [Fragment.of (single 1480)] := by
    intro _ f hf _
    rw [List.mem_singleton.mp hf]
    decide +kernel
  have hrun : ∃ r, exec hostStep start (singleRun 1480) = some r ∧ (r.kernel.queued 6000).map Prod.fst = [1472] := by
    refine ⟨_, rfl, ?_⟩
    decide +kernel
  obtain ⟨r, hr, hq⟩ := hrun
  exact ⟨r, hr, hq, (recorded_sizes (singleRun 1480) r (fieldsOk_singleRun hok) hr).2.1 1⟩

/-- A length field of 0 is recorded as size -8, and one of 2000 as size 1992 with
1472 bytes behind it: `getData` copies a negative number of bytes, and bytes
behind the datagram. -/
theorem length_field_trusted :
    (exec hostStep start (singleRun 0)).map (fun r => ((r.kernel.queued 6000).map fun m => (m.1, m.2.length),
      (r.kernel.checkedGetData (List.replicate 11 0) 10 1).map fun _ => ())) =
        some ([(-8, 1472)], .fault (.block 11 (-8))) ∧
    (exec hostStep start (singleRun 2000)).map (fun r => ((r.kernel.queued 6000).map fun m => (m.1, m.2.length),
      (r.kernel.checkedGetData (List.replicate 2001 0) 2000 1).map fun _ => ())) =
        some ([(1992, 1472)], .fault (.block 1472 1992)) := by
  decide +kernel

end Receiver

end Nachos
