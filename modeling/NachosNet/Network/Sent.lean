/-
# A sent datagram and its fragments

A call of `UDP_Layer::Send` with a size the header can carry (`Sent`), the
fragments `IP_Layer::Send` makes of it, and what a receiver reads off them.
The fragments of one datagram, put together in order, are the datagram and
then zeros (`flatten_pieces`), and from these bytes `UDP_Layer::Receive`
recovers the port, the size and the message (`receive_bytes`). For one
destination the key of a fragment determines the sender's address and the
identification (`key_eq_iff`): the sum of the addresses can be undone.
-/
import NachosNet.Network.Entry

namespace Nachos

open Basis

/-- The bytes of a datagram whose data fits into the struct. -/
theorem UDPLayer.datagram_eq {checksum : BitVec 16} {data : List Byte} {srcPort destPort : ℤ}
    (h : data.length ≤ 65536) : UDPLayer.datagram checksum data srcPort destPort =
      le16 (BitVec.ofInt 16 srcPort) ++ (le16 (BitVec.ofInt 16 destPort) ++
        (le16 (BitVec.ofNat 16 (data.length + 8)) ++ (le16 checksum ++ data))) := by
  simp only [datagram, UDPDatagram.toBytes, Bytes.pad_of_le h]
  simp only [← List.append_assoc]
  exact List.take_left' (by simp; omega)

/-- A call `UDP_Layer::Send(data, size, destIP, srcPort, destPort)` on
machine `host`. `rand` is what `rand()` returns in it and `checksum` what the
unset field of the struct holds. -/
structure Sent where
  host : Host
  rand : ℕ
  checksum : BitVec 16
  data : List Byte
  srcPort : ℤ
  destPort : ℤ
  size_le : data.length ≤ 65527
  port_nonneg : 0 ≤ destPort
  port_le : destPort ≤ 65535

namespace Sent

open IPLayer

variable (d : Sent) (dest : Host)

def identification : BitVec 16 := getRandomIdentification d.rand

/-- The datagram's bytes. -/
def bytes : List Byte := UDPLayer.datagram d.checksum d.data d.srcPort d.destPort

/-- The buffers `IP_Layer::Send` gives to the link layer, in order. -/
def emit : List (Bytes 1500) :=
  (UDPLayer.send d.host d.rand d.checksum d.data (ippool dest) d.srcPort d.destPort).map Prod.snd

/-- The key of its fragments at `dest`. -/
def key : Text := computeHash (ippool d.host) (ippool dest) d.identification.toNat

def num : ℕ := numOfFragments d.bytes.length

/-- Fragment `i` as the receiver stores it. -/
def piece (i : ℕ) : Fragment := ⟨decide (i < d.num - 1), Bytes.pad 1480 (chunk 1480 i d.bytes), i * 185⟩

/-! ### The bytes -/

theorem bytes_eq : d.bytes = le16 (BitVec.ofInt 16 d.srcPort) ++ (le16 (BitVec.ofInt 16 d.destPort) ++
    (le16 (BitVec.ofNat 16 (d.data.length + 8)) ++ (le16 d.checksum ++ d.data))) :=
  UDPLayer.datagram_eq (d.size_le.trans (by decide))

theorem length_bytes : d.bytes.length = d.data.length + 8 := by
  rw [bytes_eq]
  simp
  omega

/-- `UDP_Layer::Receive` on the datagram's bytes and whatever follows them:
the port, the size and the message that were sent. -/
theorem receive_bytes (z : List Byte) :
    (UDPLayer.receive (d.bytes ++ z)).port = d.destPort ∧
      (UDPLayer.receive (d.bytes ++ z)).size = d.data.length ∧
      (UDPLayer.receive (d.bytes ++ z)).data = d.data ++ z := by
  have hp0 := d.port_nonneg
  have hp1 := d.port_le
  have hs := d.size_le
  have hport : (ofLe16 ((d.bytes ++ z).drop 2)) = BitVec.ofInt 16 d.destPort := by
    rw [bytes_eq]
    exact ofLe16_le16 _ _
  have hlen : (ofLe16 ((d.bytes ++ z).drop 4)) = BitVec.ofNat 16 (d.data.length + 8) := by
    rw [bytes_eq]
    exact ofLe16_le16 _ _
  refine ⟨?_, ?_, ?_⟩
  · simp only [UDPLayer.receive, hport, BitVec.toNat_ofInt]
    omega
  · simp only [UDPLayer.receive, hlen, BitVec.toNat_ofNat]
    omega
  · rw [bytes_eq]
    rfl

/-! ### The fragments -/

theorem num_pos : 0 < d.num := by
  have := d.length_bytes
  unfold num numOfFragments payloadSize
  omega

theorem num_le : d.num ≤ 45 := by
  have := d.length_bytes
  have := d.size_le
  unfold num numOfFragments payloadSize
  omega

theorem length_le_num : d.bytes.length ≤ 1480 * d.num := by
  unfold num numOfFragments payloadSize
  omega

theorem emit_eq : d.emit dest =
    (List.range d.num).map fun i => (fragment d.host d.identification d.bytes (ippool dest) i).toBytes := by
  simp [emit, UDPLayer.send, IPLayer.send, num, bytes, identification]

theorem length_emit : (d.emit dest).length = d.num := by simp [emit_eq]

theorem get_emit (i : Fin (d.emit dest).length) : (d.emit dest).get i =
    (fragment d.host d.identification d.bytes (ippool dest) i).toBytes := by
  simp [emit_eq]

theorem fragOf_get_emit (i : Fin (d.emit dest).length) : fragOf ((d.emit dest).get i) = d.piece i := by
  have hi : i.1 < d.num := by simpa [length_emit] using i.2
  have hn := d.num_le
  rw [get_emit, fragOf, IPFragment.ofBytes_toBytes]
  have hmf : decide ((if i.1 < d.num - 1 then (1 : BitVec 1) else 0) = 1) = decide (i.1 < d.num - 1) := by
    by_cases h : i.1 < d.num - 1
    · simp [h]
    · simp [h]
  have hoff : (BitVec.ofNat 13 (i.1 * 1480 / 8)).toNat = i.1 * 185 := by
    rw [BitVec.toNat_ofNat]
    omega
  unfold piece
  rw [← hmf, ← hoff]
  rfl

theorem keyOf_get_emit (i : Fin (d.emit dest).length) : keyOf ((d.emit dest).get i) = d.key dest := by
  rw [get_emit, keyOf, IPFragment.ofBytes_toBytes]
  rfl

theorem keyOf_of_mem_emit {b : Bytes 1500} (hb : b ∈ d.emit dest) : keyOf b = d.key dest := by
  obtain ⟨i, rfl⟩ := List.get_of_mem hb
  exact d.keyOf_get_emit dest i

theorem flatten_pieces : ((List.range d.num).map fun i => (d.piece i).data.1).flatten =
    d.bytes ++ List.replicate (1480 * d.num - d.bytes.length) 0 :=
  flatten_chunks 1480 d.num d.bytes d.length_le_num

/-- Fragments of one datagram are complete only when they are all of them,
each once and in order. -/
theorem complete_pieces_iff {L : List ℕ} (hL : ∀ i ∈ L, i < d.num) :
    complete (L.map d.piece) = true ↔ L = List.range d.num :=
  complete_numbered_iff d.num_pos (fun _ _ => rfl) (fun _ _ => rfl) hL

/-! ### The key -/

/-- At one destination the key is the sender's address and the
identification. -/
theorem key_eq_iff (d' : Sent) : d.key dest = d'.key dest ↔
    ippool d.host = ippool d'.host ∧ d.identification = d'.identification := by
  constructor
  · intro h
    obtain ⟨h1, h2⟩ := computeHash_eq_iff.mp h
    exact ⟨eq_of_sums_eq h1, BitVec.eq_of_toNat_eq h2⟩
  · rintro ⟨h1, h2⟩
    unfold key
    rw [h1, h2]

end Sent

end Nachos
