/-
# Packets and their bytes

The packed structs of `network/post.h` and their bytes, in the layout of a
little-endian host (the first of two bit-fields is the low one), and the
address tables `macpool` and `ippool`. A struct cast from its own bytes is
the struct.

The switch (`Switch/ethernet.h`) has its own struct for the frame; the two
address fields are at the same offsets in both.
-/
import NachosNet.Basis.Bytes
import Mathlib.Data.Fin.VecNotation

namespace Nachos

open Basis

/-- A machine that has an entry in the address tables (`kernel->hostName`). -/
abbrev Host := Fin 10

instance neZero_hosts : NeZero (10 : ℕ) := ⟨by decide⟩

abbrev MAC := Bytes 6

abbrev IP := Bytes 4

def macpool : Host → MAC := ![
  ⟨[0xe5, 0xae, 0x32, 0x18, 0xd9, 0x21], rfl⟩,
  ⟨[0xd5, 0xae, 0x32, 0x18, 0xd9, 0x21], rfl⟩,
  ⟨[0xe5, 0x3e, 0x32, 0x18, 0xd9, 0x21], rfl⟩,
  ⟨[0xe5, 0xae, 0x34, 0x18, 0xd9, 0x21], rfl⟩,
  ⟨[0xe5, 0xa9, 0x32, 0x18, 0xd9, 0x21], rfl⟩,
  ⟨[0xe5, 0xae, 0x32, 0x58, 0xd9, 0x21], rfl⟩,
  ⟨[0xe5, 0xae, 0x32, 0x18, 0xa9, 0x21], rfl⟩,
  ⟨[0xe5, 0xae, 0x32, 0x28, 0xd9, 0x21], rfl⟩,
  ⟨[0xe5, 0xae, 0x66, 0x18, 0xd9, 0x21], rfl⟩,
  ⟨[0xe5, 0xae, 0x32, 0x99, 0xd9, 0x21], rfl⟩]

def ippool : Host → IP := ![
  ⟨[0xe5, 0xae, 0x32, 0x18], rfl⟩,
  ⟨[0xae, 0x32, 0x18, 0xd9], rfl⟩,
  ⟨[0x3e, 0x32, 0x18, 0xd9], rfl⟩,
  ⟨[0xae, 0x34, 0x18, 0xd9], rfl⟩,
  ⟨[0xa9, 0x32, 0x18, 0xd9], rfl⟩,
  ⟨[0xae, 0x32, 0x58, 0xd9], rfl⟩,
  ⟨[0xae, 0x32, 0x18, 0xa9], rfl⟩,
  ⟨[0xae, 0x32, 0x28, 0xd9], rfl⟩,
  ⟨[0xae, 0x66, 0x18, 0xd9], rfl⟩,
  ⟨[0xae, 0x32, 0x99, 0xd9], rfl⟩]

theorem macpool_inj : ∀ i j, macpool i = macpool j → i = j := by decide

/-! ### Ethernet -/

structure EthernetPacket where
  preamble : Bytes 7
  sfd : Byte
  destMAC : MAC
  srcMAC : MAC
  ethertype : BitVec 16
  crc : BitVec 32
  payload : Bytes 1500

/-- A frame as it goes through a socket. -/
abbrev Frame := Bytes 1526

namespace EthernetPacket

def toBytes (p : EthernetPacket) : Frame :=
  ⟨p.preamble.1 ++ ([p.sfd] ++ (p.destMAC.1 ++ (p.srcMAC.1 ++ (le16 p.ethertype ++
    (le32 p.crc ++ p.payload.1))))), by
    simp [p.preamble.2, p.destMAC.2, p.srcMAC.2, p.payload.2]⟩

end EthernetPacket

/-- The `destMAC` of a frame, where both structs have it. -/
def Frame.destMAC (b : Frame) : MAC := b.slice 8 6 (by decide)

/-- The `srcMAC` of a frame, where both structs have it. -/
def Frame.srcMAC (b : Frame) : MAC := b.slice 14 6 (by decide)

/-- The payload of a frame, as the hosts' struct has it. -/
def Frame.payload (b : Frame) : Bytes 1500 := b.slice 26 1500 (by decide)

theorem Frame.destMAC_toBytes (p : EthernetPacket) : Frame.destMAC p.toBytes = p.destMAC := by
  apply Subtype.ext
  have h : p.toBytes.1 = (p.preamble.1 ++ [p.sfd]) ++ (p.destMAC.1 ++ (p.srcMAC.1 ++
      (le16 p.ethertype ++ (le32 p.crc ++ p.payload.1)))) := by
    simp [EthernetPacket.toBytes]
  simp only [Frame.destMAC, Bytes.slice, h]
  exact take_drop_append _ _ _ (by simp [p.preamble.2]) p.destMAC.2

theorem Frame.srcMAC_toBytes (p : EthernetPacket) : Frame.srcMAC p.toBytes = p.srcMAC := by
  apply Subtype.ext
  have h : p.toBytes.1 = (p.preamble.1 ++ [p.sfd] ++ p.destMAC.1) ++ (p.srcMAC.1 ++
      (le16 p.ethertype ++ (le32 p.crc ++ p.payload.1))) := by
    simp [EthernetPacket.toBytes]
  simp only [Frame.srcMAC, Bytes.slice, h]
  exact take_drop_append _ _ _ (by simp [p.preamble.2, p.destMAC.2]) p.srcMAC.2

theorem Frame.payload_toBytes (p : EthernetPacket) : Frame.payload p.toBytes = p.payload := by
  apply Subtype.ext
  have h : p.toBytes.1 = (p.preamble.1 ++ [p.sfd] ++ p.destMAC.1 ++ p.srcMAC.1 ++
      le16 p.ethertype ++ le32 p.crc) ++ (p.payload.1 ++ []) := by
    simp [EthernetPacket.toBytes]
  simp only [Frame.payload, Bytes.slice, h]
  exact take_drop_append _ _ _ (by simp [p.preamble.2, p.destMAC.2, p.srcMAC.2]) p.payload.2

/-! ### IP -/

@[ext] structure IPFragment where
  version : BitVec 4
  ihl : BitVec 4
  dscp : BitVec 6
  ecn : BitVec 2
  totalLength : BitVec 16
  identification : BitVec 16
  reserved : BitVec 1
  df : BitVec 1
  mf : BitVec 1
  fragmentOffset : BitVec 13
  timeToLive : BitVec 8
  protocol : BitVec 8
  checksum : BitVec 16
  srcIP : IP
  destIP : IP
  payload : Bytes 1480
  deriving DecidableEq

namespace IPFragment

/-- The 12 bytes before the addresses. -/
def header (f : IPFragment) : List Byte :=
  [f.ihl ++ f.version, f.ecn ++ f.dscp] ++ (le16 f.totalLength ++ (le16 f.identification ++
    (le16 (f.fragmentOffset ++ f.mf ++ f.df ++ f.reserved) ++ ([f.timeToLive, f.protocol] ++
      le16 f.checksum))))

def toBytes (f : IPFragment) : Bytes 1500 :=
  ⟨f.header ++ (f.srcIP.1 ++ (f.destIP.1 ++ f.payload.1)), by
    simp [header, f.srcIP.2, f.destIP.2, f.payload.2]⟩

/-- The cast of a received buffer. -/
def ofBytes (b : Bytes 1500) : IPFragment where
  version := (b.1.getD 0 0).extractLsb' 0 4
  ihl := (b.1.getD 0 0).extractLsb' 4 4
  dscp := (b.1.getD 1 0).extractLsb' 0 6
  ecn := (b.1.getD 1 0).extractLsb' 6 2
  totalLength := ofLe16 (b.1.drop 2)
  identification := ofLe16 (b.1.drop 4)
  reserved := (ofLe16 (b.1.drop 6)).extractLsb' 0 1
  df := (ofLe16 (b.1.drop 6)).extractLsb' 1 1
  mf := (ofLe16 (b.1.drop 6)).extractLsb' 2 1
  fragmentOffset := (ofLe16 (b.1.drop 6)).extractLsb' 3 13
  timeToLive := b.1.getD 8 0
  protocol := b.1.getD 9 0
  checksum := ofLe16 (b.1.drop 10)
  srcIP := b.slice 12 4 (by decide)
  destIP := b.slice 16 4 (by decide)
  payload := b.slice 20 1480 (by decide)

/-- The flags and the offset in their 16-bit unit. -/
theorem flags (f : IPFragment) : ofLe16 (f.toBytes.1.drop 6) =
    f.fragmentOffset ++ f.mf ++ f.df ++ f.reserved :=
  ofLe16_le16 _ _

theorem ofBytes_toBytes (f : IPFragment) : ofBytes f.toBytes = f := by
  have hsrc : (f.toBytes.1.drop 12).take 4 = f.srcIP.1 :=
    take_drop_append f.header f.srcIP.1 _ (by simp [header]) f.srcIP.2
  have hdst : (f.toBytes.1.drop 16).take 4 = f.destIP.1 := by
    have h : f.toBytes.1 = (f.header ++ f.srcIP.1) ++ (f.destIP.1 ++ f.payload.1) := by
      simp [toBytes]
    rw [h]
    exact take_drop_append _ _ _ (by simp [header, f.srcIP.2]) f.destIP.2
  have hpay : (f.toBytes.1.drop 20).take 1480 = f.payload.1 := by
    have h : f.toBytes.1 = (f.header ++ f.srcIP.1 ++ f.destIP.1) ++ (f.payload.1 ++ []) := by
      simp [toBytes]
    rw [h]
    exact take_drop_append _ _ _ (by simp [header, f.srcIP.2, f.destIP.2]) f.payload.2
  apply IPFragment.ext
  · exact BitVec.extractLsb'_append_eq_right
  · exact BitVec.extractLsb'_append_eq_left
  · exact BitVec.extractLsb'_append_eq_right
  · exact BitVec.extractLsb'_append_eq_left
  · exact ofLe16_le16 _ _
  · exact ofLe16_le16 _ _
  · simp only [ofBytes, flags]
    exact BitVec.extractLsb'_append_eq_right
  · simp only [ofBytes, flags]
    rw [BitVec.extractLsb'_append_eq_of_le (by decide)]
    exact BitVec.extractLsb'_append_eq_right
  · simp only [ofBytes, flags]
    rw [BitVec.extractLsb'_append_eq_of_le (by decide), BitVec.extractLsb'_append_eq_of_le (by decide)]
    exact BitVec.extractLsb'_append_eq_right
  · simp only [ofBytes, flags]
    rw [BitVec.extractLsb'_append_eq_of_le (by decide), BitVec.extractLsb'_append_eq_of_le (by decide)]
    exact BitVec.extractLsb'_append_eq_left
  · rfl
  · rfl
  · exact ofLe16_le16 _ _
  · exact Subtype.ext hsrc
  · exact Subtype.ext hdst
  · exact Subtype.ext hpay

end IPFragment

/-! ### UDP -/

structure UDPDatagram where
  sourcePort : BitVec 16
  destinationPort : BitVec 16
  length : BitVec 16
  checksum : BitVec 16
  data : Bytes 65536

namespace UDPDatagram

def toBytes (d : UDPDatagram) : Bytes 65544 :=
  ⟨le16 d.sourcePort ++ (le16 d.destinationPort ++ (le16 d.length ++ (le16 d.checksum ++ d.data.1))), by
    simp [d.data.2]⟩

end UDPDatagram

end Nachos
