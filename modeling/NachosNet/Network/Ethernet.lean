/-
# The two structs of a frame

A frame is built with the hosts' `struct Ethernet_Packet` (`network/post.h`)
and read at the switch with `struct Ethernet` (`Switch/ethernet.h`). Up to the
addresses the two agree. Behind them the switch has two more bytes of
`ethertype` and no `crc` before the payload, so its payload begins two bytes
earlier, in the hosts' `crc`, and its struct is two bytes longer than the frame.
-/
import NachosNet.Basis.Layout
import NachosNet.Network.Post

namespace Nachos

open Basis

inductive EthernetField
  | preamble
  | sfd
  | destMAC
  | srcMAC
  | ethertype
  | crc
  | payload
  deriving DecidableEq

/-- `struct Ethernet_Packet` of a host. -/
def ethernetPacket : Layout EthernetField :=
  [(.preamble, 7), (.sfd, 1), (.destMAC, 6), (.srcMAC, 6), (.ethertype, 2), (.crc, 4), (.payload, 1500)]

/-- `struct Ethernet` of the switch. -/
def ethernet : Layout EthernetField :=
  [(.preamble, 7), (.sfd, 1), (.destMAC, 6), (.srcMAC, 6), (.ethertype, 4), (.payload, 1500), (.crc, 4)]

def EthernetPacket.bytes (p : EthernetPacket) : EthernetField → List Byte
  | .preamble => p.preamble.1
  | .sfd => [p.sfd]
  | .destMAC => p.destMAC.1
  | .srcMAC => p.srcMAC.1
  | .ethertype => le16 p.ethertype
  | .crc => le32 p.crc
  | .payload => p.payload.1

theorem EthernetPacket.encode_bytes (p : EthernetPacket) : ethernetPacket.encode p.bytes = p.toBytes.1 := by
  simp [Layout.encode, ethernetPacket, bytes, toBytes]

theorem EthernetPacket.field_toBytes (p : EthernetPacket) (f : EthernetField) :
    ethernetPacket.field p.toBytes.1 f = p.bytes f := by
  rw [← p.encode_bytes, ← List.append_nil (Layout.encode _ _)]
  refine Layout.field_encode [] ethernetPacket (fun q hq => ?_) (by cases f <;> decide)
  simp only [ethernetPacket, List.mem_cons, List.not_mem_nil, or_false] at hq
  rcases hq with rfl | rfl | rfl | rfl | rfl | rfl | rfl
  · exact p.preamble.2
  · rfl
  · exact p.destMAC.2
  · exact p.srcMAC.2
  · rfl
  · rfl
  · exact p.payload.2

theorem field_ethernet (b : List Byte) {f : EthernetField} (hf : f = .destMAC ∨ f = .srcMAC) :
    ethernet.field b f = ethernetPacket.field b f := by
  rcases hf with rfl | rfl <;> rfl

theorem EthernetPacket.payload_ethernet (p : EthernetPacket) :
    ethernet.field p.toBytes.1 .payload = (le32 p.crc).drop 2 ++ p.payload.1.take 1498 := by
  have h : p.toBytes.1 = (p.preamble.1 ++ [p.sfd] ++ p.destMAC.1 ++ p.srcMAC.1 ++ le16 p.ethertype ++
      (le32 p.crc).take 2) ++ (((le32 p.crc).drop 2 ++ p.payload.1.take 1498) ++ p.payload.1.drop 1498) := by
    rw [← p.encode_bytes]
    simp [Layout.encode, ethernetPacket, bytes, le32]
  rw [h]
  refine take_drop_append _ _ _ ?_ ?_
  · simp only [List.length_append, p.preamble.2, p.destMAC.2, p.srcMAC.2, List.length_singleton, length_le16,
      List.length_take, length_le32]
    rfl
  · simp only [List.length_append, List.length_drop, length_le32, List.length_take, p.payload.2]
    rfl

theorem eq_replicate_of_shift {α : Type*} {a : α} {k : ℕ} (hk : 0 < k) {l : List α} {n : ℕ} (hl : l.length = n + k)
    (h : List.replicate k a ++ l.take n = l) : l = List.replicate (n + k) a := by
  refine List.eq_replicate_iff.mpr ⟨hl, fun b hb => ?_⟩
  obtain ⟨i, hi, rfl⟩ := List.mem_iff_getElem.mp hb
  clear hb
  induction i using Nat.strongRecOn with
  | ind i ih =>
    have hget : l[i]? = (List.replicate k a ++ l.take n)[i]? := by rw [h]
    by_cases hik : i < k
    · rw [List.getElem?_append_left (by simpa using hik), List.getElem?_replicate, if_pos hik,
        List.getElem?_eq_getElem hi] at hget
      exact Option.some.inj hget
    · have hlt : i - k < n := by omega
      rw [List.getElem?_append_right (by simpa using hik), List.length_replicate, List.getElem?_take, if_pos hlt,
        List.getElem?_eq_getElem hi, List.getElem?_eq_getElem (by omega)] at hget
      exact (Option.some.inj hget).trans (ih (i - k) (by omega) (by omega))

/-- For every frame of a host: the switch reads the addresses that the host
put there; for the payload it reads two zero bytes and all but the last two
bytes of the payload, which is the payload only if that is all zeros; and its
struct is two bytes larger. -/
theorem switch_reads_frame (hostName : Host) (data : Bytes 1500) (destMAC : MAC) :
    ethernet.field (EthernetLayer.send hostName data destMAC).1 .destMAC = destMAC.1 ∧
    ethernet.field (EthernetLayer.send hostName data destMAC).1 .srcMAC = (macpool hostName).1 ∧
    ethernet.field (EthernetLayer.send hostName data destMAC).1 .payload = [0, 0] ++ data.1.take 1498 ∧
    (ethernet.field (EthernetLayer.send hostName data destMAC).1 .payload = data.1 ↔
      data.1 = List.replicate 1500 0) ∧
    ethernetPacket.size = 1526 ∧ ethernet.size = 1528 := by
  have hpay : ethernet.field (EthernetLayer.send hostName data destMAC).1 .payload =
      [0, 0] ++ data.1.take 1498 := by
    unfold EthernetLayer.send
    rw [EthernetPacket.payload_ethernet]
    have hcrc : (le32 0).drop 2 = [0, 0] := by decide
    rw [hcrc]
  refine ⟨?_, ?_, hpay, ?_, rfl, rfl⟩
  · rw [field_ethernet _ (.inl rfl)]
    exact EthernetPacket.field_toBytes _ .destMAC
  · rw [field_ethernet _ (.inr rfl)]
    exact EthernetPacket.field_toBytes _ .srcMAC
  · rw [hpay]
    constructor
    · intro h
      exact eq_replicate_of_shift (k := 2) (n := 1498) (by decide) data.2 h
    · intro h
      rw [h, List.take_replicate]
      rfl

/-- A payload that starts with 1: the switch has it two bytes later. -/
theorem switch_shifts_payload :
    ethernet.field (EthernetLayer.send 0 (Bytes.pad 1500 [1]) (macpool 1)).1 .payload ≠ (Bytes.pad 1500 [1]).1 ∧
    (ethernet.field (EthernetLayer.send 0 (Bytes.pad 1500 [1]) (macpool 1)).1 .payload)[2]? = some 1 ∧
    ethernet.size ≠ ethernetPacket.size := by
  decide +kernel

end Nachos
