/-
# The network stack of a host

`network/post.cc`: the link, network and transport layers. A sender's
`UDPLayer.send` wraps the message into a datagram, `IPLayer.send` cuts the
datagram into fragments of 1480 bytes, and `EthernetLayer.send` puts each
into a frame. A receiver's `IPLayer.receive` keeps the fragments of each
datagram under a key in `fragmentDict`, arranged by offset; when those of a
key are complete `check` hands their bytes to `UDPLayer.receive`, which calls
`putData`.

Machine integers: the ports and sizes are `int`s and are cut to the header's
16-bit fields; the number of fragments is the exact quotient, rounded up.
-/
import NachosNet.Basis.Text
import NachosNet.Basis.Arrange
import NachosNet.Network.Packet
import Mathlib.Logic.Function.Basic

namespace Nachos

open Basis

/-- `Ethernet_Layer::Send`: the frame given to the network card. -/
def EthernetLayer.send (hostName : Host) (data : Bytes 1500) (destMAC : MAC) : Frame :=
  EthernetPacket.toBytes
    { preamble := ⟨List.replicate 7 0, rfl⟩, sfd := 0, destMAC := destMAC, srcMAC := macpool hostName,
      ethertype := 0x0800, crc := 0, payload := data }

namespace IPLayer

def payloadSize : ℕ := 1480

/-- `get_Random_Identification`, as a function of what `rand()` returns. -/
def getRandomIdentification (rand : ℕ) : BitVec 16 := BitVec.ofNat 16 (rand % (64 * 1024))

def charOf (b : Byte) : Char := Char.ofNat b.toNat

/-- The key of a datagram: per byte the sum of the two addresses, as a
`char`, and then the identification in decimal. -/
def computeHash (srcIP destIP : IP) (identification : ℕ) : Text :=
  List.zipWith (fun s d => charOf (s + d)) srcIP.1 destIP.1 ++ Nat.toDigits 10 identification

def numOfFragments (size : ℕ) : ℕ := (size + (payloadSize - 1)) / payloadSize

def fragment (hostName : Host) (identification : BitVec 16) (data : List Byte) (destIP : IP)
    (i : ℕ) : IPFragment where
  version := 4
  ihl := 5
  dscp := 0
  ecn := 0
  totalLength := BitVec.ofNat 16 (data.length + numOfFragments data.length * 20)
  identification := identification
  reserved := 0
  df := 0
  mf := if i < numOfFragments data.length - 1 then 1 else 0
  fragmentOffset := BitVec.ofNat 13 (i * payloadSize / 8)
  timeToLive := 1
  protocol := 17
  checksum := 0
  srcIP := ippool hostName
  destIP := destIP
  payload := Bytes.pad payloadSize (chunk payloadSize i data)

/-- `dest_machine`: the first entry of `ippool` equal to `destIP`. No entry
is the source's `-1`. -/
def destMachine (destIP : IP) : Option Host := (List.finRange 10).find? fun i => ippool i = destIP

/-- `IP_Layer::Send`: the calls of `ethernet_layer->Send`, as the index into
`macpool` and the buffer. -/
def send (hostName : Host) (rand : ℕ) (data : List Byte) (destIP : IP) :
    List (Option Host × Bytes 1500) :=
  (List.range (numOfFragments data.length)).map fun i =>
    (destMachine destIP, (fragment hostName (getRandomIdentification rand) data destIP i).toBytes)

structure Fragment where
  mf : Bool
  data : Bytes 1480
  offset : ℕ
  deriving DecidableEq

def Fragment.of (f : IPFragment) : Fragment := ⟨f.mf = 1, f.payload, f.fragmentOffset.toNat⟩

abbrev FragmentDict := Text → Option (List Fragment)

def emptyDict : FragmentDict := fun _ => none

def insertToMap (dict : FragmentDict) (key : Text) (f : IPFragment) : FragmentDict :=
  match dict key with
  | none => Function.update dict key (some [Fragment.of f])
  | some v => Function.update dict key (some (insertBy Fragment.offset (Fragment.of f) v))

/-- The first loop of `check`: `v[i].offset` is `i * 185` for every `i`. -/
def inOrder : ℕ → List Fragment → Bool
  | _, [] => true
  | i, f :: v => if f.offset ≠ i * 185 then false else inOrder (i + 1) v

/-- The fragments of a key are all there: none is missing in between, and the
last has `MF = 0`. `back()` of an empty vector has no meaning in the source;
`check` runs after `insertToMap`, which leaves a fragment in it. -/
def complete (v : List Fragment) : Bool :=
  inOrder 0 v && (v.getLast?.elim false fun f => f.mf = false)

/-- `check`: the map afterwards, and the buffer handed to `udp_layer->Receive`
if the fragments of `key` are complete. -/
def check (dict : FragmentDict) (key : Text) : FragmentDict × Option (List Byte) :=
  let v := (dict key).getD []
  if complete v then (Function.update dict key none, some (v.map fun f => f.data.1).flatten)
  else (dict, none)

def keyOf (data : Bytes 1500) : Text :=
  computeHash (IPFragment.ofBytes data).srcIP (IPFragment.ofBytes data).destIP
    (IPFragment.ofBytes data).identification.toNat

def receive (dict : FragmentDict) (data : Bytes 1500) : FragmentDict × Option (List Byte) :=
  check (insertToMap dict (keyOf data) (IPFragment.ofBytes data)) (keyOf data)

/-- `fragmentDict` after the arrivals `as`. -/
def after (dict : FragmentDict) (as : List (Bytes 1500)) : FragmentDict :=
  as.foldl (fun d b => (receive d b).1) dict

end IPLayer

namespace UDPLayer

/-- The call `UDP_Layer::Send` makes of `ip_layer->Send`: the first
`size + 8` bytes of the struct. `checksum` is what the uninitialised field
holds; `data` has at most the 65536 bytes of the struct. -/
def datagram (checksum : BitVec 16) (data : List Byte) (srcPort destPort : ℤ) : List Byte :=
  (UDPDatagram.toBytes
    { sourcePort := BitVec.ofInt 16 srcPort, destinationPort := BitVec.ofInt 16 destPort,
      length := BitVec.ofNat 16 (data.length + 8), checksum := checksum,
      data := Bytes.pad 65536 data }).1.take (data.length + 8)

def send (hostName : Host) (rand : ℕ) (checksum : BitVec 16) (data : List Byte) (destIP : IP)
    (srcPort destPort : ℤ) : List (Option Host × Bytes 1500) :=
  IPLayer.send hostName rand (datagram checksum data srcPort destPort) destIP

/-- A call `putData(data, size, port)`; `data` is all of the buffer from the
pointer on. -/
structure PutData where
  data : List Byte
  size : ℤ
  port : ℤ
  deriving DecidableEq

/-- `UDP_Layer::Receive`: the call of `putData`. -/
def receive (data : List Byte) : PutData where
  data := data.drop 8
  size := (ofLe16 (data.drop 4)).toNat - 8
  port := (ofLe16 (data.drop 2)).toNat

end UDPLayer

end Nachos
