/-
# Files on the disk

`FileHeader` of `filesys/filehdr.cc` and the `OpenFile` of `filesys/openfile.cc`
that works on it: a file is a header in a sector of its own and the data sectors
that it lists. `ReadAt` and `WriteAt` go through a buffer of whole sectors; what a
buffer holds before is `unset`. Sizes and positions are any `int`. A file of the
disk is seen through its header as the bytes `byteAt`:

* `readAt_eq`: `ReadAt` gives the bytes of the range, as far as the file goes.
* `writeAt_eq`: `WriteAt` at a position that is not negative replaces the bytes of
  the range and keeps the other bytes of the file and all other sectors.

`dataSectors` lies behind `numBytes` and `numSectors`, so `dataSectors[-1]` is
`numSectors`. An access outside of the header or of a buffer, and an assertion that
fails, is `none`.

Key definitions: `FileHeader`, `FileHeader.readAt`, `FileHeader.writeAt`, `FileHeader.Ok`, `FileHeader.Covers`.
-/
import NachosNet.Basis.Int32
import NachosNet.Basis.Memory

namespace Nachos

open Basis

namespace OnDisk

def SectorSize : ℕ := 128

/-- `SectorsPerTrack * NumTracks` -/
def NumSectors : ℕ := 1024

/-- `(SectorSize - 2 * sizeof(int)) / sizeof(int)` -/
def NumDirect : ℕ := 30

/-- `NumDirect * SectorSize` -/
def MaxFileSize : ℕ := 3840

/-- The bytes of each sector. -/
abbrev Disk := ℕ → ℕ → Byte

/-- `ReadSector`, with the assertion on its argument. -/
def readSector (d : Disk) (sectorNumber : ℤ) : Option (ℕ → Byte) :=
  if 0 ≤ sectorNumber ∧ sectorNumber < NumSectors then some (d sectorNumber.toNat) else none

def writeSector (d : Disk) (sectorNumber : ℤ) (data : ℕ → Byte) : Option Disk :=
  if 0 ≤ sectorNumber ∧ sectorNumber < NumSectors then some (Function.update d sectorNumber.toNat data) else none

/-- `bcopy(source, &buf[off], n)` for a buffer of `size` bytes. -/
def copyIn (buf : ℕ → Byte) (size off n : ℤ) (source : ℕ → Byte) : Option (ℕ → Byte) :=
  if 0 ≤ off ∧ 0 ≤ n ∧ off + n ≤ size then some (overlay buf off.toNat n.toNat source) else none

/-- `bcopy(&buf[off], into, n)` -/
def copyOut (buf : ℕ → Byte) (size off n : ℤ) : Option (ℕ → Byte) :=
  if 0 ≤ off ∧ 0 ≤ n ∧ off + n ≤ size then some fun x => buf (off.toNat + x) else none

structure FileHeader where
  numBytes : BitVec 32
  numSectors : BitVec 32
  dataSectors : {l : List (BitVec 32) // l.length = NumDirect}
deriving DecidableEq

namespace FileHeader

/-- The header as it lies in memory. -/
def fields (h : FileHeader) : List (BitVec 32) := h.numBytes :: h.numSectors :: h.dataSectors.1

def bytes (h : FileHeader) : ℕ → Byte := ofWords h.fields

/-- `FetchFrom` a sector with these bytes. -/
def ofBytes (f : ℕ → Byte) : FileHeader :=
  ⟨word f 0, word f 4, ⟨words (fun x => f (8 + x)) NumDirect, length_words _ _⟩⟩

/-- `dataSectors[i]` -/
def dataSector (h : FileHeader) (i : ℤ) : Option ℤ :=
  if 0 ≤ i + 2 ∧ i + 2 < 2 + NumDirect then some (h.fields.getD (i + 2).toNat 0).toInt else none

def byteToSector (h : FileHeader) (offset : ℤ) : Option ℤ := h.dataSector (offset.tdiv SectorSize)

/-- `numBytes` in `ReadAt` and `WriteAt` after the check of the request. -/
def clip (h : FileHeader) (numBytes position : ℤ) : ℤ :=
  if h.numBytes.toInt < toInt (position + numBytes) then toInt (h.numBytes.toInt - position) else numBytes

def lastSector (numBytes position : ℤ) : ℤ := (toInt (toInt (position + numBytes) - 1)).tdiv SectorSize

/-- The loop of `ReadAt` over the sectors from `first` on: `k` are left, and `j` have been read. -/
def readSectors (d : Disk) (h : FileHeader) (first : ℤ) : ℕ → ℕ → (ℕ → Byte) → Option (ℕ → Byte)
  | 0, _, buf => some buf
  | k + 1, j, buf => (h.byteToSector ((first + j) * SectorSize)).bind fun s => (readSector d s).bind fun data =>
      readSectors d h first k (j + 1) (overlay buf (j * SectorSize) SectorSize data)

/-- `ReadAt`: the result, and the bytes that were read. -/
def readAt (d : Disk) (h : FileHeader) (unset : ℕ → Byte) (numBytes position : ℤ) : Option (ℤ × (ℕ → Byte)) :=
  if numBytes ≤ 0 ∨ h.numBytes.toInt ≤ position then some (0, unset)
  else
    let numBytes := h.clip numBytes position
    let firstSector := position.tdiv SectorSize
    let numSectors := 1 + lastSector numBytes position - firstSector
    let size := toInt (numSectors * SectorSize)
    if size < 0 then none
    else (readSectors d h firstSector numSectors.toNat 0 unset).bind fun buf =>
      (copyOut buf size (position - firstSector * SectorSize) numBytes).map fun into => (numBytes, into)

/-- The loop of `WriteAt` over the sectors from `first` on. -/
def writeSectors (h : FileHeader) (buf : ℕ → Byte) (first : ℤ) : ℕ → ℕ → Disk → Option Disk
  | 0, _, d => some d
  | k + 1, j, d => (h.byteToSector ((first + j) * SectorSize)).bind fun s =>
      (writeSector d s fun x => buf (j * SectorSize + x)).bind (writeSectors h buf first k (j + 1))

/-- A sector that is written in part is read before. -/
def fill (d : Disk) (h : FileHeader) (unset buf : ℕ → Byte) (size off position : ℤ) : Option (ℕ → Byte) :=
  (h.readAt d unset SectorSize position).bind fun r => copyIn buf size off r.1 r.2

/-- The buffer of `WriteAt` with its first and its last sector, where they are written in part. -/
def readEdges (d : Disk) (h : FileHeader) (unset : ℕ → Byte) (size firstSector lastSector : ℤ)
    (firstAligned lastAligned : Bool) : Option (ℕ → Byte) :=
  (if firstAligned then some unset else h.fill d unset unset size 0 (firstSector * SectorSize)).bind fun buf =>
    if ¬ lastAligned ∧ (firstSector ≠ lastSector ∨ firstAligned) then
      h.fill d unset buf size ((lastSector - firstSector) * SectorSize) (lastSector * SectorSize)
    else some buf

/-- `WriteAt`: the result and the disk afterwards. -/
def writeAt (d : Disk) (h : FileHeader) (unset source : ℕ → Byte) (numBytes position : ℤ) : Option (ℤ × Disk) :=
  if numBytes ≤ 0 ∨ h.numBytes.toInt ≤ position then some (0, d)
  else
    let numBytes := h.clip numBytes position
    let firstSector := position.tdiv SectorSize
    let lastSector := lastSector numBytes position
    let numSectors := 1 + lastSector - firstSector
    let size := toInt (numSectors * SectorSize)
    let firstAligned := position = firstSector * SectorSize
    let lastAligned := toInt (position + numBytes) = (lastSector + 1) * SectorSize
    if size < 0 then none
    else (h.readEdges d unset size firstSector lastSector firstAligned lastAligned).bind fun buf =>
      (copyIn buf size (position - firstSector * SectorSize) numBytes source).bind fun buf =>
      (writeSectors h buf firstSector numSectors.toNat 0 d).map fun d => (numBytes, d)

/-! ### The file behind a header -/

theorem ofBytes_bytes (h : FileHeader) : ofBytes h.bytes = h := by
  have hbytes : ∀ i, word h.bytes (4 * i) = h.fields.getD i 0 := word_ofWords h.fields
  have hdata : words (fun x => h.bytes (8 + x)) NumDirect = h.dataSectors.1 := by
    have hshift : (fun x => h.bytes (8 + x)) = ofWords h.dataSectors.1 := by
      funext x
      unfold bytes ofWords fields
      rw [show (8 + x) / 4 = x / 4 + 1 + 1 by omega, show (8 + x) % 4 = x % 4 by omega, List.getD_cons_succ,
        List.getD_cons_succ]
    rw [hshift, words_ofWords h.dataSectors.2]
  unfold ofBytes
  rw [hbytes 0, hbytes 1]
  exact congrArg (FileHeader.mk _ _) (Subtype.ext hdata)

/-- The number of data sector `i`. -/
def sector (h : FileHeader) (i : ℕ) : ℕ := (h.dataSectors.1.getD i 0).toNat

def sectors (h : FileHeader) : List ℕ := (h.dataSectors.1.take h.numSectors.toNat).map BitVec.toNat

/-- Byte `x` of the file. -/
def byteAt (d : Disk) (h : FileHeader) (x : ℕ) : Byte := d (h.sector (x / SectorSize)) (x % SectorSize)

/-- A header as `Allocate` makes it. -/
structure Ok (h : FileHeader) : Prop where
  length_le : h.numBytes.toNat ≤ MaxFileSize
  numSectors_eq : h.numSectors.toNat = (h.numBytes.toNat + (SectorSize - 1)) / SectorSize
  in_range : ∀ s ∈ h.sectors, s < NumSectors
  nodup : h.sectors.Nodup

/-- The data sectors are different sectors of the disk, and the length of the file has room in them. -/
structure Covers (h : FileHeader) : Prop where
  length_le_sectors : h.numBytes.toNat ≤ h.numSectors.toNat * SectorSize
  numSectors_le : h.numSectors.toNat ≤ NumDirect
  in_range : ∀ s ∈ h.sectors, s < NumSectors
  nodup : h.sectors.Nodup

variable {h : FileHeader} {d : Disk}

theorem Ok.covers (ho : h.Ok) : h.Covers := by
  have hlen := ho.length_le
  have hnum := ho.numSectors_eq
  refine ⟨?_, ?_, ho.in_range, ho.nodup⟩
  · unfold SectorSize at *
    omega
  · unfold MaxFileSize at hlen
    unfold SectorSize at hnum
    unfold NumDirect
    omega

theorem Covers.length_le (hc : h.Covers) : h.numBytes.toNat ≤ MaxFileSize :=
  hc.length_le_sectors.trans (Nat.mul_le_mul_right SectorSize hc.numSectors_le)

theorem Covers.toInt_numBytes (hc : h.Covers) : h.numBytes.toInt = h.numBytes.toNat := by
  have := hc.length_le
  unfold MaxFileSize at this
  exact BitVec.toInt_eq_toNat_of_lt (by omega)

theorem Covers.getElem?_sectors (hc : h.Covers) {i : ℕ} (hi : i < h.numSectors.toNat) :
    h.sectors[i]? = some (h.sector i) := by
  have hlen : i < h.dataSectors.1.length := by
    rw [h.dataSectors.2]
    exact hi.trans_le hc.numSectors_le
  unfold sectors sector
  simp [hi, hlen]

theorem Covers.sector_mem (hc : h.Covers) {i : ℕ} (hi : i < h.numSectors.toNat) : h.sector i ∈ h.sectors :=
  List.mem_of_getElem? (hc.getElem?_sectors hi)

theorem Covers.sector_inj (hc : h.Covers) {i j : ℕ} (hi : i < h.numSectors.toNat) (hj : j < h.numSectors.toNat)
    (he : h.sector i = h.sector j) : i = j := by
  have hl : i < h.sectors.length := (List.getElem?_eq_some_iff.mp (hc.getElem?_sectors hi)).1
  refine (List.getElem?_inj hl hc.nodup).mp ?_
  rw [hc.getElem?_sectors hi, hc.getElem?_sectors hj, he]

theorem Covers.byteToSector_eq (hc : h.Covers) {i : ℕ} (hi : i < h.numSectors.toNat) :
    h.byteToSector (i * SectorSize) = some (h.sector i : ℤ) ∧ h.sector i < NumSectors := by
  have hlt := hc.in_range _ (hc.sector_mem hi)
  refine ⟨?_, hlt⟩
  have hdiv : (i * SectorSize : ℤ).tdiv SectorSize = i := Int.mul_tdiv_cancel _ (by decide)
  have hle := hc.numSectors_le
  unfold byteToSector dataSector
  rw [hdiv, if_pos (by omega)]
  have hfield : h.fields.getD ((i : ℤ) + 2).toNat 0 = h.dataSectors.1.getD i 0 := by
    unfold fields
    rw [show ((i : ℤ) + 2).toNat = i + 1 + 1 by omega, List.getD_cons_succ, List.getD_cons_succ]
  rw [hfield]
  unfold sector at hlt ⊢
  unfold NumSectors at hlt
  rw [BitVec.toInt_eq_toNat_of_lt (by omega)]

theorem readSector_eq {s : ℕ} (hs : s < NumSectors) : readSector d s = some (d s) := by
  unfold readSector
  rw [if_pos ⟨Int.natCast_nonneg s, Int.ofNat_lt.mpr hs⟩, Int.toNat_natCast]

theorem writeSector_eq {s : ℕ} (hs : s < NumSectors) (data : ℕ → Byte) :
    writeSector d s data = some (Function.update d s data) := by
  unfold writeSector
  rw [if_pos ⟨Int.natCast_nonneg s, Int.ofNat_lt.mpr hs⟩, Int.toNat_natCast]

theorem readSectors_eq (hc : h.Covers) (f : ℕ) : ∀ (k j : ℕ) (buf : ℕ → Byte), f + j + k ≤ h.numSectors.toNat →
    ∃ buf', readSectors d h f k j buf = some buf' ∧
      (∀ x, j * SectorSize ≤ x → x < (j + k) * SectorSize →
        buf' x = d (h.sector (f + x / SectorSize)) (x % SectorSize)) ∧
      ∀ x, x < j * SectorSize → buf' x = buf x
  | 0, j, buf, _ => ⟨buf, rfl, fun x hx hx' => absurd hx (not_le.mpr hx'), fun _ _ => rfl⟩
  | k + 1, j, buf, hle => by
    obtain ⟨hsec, hlt⟩ := hc.byteToSector_eq (show f + j < h.numSectors.toNat by omega)
    obtain ⟨buf', hrun, hin, hbefore⟩ := readSectors_eq hc f k (j + 1)
      (overlay buf (j * SectorSize) SectorSize (d (h.sector (f + j)))) (by omega)
    refine ⟨buf', ?_, fun x hx hx' => ?_, fun x hx => ?_⟩
    · unfold readSectors
      rw [← Nat.cast_add, hsec, Option.bind_some, readSector_eq hlt, Option.bind_some]
      exact hrun
    · by_cases hj : (j + 1) * SectorSize ≤ x
      · exact hin x hj (by unfold SectorSize at *; omega)
      · have hx1 : x < j * SectorSize + SectorSize := by unfold SectorSize at *; omega
        have hdiv : x / SectorSize = j := by unfold SectorSize at *; omega
        have hmod : x - j * SectorSize = x % SectorSize := by unfold SectorSize at *; omega
        rw [hbefore x (not_le.mp hj), overlay_of_mem hx hx1, hdiv, hmod]
    · rw [hbefore x (by unfold SectorSize at *; omega), overlay_of_notMem (Or.inl hx)]

theorem writeSectors_eq (hc : h.Covers) (buf : ℕ → Byte) (f : ℕ) : ∀ (k j : ℕ) (d : Disk),
    f + j + k ≤ h.numSectors.toNat → ∃ d', writeSectors h buf f k j d = some d' ∧
      (∀ i, j ≤ i → i < j + k → d' (h.sector (f + i)) = fun x => buf (i * SectorSize + x)) ∧
      ∀ s, (∀ i, j ≤ i → i < j + k → s ≠ h.sector (f + i)) → d' s = d s
  | 0, j, d, _ => ⟨d, rfl, fun i hi hi' => by omega, fun _ _ => rfl⟩
  | k + 1, j, d, hle => by
    obtain ⟨hsec, hlt⟩ := hc.byteToSector_eq (show f + j < h.numSectors.toNat by omega)
    obtain ⟨d', hrun, hin, hother⟩ := writeSectors_eq hc buf f k (j + 1)
      (Function.update d (h.sector (f + j)) fun x => buf (j * SectorSize + x)) (by omega)
    refine ⟨d', ?_, fun i hi hi' => ?_, fun s hs => ?_⟩
    · unfold writeSectors
      rw [← Nat.cast_add, hsec, Option.bind_some, writeSector_eq hlt, Option.bind_some]
      exact hrun
    · rcases hi.lt_or_eq with hji | rfl
      · exact hin i hji (by omega)
      · -- the sectors that follow are others
        rw [hother, Function.update_self]
        intro i hi hi' he
        have := hc.sector_inj (by omega) (by omega) he
        omega
    · rw [hother s fun i hi hi' => hs i (by omega) (by omega), Function.update_of_ne (hs j le_rfl (by omega))]

/-! ### Requests inside the file -/

/-- The bytes of a request that the file has. -/
def inFile (h : FileHeader) (n p : ℕ) : ℕ := min n (h.numBytes.toNat - p)

theorem clip_eq (hc : h.Covers) {n p : ℕ} (hp : p < h.numBytes.toNat) (hmax : (p + n : ℤ) ≤ maxInt) :
    h.clip n p = (h.inFile n p : ℕ) := by
  have hlen := hc.length_le
  unfold MaxFileSize at hlen
  unfold maxInt at hmax
  unfold clip inFile
  rw [hc.toInt_numBytes, toInt_eq (by unfold minInt; omega) hmax,
    toInt_eq (by unfold minInt; omega) (by unfold maxInt; omega)]
  split <;> omega

theorem lastSector_eq {n p : ℕ} (hn : 0 < n) (hmax : (p + n : ℤ) ≤ maxInt) :
    lastSector n p = ((p + n - 1) / SectorSize : ℕ) := by
  unfold lastSector
  rw [toInt_eq (by unfold minInt; omega) hmax, toInt_eq (by unfold minInt; omega) (by omega),
    show (p + n - 1 : ℤ) = ((p + n - 1 : ℕ) : ℤ) by omega, ← Int.ofNat_tdiv]

/-- The number of sectors of a range. -/
def span (n p : ℕ) : ℕ := (p + n - 1) / SectorSize + 1 - p / SectorSize

theorem add_span {n p : ℕ} (hn : 0 < n) : p / SectorSize + span n p = (p + n - 1) / SectorSize + 1 := by
  unfold span SectorSize
  omega

theorem tdiv_eq (p : ℕ) : (p : ℤ).tdiv SectorSize = (p / SectorSize : ℕ) := (Int.ofNat_tdiv p SectorSize).symm

theorem numSectors_eq {n p : ℕ} (hn : 0 < n) (hmax : (p + n : ℤ) ≤ maxInt) :
    1 + lastSector n p - (p / SectorSize : ℕ) = (span n p : ℕ) := by
  rw [lastSector_eq hn hmax]
  have := @add_span n p hn
  omega

theorem offset_eq (p : ℕ) : (p : ℤ) - (p / SectorSize : ℕ) * SectorSize = (p % SectorSize : ℕ) := by
  unfold SectorSize
  omega

theorem size_eq {k : ℕ} (hk : k ≤ NumDirect) : toInt ((k : ℤ) * SectorSize) = (k * SectorSize : ℕ) := by
  unfold NumDirect at hk
  unfold SectorSize
  rw [toInt_eq (by unfold minInt; omega) (by unfold maxInt; omega)]
  omega

theorem byteAt_add (d : Disk) (h : FileHeader) (p x : ℕ) : h.byteAt d (p + x) =
    d (h.sector (p / SectorSize + (p % SectorSize + x) / SectorSize)) ((p % SectorSize + x) % SectorSize) := by
  have hdiv : (p + x) / SectorSize = p / SectorSize + (p % SectorSize + x) / SectorSize := by
    unfold SectorSize
    omega
  have hmod : (p + x) % SectorSize = (p % SectorSize + x) % SectorSize := by
    unfold SectorSize
    omega
  unfold byteAt
  rw [hdiv, hmod]

theorem inFile_pos {n p : ℕ} (hn : 0 < n) (hp : p < h.numBytes.toNat) : 0 < h.inFile n p := by
  unfold inFile
  omega

theorem add_inFile_le {n p : ℕ} (hp : p < h.numBytes.toNat) : p + h.inFile n p ≤ h.numBytes.toNat := by
  unfold inFile
  omega

theorem Covers.span_le (hc : h.Covers) {n p : ℕ} (hn : 0 < n) (hle : p + n ≤ h.numBytes.toNat) :
    p / SectorSize + span n p ≤ h.numSectors.toNat := by
  rw [add_span hn]
  have hlen := hc.length_le_sectors
  unfold SectorSize at *
  omega

theorem Covers.add_le_maxInt (hc : h.Covers) {n p : ℕ} (hle : p + n ≤ h.numBytes.toNat) : (p + n : ℤ) ≤ maxInt := by
  have := hc.length_le
  unfold MaxFileSize at this
  unfold maxInt
  omega

theorem readAt_eq (hc : h.Covers) (unset : ℕ → Byte) {n p : ℕ} (hn : 0 < n) (hp : p < h.numBytes.toNat)
    (hmax : (p + n : ℤ) ≤ maxInt) : ∃ f, h.readAt d unset n p = some ((h.inFile n p : ℤ), f) ∧
      ∀ x < h.inFile n p, f x = h.byteAt d (p + x) := by
  have hq := inFile_pos hn hp
  have hle := @add_inFile_le h n p hp
  have hqmax := hc.add_le_maxInt hle
  have hspan := hc.span_le hq hle
  have hadd := @add_span (h.inFile n p) p hq
  obtain ⟨buf, hrun, hin, -⟩ := @readSectors_eq h d hc (p / SectorSize) (span (h.inFile n p) p) 0 unset (by omega)
  have hsize := size_eq (((Nat.le_add_left _ _).trans hspan).trans hc.numSectors_le)
  have hfits : p % SectorSize + h.inFile n p ≤ span (h.inFile n p) p * SectorSize := by
    unfold SectorSize at *
    omega
  refine ⟨fun x => buf (p % SectorSize + x), ?_, fun x hx => ?_⟩
  · unfold readAt
    rw [if_neg (by rw [hc.toInt_numBytes]; omega)]
    simp only [clip_eq hc hp hmax, tdiv_eq, numSectors_eq hq hqmax, hsize, offset_eq, Int.toNat_natCast]
    rw [if_neg (by omega), hrun, Option.bind_some]
    unfold copyOut
    rw [if_pos (by omega)]
    rfl
  · rw [Nat.zero_add, Nat.zero_mul] at hin
    exact (hin _ (Nat.zero_le _) (by omega)).trans (byteAt_add d h p x).symm

theorem fill_eq (hc : h.Covers) (unset buf : ℕ → Byte) {i off size : ℕ} (hi : i * SectorSize < h.numBytes.toNat)
    (hfit : off + SectorSize ≤ size) :
    ∃ buf', h.fill d unset buf size off ((i * SectorSize : ℕ) : ℤ) = some buf' ∧
      (∀ x, off ≤ x → x < off + SectorSize → i * SectorSize + (x - off) < h.numBytes.toNat →
        buf' x = h.byteAt d (i * SectorSize + (x - off))) ∧
      ∀ x, x < off → buf' x = buf x := by
  have hmax : ((i * SectorSize : ℕ) + SectorSize : ℤ) ≤ maxInt := by
    have := hc.length_le
    unfold MaxFileSize at this
    unfold maxInt
    unfold SectorSize at *
    omega
  obtain ⟨f, hread, hf⟩ := @readAt_eq h d hc unset SectorSize _ (by decide) hi hmax
  have hin : h.inFile SectorSize (i * SectorSize) ≤ SectorSize := Nat.min_le_left _ _
  refine ⟨overlay buf off (h.inFile SectorSize (i * SectorSize)) f, ?_, fun x hx hx' hlt => ?_, fun x hx => ?_⟩
  · unfold fill
    rw [hread, Option.bind_some]
    unfold copyIn
    rw [if_pos (by omega)]
    rfl
  · have hx'' : x - off < h.inFile SectorSize (i * SectorSize) := by
      unfold inFile
      omega
    rw [overlay_of_mem hx (by omega), hf _ hx'']
  · exact overlay_of_notMem (Or.inl hx)

/-- A buffer for `q` bytes at `p` has the bytes of the file around the range. -/
def Surrounds (h : FileHeader) (d : Disk) (q p : ℕ) (buf : ℕ → Byte) : Prop :=
  ∀ y < span q p * SectorSize, p / SectorSize * SectorSize + y < h.numBytes.toNat →
    y < p % SectorSize ∨ p % SectorSize + q ≤ y → buf y = h.byteAt d (p / SectorSize * SectorSize + y)

theorem readEdges_eq (hc : h.Covers) (unset : ℕ → Byte) {q p : ℕ} (hq : 0 < q) (hle : p + q ≤ h.numBytes.toNat) :
    ∃ buf, h.readEdges d unset (span q p * SectorSize : ℕ) (p / SectorSize : ℕ) ((p + q - 1) / SectorSize : ℕ)
        (p % SectorSize = 0) ((p + q) % SectorSize = 0) = some buf ∧ h.Surrounds d q p buf := by
  have hadd := @add_span q p hq
  unfold readEdges
  -- the first sector
  obtain ⟨b, hb, hfirst⟩ : ∃ b, (if (decide (p % SectorSize = 0) : Bool) then some unset
      else h.fill d unset unset (span q p * SectorSize : ℕ) 0 ((p / SectorSize : ℕ) * SectorSize)) = some b ∧
      (p % SectorSize ≠ 0 → ∀ y < SectorSize, p / SectorSize * SectorSize + y < h.numBytes.toNat →
        b y = h.byteAt d (p / SectorSize * SectorSize + y)) := by
    by_cases h0 : p % SectorSize = 0
    · exact ⟨unset, by simp [h0], fun h => absurd h0 h⟩
    · obtain ⟨b, hb, hin, -⟩ := @fill_eq h d hc unset unset (p / SectorSize) 0 (span q p * SectorSize)
        (by unfold SectorSize at *; omega) (by unfold SectorSize at *; omega)
      refine ⟨b, ?_, fun _ y hy hlt => hin y (Nat.zero_le y) (by omega) hlt⟩
      rw [if_neg (by simpa using h0)]
      exact_mod_cast hb
  rw [hb, Option.bind_some]
  -- the last sector
  by_cases hlast : ¬ (p + q) % SectorSize = 0 ∧ (p / SectorSize ≠ (p + q - 1) / SectorSize ∨ p % SectorSize = 0)
  · obtain ⟨buf, hbuf, hin, hbefore⟩ := @fill_eq h d hc unset b ((p + q - 1) / SectorSize)
      (((p + q - 1) / SectorSize - p / SectorSize) * SectorSize) (span q p * SectorSize)
      (by unfold SectorSize at *; omega) (by unfold SectorSize at *; omega)
    refine ⟨buf, ?_, fun y hy hlt hout => ?_⟩
    · rw [if_pos (by simpa only [decide_eq_true_eq, ne_eq, Nat.cast_inj] using hlast), ← hbuf, Nat.cast_mul,
        Nat.cast_mul, Nat.cast_mul, Nat.cast_sub (by unfold SectorSize at *; omega)]
    · rcases hout with hout | hout
      · rw [hbefore y (by unfold SectorSize at *; omega)]
        exact hfirst (by omega) y (by unfold SectorSize at *; omega) hlt
      · have hsum : (p + q - 1) / SectorSize * SectorSize +
            (y - ((p + q - 1) / SectorSize - p / SectorSize) * SectorSize) = p / SectorSize * SectorSize + y := by
          unfold SectorSize at *
          omega
        rw [hin y (by unfold SectorSize at *; omega) (by unfold SectorSize at *; omega) (by omega), hsum]
  · refine ⟨b, if_neg (by simpa only [decide_eq_true_eq, ne_eq, Nat.cast_inj] using hlast), fun y hy hlt hout => ?_⟩
    have h0 : p % SectorSize ≠ 0 := by
      unfold SectorSize at *
      omega
    exact hfirst h0 y (by unfold SectorSize at *; omega) hlt

section

variable {b source : ℕ → Byte} {q p : ℕ}

theorem Surrounds.overlay_eq (hb : h.Surrounds d q p b) {x : ℕ} (hx : x < h.numBytes.toNat)
    (hfirst : p / SectorSize ≤ x / SectorSize) (hlast : x / SectorSize < p / SectorSize + span q p) :
    overlay b (p % SectorSize) q source (x - p / SectorSize * SectorSize) =
      overlay (h.byteAt d) p q source x := by
  by_cases hmem : p ≤ x ∧ x < p + q
  · have hidx : x - p / SectorSize * SectorSize - p % SectorSize = x - p := by
      unfold SectorSize at *
      omega
    rw [overlay_of_mem (by unfold SectorSize at *; omega) (by unfold SectorSize at *; omega), hidx,
      overlay_of_mem hmem.1 hmem.2]
  · have hidx : p / SectorSize * SectorSize + (x - p / SectorSize * SectorSize) = x := by
      unfold SectorSize at *
      omega
    have hout : x - p / SectorSize * SectorSize < p % SectorSize ∨
        p % SectorSize + q ≤ x - p / SectorSize * SectorSize := by
      unfold SectorSize at *
      omega
    rw [overlay_of_notMem hout, hb _ (by unfold SectorSize at *; omega) (by rwa [hidx]) hout, hidx,
      overlay_of_notMem (show x < p ∨ p + q ≤ x by omega)]

theorem Surrounds.byteAt_written (hc : h.Covers) (hb : h.Surrounds d q p b) (hq : 0 < q)
    (hle : p + q ≤ h.numBytes.toNat) {d' : Disk}
    (hin : ∀ i < span q p, d' (h.sector (p / SectorSize + i)) =
      fun y => overlay b (p % SectorSize) q source (i * SectorSize + y))
    (hother : ∀ s, (∀ i < span q p, s ≠ h.sector (p / SectorSize + i)) → d' s = d s) {x : ℕ}
    (hx : x < h.numBytes.toNat) : h.byteAt d' x = overlay (h.byteAt d) p q source x := by
  have hspan := hc.span_le hq hle
  have hadd := @add_span q p hq
  by_cases hx' : p / SectorSize ≤ x / SectorSize ∧ x / SectorSize < p / SectorSize + span q p
  · -- a sector that was written
    have hsec := hin (x / SectorSize - p / SectorSize) (by omega)
    rw [Nat.add_sub_cancel' hx'.1] at hsec
    have hpos : (x / SectorSize - p / SectorSize) * SectorSize + x % SectorSize =
        x - p / SectorSize * SectorSize := by
      unfold SectorSize at *
      omega
    calc h.byteAt d' x = overlay b (p % SectorSize) q source (x - p / SectorSize * SectorSize) := by
          unfold byteAt
          rw [hsec, ← hpos]
      _ = overlay (h.byteAt d) p q source x := hb.overlay_eq hx hx'.1 hx'.2
  · have hsame : d' (h.sector (x / SectorSize)) = d (h.sector (x / SectorSize)) := by
      apply hother
      intro i hi he
      have hxs : x / SectorSize < h.numSectors.toNat := by
        have hlen := hc.length_le_sectors
        unfold SectorSize at *
        omega
      have := hc.sector_inj hxs (by omega) he
      omega
    rw [overlay_of_notMem (by unfold SectorSize at *; omega)]
    unfold byteAt
    rw [hsame]

end

theorem writeAt_eq (hc : h.Covers) (unset source : ℕ → Byte) {n p : ℕ} (hn : 0 < n) (hp : p < h.numBytes.toNat)
    (hmax : (p + n : ℤ) ≤ maxInt) : ∃ d', h.writeAt d unset source n p = some ((h.inFile n p : ℤ), d') ∧
      (∀ s, s ∉ h.sectors → d' s = d s) ∧
      ∀ x < h.numBytes.toNat, h.byteAt d' x = overlay (h.byteAt d) p (h.inFile n p) source x := by
  have hq := inFile_pos hn hp
  have hle := @add_inFile_le h n p hp
  have hqmax := hc.add_le_maxInt hle
  have hspan := hc.span_le hq hle
  have hadd := @add_span (h.inFile n p) p hq
  obtain ⟨b, hedges, hb⟩ := @readEdges_eq h d hc unset _ _ hq hle
  obtain ⟨d', hwrite, hin, hother⟩ := writeSectors_eq hc (overlay b (p % SectorSize) (h.inFile n p) source)
    (p / SectorSize) (span (h.inFile n p) p) 0 d (by omega)
  have hsize := size_eq (((Nat.le_add_left _ _).trans hspan).trans hc.numSectors_le)
  generalize hQ : h.inFile n p = q at *
  refine ⟨d', ?_, fun s hs => hother s fun i _ hi he => hs (he ▸ hc.sector_mem (by omega)), fun x hx => ?_⟩
  · have hfirst : ((p : ℤ) = (p / SectorSize : ℕ) * SectorSize) ↔ p % SectorSize = 0 := by
      unfold SectorSize
      omega
    have hlast : ((p + q : ℤ) = (((p + q - 1) / SectorSize : ℕ) + 1) * SectorSize) ↔ (p + q) % SectorSize = 0 := by
      unfold SectorSize
      omega
    unfold writeAt
    rw [if_neg (by rw [hc.toInt_numBytes]; omega)]
    simp only [clip_eq hc hp hmax, hQ, tdiv_eq, numSectors_eq hq hqmax, hsize, offset_eq, Int.toNat_natCast]
    rw [if_neg (by omega), lastSector_eq hq hqmax, toInt_eq (by unfold minInt; omega) hqmax]
    simp only [hfirst, hlast, hedges, Option.bind_some]
    unfold copyIn
    rw [if_pos (by unfold SectorSize at *; omega), Option.bind_some]
    simp only [Int.toNat_natCast, hwrite, Option.map_some]
  · exact hb.byteAt_written hc hq hle (fun i hi => hin i (Nat.zero_le i) (by omega))
      (fun s hs => hother s fun i _ hi => hs i (by omega)) hx

end FileHeader

end OnDisk

end Nachos
