/-
# The file system on the disk

`FileSystem` of `filesys/filesys.cc` on the disk: the disk is formatted, and files are
created, opened, written and removed. The two files of the system stay open, so
their headers are in memory. An `OpenFile` keeps the header of its file as it was
opened; a removal ends the files that are open on what it removes. What the `k`-th
`new` of a call gives is `unset k`.

After every run from a formatted disk whose writes do not start before the file,
the marked sectors are those of the two files of the system and of the files of
the directory, each of them once (`allocation_consistent`). A write that starts
before the file reaches other sectors (`writeAt_before_start`): `WriteAt` only
checks that it does not start behind it, and `dataSectors[-1]` is `numSectors`.

Key definitions: `FileSystem.create`, `FileSystem.remove`, `FileSystem.step`, `Volume.Consistent`.
-/
import NachosNet.Basis.Run
import NachosNet.Filesys.Volume

namespace Nachos

open Basis

namespace OnDisk

/-- An open file, with the sector its header came from. -/
structure OpenFile where
  sector : ℕ
  hdr : FileHeader
deriving DecidableEq

/-- `OpenFile(sector)` -/
def openSector (d : Disk) (sector : ℤ) : Option OpenFile :=
  (readSector d sector).map fun data => ⟨sector.toNat, FileHeader.ofBytes data⟩

/-- `Clear(which)`, with its assertion. -/
def clearBit (m : Bitmap NumSectors) (which : ℤ) : Option (Bitmap NumSectors) :=
  if 0 ≤ which ∧ which < NumSectors then some (m.clear which.toNat) else none

structure FileSystem where
  disk : Disk
  freeMapFile : FileHeader
  directoryFile : FileHeader
  /-- The open files that still exist. -/
  opened : List OpenFile

namespace FileSystem

/-- `FileSystem(TRUE)`; `none` when an assertion fails. -/
def format (d : Disk) (unset : ℕ → ℕ → Byte) : Option FileSystem := do
  let freeMap := ((Bitmap.init NumSectors).mark FreeMapSector).mark DirectorySector
  let (mapDone, mapHdr, freeMap) ← (FileHeader.ofBytes (unset 1)).allocate freeMap FreeMapFileSize
  let (dirDone, dirHdr, freeMap) ← (FileHeader.ofBytes (unset 2)).allocate freeMap DirectoryFileSize
  if mapDone ∧ dirDone then do
    let d ← writeSector d FreeMapSector mapHdr.bytes
    let d ← writeSector d DirectorySector dirHdr.bytes
    let freeMapFile ← openSector d FreeMapSector
    let directoryFile ← openSector d DirectorySector
    let d ← writeMap freeMap d freeMapFile.hdr (unset 3)
    let d ← (Directory.init (unset 0)).writeBack d directoryFile.hdr (unset 4)
    return ⟨d, freeMapFile.hdr, directoryFile.hdr, []⟩
  else none

def create (s : FileSystem) (unset : ℕ → ℕ → Byte) (name : CString) (initialSize : ℤ) :
    Option (Bool × FileSystem) := do
  let directory ← (Directory.init (unset 0)).fetchFrom s.disk s.directoryFile (unset 1)
  if directory.find name ≠ -1 then return (false, s)
  else do
    let freeMap ← fetchMap s.disk s.freeMapFile (unset 2)
    let (sector, freeMap) := freeMap.findAndSet
    if sector = -1 then return (false, s)
    else match directory.add name (BitVec.ofInt 32 sector) with
      | none => return (false, s)
      | some directory => do
        let (done, hdr, freeMap) ← (FileHeader.ofBytes (unset 3)).allocate freeMap initialSize
        if done = false then return (false, s)
        else do
          let d ← writeSector s.disk sector hdr.bytes
          let d ← directory.writeBack d s.directoryFile (unset 4)
          let d ← writeMap freeMap d s.freeMapFile (unset 5)
          return (true, { s with disk := d })

def remove (s : FileSystem) (unset : ℕ → ℕ → Byte) (name : CString) : Option (Bool × FileSystem) := do
  let directory ← (Directory.init (unset 0)).fetchFrom s.disk s.directoryFile (unset 1)
  let sector := directory.find name
  if sector = -1 then return (false, s)
  else do
    let fileHdr ← (readSector s.disk sector).map FileHeader.ofBytes
    let freeMap ← fetchMap s.disk s.freeMapFile (unset 2)
    let freeMap ← fileHdr.deallocate freeMap
    let freeMap ← clearBit freeMap sector
    let d ← writeMap freeMap s.disk s.freeMapFile (unset 3)
    let d ← (directory.remove name).writeBack d s.directoryFile (unset 4)
    return (true, { s with disk := d, opened := s.opened.filter fun f => f.sector ≠ sector.toNat })

/-- `Open` -/
def openFile (s : FileSystem) (unset : ℕ → ℕ → Byte) (name : CString) : Option FileSystem := do
  let directory ← (Directory.init (unset 0)).fetchFrom s.disk s.directoryFile (unset 1)
  let sector := directory.find name
  if 0 ≤ sector then do
    let f ← openSector s.disk sector
    return { s with opened := f :: s.opened }
  else return s

inductive Op
  | create (unset : ℕ → ℕ → Byte) (name : CString) (initialSize : ℤ)
  | remove (unset : ℕ → ℕ → Byte) (name : CString)
  | openFile (unset : ℕ → ℕ → Byte) (name : CString)
  | writeAt (unset : ℕ → Byte) (file : OpenFile) (source : ℕ → Byte) (numBytes position : ℤ)

def step (s : FileSystem) : Op → Option FileSystem
  | .create unset name initialSize => (s.create unset name initialSize).map Prod.snd
  | .remove unset name => (s.remove unset name).map Prod.snd
  | .openFile unset name => s.openFile unset name
  | .writeAt unset file source numBytes position =>
    (file.hdr.writeAt s.disk unset source numBytes position).map fun r => { s with disk := r.2 }

/-- Files are created with a size that a header can list, and written while they exist. -/
def Allowed (s : FileSystem) : Op → Prop
  | .create _ _ initialSize => 0 ≤ initialSize ∧ initialSize ≤ MaxFileSize
  | .writeAt _ file _ _ _ => file ∈ s.opened
  | _ => True

instance (s : FileSystem) : ∀ op, Decidable (s.Allowed op)
  | .create _ _ initialSize => inferInstanceAs (Decidable (0 ≤ initialSize ∧ initialSize ≤ MaxFileSize))
  | .remove _ _ => isTrue trivial
  | .openFile _ _ => isTrue trivial
  | .writeAt _ file _ _ _ => inferInstanceAs (Decidable (file ∈ s.opened))

/-- A write does not start before the file, and its end is an `int`. -/
def Op.NotBefore : Op → Prop
  | .writeAt _ _ _ numBytes position => 0 ≤ position ∧ position + numBytes ≤ maxInt
  | _ => True

instance : ∀ op : Op, Decidable op.NotBefore
  | .create _ _ _ => isTrue trivial
  | .remove _ _ => isTrue trivial
  | .openFile _ _ => isTrue trivial
  | .writeAt _ _ _ numBytes position => inferInstanceAs (Decidable (0 ≤ position ∧ position + numBytes ≤ maxInt))

end FileSystem

namespace Volume

/-- The sectors that are in use. -/
def allocated (v : Volume) : List ℕ :=
  v.own .freeMap ++ v.own .directory ++ (List.range NumDirEntries).flatMap fun i => v.own (.entry i)

structure Consistent (v : Volume) : Prop where
  marked_iff : ∀ x, v.freeMap.test x = true ↔ x ∈ v.allocated
  nodup : v.allocated.Nodup
  names : ∀ i < NumDirEntries, ∀ j < NumDirEntries, v.directory.inUse i = true → v.directory.inUse j = true →
    v.directory.nameOf i = v.directory.nameOf j → i = j

theorem allocated_eq (v : Volume) :
    v.allocated = (.freeMap :: .directory :: (List.range NumDirEntries).map Owner.entry).flatMap v.own := by
  rw [List.flatMap_cons, List.flatMap_cons, List.flatMap_map, ← List.append_assoc]
  rfl

theorem Sound.consistent {v : Volume} (hv : v.Sound) : v.Consistent := by
  refine ⟨fun x => ?_, ?_, hv.names⟩
  · rw [hv.shares.marked_iff, allocated_eq, List.mem_flatMap]
    constructor
    · rintro ⟨o, hx⟩
      refine ⟨o, ?_, hx⟩
      cases o with
      | freeMap => simp
      | directory => simp
      | entry i =>
        have hi : i < NumDirEntries := by
          by_contra hi
          rw [own_entry_nil fun h => hi h.1] at hx
          cases hx
        simp [hi]
    · rintro ⟨o, -, hx⟩
      exact ⟨o, hx⟩
  · rw [allocated_eq]
    refine hv.shares.nodup_flatMap (List.nodup_cons.mpr ⟨by simp, List.nodup_cons.mpr ⟨by simp, ?_⟩⟩)
    exact List.nodup_range.map fun i j h => Owner.entry.inj h

/-- The file of `f` is there, with the header that `f` has. -/
def Has (v : Volume) (f : OpenFile) : Prop :=
  (∃ i, v.own (.entry i) = v.file f.sector) ∧ v.header f.sector = f.hdr

theorem Same.has {v v' : Volume} (h : Same v v') {f : OpenFile} (hf : v.Has f) : v'.Has f := by
  obtain ⟨⟨i, hi⟩, hhdr⟩ := hf
  refine ⟨⟨i, ?_⟩, (h.header_eq _ _ hi).trans hhdr⟩
  rw [h.own_eq, h.file_eq hi, hi]

end Volume

namespace FileSystem

variable {s : FileSystem}

structure Inv (s : FileSystem) : Prop where
  sound : (volume s.disk).Sound
  map_eq : s.freeMapFile = hdrAt s.disk FreeMapSector
  dir_eq : s.directoryFile = hdrAt s.disk DirectorySector
  opened : ∀ f ∈ s.opened, (volume s.disk).Has f

/-! ### What is read -/

theorem Inv.fetchFrom (hs : Inv s) (unset unset' : ℕ → Byte) :
    ∃ t, (Directory.init unset).fetchFrom s.disk s.directoryFile unset' = some t ∧
      Volume.Same (volume s.disk) ((volume s.disk).withDirectory t) := by
  obtain ⟨t, hrun, ht⟩ := (Directory.init unset).fetchFrom_eq (d := s.disk) hs.sound.two.dir_ok
    hs.sound.two.dir_size unset'
  exact ⟨t, hs.dir_eq ▸ hrun, Volume.same_withDirectory fun i hi => Directory.sameEntry_of_table ht hi⟩

theorem Inv.fetchMap (hs : Inv s) (unset : ℕ → Byte) :
    fetchMap s.disk s.freeMapFile unset = some (volume s.disk).freeMap := by
  rw [hs.map_eq]
  exact fetchMap_eq hs.sound.two.map_ok hs.sound.two.map_size unset

theorem find_eq {v : Volume} (hv : v.Sound) {name : CString} {i : ℕ} (h : v.directory.findIndex name = some i) :
    v.directory.find name = (v.sectorOf i : ℤ) ∧ v.sectorOf i < NumSectors := by
  obtain ⟨hi, hu, -⟩ := Directory.findIndex_some h
  have hlt := lt_of_test (hv.marked_header (Volume.own_entry hi hu))
  refine ⟨?_, hlt⟩
  unfold Directory.find
  rw [h]
  unfold Volume.sectorOf NumSectors at hlt
  exact BitVec.toInt_eq_toNat_of_lt (by omega)

theorem find_none {t : Directory} {name : CString} (h : t.findIndex name = none) : t.find name = -1 := by
  unfold Directory.find
  rw [h]
  rfl

/-! ### The steps -/

/-- What `Inv` says after the map and the directory were written back. -/
theorem Inv.written {d : Disk} {v : Volume} (hs : Inv s) (hv : v.Sound) (h : Volume.Same v (volume d))
    (hmap : v.header FreeMapSector = hdrAt s.disk FreeMapSector)
    (hdir : v.header DirectorySector = hdrAt s.disk DirectorySector) {fs : List OpenFile}
    (hfs : ∀ f ∈ fs, v.Has f) : Inv { s with disk := d, opened := fs } where
  sound := h.sound hv
  map_eq := by
    have := h.header_eq .freeMap FreeMapSector rfl
    exact hs.map_eq.trans (hmap.symm.trans this.symm)
  dir_eq := by
    have := h.header_eq .directory DirectorySector rfl
    exact hs.dir_eq.trans (hdir.symm.trans this.symm)
  opened f hf := h.has (hfs f hf)

theorem hdrAt_add {d : Disk} {t : Directory} {i x : ℕ} {name : CString} {hdr : FileHeader} {m : Bitmap NumSectors}
    (y : ℕ) : hdrAt (Function.update d x hdr.bytes) y =
      (((volume d).withDirectory t).add i name x hdr m).header y := by
  unfold hdrAt Volume.add volume
  dsimp only
  obtain rfl | hyx := eq_or_ne y x
  · rw [Function.update_self, Function.update_self, FileHeader.ofBytes_bytes]
  · rw [Function.update_of_ne hyx, Function.update_of_ne hyx]
    rfl

/-- A new file with the header `hdr` in sector `x` has got entry `i`; the directory and the map were written back. -/
structure Added (s : FileSystem) (t : Directory) (name : CString) (i x : ℕ) (hdr : FileHeader) (m : Bitmap NumSectors)
    (d : Disk) : Prop where
  new : t.findIndex name = none
  lt : i < NumDirEntries
  unused : t.inUse i = false
  ok : hdr.Ok
  taken : (volume s.disk).freeMap.Taken m (x :: hdr.sectors)
  written : Written ((((volume s.disk).withDirectory t).add i name x hdr m).header FreeMapSector)
    ((((volume s.disk).withDirectory t).add i name x hdr m).header DirectorySector) m
    (t.setEntry i name (BitVec.ofInt 32 x)) (Function.update s.disk x hdr.bytes) d

/-- Entry `i` is cleared with the sectors of its file; the map and the directory were written back. -/
structure Cleared (s : FileSystem) (t : Directory) (i : ℕ) (m : Bitmap NumSectors) (d : Disk) : Prop where
  lt : i < NumDirEntries
  used : t.inUse i = true
  freed : ∀ x, m.test x = true ↔ (volume s.disk).freeMap.test x = true ∧ x ∉ (volume s.disk).own (.entry i)
  written : Written ((((volume s.disk).withDirectory t).clear i m).header FreeMapSector)
    ((((volume s.disk).withDirectory t).clear i m).header DirectorySector) m (t.clearEntry i) s.disk d

section Changes

variable {t : Directory} {name : CString} {i x : ℕ} {hdr : FileHeader} {m : Bitmap NumSectors} {d : Disk}

theorem Added.name_ne (h : Added s t name i x hdr m d) {j : ℕ} (hj : j < NumDirEntries) (hu : t.inUse j = true) :
    t.nameOf j ≠ name.1.take FileNameMaxLen := Directory.findIndex_none h.new hj hu

theorem Added.sound (hs : Inv s) (hsame : Volume.Same (volume s.disk) ((volume s.disk).withDirectory t))
    (h : Added s t name i x hdr m d) : (((volume s.disk).withDirectory t).add i name x hdr m).Sound :=
  (hsame.sound hs.sound).add h.lt h.unused (fun _ hj hu => h.name_ne hj hu) h.ok h.taken

theorem Added.inv (hs : Inv s) (hsame : Volume.Same (volume s.disk) ((volume s.disk).withDirectory t))
    (h : Added s t name i x hdr m d) : Inv { s with disk := d } := by
  have hv := hsame.sound hs.sound
  have hx := h.taken.clear x List.mem_cons_self
  refine hs.written (h.sound hs hsame) ((h.sound hs hsame).same_written h.written fun _ y _ => hdrAt_add y)
    (@Volume.Sound.header_add _ i name x hdr m hv hx .freeMap _ rfl)
    (@Volume.Sound.header_add _ i name x hdr m hv hx .directory _ rfl) fun f hf => ?_
  obtain ⟨⟨j, hj⟩, hhdr⟩ := hs.opened f hf
  rw [← hsame.own_eq] at hj
  have hji : j ≠ i := by
    rintro rfl
    exact Bool.false_ne_true (h.unused.symm.trans (Volume.entry_of_own hj).2.1)
  refine ⟨⟨j, ?_⟩, (hv.header_add hx hj).trans hhdr⟩
  rw [hv.own_add h.lt hx (lt_of_test ((h.taken.test_iff x).mpr (Or.inr List.mem_cons_self))),
    Function.update_of_ne (by simpa using hji), hj, hv.file_add hx hj]
  rfl

theorem Cleared.inv (hs : Inv s) (hsame : Volume.Same (volume s.disk) ((volume s.disk).withDirectory t))
    (h : Cleared s t i m d) :
    Inv { s with disk := d, opened := s.opened.filter fun f => f.sector ≠ (t.sector i).toNat } := by
  have hv' := (hsame.sound hs.sound).clear (i := i) (m := m) (by rw [hsame.own_eq]; exact h.freed)
  refine hs.written hv' (hv'.same_written h.written fun _ _ _ => rfl) rfl rfl fun f hf => ?_
  obtain ⟨hf, hne⟩ := List.mem_filter.mp hf
  obtain ⟨⟨j, hj⟩, hhdr⟩ := hs.opened f hf
  rw [← hsame.own_eq] at hj
  have hji : j ≠ i := by
    rintro rfl
    have hsec : (t.sector j).toNat = f.sector := (Volume.entry_of_own hj).2.2
    simp [hsec] at hne
  refine ⟨⟨j, ?_⟩, hhdr⟩
  rw [Volume.own_clear, Function.update_of_ne (by simpa using hji), hj]
  rfl

end Changes

/-- `Create` changes nothing when the name is there, or when an entry or sectors are missing, and adds the file otherwise. -/
theorem Inv.create_cases (hs : Inv s) (unset : ℕ → ℕ → Byte) (name : CString) {size : ℕ} (hsize : size ≤ MaxFileSize) :
    ∃ t, Volume.Same (volume s.disk) ((volume s.disk).withDirectory t) ∧
      ((s.create unset name size = some (false, s) ∧ (t.findIndex name ≠ none ∨
          (t.findIndex name = none ∧ ∃ x, t.add name x = none) ∨
          (volume s.disk).freeMap.numClear < 1 + (size + (SectorSize - 1)) / SectorSize)) ∨
        ∃ i x hdr m d, Added s t name i x hdr m d ∧ hdr.numBytes.toNat = size ∧
          1 + (size + (SectorSize - 1)) / SectorSize ≤ (volume s.disk).freeMap.numClear ∧
          s.create unset name size = some (true, { s with disk := d })) := by
  obtain ⟨t, hfetch, hsame⟩ := hs.fetchFrom (unset 0) (unset 1)
  refine ⟨t, hsame, ?_⟩
  have hv := hsame.sound hs.sound
  unfold FileSystem.create
  simp only [hfetch, Option.bind_eq_bind, Option.bind_some, Option.pure_def]
  cases hidx : t.findIndex name with
  | some i =>
    have hfind : t.find name = _ := (find_eq hv hidx).1
    rw [if_pos (by omega)]
    exact Or.inl ⟨rfl, Or.inl (Option.some_ne_none i)⟩
  | none =>
    rw [if_neg (not_not.mpr (find_none hidx)), hs.fetchMap, Option.bind_some]
    -- no sector for the header
    obtain h0 | hpos := Nat.eq_zero_or_pos (volume s.disk).freeMap.numClear
    · rw [Bitmap.findAndSet_none _ h0]
      exact Or.inl ⟨rfl, Or.inr (Or.inr (h0 ▸ Nat.add_pos_left Nat.one_pos _))⟩
    obtain ⟨x, hx, hc, -, hset⟩ := Bitmap.findAndSet_some _ hpos
    have hmark := Bitmap.numClear_mark _ hx hc
    rw [hset]
    dsimp only
    rw [if_neg (by omega)]
    -- no entry
    obtain hadd | ⟨i, hi, hu, hadd⟩ := Directory.add_eq hidx (BitVec.ofInt 32 x)
    · rw [hadd]
      exact Or.inl ⟨rfl, Or.inr (Or.inl ⟨rfl, _, hadd⟩)⟩
    rw [hadd]
    dsimp only
    -- no sectors for the data
    obtain hlt | hle := Nat.lt_or_ge ((volume s.disk).freeMap.mark x).numClear ((size + (SectorSize - 1)) / SectorSize)
    · obtain ⟨r, hr⟩ := (FileHeader.ofBytes (unset 3)).allocate_of_lt hlt
      rw [hr]
      exact Or.inl ⟨rfl, Or.inr (Or.inr (by omega))⟩
    obtain ⟨hdr, m, halloc, htaken, hok, hbytes⟩ := (FileHeader.ofBytes (unset 3)).allocate_of_le hsize hle
    have ht := htaken.cons hx hc
    have hclear := ht.clear x List.mem_cons_self
    have hv' := hv.add hi hu (fun j hj huj => Directory.findIndex_none hidx hj huj) hok ht
    obtain ⟨d₁, d₂, hrun₁, hrun₂, hw⟩ := hv'.two.writeBack_writeMap m (t.setEntry i name (BitVec.ofInt 32 x))
      (Function.update s.disk x hdr.bytes) (unset 4) (unset 5)
    have hmap := @Volume.Sound.header_add _ i name x hdr m hv hclear .freeMap _ rfl
    have hdir := @Volume.Sound.header_add _ i name x hdr m hv hclear .directory _ rfl
    rw [hdir.trans hs.dir_eq.symm] at hrun₁
    rw [hmap.trans hs.map_eq.symm] at hrun₂
    rw [halloc, Option.bind_some]
    dsimp only
    rw [if_neg (by decide), FileHeader.writeSector_eq hx, Option.bind_some, hrun₁, Option.bind_some, hrun₂,
      Option.bind_some]
    exact Or.inr ⟨i, x, hdr, m, d₂, ⟨hidx, hi, hu, hok, ht, hw⟩, hbytes, by omega, rfl⟩

theorem Inv.create (hs : Inv s) (unset : ℕ → ℕ → Byte) (name : CString) {size : ℕ} (hsize : size ≤ MaxFileSize) :
    ∃ r, s.create unset name size = some r ∧ Inv r.2 := by
  obtain ⟨t, hsame, ⟨h, -⟩ | ⟨i, x, hdr, m, d, hadded, -, -, h⟩⟩ := hs.create_cases unset name hsize
  · exact ⟨_, h, hs⟩
  · exact ⟨_, h, hadded.inv hs hsame⟩

theorem Inv.deallocates (hs : Inv s) {t : Directory}
    (hsame : Volume.Same (volume s.disk) ((volume s.disk).withDirectory t)) {i : ℕ} (hi : i < NumDirEntries)
    (hu : t.inUse i = true) (hlt : (t.sector i).toNat < NumSectors) :
    ∃ m, (hdrAt s.disk (t.sector i).toNat).deallocate (volume s.disk).freeMap = some m ∧
      ∀ x, (m.clear (t.sector i).toNat).test x = true ↔
        (volume s.disk).freeMap.test x = true ∧ x ∉ (volume s.disk).own (.entry i) := by
  have hv := hsame.sound hs.sound
  have hown := Volume.own_entry (v := (volume s.disk).withDirectory t) hi hu
  obtain ⟨m, hdealloc, hm⟩ := FileHeader.deallocate_eq (hv.file_ok i hi hu)
    fun x hx => hv.marked hown (List.mem_cons_of_mem _ hx)
  refine ⟨m, hdealloc, fun x => ?_⟩
  rw [Bitmap.test_clear m hlt, Bool.and_eq_true, Bool.not_eq_true', decide_eq_false_iff_not, hm, ← hsame.own_eq, hown]
  unfold Volume.file
  rw [List.mem_cons, not_or, and_left_comm]
  rfl

/-- `Remove` changes nothing when the name is not there, and clears its entry otherwise. -/
theorem Inv.remove_cases (hs : Inv s) (unset : ℕ → ℕ → Byte) (name : CString) :
    ∃ t, Volume.Same (volume s.disk) ((volume s.disk).withDirectory t) ∧
      ((s.remove unset name = some (false, s) ∧ t.findIndex name = none) ∨
        ∃ i m d, Cleared s t i m d ∧ t.findIndex name = some i ∧ s.remove unset name =
          some (true, { s with disk := d, opened := s.opened.filter fun f => f.sector ≠ (t.sector i).toNat })) := by
  obtain ⟨t, hfetch, hsame⟩ := hs.fetchFrom (unset 0) (unset 1)
  refine ⟨t, hsame, ?_⟩
  have hv := hsame.sound hs.sound
  unfold FileSystem.remove
  simp only [hfetch, Option.bind_eq_bind, Option.bind_some, Option.pure_def]
  cases hidx : t.findIndex name with
  | none =>
    rw [if_pos (find_none hidx)]
    exact Or.inl ⟨rfl, rfl⟩
  | some i =>
    obtain ⟨hi, hu, -⟩ := Directory.findIndex_some hidx
    obtain ⟨hfind, hlt⟩ := find_eq hv hidx
    change t.find name = ((t.sector i).toNat : ℤ) at hfind
    change (t.sector i).toNat < NumSectors at hlt
    obtain ⟨m, hdealloc, hclear⟩ := hs.deallocates hsame hi hu hlt
    have hv' := hv.clear (i := i) (m := m.clear (t.sector i).toNat) (by rwa [hsame.own_eq])
    obtain ⟨d₁, d₂, hrun₁, hrun₂, hw⟩ := hv'.two.writeMap_writeBack (m.clear (t.sector i).toNat) (t.clearEntry i) s.disk
      (unset 3) (unset 4)
    change writeMap _ _ (hdrAt s.disk FreeMapSector) _ = _ at hrun₁
    change Directory.writeBack _ _ (hdrAt s.disk DirectorySector) _ = _ at hrun₂
    rw [← hs.map_eq] at hrun₁
    rw [← hs.dir_eq] at hrun₂
    have hremove : t.remove name = t.clearEntry i := by
      unfold Directory.remove
      rw [hidx]
      rfl
    have hbit : clearBit m (t.sector i).toNat = some (m.clear (t.sector i).toNat) := by
      unfold clearBit
      rw [if_pos ⟨Int.natCast_nonneg _, Int.ofNat_lt.mpr hlt⟩, Int.toNat_natCast]
    change (FileHeader.ofBytes (s.disk (t.sector i).toNat)).deallocate (volume s.disk).freeMap = some m at hdealloc
    rw [hfind, if_neg (by omega), FileHeader.readSector_eq hlt, Option.map_some, Option.bind_some, hs.fetchMap,
      Option.bind_some, hdealloc, Option.bind_some, hbit, Option.bind_some, hrun₁, Option.bind_some, hremove,
      hrun₂]
    exact Or.inr ⟨i, _, d₂, ⟨hi, hu, hclear, hw⟩, rfl, rfl⟩

theorem Inv.remove (hs : Inv s) (unset : ℕ → ℕ → Byte) (name : CString) :
    ∃ r, s.remove unset name = some r ∧ Inv r.2 := by
  obtain ⟨t, hsame, ⟨h, -⟩ | ⟨i, m, d, hcleared, -, h⟩⟩ := hs.remove_cases unset name
  · exact ⟨_, h, hs⟩
  · exact ⟨_, h, hcleared.inv hs hsame⟩

/-- `Open` changes nothing when the name is not there. -/
theorem Inv.openFile_cases (hs : Inv s) (unset : ℕ → ℕ → Byte) (name : CString) :
    ∃ t, Volume.Same (volume s.disk) ((volume s.disk).withDirectory t) ∧
      ((s.openFile unset name = some s ∧ t.findIndex name = none) ∨
        ∃ i, t.findIndex name = some i ∧ s.openFile unset name = some { s with
          opened := ⟨(t.sector i).toNat, hdrAt s.disk (t.sector i).toNat⟩ :: s.opened }) := by
  obtain ⟨t, hfetch, hsame⟩ := hs.fetchFrom (unset 0) (unset 1)
  refine ⟨t, hsame, ?_⟩
  unfold FileSystem.openFile
  simp only [hfetch, Option.bind_eq_bind, Option.bind_some, Option.pure_def]
  cases hidx : t.findIndex name with
  | none =>
    rw [find_none hidx]
    exact Or.inl ⟨rfl, rfl⟩
  | some i =>
    obtain ⟨hfind, hlt⟩ := find_eq (hsame.sound hs.sound) hidx
    change t.find name = ((t.sector i).toNat : ℤ) at hfind
    change (t.sector i).toNat < NumSectors at hlt
    unfold openSector
    rw [hfind, if_pos (Int.natCast_nonneg _), FileHeader.readSector_eq hlt, Option.map_some, Option.bind_some,
      Int.toNat_natCast]
    exact Or.inr ⟨i, rfl, rfl⟩

theorem Inv.openFile (hs : Inv s) (unset : ℕ → ℕ → Byte) (name : CString) :
    ∃ s', s.openFile unset name = some s' ∧ Inv s' := by
  obtain ⟨t, hsame, ⟨h, -⟩ | ⟨i, hidx, h⟩⟩ := hs.openFile_cases unset name
  · exact ⟨s, h, hs⟩
  · obtain ⟨hi, hu, -⟩ := Directory.findIndex_some hidx
    refine ⟨_, h, hs.sound, hs.map_eq, hs.dir_eq, fun f hf => ?_⟩
    obtain rfl | hf := List.mem_cons.mp hf
    · refine ⟨⟨i, ?_⟩, rfl⟩
      rw [← hsame.own_eq, Volume.own_entry (v := (volume s.disk).withDirectory t) hi hu]
      rfl
    · exact hs.opened f hf

theorem Inv.writeAt (hs : Inv s) (unset source : ℕ → Byte) {f : OpenFile} (hf : f ∈ s.opened) {n p : ℤ} (hp : 0 ≤ p)
    (hmax : p + n ≤ maxInt) : ∃ r, f.hdr.writeAt s.disk unset source n p = some r ∧ Inv { s with disk := r.2 } := by
  obtain ⟨⟨i, hi⟩, hhdr⟩ := hs.opened f hf
  obtain ⟨hlt, hu, hsec⟩ := Volume.entry_of_own hi
  have hc : f.hdr.Covers := by
    have := (hs.sound.file_ok i hlt hu).covers
    rw [hsec] at this
    exact hhdr ▸ this
  by_cases hnone : n ≤ 0 ∨ f.hdr.numBytes.toInt ≤ p
  · unfold FileHeader.writeAt
    rw [if_pos hnone]
    exact ⟨_, rfl, hs⟩
  · rw [hc.toInt_numBytes] at hnone
    obtain ⟨n, rfl⟩ := Int.eq_ofNat_of_zero_le (show 0 ≤ n by omega)
    obtain ⟨p, rfl⟩ := Int.eq_ofNat_of_zero_le hp
    obtain ⟨d', hwrite, hother, -⟩ := @FileHeader.writeAt_eq f.hdr s.disk hc unset source n p (by omega)
      (by omega) hmax
    have hsame : Volume.Same (volume s.disk) (volume d') := by
      refine hs.sound.same_data hi fun y hy => hother y ?_
      rwa [← hhdr]
    refine ⟨_, hwrite, hs.written hs.sound hsame rfl rfl hs.opened⟩

/-! ### A formatted disk -/

theorem inUse_init (unset : ℕ → Byte) (i : ℕ) : (Directory.init unset).inUse i = false := by
  have hzero : (Directory.init unset).table (entrySize * i) = 0 := if_pos (Nat.mul_mod_right _ _)
  unfold Directory.inUse
  rw [hzero]
  rfl

theorem sectors_length_le (h : FileHeader) : h.sectors.length ≤ NumDirect := by
  unfold FileHeader.sectors
  rw [List.length_map, List.length_take, h.dataSectors.2]
  exact Nat.min_le_right _ _

/-- The volume of the two files, with an empty directory. -/
theorem sound_empty {mapHdr dirHdr : FileHeader} {m₁ m₂ : Bitmap NumSectors} {d : Disk} (unset : ℕ → Byte)
    (hmap : hdrAt d FreeMapSector = mapHdr) (hdir : hdrAt d DirectorySector = dirHdr)
    (htwo : mapHdr.Ok ∧ mapHdr.numBytes.toNat = FreeMapFileSize ∧ dirHdr.Ok ∧
      dirHdr.numBytes.toNat = DirectoryFileSize)
    (ht₁ : (((Bitmap.init NumSectors).mark FreeMapSector).mark DirectorySector).Taken m₁ mapHdr.sectors)
    (ht₂ : m₁.Taken m₂ dirHdr.sectors) : Volume.Sound ⟨m₂, Directory.init unset, hdrAt d⟩ := by
  have htest : ∀ x, (((Bitmap.init NumSectors).mark FreeMapSector).mark DirectorySector).test x = true ↔
      x = FreeMapSector ∨ x = DirectorySector := by
    intro x
    rw [Bitmap.test_mark _ (by decide), Bitmap.test_mark _ (by decide), Bitmap.test_init]
    simp [or_comm]
  have hm₁ : ∀ x, m₁.test x = true ↔ (x = FreeMapSector ∨ x = DirectorySector) ∨ x ∈ mapHdr.sectors :=
    fun x => (ht₁.test_iff x).trans (or_congr_left (htest x))
  have hnot₁ : ∀ x ∈ mapHdr.sectors, x ≠ FreeMapSector ∧ x ≠ DirectorySector :=
    fun x hx => not_or.mp fun h => ht₁.not_test hx ((htest x).mpr h)
  have hnot₂ : ∀ x ∈ dirHdr.sectors, x ≠ FreeMapSector ∧ x ≠ DirectorySector ∧ x ∉ mapHdr.sectors := by
    intro x hx
    have := mt (hm₁ x).mpr (ht₂.not_test hx)
    tauto
  -- the two files get their sectors one after the other
  have hshares₁ := (Shares.empty (ι := Owner)).give (i := .freeMap) (l := FreeMapSector :: mapHdr.sectors) rfl
    (List.nodup_cons.mpr ⟨fun h => (hnot₁ _ h).1 rfl, ht₁.nodup⟩) fun _ _ h => h
  have hshares₂ := hshares₁.give (i := .directory) (l := DirectorySector :: dirHdr.sectors) rfl
    (List.nodup_cons.mpr ⟨fun h => (hnot₂ _ h).2.1 rfl, ht₂.nodup⟩) (by
      intro x hx h
      obtain rfl | hx := List.mem_cons.mp hx
      · obtain h | h := List.mem_cons.mp (h.resolve_left id)
        · cases h
        · exact (hnot₁ _ h).2 rfl
      · obtain h | h := List.mem_cons.mp (h.resolve_left id)
        · exact (hnot₂ x hx).1 h
        · exact (hnot₂ x hx).2.2 h)
  have hown : Volume.own ⟨m₂, Directory.init unset, hdrAt d⟩ = Function.update (Function.update (fun _ => [])
      .freeMap (FreeMapSector :: mapHdr.sectors)) .directory (DirectorySector :: dirHdr.sectors) := by
    funext o
    cases o with
    | freeMap => exact hmap ▸ rfl
    | directory => exact hdir ▸ rfl
    | entry i => exact Volume.own_entry_nil fun h => by simp [inUse_init] at h
  refine ⟨?_, ?_, fun i _ hu => ?_, fun i _ j _ hu => ?_⟩
  · rw [hown]
    refine hshares₂.congr fun x => ?_
    rw [ht₂.test_iff, hm₁, List.mem_cons, List.mem_cons]
    tauto
  · dsimp only
    rw [hmap, hdir]
    exact ⟨htwo.1, htwo.2.1, htwo.2.2.1, htwo.2.2.2, fun x hx hx' => (hnot₂ x hx').2.2 hx⟩
  · exact absurd hu (by simp [inUse_init])
  · exact absurd hu (by simp [inUse_init])

theorem format_inv (d : Disk) (unset : ℕ → ℕ → Byte) : ∃ s, format d unset = some s ∧ Inv s := by
  have hclear : (((Bitmap.init NumSectors).mark FreeMapSector).mark DirectorySector).numClear = 1022 := by
    decide +kernel
  obtain ⟨mapHdr, m₁, hrun₁, ht₁, hok₁, hsize₁⟩ := (FileHeader.ofBytes (unset 1)).allocate_of_le
    (m := ((Bitmap.init NumSectors).mark FreeMapSector).mark DirectorySector)
    (show FreeMapFileSize ≤ MaxFileSize by decide) (by rw [hclear]; decide)
  have hclear₁ : (DirectoryFileSize + (SectorSize - 1)) / SectorSize ≤ m₁.numClear := by
    have hsum := ht₁.numClear_eq
    have hlen := sectors_length_le mapHdr
    have htwo : (DirectoryFileSize + (SectorSize - 1)) / SectorSize = 2 := rfl
    unfold NumDirect at hlen
    omega
  obtain ⟨dirHdr, m₂, hrun₂, ht₂, hok₂, hsize₂⟩ := (FileHeader.ofBytes (unset 2)).allocate_of_le
    (show DirectoryFileSize ≤ MaxFileSize by decide) hclear₁
  generalize hd : Function.update (Function.update d FreeMapSector mapHdr.bytes) DirectorySector dirHdr.bytes = d₀
  have hmap : hdrAt d₀ FreeMapSector = mapHdr := by
    unfold hdrAt
    rw [← hd, Function.update_of_ne (by decide), Function.update_self, FileHeader.ofBytes_bytes]
  have hdir : hdrAt d₀ DirectorySector = dirHdr := by
    unfold hdrAt
    rw [← hd, Function.update_self, FileHeader.ofBytes_bytes]
  have hv := sound_empty (unset 0) hmap hdir ⟨hok₁, hsize₁, hok₂, hsize₂⟩ ht₁ ht₂
  obtain ⟨d₁, d₂, hw₁, hw₂, hw⟩ := hv.two.writeMap_writeBack m₂ (Directory.init (unset 0)) d₀ (unset 3) (unset 4)
  have hsame := hv.same_written hw fun _ _ _ => rfl
  refine ⟨⟨d₂, hdrAt d₀ FreeMapSector, hdrAt d₀ DirectorySector, []⟩, ?_, hsame.sound hv,
    (hsame.header_eq .freeMap _ rfl).symm, (hsame.header_eq .directory _ rfl).symm, by simp⟩
  have hopen : ∀ x : ℕ, x < NumSectors → openSector d₀ x = some ⟨x, hdrAt d₀ x⟩ := by
    intro x hx
    unfold openSector
    rw [FileHeader.readSector_eq hx]
    rfl
  unfold format
  simp only [hrun₁, hrun₂, Option.bind_eq_bind, Option.bind_some, and_self, if_true,
    FileHeader.writeSector_eq (show FreeMapSector < NumSectors by decide),
    FileHeader.writeSector_eq (show DirectorySector < NumSectors by decide), hd,
    hopen _ (show FreeMapSector < NumSectors by decide), hopen _ (show DirectorySector < NumSectors by decide)]
  rw [hw₁, Option.bind_some, hw₂]
  rfl

/-! ### Every run -/

theorem Inv.step (hs : Inv s) {op : Op} (ha : s.Allowed op) (hp : op.NotBefore) :
    ∃ s', s.step op = some s' ∧ Inv s' := by
  cases op with
  | create unset name initialSize =>
    obtain ⟨size, rfl⟩ := Int.eq_ofNat_of_zero_le ha.1
    obtain ⟨r, hrun, hInv⟩ := hs.create unset name (Int.ofNat_le.mp ha.2)
    exact ⟨r.2, congrArg (Option.map Prod.snd) hrun, hInv⟩
  | remove unset name =>
    obtain ⟨r, hrun, hInv⟩ := hs.remove unset name
    exact ⟨r.2, congrArg (Option.map Prod.snd) hrun, hInv⟩
  | openFile unset name => exact hs.openFile unset name
  | writeAt unset file source numBytes position =>
    obtain ⟨r, hrun, hInv⟩ := hs.writeAt unset source ha hp.1 hp.2
    refine ⟨_, ?_, hInv⟩
    simp only [FileSystem.step, hrun, Option.map_some]

/-- A `Create` that fails has not written anything. -/
theorem create_false {unset : ℕ → ℕ → Byte} {name : CString} {size : ℤ} {r : FileSystem}
    (h : s.create unset name size = some (false, r)) : r = s := by
  unfold FileSystem.create at h
  simp only [Option.bind_eq_bind, Option.pure_def, Option.bind_eq_some_iff] at h
  obtain ⟨t, -, h⟩ := h
  split at h
  · simpa using h.symm
  · obtain ⟨m, -, h⟩ := Option.bind_eq_some_iff.mp h
    split at h
    · simpa using h.symm
    · split at h
      · simpa using h.symm
      · obtain ⟨q, -, h⟩ := Option.bind_eq_some_iff.mp h
        split at h
        · simpa using h.symm
        · simp [Option.bind_eq_some_iff] at h

theorem remove_false {unset : ℕ → ℕ → Byte} {name : CString} {r : FileSystem}
    (h : s.remove unset name = some (false, r)) : r = s := by
  unfold FileSystem.remove at h
  simp only [Option.bind_eq_bind, Option.pure_def, Option.bind_eq_some_iff] at h
  obtain ⟨t, -, h⟩ := h
  split at h
  · simpa using h.symm
  · simp [Option.bind_eq_some_iff] at h

/-- **The sectors in use are marked, each has one owner, and names differ**, after every run from a formatted
disk whose writes do not start before their file. Every such run is possible, and a `Create` or `Remove` that
returns FALSE leaves the disk. -/
theorem allocation_consistent (d : Disk) (unset : ℕ → ℕ → Byte) : ∃ s₀, format d unset = some s₀ ∧
    ∀ ops, Along step (fun s op => s.Allowed op ∧ op.NotBefore) s₀ ops →
      ∃ s, exec step s₀ ops = some s ∧ (volume s.disk).Consistent ∧
        (∀ u name size r, s.create u name size = some (false, r) → r.disk = s.disk) ∧
        ∀ u name r, s.remove u name = some (false, r) → r.disk = s.disk := by
  obtain ⟨s₀, h₀, hInv⟩ := format_inv d unset
  refine ⟨s₀, h₀, fun ops hops => ?_⟩
  obtain ⟨s, hrun, hs⟩ := exec_total (fun s op hs h => Inv.step hs h.1 h.2) ops s₀ hInv hops
  exact ⟨s, hrun, hs.sound.consistent, fun _ _ _ _ h => congrArg disk (create_false h),
    fun _ _ _ h => congrArg disk (remove_false h)⟩

/-- Memory and a disk of zeros. -/
def zeros : ℕ → ℕ → Byte := fun _ _ => 0

def nameA : CString := ⟨[97], by decide⟩

/-- A file of 200 bytes, in the first sectors that are free. -/
def fileA : OpenFile := ⟨5, 200, 2, [6, 7] ++ List.replicate 28 0, by decide⟩

/-- The file is created and opened, and 128 bytes are written at `position`. -/
def writeAtRun (position : ℤ) : List Op :=
  [.create zeros nameA 200, .openFile zeros nameA, .writeAt (zeros 0) fileA (zeros 0) 128 position]

theorem allocation_consistent_writeAt : ∃ s₀ s, format zeros zeros = some s₀ ∧
    exec step s₀ (writeAtRun 0) = some s ∧ (volume s.disk).Consistent := by
  obtain ⟨s₀, h₀, h⟩ := allocation_consistent zeros zeros
  have hops : ∀ s ∈ format zeros zeros,
      Along step (fun s op => s.Allowed op ∧ op.NotBefore) s (writeAtRun 0) := by decide +kernel
  obtain ⟨s, hs, hc, -⟩ := h _ (hops s₀ h₀)
  exact ⟨s₀, s, h₀, hs, hc⟩

/-- A write that starts one sector before the file: the sector with the number `numSectors`, which is 2, is
written, and it holds the free map. -/
theorem writeAt_before_start : ∃ s₀ s, format zeros zeros = some s₀ ∧ Along step Allowed s₀ (writeAtRun (-128)) ∧
    exec step s₀ (writeAtRun (-128)) = some s ∧ ¬ (volume s.disk).Consistent := by
  have hops : ∀ s ∈ format zeros zeros, Along step Allowed s (writeAtRun (-128)) := by decide +kernel
  have hclear : (((format zeros zeros).bind fun s₀ => exec step s₀ (writeAtRun (-128))).map
      fun s => (volume s.disk).freeMap.test FreeMapSector) = some false := by decide +kernel
  obtain ⟨s, hrun, hs⟩ := Option.map_eq_some_iff.mp hclear
  obtain ⟨s₀, h₀, hrun⟩ := Option.bind_eq_some_iff.mp hrun
  refine ⟨s₀, s, h₀, hops s₀ h₀, hrun, fun hc => ?_⟩
  have hmem : FreeMapSector ∈ (volume s.disk).allocated :=
    List.mem_append_left _ (List.mem_append_left _ List.mem_cons_self)
  rw [(hc.marked_iff _).mpr hmem] at hs
  cases hs

end FileSystem

end OnDisk

end Nachos
