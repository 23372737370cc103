/-
# What is on a disk

A disk seen through its file system: the stored free map, the stored directory and
the header in every sector (`volume`). A volume is sound when every marked sector
has one owner, and the owners are the free map, the directory and the entries in
use (`Volume.Sound`). A file is added to a sound volume (`Sound.add`) and taken out
of it (`Sound.clear`); a disk to which the map and the directory were written back
holds the new volume (`Sound.same_written`), and data of a file can be written in
place (`Sound.same_data`).

Key definitions: `volume`, `Volume.own`, `Volume.Sound`, `Volume.Same`.
-/
import NachosNet.Basis.Owners
import NachosNet.Filesys.Allocate

namespace Nachos

open Basis

namespace OnDisk

def FreeMapSector : ℕ := 0

def DirectorySector : ℕ := 1

structure Volume where
  freeMap : Bitmap NumSectors
  directory : Directory
  header : ℕ → FileHeader

/-- The header in a sector. -/
def hdrAt (d : Disk) (sector : ℕ) : FileHeader := FileHeader.ofBytes (d sector)

def volume (d : Disk) : Volume where
  freeMap := Bitmap.ofBytes NumSectors ((hdrAt d FreeMapSector).byteAt d)
  directory := ⟨(hdrAt d DirectorySector).byteAt d⟩
  header := hdrAt d

/-- Who has sectors: the two files of the system, and the file of an entry of the directory. -/
inductive Owner
  | freeMap
  | directory
  | entry (i : ℕ)
deriving DecidableEq

namespace Volume

/-- The header sector and the data sectors of a file. -/
def file (v : Volume) (sector : ℕ) : List ℕ := sector :: (v.header sector).sectors

/-- The header sector of entry `i`. -/
def sectorOf (v : Volume) (i : ℕ) : ℕ := (v.directory.sector i).toNat

def own (v : Volume) : Owner → List ℕ
  | .freeMap => v.file FreeMapSector
  | .directory => v.file DirectorySector
  | .entry i => if i < NumDirEntries ∧ v.directory.inUse i = true then v.file (v.sectorOf i) else []

structure Sound (v : Volume) : Prop where
  shares : Shares v.own fun x => v.freeMap.test x = true
  two : TwoFiles (v.header FreeMapSector) (v.header DirectorySector)
  file_ok : ∀ i < NumDirEntries, v.directory.inUse i = true → (v.header (v.sectorOf i)).Ok
  names : ∀ i < NumDirEntries, ∀ j < NumDirEntries, v.directory.inUse i = true → v.directory.inUse j = true →
    v.directory.nameOf i = v.directory.nameOf j → i = j

variable {v v' : Volume} {i : ℕ}

theorem own_entry (hi : i < NumDirEntries) (hu : v.directory.inUse i = true) :
    v.own (.entry i) = v.file (v.sectorOf i) := if_pos ⟨hi, hu⟩

theorem own_entry_nil (h : ¬ (i < NumDirEntries ∧ v.directory.inUse i = true)) : v.own (.entry i) = [] := if_neg h

theorem entry_of_own {x : ℕ} {l : List ℕ} (h : v.own (.entry i) = x :: l) :
    i < NumDirEntries ∧ v.directory.inUse i = true ∧ v.sectorOf i = x := by
  by_cases hi : i < NumDirEntries ∧ v.directory.inUse i = true
  · rw [own_entry hi.1 hi.2] at h
    exact ⟨hi.1, hi.2, (List.cons.inj h).1⟩
  · rw [own_entry_nil hi] at h
    cases h

theorem sectorOf_congr (h : Directory.SameEntry v.directory v'.directory i) : v'.sectorOf i = v.sectorOf i :=
  congrArg BitVec.toNat h.sector_eq

/-- An entry and its file that are the same in two volumes. -/
theorem own_entry_congr (h : i < NumDirEntries → Directory.SameEntry v.directory v'.directory i)
    (hf : v.own (.entry i) = v.file (v.sectorOf i) → v'.file (v.sectorOf i) = v.file (v.sectorOf i)) :
    v'.own (.entry i) = v.own (.entry i) := by
  by_cases hi : i < NumDirEntries ∧ v.directory.inUse i = true
  · have hown := own_entry hi.1 hi.2
    rw [hown, own_entry hi.1 ((h hi.1).inUse_eq.trans hi.2), sectorOf_congr (h hi.1), hf hown]
  · rw [own_entry_nil hi, own_entry_nil]
    exact fun hi' => hi ⟨hi'.1, (h hi'.1).inUse_eq ▸ hi'.2⟩

/-! ### The sectors of the files -/

section Files

variable {o o' : Owner} {x y : ℕ}

theorem Sound.marked (hv : v.Sound) (h : v.own o = v.file x) {y : ℕ} (hy : y ∈ v.file x) :
    v.freeMap.test y = true := (hv.shares.marked_iff y).mpr ⟨o, h ▸ hy⟩

theorem Sound.marked_header (hv : v.Sound) (h : v.own o = v.file x) : v.freeMap.test x = true :=
  hv.marked h List.mem_cons_self

/-- No header is among data. -/
theorem Sound.header_notMem (hv : v.Sound) (h : v.own o = v.file x) (h' : v.own o' = v.file y) :
    x ∉ (v.header y).sectors := by
  intro hx
  obtain rfl : o = o' := hv.shares.apart o o' x (h ▸ List.mem_cons_self) (h' ▸ List.mem_cons_of_mem _ hx)
  obtain rfl : x = y := (List.cons.inj (h.symm.trans h')).1
  have hnodup := hv.shares.nodup o
  rw [h] at hnodup
  exact (List.nodup_cons.mp hnodup).1 hx

/-- The data of two files is apart. -/
theorem Sound.data_apart (hv : v.Sound) (h : v.own o = v.file x) (h' : v.own o' = v.file y) (hne : o ≠ o') {s : ℕ}
    (hs : s ∈ (v.header x).sectors) : s ∉ (v.header y).sectors := fun hs' =>
  hne (hv.shares.apart o o' s (h ▸ List.mem_cons_of_mem _ hs) (h' ▸ List.mem_cons_of_mem _ hs'))

end Files

/-! ### Volumes that hold the same -/

/-- `v'` has the map, the entries and the headers of the files of `v`. -/
structure Same (v v' : Volume) : Prop where
  freeMap_eq : v'.freeMap = v.freeMap
  entry : ∀ i < NumDirEntries, Directory.SameEntry v.directory v'.directory i
  header_eq : ∀ o x, v.own o = v.file x → v'.header x = v.header x

theorem Same.file_eq (h : Same v v') {o : Owner} {x : ℕ} (hx : v.own o = v.file x) : v'.file x = v.file x := by
  unfold file
  rw [h.header_eq o x hx]

theorem Same.own_eq (h : Same v v') : v'.own = v.own := by
  funext o
  cases o with
  | freeMap => exact @Same.file_eq v v' h .freeMap _ rfl
  | directory => exact @Same.file_eq v v' h .directory _ rfl
  | entry i => exact own_entry_congr (h.entry i) h.file_eq

theorem Same.sound (h : Same v v') (hv : v.Sound) : v'.Sound where
  shares := by
    rw [h.own_eq, h.freeMap_eq]
    exact hv.shares
  two := by
    rw [h.header_eq .freeMap FreeMapSector rfl, h.header_eq .directory DirectorySector rfl]
    exact hv.two
  file_ok i hi hu := by
    rw [(h.entry i hi).inUse_eq] at hu
    rw [sectorOf_congr (h.entry i hi), h.header_eq _ _ (own_entry hi hu)]
    exact hv.file_ok i hi hu
  names i hi j hj hui huj he := by
    rw [(h.entry i hi).inUse_eq] at hui
    rw [(h.entry j hj).inUse_eq] at huj
    rw [(h.entry i hi).nameOf_eq, (h.entry j hj).nameOf_eq] at he
    exact hv.names i hi j hj hui huj he

/-- The volume with the directory as it is in memory. -/
def withDirectory (v : Volume) (t : Directory) : Volume := ⟨v.freeMap, t, v.header⟩

theorem same_withDirectory {t : Directory} (h : ∀ i < NumDirEntries, Directory.SameEntry v.directory t i) :
    Same v (v.withDirectory t) := ⟨rfl, h, fun _ _ _ => rfl⟩

/-! ### A file is added -/

/-- Entry `i` is set for a file with its header in sector `x`. -/
def add (v : Volume) (i : ℕ) (name : CString) (x : ℕ) (hdr : FileHeader) (m : Bitmap NumSectors) : Volume where
  freeMap := m
  directory := v.directory.setEntry i name (BitVec.ofInt 32 x)
  header := Function.update v.header x hdr

section Add

variable {name : CString} {x : ℕ} {hdr : FileHeader} {m : Bitmap NumSectors}

theorem sectorOf_add (hx : x < NumSectors) : (v.add i name x hdr m).sectorOf i = x := by
  unfold NumSectors at hx
  refine (congrArg BitVec.toNat Directory.sector_setEntry).trans ?_
  rw [BitVec.ofInt_natCast, BitVec.toNat_ofNat, Nat.mod_eq_of_lt (by omega)]

theorem header_add_self : (v.add i name x hdr m).header x = hdr := Function.update_self _ _ _

theorem file_add_self : (v.add i name x hdr m).file x = x :: hdr.sectors := by
  unfold file
  rw [header_add_self]

theorem Sound.header_add (hv : v.Sound) (hx : v.freeMap.test x = false) {o : Owner} {y : ℕ} (hy : v.own o = v.file y) :
    (v.add i name x hdr m).header y = v.header y := by
  refine Function.update_of_ne ?_ _ _
  rintro rfl
  rw [hv.marked_header hy] at hx
  cases hx

theorem Sound.file_add (hv : v.Sound) (hx : v.freeMap.test x = false) {o : Owner} {y : ℕ} (hy : v.own o = v.file y) :
    (v.add i name x hdr m).file y = v.file y := by
  unfold file
  rw [hv.header_add hx hy]

theorem Sound.own_add (hv : v.Sound) (hi : i < NumDirEntries) (hx : v.freeMap.test x = false) (hlt : x < NumSectors) :
    (v.add i name x hdr m).own = Function.update v.own (.entry i) (x :: hdr.sectors) := by
  funext o
  cases o with
  | freeMap => exact @Sound.file_add v i name x hdr m hv hx .freeMap _ rfl
  | directory => exact @Sound.file_add v i name x hdr m hv hx .directory _ rfl
  | entry j =>
    obtain rfl | hji := eq_or_ne j i
    · rw [Function.update_self, own_entry hi Directory.inUse_setEntry, sectorOf_add hlt, file_add_self]
    · rw [Function.update_of_ne (by simpa using hji)]
      exact own_entry_congr (fun _ => Directory.sameEntry_setEntry hji) (hv.file_add hx)

theorem Sound.add (hv : v.Sound) (hi : i < NumDirEntries) (hu : v.directory.inUse i = false)
    (hname : ∀ j < NumDirEntries, v.directory.inUse j = true → v.directory.nameOf j ≠ name.1.take FileNameMaxLen)
    (ho : hdr.Ok) (ht : v.freeMap.Taken m (x :: hdr.sectors)) : (v.add i name x hdr m).Sound := by
  have hx := ht.clear x List.mem_cons_self
  have hlt : x < NumSectors := lt_of_test ((ht.test_iff x).mpr (Or.inr List.mem_cons_self))
  have hnil : v.own (.entry i) = [] := own_entry_nil fun h => by simp [hu] at h
  have hsame : ∀ j, j ≠ i → Directory.SameEntry v.directory (v.add i name x hdr m).directory j :=
    fun j hj => Directory.sameEntry_setEntry hj
  have hset : (v.add i name x hdr m).directory.nameOf i = name.1.take FileNameMaxLen := Directory.nameOf_setEntry
  refine ⟨?_, ?_, fun j hj huj => ?_, fun j hj k hk huj huk he => ?_⟩
  · rw [hv.own_add hi hx hlt]
    exact (hv.shares.give hnil ht.nodup fun y hy => ht.not_test hy).congr ht.test_iff
  · rw [@Sound.header_add v i name x hdr m hv hx .freeMap _ rfl,
      @Sound.header_add v i name x hdr m hv hx .directory _ rfl]
    exact hv.two
  · obtain rfl | hji := eq_or_ne j i
    · rwa [sectorOf_add hlt, header_add_self]
    · rw [(hsame j hji).inUse_eq] at huj
      rw [sectorOf_congr (hsame j hji), hv.header_add hx (own_entry hj huj)]
      exact hv.file_ok j hj huj
  · -- the new name is not one of the others
    have hnew : ∀ l, l < NumDirEntries → l ≠ i → (v.add i name x hdr m).directory.inUse l = true →
        (v.add i name x hdr m).directory.nameOf l ≠ name.1.take FileNameMaxLen := by
      intro l hl hli hul
      rw [(hsame l hli).inUse_eq] at hul
      rw [(hsame l hli).nameOf_eq]
      exact hname l hl hul
    obtain rfl | hji := eq_or_ne j i
    · by_contra hkj
      exact hnew k hk (Ne.symm hkj) huk (he.symm.trans hset)
    · obtain rfl | hki := eq_or_ne k i
      · exact absurd (he.trans hset) (hnew j hj hji huj)
      · rw [(hsame j hji).inUse_eq] at huj
        rw [(hsame k hki).inUse_eq] at huk
        rw [(hsame j hji).nameOf_eq, (hsame k hki).nameOf_eq] at he
        exact hv.names j hj k hk huj huk he

end Add

/-! ### A file is taken out -/

/-- Entry `i` is no longer in use. -/
def clear (v : Volume) (i : ℕ) (m : Bitmap NumSectors) : Volume := ⟨m, v.directory.clearEntry i, v.header⟩

section Clear

variable {m : Bitmap NumSectors}

theorem own_clear : (v.clear i m).own = Function.update v.own (.entry i) [] := by
  funext o
  cases o with
  | freeMap => rfl
  | directory => rfl
  | entry j =>
    obtain rfl | hji := eq_or_ne j i
    · have hu : (v.clear j m).directory.inUse j = false := Directory.inUse_clearEntry
      rw [Function.update_self, own_entry_nil fun h => by simp [hu] at h]
    · rw [Function.update_of_ne (by simpa using hji)]
      exact own_entry_congr (fun _ => Directory.sameEntry_clearEntry hji) fun _ => rfl

theorem Sound.clear (hv : v.Sound)
    (hm : ∀ x, m.test x = true ↔ v.freeMap.test x = true ∧ x ∉ v.own (.entry i)) : (v.clear i m).Sound := by
  have hused : ∀ j, (v.clear i m).directory.inUse j = true →
      Directory.SameEntry v.directory (v.clear i m).directory j := by
    intro j hj
    obtain rfl | hji := eq_or_ne j i
    · have hu : (v.clear j m).directory.inUse j = false := Directory.inUse_clearEntry
      rw [hu] at hj
      cases hj
    · exact Directory.sameEntry_clearEntry hji
  refine ⟨?_, hv.two, fun j hj hu => ?_, fun j hj k hk huj huk he => ?_⟩
  · rw [own_clear]
    exact (hv.shares.take (.entry i)).congr hm
  · rw [sectorOf_congr (hused j hu)]
    exact hv.file_ok j hj ((hused j hu).inUse_eq ▸ hu)
  · rw [(hused j huj).nameOf_eq, (hused k huk).nameOf_eq] at he
    exact hv.names j hj k hk ((hused j huj).inUse_eq ▸ huj) ((hused k huk).inUse_eq ▸ huk) he

end Clear

/-! ### On the disk -/

/-- The map and the directory of `v` were written back, and the headers were there before. -/
theorem Sound.same_written (hv : v.Sound) {d d' : Disk}
    (hw : Written (v.header FreeMapSector) (v.header DirectorySector) v.freeMap v.directory d d')
    (hd : ∀ o x, v.own o = v.file x → hdrAt d x = v.header x) : Same v (volume d') := by
  have hhdr : ∀ o x, v.own o = v.file x → hdrAt d' x = v.header x := by
    intro o x hx
    have hsec : d' x = d x := hw.others x (@Sound.header_notMem v o .freeMap x _ hv hx rfl)
      (@Sound.header_notMem v o .directory x _ hv hx rfl)
    rw [← hd o x hx]
    exact congrArg FileHeader.ofBytes hsec
  have hmap : hdrAt d' FreeMapSector = v.header FreeMapSector := hhdr .freeMap _ rfl
  have hdir : hdrAt d' DirectorySector = v.header DirectorySector := hhdr .directory _ rfl
  refine ⟨?_, fun i hi => Directory.sameEntry_of_table (fun x hx => ?_) hi, hhdr⟩
  · unfold volume
    dsimp only
    rw [hmap, hw.map_eq]
  · unfold volume
    dsimp only
    rw [hdir, hw.dir_eq x hx]

/-- Data of the file of an entry was written. -/
theorem Sound.same_data {d d' : Disk} (hv : (volume d).Sound) {x : ℕ}
    (hx : (volume d).own (.entry i) = (volume d).file x) (hd : ∀ s, s ∉ ((volume d).header x).sectors → d' s = d s) :
    Same (volume d) (volume d') := by
  have hhdr : ∀ o y, (volume d).own o = (volume d).file y → hdrAt d' y = hdrAt d y :=
    fun o y hy => congrArg FileHeader.ofBytes (hd y (hv.header_notMem hy hx))
  have hmap : hdrAt d' FreeMapSector = hdrAt d FreeMapSector := hhdr .freeMap _ rfl
  have hdir : hdrAt d' DirectorySector = hdrAt d DirectorySector := hhdr .directory _ rfl
  refine ⟨?_, fun j hj => Directory.sameEntry_of_table (fun y hy => ?_) hj, hhdr⟩
  · unfold volume
    dsimp only
    rw [hmap]
    refine ofBytes_congr fun y hy => hv.two.map_ok.byteAt_congr (fun s hs => hd s ?_) (hv.two.map_size ▸ hy)
    exact @Sound.data_apart _ .freeMap (.entry i) _ x hv rfl hx (by simp) s hs
  · unfold volume
    dsimp only
    rw [hdir]
    refine hv.two.dir_ok.byteAt_congr (fun s hs => hd s ?_) (hv.two.dir_size ▸ hy)
    exact @Sound.data_apart _ .directory (.entry i) _ x hv rfl hx (by simp) s hs

end Volume

end OnDisk

end Nachos
