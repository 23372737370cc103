/-
# Sectors for a file

`Allocate` and `Deallocate` of `filesys/filehdr.cc` on the map of the free sectors,
and the map and the directory as contents of their files (`filesys/pbitmap.cc`,
`Directory::FetchFrom` and `WriteBack`). What `new` gives is `unset`.

* `allocate_of_le`: `Allocate` takes distinct clear sectors and marks these and no
  others, and the header lists them.
* `allocatesWithin_iff`: `Allocate` stays inside the header's table exactly if the size
  has room in it or the disk has too few clear sectors.
* `deallocate_eq`: `Deallocate` clears the sectors of the header and no others.
* `Written`: after the map and the directory were written back, in either order,
  the two files hold them.

Key definitions: `FileHeader.allocate`, `FileHeader.deallocate`, `FileHeader.AllocatesWithin`, `Bitmap.Taken`,
`Written`.
-/
import NachosNet.Filesys.Directory

namespace Nachos

open Basis

/-- The bits `l` were clear in `m`, and `m'` is `m` with them. -/
structure Bitmap.Taken {n : ℕ} (m m' : Bitmap n) (l : List ℕ) : Prop where
  nodup : l.Nodup
  clear : ∀ x ∈ l, m.test x = false
  test_iff : ∀ x, m'.test x = true ↔ m.test x = true ∨ x ∈ l
  numClear_eq : m'.numClear + l.length = m.numClear

namespace Bitmap.Taken

variable {n : ℕ} {m m' : Bitmap n}

theorem refl (m : Bitmap n) : Taken m m [] :=
  ⟨List.nodup_nil, by simp, by simp, rfl⟩

theorem not_test {l : List ℕ} (h : Taken m m' l) {x : ℕ} (hx : x ∈ l) : ¬ m.test x = true := by
  rw [h.clear x hx]
  exact Bool.false_ne_true

theorem cons {l : List ℕ} {x : ℕ} (h : Taken (m.mark x) m' l) (hx : x < n) (hc : m.test x = false) :
    Taken m m' (x :: l) := by
  have hmark : ∀ y, (m.mark x).test y = true ↔ y = x ∨ m.test y = true := by
    intro y
    rw [test_mark m hx, Bool.or_eq_true, decide_eq_true_eq]
  refine ⟨List.nodup_cons.mpr ⟨fun hl => ?_, h.nodup⟩, fun y hy => ?_, fun y => ?_, ?_⟩
  · exact h.not_test hl ((hmark x).mpr (Or.inl rfl))
  · obtain rfl | hy := List.mem_cons.mp hy
    · exact hc
    · have hy := h.clear y hy
      rw [test_mark m hx, Bool.or_eq_false_iff] at hy
      exact hy.2
  · rw [h.test_iff, hmark, List.mem_cons]
    exact ⟨fun h => by tauto, fun h => by tauto⟩
  · rw [List.length_cons, ← Nat.add_assoc, h.numClear_eq, numClear_mark m hx hc]

end Bitmap.Taken

namespace OnDisk

/-- `divRoundUp` on `int`. -/
def divRoundUp (n s : ℤ) : ℤ := n.tdiv s + if 0 < n.tmod s then 1 else 0

theorem divRoundUp_eq (n : ℕ) : divRoundUp n SectorSize = ((n + (SectorSize - 1)) / SectorSize : ℕ) := by
  unfold divRoundUp
  rw [← Int.ofNat_tdiv, ← Int.ofNat_tmod]
  unfold SectorSize
  split <;> omega

theorem lt_of_test {m : Bitmap NumSectors} {x : ℕ} (h : m.test x = true) : x < NumSectors := by
  have hlen : m.map.length = 32 := m.length_map
  by_contra hx
  have hword : m.word x = 0 := by
    have hnone : m.map[x / 32]? = none := by
      rw [List.getElem?_eq_none_iff, hlen]
      unfold NumSectors at hx
      omega
    unfold Bitmap.word
    rw [List.getD_eq_getElem?_getD, hnone]
    rfl
  rw [Bitmap.test_eq, hword] at h
  simp at h

namespace FileHeader

/-- `dataSectors[i] = s`; `none` when it writes beyond the header. -/
def setSector (h : FileHeader) (i : ℕ) (s : ℤ) : Option FileHeader :=
  if i < NumDirect then
    some { h with dataSectors := ⟨h.dataSectors.1.set i (BitVec.ofInt 32 s), by
      rw [List.length_set, h.dataSectors.2]⟩ }
  else none

/-- The loop of `Allocate`: `k` sectors are left, and `i` have been found. -/
def allocateSectors : ℕ → ℕ → FileHeader → Bitmap NumSectors → Option (FileHeader × Bitmap NumSectors)
  | 0, _, h, freeMap => some (h, freeMap)
  | k + 1, i, h, freeMap => (h.setSector i freeMap.findAndSet.1).bind fun h =>
      if 0 ≤ freeMap.findAndSet.1 then allocateSectors k (i + 1) h freeMap.findAndSet.2 else none

/-- `Allocate`: the result, the header and the map. -/
def allocate (h : FileHeader) (freeMap : Bitmap NumSectors) (fileSize : ℤ) :
    Option (Bool × FileHeader × Bitmap NumSectors) :=
  let numSectors := divRoundUp fileSize SectorSize
  let h := { h with numBytes := BitVec.ofInt 32 fileSize, numSectors := BitVec.ofInt 32 numSectors }
  if freeMap.numClear < numSectors then some (false, h, freeMap)
  else (allocateSectors numSectors.toNat 0 h freeMap).map fun r => (true, r)

/-- The loop of `Deallocate`: `k` sectors are left, and `i` are clear. -/
def deallocateSectors (h : FileHeader) : ℕ → ℕ → Bitmap NumSectors → Option (Bitmap NumSectors)
  | 0, _, freeMap => some freeMap
  | k + 1, i, freeMap => (h.dataSector i).bind fun s =>
      if 0 ≤ s ∧ s < NumSectors ∧ freeMap.test s.toNat = true then
        deallocateSectors h k (i + 1) (freeMap.clear s.toNat)
      else none

def deallocate (h : FileHeader) (freeMap : Bitmap NumSectors) : Option (Bitmap NumSectors) :=
  h.deallocateSectors h.numSectors.toInt.toNat 0 freeMap

/-! ### Allocate -/

theorem setSector_eq {h : FileHeader} {i x : ℕ} (hi : i < NumDirect) (hx : x < NumSectors) :
    ∃ h', h.setSector i x = some h' ∧ h'.numBytes = h.numBytes ∧ h'.numSectors = h.numSectors ∧
      (h'.dataSectors.1.take (i + 1)).map BitVec.toNat = (h.dataSectors.1.take i).map BitVec.toNat ++ [x] := by
  unfold setSector
  rw [if_pos hi]
  refine ⟨_, rfl, rfl, rfl, ?_⟩
  have hlen : i < (h.dataSectors.1.set i (BitVec.ofInt 32 x)).length := by
    rw [List.length_set, h.dataSectors.2]
    exact hi
  have hnat : (BitVec.ofInt 32 (x : ℤ)).toNat = x := by
    unfold NumSectors at hx
    rw [BitVec.ofInt_natCast, BitVec.toNat_ofNat, Nat.mod_eq_of_lt (by omega)]
  dsimp only
  rw [List.take_succ_eq_append_getElem hlen, List.getElem_set_self, List.take_set_of_le le_rfl, List.map_append,
    List.map_singleton, hnat]

theorem allocateSectors_eq : ∀ (k i : ℕ) (h : FileHeader) (m : Bitmap NumSectors),
    i + k ≤ NumDirect → k ≤ m.numClear →
    ∃ h' m' l, allocateSectors k i h m = some (h', m') ∧ l.length = k ∧ m.Taken m' l ∧ h'.numBytes = h.numBytes ∧
      h'.numSectors = h.numSectors ∧
      (h'.dataSectors.1.take (i + k)).map BitVec.toNat = (h.dataSectors.1.take i).map BitVec.toNat ++ l
  | 0, i, h, m, _, _ => ⟨h, m, [], rfl, rfl, .refl m, rfl, rfl, (List.append_nil _).symm⟩
  | k + 1, i, h, m, hik, hk => by
    obtain ⟨x, hx, hc, -, hfind⟩ := m.findAndSet_some (by omega)
    obtain ⟨h₁, hset, hb, hs, hd⟩ := @setSector_eq h i x (by omega) hx
    have hclear := m.numClear_mark hx hc
    obtain ⟨h', m', l, hrun, hlen, ht, hb', hs', hd'⟩ :=
      allocateSectors_eq k (i + 1) h₁ (m.mark x) (by omega) (by omega)
    refine ⟨h', m', x :: l, ?_, by rw [List.length_cons, hlen], ht.cons hx hc, hb'.trans hb, hs'.trans hs, ?_⟩
    · unfold allocateSectors
      rw [hfind, hset, Option.bind_some, if_pos (Int.natCast_nonneg x)]
      exact hrun
    · rw [show i + (k + 1) = i + 1 + k by omega, hd', hd, List.append_assoc]
      rfl

variable {size : ℕ}

theorem allocate_of_lt (h : FileHeader) {m : Bitmap NumSectors}
    (hm : m.numClear < (size + (SectorSize - 1)) / SectorSize) : ∃ h', h.allocate m size = some (false, h', m) := by
  unfold allocate
  rw [divRoundUp_eq]
  exact ⟨_, if_pos (Int.ofNat_lt.mpr hm)⟩

theorem allocate_of_le (h : FileHeader) {m : Bitmap NumSectors} (hsize : size ≤ MaxFileSize)
    (hm : (size + (SectorSize - 1)) / SectorSize ≤ m.numClear) :
    ∃ h' m', h.allocate m size = some (true, h', m') ∧ m.Taken m' h'.sectors ∧ h'.Ok ∧ h'.numBytes.toNat = size := by
  have hk : (size + (SectorSize - 1)) / SectorSize ≤ NumDirect := by
    unfold MaxFileSize at hsize
    unfold SectorSize NumDirect
    omega
  unfold allocate
  rw [divRoundUp_eq]
  generalize hq : (size + (SectorSize - 1)) / SectorSize = q at *
  have hnat : ∀ x : ℕ, x ≤ MaxFileSize → (BitVec.ofInt 32 (x : ℤ)).toNat = x := by
    intro x hx
    unfold MaxFileSize at hx
    rw [BitVec.ofInt_natCast, BitVec.toNat_ofNat, Nat.mod_eq_of_lt (by omega)]
  have hqmax : q ≤ MaxFileSize := hk.trans (by decide)
  obtain ⟨h', m', l, hrun, -, ht, hb, hs, hd⟩ := allocateSectors_eq q 0
    { h with numBytes := BitVec.ofInt 32 (size : ℤ), numSectors := BitVec.ofInt 32 (q : ℤ) } m
    (by rwa [Nat.zero_add]) hm
  have hbytes : h'.numBytes.toNat = size := by rw [hb, hnat size hsize]
  have hcount : h'.numSectors.toNat = q := by rw [hs, hnat q hqmax]
  have hl : h'.sectors = l := by
    unfold sectors
    rw [hcount, ← Nat.zero_add q, hd]
    rfl
  refine ⟨h', m', ?_, hl ▸ ht, ⟨hbytes ▸ hsize, ?_, fun x hx => ?_, hl ▸ ht.nodup⟩, hbytes⟩
  · rw [if_neg (by omega), Int.toNat_natCast, hrun]
    rfl
  · rw [hcount, hbytes, hq]
  · exact lt_of_test ((ht.test_iff x).mpr (Or.inr (hl ▸ hx)))

theorem allocateSectors_none : ∀ (k i : ℕ) (h : FileHeader) (m : Bitmap NumSectors), i ≤ NumDirect →
    NumDirect < i + k → k ≤ m.numClear → allocateSectors k i h m = none
  | 0, i, _, _, hi, hik, _ => by omega
  | k + 1, i, h, m, hi, hik, hk => by
    obtain ⟨x, hx, hc, -, hfind⟩ := m.findAndSet_some (by omega)
    unfold allocateSectors
    rw [hfind]
    obtain rfl | hlt := hi.eq_or_lt
    · unfold setSector
      rw [if_neg (Nat.lt_irrefl _)]
      rfl
    · obtain ⟨h₁, hset, -⟩ := @setSector_eq h i x hlt hx
      have hclear := m.numClear_mark hx hc
      rw [hset, Option.bind_some, if_pos (Int.natCast_nonneg x)]
      exact allocateSectors_none k (i + 1) h₁ (m.mark x) hlt (by omega) (by omega)

/-- `Allocate` refuses and takes no sector, or it writes entries of the header's table only, for
as many clear sectors as the size needs, and marks these and no others. -/
def AllocatesWithin (h : FileHeader) (m : Bitmap NumSectors) (size : ℕ) : Prop :=
  (∃ h', h.allocate m size = some (false, h', m)) ∨
    ∃ h' m', h.allocate m size = some (true, h', m') ∧
      h'.numSectors.toNat = (size + (SectorSize - 1)) / SectorSize ∧ h'.numSectors.toNat ≤ NumDirect ∧
      h'.sectors.length = h'.numSectors.toNat ∧ m.Taken m' h'.sectors

theorem allocate_none (h : FileHeader) {m : Bitmap NumSectors} (hsize : MaxFileSize < size)
    (hm : (size + (SectorSize - 1)) / SectorSize ≤ m.numClear) : h.allocate m size = none := by
  unfold allocate
  rw [divRoundUp_eq]
  dsimp only
  rw [if_neg (by omega), Int.toNat_natCast, allocateSectors_none _ 0 _ m (Nat.zero_le _) _ hm]
  · rfl
  · unfold MaxFileSize at hsize
    unfold SectorSize NumDirect
    omega

theorem not_allocatesWithin {h : FileHeader} {m : Bitmap NumSectors} (hnone : h.allocate m size = none) :
    ¬ h.AllocatesWithin m size := by
  unfold AllocatesWithin
  rw [hnone]
  rintro (⟨h', hw⟩ | ⟨h', m', hw, -⟩)
  · cases hw
  · cases hw

/-- The header's table is not overrun just if the size has room in it, or the disk has no room
for the file: there is no other check. -/
theorem allocatesWithin_iff (h : FileHeader) (m : Bitmap NumSectors) (size : ℕ) :
    h.AllocatesWithin m size ↔ size ≤ MaxFileSize ∨ m.numClear < (size + (SectorSize - 1)) / SectorSize := by
  constructor
  · intro hw
    by_contra hc
    rw [not_or, Nat.not_le, Nat.not_lt] at hc
    exact not_allocatesWithin (allocate_none h hc.1 hc.2) hw
  · intro hor
    by_cases hm : m.numClear < (size + (SectorSize - 1)) / SectorSize
    · exact Or.inl (allocate_of_lt h hm)
    · have hsize := hor.resolve_right hm
      obtain ⟨h', m', hrun, ht, ho, hbytes⟩ := allocate_of_le h hsize (Nat.le_of_not_lt hm)
      have hcount := ho.numSectors_eq
      rw [hbytes] at hcount
      refine Or.inr ⟨h', m', hrun, hcount, ho.covers.numSectors_le, ?_, ht⟩
      unfold sectors
      rw [List.length_map, List.length_take, h'.dataSectors.2, Nat.min_eq_left ho.covers.numSectors_le]

/-- A file of one byte more than the header has room for, on an empty disk. -/
theorem allocate_overruns_header :
    FileHeader.allocate ⟨0, 0, ⟨List.replicate NumDirect 0, rfl⟩⟩ (Bitmap.init NumSectors) 3841 = none ∧
      ¬ AllocatesWithin ⟨0, 0, ⟨List.replicate NumDirect 0, rfl⟩⟩ (Bitmap.init NumSectors) 3841 := by
  have hnone : FileHeader.allocate ⟨0, 0, ⟨List.replicate NumDirect 0, rfl⟩⟩ (Bitmap.init NumSectors) (3841 : ℕ) =
      none := allocate_none _ (by decide) (by decide +kernel)
  exact ⟨hnone, not_allocatesWithin hnone⟩

/-! ### Deallocate -/

variable {h : FileHeader}

theorem Ok.mem_sectors (ho : h.Ok) {x : ℕ} : x ∈ h.sectors ↔ ∃ i < h.numSectors.toNat, x = h.sector i := by
  constructor
  · intro hx
    obtain ⟨i, hi⟩ := List.mem_iff_getElem?.mp hx
    have hlt : i < h.numSectors.toNat := by
      have hlen := (List.getElem?_eq_some_iff.mp hi).1
      unfold sectors at hlen
      rw [List.length_map, List.length_take] at hlen
      omega
    rw [ho.covers.getElem?_sectors hlt] at hi
    exact ⟨i, hlt, (Option.some.inj hi).symm⟩
  · rintro ⟨i, hi, rfl⟩
    exact ho.covers.sector_mem hi

theorem Ok.dataSector_eq (ho : h.Ok) {i : ℕ} (hi : i < h.numSectors.toNat) :
    h.dataSector i = some (h.sector i : ℤ) := by
  have hsec := (ho.covers.byteToSector_eq hi).1
  unfold byteToSector at hsec
  rwa [Int.mul_tdiv_cancel _ (by decide)] at hsec

theorem deallocateSectors_eq (ho : h.Ok) : ∀ (k i : ℕ) (m : Bitmap NumSectors), i + k ≤ h.numSectors.toNat →
    (∀ j, i ≤ j → j < i + k → m.test (h.sector j) = true) →
    ∃ m', h.deallocateSectors k i m = some m' ∧
      ∀ x, m'.test x = true ↔ m.test x = true ∧ ∀ j, i ≤ j → j < i + k → x ≠ h.sector j
  | 0, i, m, _, _ => ⟨m, rfl, fun x => ⟨fun h => ⟨h, fun j hj hj' => by omega⟩, And.left⟩⟩
  | k + 1, i, m, hik, hm => by
    have hx := (ho.covers.byteToSector_eq (show i < h.numSectors.toNat by omega)).2
    have hclear : ∀ x, (m.clear (h.sector i)).test x = true ↔ x ≠ h.sector i ∧ m.test x = true := by
      intro x
      rw [Bitmap.test_clear m hx, Bool.and_eq_true, Bool.not_eq_true', decide_eq_false_iff_not]
    obtain ⟨m', hrun, hm'⟩ := deallocateSectors_eq ho k (i + 1) (m.clear (h.sector i)) (by omega) fun j hj hj' =>
      (hclear _).mpr ⟨fun he => by have := ho.covers.sector_inj (by omega) (by omega) he; omega, hm j (by omega) (by omega)⟩
    refine ⟨m', ?_, fun x => ?_⟩
    · unfold deallocateSectors
      rw [ho.dataSector_eq (by omega), Option.bind_some, Int.toNat_natCast,
        if_pos ⟨Int.natCast_nonneg _, Int.ofNat_lt.mpr hx, hm i le_rfl (by omega)⟩]
      exact hrun
    · rw [hm', hclear]
      constructor
      · rintro ⟨⟨hne, ht⟩, hj⟩
        refine ⟨ht, fun j hij hj' => ?_⟩
        obtain rfl | hij := hij.eq_or_lt
        · exact hne
        · exact hj j hij (by omega)
      · rintro ⟨ht, hj⟩
        exact ⟨⟨hj i le_rfl (by omega), ht⟩, fun j hij hj' => hj j (by omega) (by omega)⟩

theorem deallocate_eq (ho : h.Ok) {m : Bitmap NumSectors} (hm : ∀ x ∈ h.sectors, m.test x = true) :
    ∃ m', h.deallocate m = some m' ∧ ∀ x, m'.test x = true ↔ m.test x = true ∧ x ∉ h.sectors := by
  have hcount : h.numSectors.toInt.toNat = h.numSectors.toNat := by
    have := ho.covers.numSectors_le
    unfold NumDirect at this
    rw [BitVec.toInt_eq_toNat_of_lt (by omega), Int.toNat_natCast]
  obtain ⟨m', hrun, hm'⟩ := deallocateSectors_eq ho h.numSectors.toNat 0 m (by rw [Nat.zero_add])
    fun j _ hj => hm _ (ho.covers.sector_mem (by omega))
  refine ⟨m', by unfold deallocate; rw [hcount, hrun], fun x => (hm' x).trans (and_congr_right fun _ => ?_)⟩
  rw [ho.mem_sectors]
  constructor
  · rintro hj ⟨i, hi, rfl⟩
    exact hj i (Nat.zero_le i) (by omega) rfl
  · exact fun hx j _ hj he => hx ⟨j, by omega, he⟩

/-! ### Whole files -/

variable {d : Disk}

theorem readAt_all (ho : h.Ok) (unset : ℕ → Byte) {n : ℕ} (hn : h.numBytes.toNat = n) (h0 : 0 < n) :
    ∃ f, h.readAt d unset n 0 = some ((n : ℤ), f) ∧ ∀ x < n, f x = h.byteAt d x := by
  have hin : h.inFile n 0 = n := by
    unfold inFile
    omega
  obtain ⟨f, hread, hf⟩ := @readAt_eq h d ho.covers unset n 0 h0 (hn ▸ h0)
    (ho.covers.add_le_maxInt (by omega))
  rw [hin] at hread hf
  refine ⟨f, hread, fun x hx => ?_⟩
  rw [hf x hx, Nat.zero_add]

theorem writeAt_all (ho : h.Ok) (unset source : ℕ → Byte) {n : ℕ} (hn : h.numBytes.toNat = n) (h0 : 0 < n) :
    ∃ d', h.writeAt d unset source n 0 = some ((n : ℤ), d') ∧ (∀ s, s ∉ h.sectors → d' s = d s) ∧
      ∀ x < n, h.byteAt d' x = source x := by
  have hin : h.inFile n 0 = n := by
    unfold inFile
    omega
  obtain ⟨d', hwrite, hother, hbyte⟩ := @writeAt_eq h d ho.covers unset source n 0 h0 (hn ▸ h0)
    (ho.covers.add_le_maxInt (by omega))
  rw [hin] at hwrite hbyte
  refine ⟨d', hwrite, hother, fun x hx => ?_⟩
  rw [hbyte x (hn ▸ hx), overlay_of_mem (Nat.zero_le x) (by omega), Nat.sub_zero]

theorem Ok.byteAt_congr (ho : h.Ok) {d' : Disk} (hd : ∀ s ∈ h.sectors, d' s = d s) {x : ℕ}
    (hx : x < h.numBytes.toNat) : h.byteAt d' x = h.byteAt d x := by
  have hlt : x / SectorSize < h.numSectors.toNat := by
    rw [ho.numSectors_eq]
    unfold SectorSize
    omega
  unfold byteAt
  rw [hd _ (ho.covers.sector_mem hlt)]

end FileHeader

/-! ### The map and the directory in their files -/

/-- `NumSectors / BitsInByte` -/
def FreeMapFileSize : ℕ := 128

/-- `sizeof(DirectoryEntry) * NumDirEntries` -/
def DirectoryFileSize : ℕ := 200

/-- `PersistentBitmap(file, NumSectors)` -/
def fetchMap (d : Disk) (file : FileHeader) (unset : ℕ → Byte) : Option (Bitmap NumSectors) :=
  let m := Bitmap.init NumSectors
  (file.readAt d unset (m.map.length * 4 : ℕ) 0).map fun r =>
    Bitmap.ofBytes NumSectors (overlay m.bytes 0 r.1.toNat r.2)

/-- `PersistentBitmap::WriteBack` -/
def writeMap (m : Bitmap NumSectors) (d : Disk) (file : FileHeader) (unset : ℕ → Byte) : Option Disk :=
  (file.writeAt d unset m.bytes (m.map.length * 4 : ℕ) 0).map Prod.snd

def Directory.fetchFrom (t : Directory) (d : Disk) (file : FileHeader) (unset : ℕ → Byte) : Option Directory :=
  (file.readAt d unset DirectoryFileSize 0).map fun r => ⟨overlay t.table 0 r.1.toNat r.2⟩

def Directory.writeBack (t : Directory) (d : Disk) (file : FileHeader) (unset : ℕ → Byte) : Option Disk :=
  (file.writeAt d unset t.table DirectoryFileSize 0).map Prod.snd

variable {d : Disk} {file : FileHeader}

theorem length_map_eq (m : Bitmap NumSectors) : m.map.length * 4 = FreeMapFileSize := by
  rw [m.length_map]
  rfl

theorem ofBytes_congr {f g : ℕ → Byte} (h : ∀ x < FreeMapFileSize, f x = g x) :
    Bitmap.ofBytes NumSectors f = Bitmap.ofBytes NumSectors g := by
  unfold Bitmap.ofBytes
  rw [Bitmap.mk.injEq]
  exact words_congr h

theorem fetchMap_eq (ho : file.Ok) (hn : file.numBytes.toNat = FreeMapFileSize) (unset : ℕ → Byte) :
    fetchMap d file unset = some (Bitmap.ofBytes NumSectors (file.byteAt d)) := by
  obtain ⟨f, hread, hf⟩ := @FileHeader.readAt_all file d ho unset _ hn (by decide)
  unfold fetchMap
  dsimp only
  rw [length_map_eq, hread, Option.map_some, Int.toNat_natCast]
  refine congrArg some (ofBytes_congr fun x hx => ?_)
  dsimp only
  rw [overlay_of_mem (Nat.zero_le x) (by omega), Nat.sub_zero, hf x hx]

theorem writeMap_eq (m : Bitmap NumSectors) (ho : file.Ok) (hn : file.numBytes.toNat = FreeMapFileSize)
    (unset : ℕ → Byte) : ∃ d', writeMap m d file unset = some d' ∧ (∀ s, s ∉ file.sectors → d' s = d s) ∧
      Bitmap.ofBytes NumSectors (file.byteAt d') = m := by
  obtain ⟨d', hwrite, hother, hbyte⟩ := @FileHeader.writeAt_all file d ho unset m.bytes _ hn (by decide)
  refine ⟨d', ?_, hother, (ofBytes_congr hbyte).trans m.ofBytes_bytes⟩
  unfold writeMap
  rw [length_map_eq, hwrite]
  rfl

theorem Directory.fetchFrom_eq (t : Directory) (ho : file.Ok) (hn : file.numBytes.toNat = DirectoryFileSize)
    (unset : ℕ → Byte) : ∃ t', t.fetchFrom d file unset = some t' ∧
      ∀ x < DirectoryFileSize, t'.table x = file.byteAt d x := by
  obtain ⟨f, hread, hf⟩ := @FileHeader.readAt_all file d ho unset _ hn (by decide)
  unfold fetchFrom
  rw [hread]
  refine ⟨_, rfl, fun x hx => ?_⟩
  dsimp only
  rw [Int.toNat_natCast, overlay_of_mem (Nat.zero_le x) (by omega), Nat.sub_zero, hf x hx]

theorem Directory.writeBack_eq (t : Directory) (ho : file.Ok) (hn : file.numBytes.toNat = DirectoryFileSize)
    (unset : ℕ → Byte) : ∃ d', t.writeBack d file unset = some d' ∧ (∀ s, s ∉ file.sectors → d' s = d s) ∧
      ∀ x < DirectoryFileSize, file.byteAt d' x = t.table x := by
  obtain ⟨d', hwrite, hother, hbyte⟩ := @FileHeader.writeAt_all file d ho unset t.table _ hn (by decide)
  refine ⟨d', ?_, hother, hbyte⟩
  unfold writeBack
  rw [hwrite]
  rfl

theorem Directory.sameEntry_of_table {t t' : Directory} (h : ∀ x < DirectoryFileSize, t'.table x = t.table x) {i : ℕ}
    (hi : i < NumDirEntries) : SameEntry t t' i := by
  intro k hk
  apply h
  unfold NumDirEntries at hi
  unfold entrySize at *
  unfold DirectoryFileSize
  omega

/-! ### Both files -/

/-- The headers of the two files can be used, and the files are apart. -/
structure TwoFiles (mapHdr dirHdr : FileHeader) : Prop where
  map_ok : mapHdr.Ok
  map_size : mapHdr.numBytes.toNat = FreeMapFileSize
  dir_ok : dirHdr.Ok
  dir_size : dirHdr.numBytes.toNat = DirectoryFileSize
  apart : ∀ x ∈ mapHdr.sectors, x ∉ dirHdr.sectors

/-- `d'` is `d` with the map `m` and the directory `t` in their files. -/
structure Written (mapHdr dirHdr : FileHeader) (m : Bitmap NumSectors) (t : Directory) (d d' : Disk) : Prop where
  others : ∀ s, s ∉ mapHdr.sectors → s ∉ dirHdr.sectors → d' s = d s
  map_eq : Bitmap.ofBytes NumSectors (mapHdr.byteAt d') = m
  dir_eq : ∀ x < DirectoryFileSize, dirHdr.byteAt d' x = t.table x

variable {mapHdr dirHdr : FileHeader}

/-- The map is written back before the directory. -/
theorem TwoFiles.writeMap_writeBack (h : TwoFiles mapHdr dirHdr) (m : Bitmap NumSectors) (t : Directory) (d : Disk)
    (unset unset' : ℕ → Byte) : ∃ d₁ d₂, writeMap m d mapHdr unset = some d₁ ∧
      t.writeBack d₁ dirHdr unset' = some d₂ ∧ Written mapHdr dirHdr m t d d₂ := by
  obtain ⟨d₁, hrun₁, hother₁, hmap⟩ := @writeMap_eq d mapHdr m h.map_ok h.map_size unset
  obtain ⟨d₂, hrun₂, hother₂, hdir⟩ := @Directory.writeBack_eq d₁ dirHdr t h.dir_ok h.dir_size unset'
  refine ⟨d₁, d₂, hrun₁, hrun₂, fun s hm hd => (hother₂ s hd).trans (hother₁ s hm), ?_, hdir⟩
  rw [← hmap]
  exact ofBytes_congr fun x hx =>
    h.map_ok.byteAt_congr (fun s hs => hother₂ s (h.apart s hs)) (h.map_size ▸ hx)

/-- The directory is written back before the map. -/
theorem TwoFiles.writeBack_writeMap (h : TwoFiles mapHdr dirHdr) (m : Bitmap NumSectors) (t : Directory) (d : Disk)
    (unset unset' : ℕ → Byte) : ∃ d₁ d₂, t.writeBack d dirHdr unset = some d₁ ∧
      writeMap m d₁ mapHdr unset' = some d₂ ∧ Written mapHdr dirHdr m t d d₂ := by
  obtain ⟨d₁, hrun₁, hother₁, hdir⟩ := @Directory.writeBack_eq d dirHdr t h.dir_ok h.dir_size unset
  obtain ⟨d₂, hrun₂, hother₂, hmap⟩ := @writeMap_eq d₁ mapHdr m h.map_ok h.map_size unset'
  refine ⟨d₁, d₂, hrun₁, hrun₂, fun s hm hd => (hother₂ s hm).trans (hother₁ s hd), hmap, fun x hx => ?_⟩
  rw [← hdir x hx]
  exact h.dir_ok.byteAt_congr (fun s hs => hother₂ s fun hm => h.apart s hm hs) (h.dir_size ▸ hx)

end OnDisk

end Nachos
