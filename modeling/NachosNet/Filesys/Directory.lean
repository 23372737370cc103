/-
# The directory and the free map

`filesys/directory.cc` and `filesys/pbitmap.cc`: a table of entries with a flag, a
sector and a name, and the bitmap of the sectors. Both are stored as the contents of
a file, and the table is kept here as the bytes that are stored, with its entries
of 20 bytes. A name is compared in its first nine characters and copied as far as
these; `name[9]` is never set.

Key definitions: `Directory.findIndex`, `Directory.add`, `Directory.remove`, `Bitmap.ofBytes`.
-/
import NachosNet.Basis.CString
import NachosNet.Filesys.Disk
import NachosNet.Lib.Bitmap

namespace Nachos

open Basis

/-- The bytes of `map`. -/
def Bitmap.bytes {n : ℕ} (m : Bitmap n) : ℕ → Byte := ofWords m.map

/-- The bitmap with these bytes. -/
def Bitmap.ofBytes (n : ℕ) (f : ℕ → Byte) : Bitmap n := ⟨words f _, length_words f _⟩

theorem Bitmap.ofBytes_bytes {n : ℕ} (m : Bitmap n) : ofBytes n m.bytes = m := by
  have h : words (ofWords m.map) _ = m.map := words_ofWords m.length_map
  unfold ofBytes bytes
  cases m
  simpa using h

namespace OnDisk

def NumDirEntries : ℕ := 10

def FileNameMaxLen : ℕ := 9

/-- `sizeof(DirectoryEntry)`: `inUse` at 0, `sector` at 4 and `name` at 8. -/
def entrySize : ℕ := 20

/-- The bytes of `table`. -/
structure Directory where
  table : ℕ → Byte

namespace Directory

/-- `Directory(size)` on memory that has not been set. -/
def init (unset : ℕ → Byte) : Directory := ⟨fun x => if x % entrySize = 0 then 0 else unset x⟩

def inUse (t : Directory) (i : ℕ) : Bool := t.table (entrySize * i) ≠ 0

def sector (t : Directory) (i : ℕ) : BitVec 32 := word t.table (entrySize * i + 4)

def name (t : Directory) (i : ℕ) : List Byte :=
  (List.range (FileNameMaxLen + 1)).map fun j => t.table (entrySize * i + 8 + j)

/-- What `strncmp` compares of a name. -/
def nameOf (t : Directory) (i : ℕ) : List Byte := (cstr (t.name i)).take FileNameMaxLen

def findIndex (t : Directory) (name : CString) : Option ℕ :=
  (List.range NumDirEntries).find? fun i => t.inUse i && t.nameOf i = name.1.take FileNameMaxLen

def find (t : Directory) (name : CString) : ℤ := (t.findIndex name).elim (-1) fun i => (t.sector i).toInt

/-- Entry `i` is set; the name with `strncpy`. -/
def setEntry (t : Directory) (i : ℕ) (name : CString) (newSector : BitVec 32) : Directory :=
  let t₁ := overlay t.table (entrySize * i) 1 fun _ => 1
  let t₂ := overlay t₁ (entrySize * i + 8) FileNameMaxLen fun j => name.1.getD j 0
  ⟨overlay t₂ (entrySize * i + 4) 4 (ofWords [newSector])⟩

/-- `Add`; `none` is FALSE. -/
def add (t : Directory) (name : CString) (newSector : BitVec 32) : Option Directory :=
  if t.findIndex name ≠ none then none
  else ((List.range NumDirEntries).find? fun i => !t.inUse i).map fun i => t.setEntry i name newSector

/-- `table[i].inUse = FALSE` -/
def clearEntry (t : Directory) (i : ℕ) : Directory := ⟨overlay t.table (entrySize * i) 1 fun _ => 0⟩

def remove (t : Directory) (name : CString) : Directory := (t.findIndex name).elim t t.clearEntry

variable {t t' : Directory} {i j : ℕ} {name : CString} {s : BitVec 32}

/-! ### The entries -/

theorem table_setEntry_ne (hj : j ≠ i) {k : ℕ} (hk : k < entrySize) :
    (t.setEntry i name s).table (entrySize * j + k) = t.table (entrySize * j + k) := by
  unfold setEntry
  dsimp only
  unfold FileNameMaxLen
  rw [overlay_of_notMem, overlay_of_notMem, overlay_of_notMem] <;>
  · unfold entrySize at *
    omega

theorem table_clearEntry_ne {k : ℕ} (hk : k < entrySize) (h : j ≠ i ∨ k ≠ 0) :
    (t.clearEntry i).table (entrySize * j + k) = t.table (entrySize * j + k) := by
  unfold clearEntry
  dsimp only
  rw [overlay_of_notMem]
  unfold entrySize at *
  omega

/-- Two tables agree on entry `i`. -/
def SameEntry (t t' : Directory) (i : ℕ) : Prop :=
  ∀ k < entrySize, t'.table (entrySize * i + k) = t.table (entrySize * i + k)

theorem SameEntry.inUse_eq (h : SameEntry t t' i) : t'.inUse i = t.inUse i := by
  have h0 := h 0 (by decide)
  unfold inUse
  rw [Nat.add_zero] at h0
  rw [h0]

theorem SameEntry.sector_eq (h : SameEntry t t' i) : t'.sector i = t.sector i := by
  refine word_congr fun k hk => ?_
  rw [Nat.add_assoc]
  exact h _ (by unfold entrySize; omega)

theorem SameEntry.nameOf_eq (h : SameEntry t t' i) : t'.nameOf i = t.nameOf i := by
  have hname : t'.name i = t.name i := by
    refine List.map_congr_left fun k hk => ?_
    rw [Nat.add_assoc]
    refine h _ ?_
    have := List.mem_range.mp hk
    unfold FileNameMaxLen at this
    unfold entrySize
    omega
  unfold nameOf
  rw [hname]

theorem sameEntry_setEntry (hj : j ≠ i) : SameEntry t (t.setEntry i name s) j := fun _ hk => table_setEntry_ne hj hk

theorem sameEntry_clearEntry (hj : j ≠ i) : SameEntry t (t.clearEntry i) j :=
  fun _ hk => table_clearEntry_ne hk (Or.inl hj)

theorem inUse_setEntry : (t.setEntry i name s).inUse i = true := by
  have h : (t.setEntry i name s).table (entrySize * i) = 1 := by
    unfold setEntry
    dsimp only
    rw [overlay_of_notMem (Or.inl (by omega)), overlay_of_notMem (Or.inl (by omega)),
      overlay_of_mem le_rfl (by omega)]
  unfold inUse
  rw [h]
  rfl

theorem inUse_clearEntry : (t.clearEntry i).inUse i = false := by
  have h : (t.clearEntry i).table (entrySize * i) = 0 := by
    unfold clearEntry
    dsimp only
    rw [overlay_of_mem le_rfl (Nat.lt_succ_self _)]
  unfold inUse
  rw [h]
  rfl

theorem sector_setEntry : (t.setEntry i name s).sector i = s := by
  have h : ∀ k < 4, (t.setEntry i name s).table (entrySize * i + 4 + k) = ofWords [s] k := by
    intro k hk
    unfold setEntry
    dsimp only
    rw [overlay_of_mem (by omega) (by omega), Nat.add_sub_cancel_left]
  calc (t.setEntry i name s).sector i
      = word (ofWords [s]) 0 := word_congr fun k hk => by rw [h k hk, Nat.zero_add]
    _ = s := word_ofWords [s] 0

theorem nameOf_setEntry : (t.setEntry i name s).nameOf i = name.1.take FileNameMaxLen := by
  have hbyte : ∀ k < FileNameMaxLen,
      (t.setEntry i name s).table (entrySize * i + 8 + k) = name.1.getD k 0 := by
    intro k hk
    unfold setEntry
    dsimp only
    rw [overlay_of_notMem (Or.inr (by omega)), overlay_of_mem (by omega) (by omega), Nat.add_sub_cancel_left]
  refine take_cstr name.2 fun k hk => ?_
  unfold Directory.name
  rw [List.getElem?_map, List.getElem?_range (hk.trans (Nat.lt_succ_self _)), Option.map_some, hbyte k hk]

/-! ### Searches -/

theorem findIndex_none (h : t.findIndex name = none) (hi : i < NumDirEntries) (hu : t.inUse i = true) :
    t.nameOf i ≠ name.1.take FileNameMaxLen := by
  intro he
  refine List.find?_eq_none.mp h i (List.mem_range.mpr hi) ?_
  rw [hu, decide_eq_true he]
  rfl

theorem findIndex_some (h : t.findIndex name = some i) :
    i < NumDirEntries ∧ t.inUse i = true ∧ t.nameOf i = name.1.take FileNameMaxLen := by
  obtain ⟨hp, hi, -⟩ := List.find?_range_eq_some.mp h
  rw [Bool.and_eq_true, decide_eq_true_eq] at hp
  exact ⟨List.mem_range.mp hi, hp⟩

theorem add_eq (h : t.findIndex name = none) (s : BitVec 32) :
    t.add name s = none ∨ ∃ i < NumDirEntries, t.inUse i = false ∧ t.add name s = some (t.setEntry i name s) := by
  unfold add
  rw [if_neg (by simp [h])]
  cases hf : (List.range NumDirEntries).find? fun i => !t.inUse i with
  | none => exact Or.inl rfl
  | some i =>
    obtain ⟨hp, hi, -⟩ := List.find?_range_eq_some.mp hf
    exact Or.inr ⟨i, List.mem_range.mp hi, by simpa using hp, rfl⟩

end Directory

end OnDisk

end Nachos
