/-
# Address translation and user memory

`machine/translate.cc` for a machine with a page table and no TLB. A virtual
address is translated by the entry of its page: what `Machine::Translate`
checks, and the physical address it gives, are `translate_ok_iff`; it sets the
use and dirty bits of the entry and changes nothing else (`map_core_translate`),
and the assertion at its end never fails (`translate_assert`).

`ReadMem` and `WriteMem` go through it. What a process reads at its addresses
is `byteAt`: reading changes none of it (`readMem_byte`), and with a table whose
valid pages have different frames (`Distinct`) a written byte is read back and
every other address reads as before (`writeMem_byte_of_physAddr`). The values of
`int` fields are 32-bit words.
-/
import NachosNet.Basis.Bytes
import Mathlib.Data.Nat.Basic
import Mathlib.Data.List.Perm.Subperm

namespace Nachos

open Basis

def PageSize : ℕ := 128

def NumPhysPages : ℕ := 128

def MemorySize : ℕ := NumPhysPages * PageSize

inductive ExceptionType
  | syscall
  | pageFault
  | readOnly
  | busError
  | addressError
  | overflow
  | illegalInstr
  deriving DecidableEq

structure TranslationEntry where
  virtualPage : BitVec 32
  physicalPage : BitVec 32
  valid : Bool
  readOnly : Bool
  use : Bool
  dirty : Bool
  deriving DecidableEq

/-- The sizes of a memory access. -/
inductive Width
  | byte
  | half
  | word
  deriving DecidableEq

def Width.bytes : Width → ℕ
  | .byte => 1
  | .half => 2
  | .word => 4

/-- `pageTable` with `pageTableSize`. -/
abbrev PageTable := List TranslationEntry

/-- `mainMemory`. -/
abbrev Memory := ℕ → Byte

/-- The memory and the page table of the running process. -/
structure Machine where
  mainMemory : Memory
  pageTable : PageTable

namespace Machine

/-- The checks of `Machine::Translate` and the physical address. -/
def physAddr (t : PageTable) (virtAddr : BitVec 32) (size : Width) (writing : Bool) : Except ExceptionType ℕ :=
  if virtAddr.toNat % size.bytes ≠ 0 then .error .addressError
  else match t[virtAddr.toNat / PageSize]? with
    | none => .error .addressError
    | some entry =>
      if !entry.valid then .error .pageFault
      else if entry.readOnly && writing then .error .readOnly
      else if NumPhysPages ≤ entry.physicalPage.toNat then .error .busError
      else .ok (entry.physicalPage.toNat * PageSize + virtAddr.toNat % PageSize)

/-- `Machine::Translate`: the exception or the physical address, and the table
with the use and dirty bits set. -/
def translate (t : PageTable) (virtAddr : BitVec 32) (size : Width) (writing : Bool) :
    Except ExceptionType ℕ × PageTable :=
  match physAddr t virtAddr size writing with
  | .error e => (.error e, t)
  | .ok p => (.ok p, t.modify (virtAddr.toNat / PageSize) fun entry =>
      { entry with use := true, dirty := entry.dirty || writing })

variable {t : PageTable} {v : BitVec 32} {size : Width} {writing : Bool} {p : ℕ}

/-- An entry without the bits the machine sets. -/
def core (e : TranslationEntry) : TranslationEntry := { e with use := false, dirty := false }

theorem translate_fst (t : PageTable) (v : BitVec 32) (size : Width) (writing : Bool) :
    (translate t v size writing).1 = physAddr t v size writing := by
  unfold translate
  split
  · rename_i h
    exact h.symm
  · rename_i h
    exact h.symm

theorem translate_ok_iff : (translate t v size writing).1 = .ok p ↔
    v.toNat % size.bytes = 0 ∧ ∃ e, t[v.toNat / PageSize]? = some e ∧ e.valid = true ∧
      (e.readOnly && writing) = false ∧ e.physicalPage.toNat < NumPhysPages ∧
      p = e.physicalPage.toNat * PageSize + v.toNat % PageSize := by
  rw [translate_fst]
  unfold physAddr
  by_cases ha : v.toNat % size.bytes = 0
  · rw [if_neg (not_not_intro ha)]
    cases t[v.toNat / PageSize]? with
    | none => simp
    | some e =>
      by_cases hv : e.valid = true
      · by_cases hr : (e.readOnly && writing) = true
        · simp only [hv, hr, Option.some.injEq, exists_eq_left']
          simp
        · rw [Bool.not_eq_true] at hr
          by_cases hf : NumPhysPages ≤ e.physicalPage.toNat
          · simp only [hv, hr, hf, Nat.not_lt.mpr hf, Option.some.injEq, exists_eq_left']
            simp
          · simp only [ha, hv, hr, hf, Nat.lt_of_not_le hf, Option.some.injEq, exists_eq_left', true_and]
            simp [eq_comm]
      · simp [hv]
  · simp [ha]

theorem physAddr_ok_iff : physAddr t v size writing = .ok p ↔
    v.toNat % size.bytes = 0 ∧ ∃ e, t[v.toNat / PageSize]? = some e ∧ e.valid = true ∧
      (e.readOnly && writing) = false ∧ e.physicalPage.toNat < NumPhysPages ∧
      p = e.physicalPage.toNat * PageSize + v.toNat % PageSize := by
  rw [← translate_fst, translate_ok_iff]

theorem map_core_modify (t : PageTable) (i : ℕ) (writing : Bool) :
    (t.modify i fun entry => { entry with use := true, dirty := entry.dirty || writing }).map core = t.map core := by
  apply List.ext_getElem?
  intro j
  simp only [List.getElem?_map, List.getElem?_modify]
  cases t[j]? with
  | none => rfl
  | some e => by_cases h : i = j <;> simp [h, core]

theorem map_core_translate (t : PageTable) (v : BitVec 32) (size : Width) (writing : Bool) :
    (translate t v size writing).2.map core = t.map core := by
  unfold translate
  split
  · rfl
  · exact map_core_modify ..

theorem translate_assert (h : (translate t v size writing).1 = .ok p) : p + size.bytes ≤ MemorySize := by
  obtain ⟨ha, e, -, -, -, hf, rfl⟩ := translate_ok_iff.mp h
  unfold MemorySize
  cases size <;> simp only [Width.bytes, PageSize, NumPhysPages] at * <;> omega

theorem map_page_core (t : PageTable) : ((t.map core).map fun e => e.physicalPage.toNat) =
    t.map fun e => e.physicalPage.toNat := by
  rw [List.map_map]
  rfl

theorem physAddr_map_core (t : PageTable) (v : BitVec 32) (size : Width) (writing : Bool) :
    physAddr (t.map core) v size writing = physAddr t v size writing := by
  unfold physAddr
  rw [List.getElem?_map]
  cases t[v.toNat / PageSize]? with
  | none => rfl
  | some e => rfl

theorem physAddr_congr {t' : PageTable} (h : t'.map core = t.map core) (v : BitVec 32) (size : Width)
    (writing : Bool) : physAddr t' v size writing = physAddr t v size writing := by
  rw [← physAddr_map_core t', h, physAddr_map_core]

/-- The pages that are there are in different frames. -/
def Distinct (t : PageTable) : Prop := ∀ ⦃i j : ℕ⦄ ⦃e e' : TranslationEntry⦄, t[i]? = some e → t[j]? = some e' →
  e.valid = true → e'.valid = true → e.physicalPage = e'.physicalPage → i = j

theorem Distinct.congr {t' : PageTable} (h : Distinct t) (he : t'.map core = t.map core) : Distinct t' := by
  have hcore : ∀ {i : ℕ} {e : TranslationEntry}, t'[i]? = some e →
      ∃ f, t[i]? = some f ∧ f.valid = e.valid ∧ f.physicalPage = e.physicalPage := by
    intro i e hi
    have hi' : (t.map core)[i]? = some (core e) := by rw [← he, List.getElem?_map, hi, Option.map_some]
    rw [List.getElem?_map, Option.map_eq_some_iff] at hi'
    obtain ⟨f, hf, hfe⟩ := hi'
    have hv : (core f).valid = (core e).valid := by rw [hfe]
    have hp : (core f).physicalPage = (core e).physicalPage := by rw [hfe]
    exact ⟨f, hf, hv, hp⟩
  intro i j e e' hi hj hv hv' hpage
  obtain ⟨f, hf, hfv, hfp⟩ := hcore hi
  obtain ⟨f', hf', hfv', hfp'⟩ := hcore hj
  exact h hf hf' (hfv.trans hv) (hfv'.trans hv') (hfp.trans (hpage.trans hfp'.symm))

theorem distinct_of_nodup (hn : (t.map fun e => e.physicalPage.toNat).Nodup) : Distinct t := by
  intro i j e e' hi hj _ _ hpage
  refine (List.getElem?_inj ?_ hn).mp ?_
  · rw [List.length_map]
    exact (List.getElem?_eq_some_iff.mp hi).1
  · simp [hi, hj, hpage]

theorem Distinct.physAddr_inj (hd : Distinct t) {v' : BitVec 32} {size' : Width} {writing' : Bool}
    (h : physAddr t v size writing = .ok p) (h' : physAddr t v' size' writing' = .ok p) : v = v' := by
  obtain ⟨-, e, he, hv, -, -, rfl⟩ := physAddr_ok_iff.mp h
  obtain ⟨-, e', he', hv', -, -, hp⟩ := physAddr_ok_iff.mp h'
  have hframe : e.physicalPage.toNat = e'.physicalPage.toNat ∧ v.toNat % PageSize = v'.toNat % PageSize := by
    unfold PageSize at *
    omega
  have hidx := hd he he' hv hv' (BitVec.eq_of_toNat_eq hframe.1)
  apply BitVec.eq_of_toNat_eq
  rw [← Nat.div_add_mod v.toNat PageSize, ← Nat.div_add_mod v'.toNat PageSize, hidx, hframe.2]

/-! ### Reading and writing -/

/-- What `ReadMem` makes of the bytes at a physical address: a `char` has a
sign, a half word has none. -/
def load (m : Memory) (p : ℕ) : Width → BitVec 32
  | .byte => (m p).signExtend 32
  | .half => (m (p + 1) ++ m p).setWidth 32
  | .word => m (p + 3) ++ m (p + 2) ++ m (p + 1) ++ m p

/-- `WriteMem` at a physical address: the low bytes of the value. -/
def store (m : Memory) (p : ℕ) (size : Width) (value : BitVec 32) : Memory := fun q =>
  if p ≤ q ∧ q < p + size.bytes then value.extractLsb' (8 * (q - p)) 8 else m q

/-- `ReadMem`, or the exception it raises. -/
def readMem (m : Machine) (addr : BitVec 32) (size : Width) : Except ExceptionType (BitVec 32 × Machine) :=
  match translate m.pageTable addr size false with
  | (.error e, _) => .error e
  | (.ok p, t) => .ok (load m.mainMemory p size, { m with pageTable := t })

/-- `WriteMem`, or the exception it raises. -/
def writeMem (m : Machine) (addr : BitVec 32) (size : Width) (value : BitVec 32) :
    Except ExceptionType Machine :=
  match translate m.pageTable addr size true with
  | (.error e, _) => .error e
  | (.ok p, t) => .ok ⟨store m.mainMemory p size value, t⟩

theorem memory_readMem {m m' : Machine} {addr : BitVec 32} {size : Width} {v : BitVec 32}
    (h : m.readMem addr size = .ok (v, m')) : m'.mainMemory = m.mainMemory := by
  unfold readMem at h
  split at h
  · simp at h
  · obtain ⟨-, rfl⟩ := Prod.mk.inj (Except.ok.inj h)
    rfl

/-- The byte the process reads at an address. -/
def byteAt (m : Machine) (v : BitVec 32) : Option Byte :=
  match physAddr m.pageTable v .byte false with
  | .error _ => none
  | .ok p => some (m.mainMemory p)

/-- All that a process can tell of its memory: the bytes, and where each page is. -/
structure SameView (m m' : Machine) : Prop where
  memory : m'.mainMemory = m.mainMemory
  table : m'.pageTable.map core = m.pageTable.map core

theorem SameView.refl (m : Machine) : SameView m m := ⟨rfl, rfl⟩

theorem SameView.trans {m m' m'' : Machine} (h : SameView m m') (h' : SameView m' m'') : SameView m m'' :=
  ⟨h'.memory.trans h.memory, h'.table.trans h.table⟩

theorem sameView_readMem {m m' : Machine} {addr : BitVec 32} {value : BitVec 32}
    (h : m.readMem addr size = .ok (value, m')) : SameView m m' := by
  have hcore := map_core_translate m.pageTable addr size false
  unfold readMem at h
  split at h
  · cases h
  · rename_i p t htr
    obtain ⟨-, rfl⟩ := Prod.mk.inj (Except.ok.inj h)
    rw [htr] at hcore
    exact ⟨rfl, hcore⟩

theorem SameView.byteAt_eq {m m' : Machine} (h : SameView m m') (v : BitVec 32) : m'.byteAt v = m.byteAt v := by
  unfold byteAt
  rw [physAddr_congr h.table, h.memory]

/-- What is read where the address is translated to, and that nothing changes. -/
theorem readMem_of_physAddr {m : Machine} (h : physAddr m.pageTable v size false = .ok p) :
    ∃ m', m.readMem v size = .ok (load m.mainMemory p size, m') ∧ SameView m m' := by
  have htr : translate m.pageTable v size false = (.ok p, (translate m.pageTable v size false).2) :=
    Prod.ext ((translate_fst ..).trans h) rfl
  refine ⟨⟨m.mainMemory, (translate m.pageTable v size false).2⟩, ?_, rfl, map_core_translate ..⟩
  unfold readMem
  rw [htr]

theorem writeMem_of_physAddr {m : Machine} (h : physAddr m.pageTable v size true = .ok p) (value : BitVec 32) :
    ∃ m', m.writeMem v size value = .ok m' ∧ m'.mainMemory = store m.mainMemory p size value ∧
      m'.pageTable.map core = m.pageTable.map core := by
  have htr : translate m.pageTable v size true = (.ok p, (translate m.pageTable v size true).2) :=
    Prod.ext ((translate_fst ..).trans h) rfl
  refine ⟨⟨store m.mainMemory p size value, (translate m.pageTable v size true).2⟩, ?_, rfl, map_core_translate ..⟩
  unfold writeMem
  rw [htr]

/-- What can be written can be read, at the same place. -/
theorem physAddr_of_writing (h : physAddr t v size true = .ok p) : physAddr t v size writing = .ok p := by
  obtain ⟨ha, e, he, hv, hr, hp⟩ := physAddr_ok_iff.mp h
  refine physAddr_ok_iff.mpr ⟨ha, e, he, hv, ?_, hp⟩
  rw [Bool.and_true] at hr
  rw [hr, Bool.false_and]

theorem byteAt_eq_some_iff {m : Machine} {b : Byte} :
    m.byteAt v = some b ↔ ∃ p, physAddr m.pageTable v .byte false = .ok p ∧ m.mainMemory p = b := by
  unfold byteAt
  cases physAddr m.pageTable v .byte false with
  | error e => simp
  | ok p => simp

/-- A mapped byte is read, with its sign, and nothing changes. -/
theorem readMem_byte {m : Machine} {b : Byte} (h : m.byteAt v = some b) :
    ∃ m', m.readMem v .byte = .ok (b.signExtend 32, m') ∧ SameView m m' := by
  obtain ⟨p, hp, rfl⟩ := byteAt_eq_some_iff.mp h
  exact readMem_of_physAddr hp

/-- The table of a process: every entry has a page of its own, which can be written. -/
structure Mapped (t : PageTable) : Prop where
  entry : ∀ e ∈ t, e.valid = true ∧ e.readOnly = false ∧ e.physicalPage.toNat < NumPhysPages
  nodup : (t.map fun e => e.physicalPage.toNat).Nodup

theorem Mapped.congr {t' : PageTable} (h : Mapped t) (he : t'.map core = t.map core) : Mapped t' := by
  have hcore : ∀ {P : TranslationEntry → Prop}, (∀ e, P (core e) ↔ P e) → (∀ e ∈ t, P e) → ∀ e ∈ t', P e := by
    intro P hP ht e hm
    have hm' : core e ∈ t.map core := he ▸ List.mem_map_of_mem hm
    obtain ⟨f, hf, hfe⟩ := List.mem_map.mp hm'
    rw [← hP, ← hfe, hP]
    exact ht f hf
  refine ⟨hcore (fun _ => Iff.rfl) h.entry, ?_⟩
  rw [← map_page_core, he, map_page_core]
  exact h.nodup

theorem Mapped.exists_physAddr (h : Mapped t) (hv : v.toNat < t.length * PageSize) (writing : Bool) :
    ∃ p, physAddr t v .byte writing = .ok p := by
  have hlt : v.toNat / PageSize < t.length := Nat.div_lt_of_lt_mul (by rwa [Nat.mul_comm])
  obtain ⟨hvalid, hro, hpage⟩ := h.entry _ (List.getElem_mem hlt)
  refine ⟨_, physAddr_ok_iff.mpr ⟨Nat.mod_one _, _, List.getElem?_eq_getElem hlt, hvalid, ?_, hpage, rfl⟩⟩
  rw [hro, Bool.false_and]

theorem extractLsb'_signExtend (c : Byte) : (c.signExtend 32).extractLsb' 0 8 = c := by
  apply BitVec.eq_of_getLsbD_eq
  intro i hi
  have hi32 : i < 32 := by omega
  simp only [BitVec.getLsbD_extractLsb', BitVec.getLsbD_signExtend, hi, hi32, Nat.zero_add,
    decide_true, Bool.true_and, if_true]

theorem store_byte (m : Memory) (p : ℕ) (c : Byte) (q : ℕ) :
    store m p .byte (c.signExtend 32) q = if q = p then c else m q := by
  unfold store
  by_cases h : q = p
  · subst h
    rw [if_pos ⟨le_refl _, by simp [Width.bytes]⟩, if_pos rfl, Nat.sub_self]
    exact extractLsb'_signExtend c
  · rw [if_neg (by simp only [Width.bytes]; omega), if_neg h]

/-- A byte that is written is read at its address, and only there. -/
theorem writeMem_byte_of_physAddr {m : Machine} (hd : Distinct m.pageTable)
    (hp : physAddr m.pageTable v .byte true = .ok p) (c : Byte) :
    ∃ m', m.writeMem v .byte (c.signExtend 32) = .ok m' ∧ m'.pageTable.map core = m.pageTable.map core ∧
      ∀ w, m'.byteAt w = if w = v then some c else m.byteAt w := by
  obtain ⟨m', hm', hmem, hcore⟩ := writeMem_of_physAddr hp (c.signExtend 32)
  refine ⟨m', hm', hcore, fun w => ?_⟩
  unfold byteAt
  rw [physAddr_congr hcore, hmem]
  by_cases hw : w = v
  · rw [if_pos hw, hw, physAddr_of_writing hp]
    exact congrArg some ((store_byte ..).trans (if_pos rfl))
  · rw [if_neg hw]
    cases hq : physAddr m.pageTable w .byte false with
    | error e => rfl
    | ok q =>
      have hne : q ≠ p := by
        rintro rfl
        exact hw (hd.physAddr_inj hq hp)
      exact congrArg some ((store_byte ..).trans (if_neg hne))

end Machine

end Nachos
