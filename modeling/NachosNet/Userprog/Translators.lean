/-
# The kernel's and the machine's translation

`AddrSpace::Translate` of `userprog/addrspace.cc` and `Machine::Translate` of
`machine/translate.cc` on the page table of one address space. The kernel's does not look at
`valid`, and compares the frame as an `int`; on a table of the constructor, with the use and
dirty bits that accesses have set, this makes no difference (`agree_iff_sound`).

When there are too few free pages the constructor sets `numPages` to 0 and leaves `pageTable` as
it was in the new object's memory. If that is NULL an assertion of the machine's translation
fails, where the kernel's returns an address error (`translators_agree_iff`).

Key definitions: `AddrSpace.translate`, `Machine.translateIn`, `Translations.step`, `Translations.Agree`.
-/
import NachosNet.Userprog.AddrSpace

namespace Nachos

open Basis

/-- How a translation ends. -/
inductive Translated
  | noException (physAddr : ℕ)
  | exception (which : ExceptionType)
  | assertFalse
  deriving DecidableEq

/-- `AddrSpace::Translate`: how it ends, and the table after it. -/
def AddrSpace.translate (pageTable : PageTable) (vaddr : BitVec 32) (isReadWrite : Bool) : Translated × PageTable :=
  match pageTable[vaddr.toNat / PageSize]? with
  | none => (.exception .addressError, pageTable)
  | some pte =>
    if isReadWrite && pte.readOnly then (.exception .readOnly, pageTable)
    else
      -- `pfn` is an `int`
      if NumPhysPages ≤ pte.physicalPage.toInt then (.exception .busError, pageTable)
      else
        let paddr := pte.physicalPage * BitVec.ofNat 32 PageSize + BitVec.ofNat 32 (vaddr.toNat % PageSize)
        (if paddr.toNat < MemorySize then .noException paddr.toNat else .assertFalse,
          pageTable.modify (vaddr.toNat / PageSize) fun pte =>
            { pte with use := true, dirty := pte.dirty || isReadWrite })

/-- `Machine::Translate` with its assertions; `null` is that `pageTable` is NULL. -/
def Machine.translateIn (null : Bool) (t : PageTable) (virtAddr : BitVec 32) (size : Width) (writing : Bool) :
    Translated × PageTable :=
  if virtAddr.toNat % size.bytes ≠ 0 then (.exception .addressError, t)
  else if null then (.assertFalse, t)
  else match translate t virtAddr size writing with
    | (.error which, t) => (.exception which, t)
    | (.ok p, t) => (if p + size.bytes ≤ MemorySize then .noException p else .assertFalse, t)

/-- `pageTable` of the space is NULL after the constructor; `wasNull` is that it was so before. -/
def AddrSpace.pageTableNull (wasNull : Bool) (bitmap : Bitmap NumPhysPages) (noffH : NoffHeader) : Bool :=
  wasNull && decide (bitmap.numClear < noffH.numPages)

namespace Translations

/-- A call of one of the two. -/
inductive Event
  | kernel (vaddr : BitVec 32) (isReadWrite : Bool)
  | machine (virtAddr : BitVec 32) (size : Width) (writing : Bool)

/-- How the call ends, and the table after it. -/
def call (null : Bool) (t : PageTable) : Event → Translated × PageTable
  | .kernel vaddr isReadWrite => AddrSpace.translate t vaddr isReadWrite
  | .machine virtAddr size writing => Machine.translateIn null t virtAddr size writing

/-- The table after the call; there is none when an assertion fails. -/
def step (null : Bool) (t : PageTable) (e : Event) : Option PageTable :=
  if (call null t e).1 = .assertFalse then none else some (call null t e).2

/-- Both return the same for one byte, with the same use and dirty bits. -/
structure Agree (null : Bool) (t : PageTable) (vaddr : BitVec 32) (mode : Bool) : Prop where
  same : AddrSpace.translate t vaddr mode = Machine.translateIn null t vaddr .byte mode
  returns : (AddrSpace.translate t vaddr mode).1 ≠ .assertFalse

/-- The entries an address can reach are valid, and no frame is negative as an `int`. -/
def Sound (t : PageTable) : Prop :=
  ∀ (v : BitVec 32) (e : TranslationEntry), t[v.toNat / PageSize]? = some e →
    e.valid = true ∧ 0 ≤ e.physicalPage.toInt

variable {t : PageTable} {v : BitVec 32} {mode : Bool} {e : TranslationEntry}

theorem paddr_toNat (hf : e.physicalPage.toNat < NumPhysPages) (v : BitVec 32) :
    (e.physicalPage * BitVec.ofNat 32 PageSize + BitVec.ofNat 32 (v.toNat % PageSize)).toNat =
      e.physicalPage.toNat * PageSize + v.toNat % PageSize := by
  unfold NumPhysPages PageSize at *
  have hoff : v.toNat % 128 < 128 := Nat.mod_lt _ (by omega)
  rw [BitVec.toNat_add, BitVec.toNat_mul, BitVec.toNat_ofNat, BitVec.toNat_ofNat]
  omega

theorem toInt_frame (hf : 0 ≤ e.physicalPage.toInt) : e.physicalPage.toInt = e.physicalPage.toNat := by
  rw [BitVec.toInt_eq_toNat_cond] at hf ⊢
  have hlt := e.physicalPage.isLt
  split at hf
  · rw [if_pos ‹_›]
  · omega

theorem agree_of_none (hn : t[v.toNat / PageSize]? = none) : Agree false t v mode := by
  have hk : AddrSpace.translate t v mode = (.exception .addressError, t) := by
    simp only [AddrSpace.translate, hn]
  have hm : Machine.translateIn false t v .byte mode = (.exception .addressError, t) := by
    simp [Machine.translateIn, Machine.translate, Machine.physAddr, hn]
  exact ⟨hk.trans hm.symm, by simp [hk]⟩

theorem translateIn_entry (he : t[v.toNat / PageSize]? = some e) : Machine.translateIn false t v .byte mode =
    if e.valid = false then (.exception .pageFault, t)
    else if (e.readOnly && mode) = true then (.exception .readOnly, t)
    else if NumPhysPages ≤ e.physicalPage.toNat then (.exception .busError, t)
    else (.noException (e.physicalPage.toNat * PageSize + v.toNat % PageSize),
      t.modify (v.toNat / PageSize) fun entry => { entry with use := true, dirty := entry.dirty || mode }) := by
  have ha : v.toNat % Width.byte.bytes = 0 := Nat.mod_one _
  by_cases hv : e.valid = false
  · simp [Machine.translateIn, Machine.translate, Machine.physAddr, ha, he, hv]
  by_cases hr : (e.readOnly && mode) = true
  · simp [Machine.translateIn, Machine.translate, Machine.physAddr, ha, he, hv, hr]
  by_cases hf : NumPhysPages ≤ e.physicalPage.toNat
  · simp [Machine.translateIn, Machine.translate, Machine.physAddr, ha, he, hv, hr, hf]
  · have hassert : e.physicalPage.toNat * PageSize + v.toNat % PageSize + Width.byte.bytes ≤ MemorySize := by
      unfold MemorySize NumPhysPages PageSize at *
      simp only [Width.bytes]
      omega
    simp [Machine.translateIn, Machine.translate, Machine.physAddr, ha, he, hv, hr, hf, hassert]

theorem kernel_entry (he : t[v.toNat / PageSize]? = some e) (hf : 0 ≤ e.physicalPage.toInt) :
    AddrSpace.translate t v mode =
      if (e.readOnly && mode) = true then (.exception .readOnly, t)
      else if NumPhysPages ≤ e.physicalPage.toNat then (.exception .busError, t)
      else (.noException (e.physicalPage.toNat * PageSize + v.toNat % PageSize),
        t.modify (v.toNat / PageSize) fun entry => { entry with use := true, dirty := entry.dirty || mode }) := by
  simp only [AddrSpace.translate, he, Bool.and_comm mode, toInt_frame hf, Nat.cast_le]
  by_cases hb : NumPhysPages ≤ e.physicalPage.toNat
  · rw [if_pos hb, if_pos hb]
  · have hassert : e.physicalPage.toNat * PageSize + v.toNat % PageSize < MemorySize := by
      unfold MemorySize NumPhysPages PageSize at *
      omega
    rw [if_neg hb, if_neg hb, paddr_toNat (Nat.lt_of_not_le hb), if_pos hassert]

theorem agree_of_entry (he : t[v.toNat / PageSize]? = some e) (hv : e.valid = true) (hf : 0 ≤ e.physicalPage.toInt) :
    Agree false t v mode := by
  refine ⟨?_, ?_⟩
  · simp only [kernel_entry he hf, translateIn_entry he, hv, Bool.true_eq_false, if_false]
  · rw [kernel_entry he hf]
    split_ifs <;> simp

theorem entry_of_agree (he : t[v.toNat / PageSize]? = some e) (h : Agree false t v false) :
    e.valid = true ∧ 0 ≤ e.physicalPage.toInt := by
  have hfst := congrArg Prod.fst h.same
  rw [translateIn_entry he] at hfst
  simp only [AddrSpace.translate, he, Bool.false_and, Bool.and_false, Bool.false_eq_true, if_false] at hfst
  by_cases hv : e.valid = false
  · rw [if_pos hv] at hfst
    split at hfst
    · simp at hfst
    · split at hfst <;> simp at hfst
  · refine ⟨by simpa using hv, ?_⟩
    by_contra hneg
    have hbig : NumPhysPages ≤ e.physicalPage.toNat := by
      rw [BitVec.toInt_eq_toNat_cond] at hneg
      unfold NumPhysPages
      split at hneg <;> omega
    have hsmall : ¬ (NumPhysPages : ℤ) ≤ e.physicalPage.toInt := by omega
    rw [if_neg hv, if_pos hbig, if_neg hsmall] at hfst
    split at hfst <;> simp at hfst

/-- The translations agree exactly on the tables that are there and are sound. -/
theorem agree_iff_sound (null : Bool) (t : PageTable) :
    (∀ v mode, Agree null t v mode) ↔ null = false ∧ Sound t := by
  constructor
  · intro h
    have hnull : null = false := by
      by_contra hne
      rw [Bool.not_eq_false] at hne
      have h0 := h 0 false
      apply h0.returns
      rw [h0.same, hne]
      rfl
    subst hnull
    exact ⟨rfl, fun v e he => entry_of_agree he (h v false)⟩
  · rintro ⟨rfl, hs⟩ v mode
    cases he : t[v.toNat / PageSize]? with
    | none => exact agree_of_none he
    | some e => exact agree_of_entry he (hs v e he).1 (hs v e he).2

theorem map_core_kernel (t : PageTable) (v : BitVec 32) (mode : Bool) :
    (AddrSpace.translate t v mode).2.map Machine.core = t.map Machine.core := by
  unfold AddrSpace.translate
  split
  · rfl
  · split
    · rfl
    · split
      · rfl
      · exact Machine.map_core_modify ..

theorem translateIn_snd (null : Bool) (t : PageTable) (v : BitVec 32) (size : Width) (writing : Bool) :
    (Machine.translateIn null t v size writing).2 = t ∨
      (Machine.translateIn null t v size writing).2 = (Machine.translate t v size writing).2 := by
  unfold Machine.translateIn
  split
  · exact .inl rfl
  · split
    · exact .inl rfl
    · right
      rcases Machine.translate t v size writing with ⟨_ | _, _⟩ <;> rfl

theorem map_core_call (null : Bool) (t : PageTable) (e : Event) :
    (call null t e).2.map Machine.core = t.map Machine.core := by
  cases e with
  | kernel v mode => exact map_core_kernel t v mode
  | machine v size writing =>
    rcases translateIn_snd null t v size writing with h | h
    · exact congrArg _ h
    · exact (congrArg _ h).trans (Machine.map_core_translate ..)

theorem map_core_exec (null : Bool) (t : PageTable) :
    ∀ es t', exec (step null) t es = some t' → t'.map Machine.core = t.map Machine.core := by
  refine exec_induction rfl fun es e s s' ih h => ?_
  unfold step at h
  split at h
  · simp at h
  · obtain rfl := Option.some.inj h
    exact (map_core_call null s e).trans ih

theorem sound_of_mapped (h : Machine.Mapped t) : Sound t := by
  intro v e he
  obtain ⟨hv, -, hf⟩ := h.entry e (List.mem_of_getElem? he)
  refine ⟨hv, ?_⟩
  unfold NumPhysPages at hf
  rw [BitVec.toInt_eq_toNat_cond, if_pos (by omega)]
  exact Int.natCast_nonneg _

/-- After every history of translations the kernel and the machine agree at all addresses and in both modes, unless
the constructor had too few pages and left `pageTable` at NULL. -/
theorem translators_agree_iff {bitmap bitmap' : Bitmap NumPhysPages} {unset space : AddrSpace} {noffH : NoffHeader}
    (hc : AddrSpace.construct bitmap unset (some noffH) = some (space, bitmap')) (wasNull : Bool) (es : List Event)
    {t : PageTable}
    (ht : exec (step (AddrSpace.pageTableNull wasNull bitmap noffH)) space.pageTable es = some t) :
    (∀ vaddr mode, Agree (AddrSpace.pageTableNull wasNull bitmap noffH) t vaddr mode) ↔
      ¬ (wasNull = true ∧ bitmap.numClear < noffH.numPages) := by
  have hmapped : Machine.Mapped space.pageTable := Spaces.mapped_construct hc
  have hs : Sound t := sound_of_mapped (hmapped.congr (map_core_exec _ _ es t ht))
  rw [agree_iff_sound, and_iff_left hs]
  simp [AddrSpace.pageTableNull]

/-- A program of 65 pages. -/
def bigProgram : NoffHeader := ⟨NOFFMAGIC, ⟨0, 52, 7296⟩, ⟨7296, 0, 0⟩, ⟨7296, 0, 0⟩⟩

/-- The first program's table after a write to it and a read past its end. -/
theorem translators_agree_first : ∃ space bitmap t,
    AddrSpace.construct (Bitmap.init NumPhysPages) ⟨[], false⟩ (some bigProgram) = some (space, bitmap) ∧
    exec (step (AddrSpace.pageTableNull true (Bitmap.init NumPhysPages) bigProgram)) space.pageTable
      [.machine 260 .word true, .kernel 8320 false] = some t ∧ t[2]?.map (·.dirty) = some true ∧
    ∀ vaddr mode, Agree (AddrSpace.pageTableNull true (Bitmap.init NumPhysPages) bigProgram) t vaddr mode := by
  have h : ((AddrSpace.construct (Bitmap.init NumPhysPages) ⟨[], false⟩ (some bigProgram)).bind fun r =>
      (exec (step (AddrSpace.pageTableNull true (Bitmap.init NumPhysPages) bigProgram)) r.1.pageTable
        [.machine 260 .word true, .kernel 8320 false]).map fun t => t[2]?.map (·.dirty)) = some (some true) := by
    decide +kernel
  obtain ⟨⟨space, bitmap⟩, hc, h⟩ := Option.bind_eq_some_iff.mp h
  obtain ⟨t, ht, hd⟩ := Option.map_eq_some_iff.mp h
  exact ⟨space, bitmap, t, hc, ht, hd, (translators_agree_iff hc true _ ht).mpr (by decide +kernel)⟩

/-- The second one finds 63 pages; with NULL in `pageTable` a read of its first byte is an address error for the
kernel, and ends the machine. -/
theorem short_of_pages_translators_differ : ∃ space bitmap,
    AddrSpace.construct (Bitmap.init NumPhysPages) ⟨[], false⟩ (some bigProgram) = some (space, bitmap) ∧
    AddrSpace.construct bitmap ⟨[], false⟩ (some bigProgram) = some (⟨[], false⟩, bitmap) ∧
    AddrSpace.translate [] 0 false = (.exception .addressError, []) ∧
    Machine.translateIn (AddrSpace.pageTableNull true bitmap bigProgram) [] 0 .byte false = (.assertFalse, []) := by
  have h : ((AddrSpace.construct (Bitmap.init NumPhysPages) ⟨[], false⟩ (some bigProgram)).map fun r => r.2.numClear) =
      some 63 := by decide +kernel
  obtain ⟨⟨space, bitmap⟩, hc, hclear⟩ := Option.map_eq_some_iff.mp h
  have hpages : bigProgram.numPages = 65 := by decide
  have hshort : bitmap.numClear < bigProgram.numPages := by
    have : bitmap.numClear = 63 := hclear
    omega
  refine ⟨space, bitmap, hc, ?_, rfl, ?_⟩
  · rw [AddrSpace.construct_eq _ _ rfl hpages (by decide), if_neg (by omega)]
  · simp [AddrSpace.pageTableNull, hshort, Machine.translateIn, Width.bytes]

end Translations

end Nachos
