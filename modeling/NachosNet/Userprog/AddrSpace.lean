/-
# Address spaces and physical pages

The page table part of `userprog/addrspace.cc`: the constructor takes pages
from `gPhysPageBitMap` for a program file, the destructor gives them back, and
the machine translates through the tables. What the constructor puts into
memory is not here.

If the file cannot be opened the constructor returns with `numPages` and
`pageTable` unset, where the path for too little memory sets `numPages` to 0;
such a space can share pages with another one (`unopened_shares_page`). Both
paths leave the pointer `pageTable` unset, and the destructor deletes it
(`destroyed_iff`). When every file can be opened and only spaces with a page
table are destroyed, the spaces that are alive have their pages for themselves
and the bitmap marks exactly these (`memory_isolation`), and they can read and
write all of them (`mapped_of_run`).
-/
import NachosNet.Basis.Run
import NachosNet.Lib.Bitmap
import NachosNet.Machine.Translate

namespace Nachos

open Basis

structure Segment where
  virtualAddr : BitVec 32
  inFileAddr : BitVec 32
  size : BitVec 32

structure NoffHeader where
  noffMagic : BitVec 32
  code : Segment
  initData : Segment
  uninitData : Segment

def NOFFMAGIC : BitVec 32 := 0xbadfad

def UserStackSize : BitVec 32 := 1024

def divRoundUp (n s : ℕ) : ℕ := n / s + if 0 < n % s then 1 else 0

/-- The pages a program needs. -/
def NoffHeader.numPages (h : NoffHeader) : ℕ :=
  divRoundUp (h.code.size + h.initData.size + h.uninitData.size + UserStackSize).toNat PageSize

/-- `pageTable` with its `numPages` entries, and whether the constructor came to
the `new` that sets the pointer. -/
structure AddrSpace where
  pageTable : PageTable
  made : Bool

namespace AddrSpace

def numPages (a : AddrSpace) : ℕ := a.pageTable.length

/-- The loop that fills the page table, up to entry `k`. -/
def allocPages (bitmap : Bitmap NumPhysPages) : ℕ → PageTable × Bitmap NumPhysPages
  | 0 => ([], bitmap)
  | k + 1 =>
    let (pageTable, bitmap) := allocPages bitmap k
    let (page, bitmap) := bitmap.findAndSet
    (pageTable ++ [⟨BitVec.ofNat 32 k, BitVec.ofInt 32 page, true, false, false, false⟩], bitmap)

/-- `AddrSpace(fileName)` for the header in the file, or `none` if it cannot be
opened; `unset` is what the fields of the object hold before. `none` when an
assertion fails. -/
def construct (bitmap : Bitmap NumPhysPages) (unset : AddrSpace) :
    Option NoffHeader → Option (AddrSpace × Bitmap NumPhysPages)
  | none => some (⟨unset.pageTable, false⟩, bitmap)
  | some noffH =>
    if noffH.noffMagic ≠ NOFFMAGIC then none
    else if NumPhysPages < noffH.numPages then none
    else if bitmap.numClear < noffH.numPages then some (⟨[], false⟩, bitmap)
    else some (⟨(allocPages bitmap noffH.numPages).1, true⟩, (allocPages bitmap noffH.numPages).2)

theorem construct_eq (bitmap : Bitmap NumPhysPages) (unset : AddrSpace) {noffH : NoffHeader}
    (hm : noffH.noffMagic = NOFFMAGIC) {k : ℕ} (hk : noffH.numPages = k) (hp : k ≤ NumPhysPages) :
    construct bitmap unset (some noffH) =
      if k ≤ bitmap.numClear then some (⟨(allocPages bitmap k).1, true⟩, (allocPages bitmap k).2)
      else some (⟨[], false⟩, bitmap) := by
  simp only [construct, ne_eq, hm, not_true, if_false, hk, Nat.not_lt.mpr hp]
  by_cases hc : k ≤ bitmap.numClear
  · rw [if_neg (Nat.not_lt.mpr hc), if_pos hc]
  · rw [if_pos (Nat.lt_of_not_le hc), if_neg hc]

theorem construct_some {bitmap : Bitmap NumPhysPages} {unset : AddrSpace} {noffH : NoffHeader}
    {r : AddrSpace × Bitmap NumPhysPages} (h : construct bitmap unset (some noffH) = some r) :
    noffH.noffMagic = NOFFMAGIC ∧ noffH.numPages ≤ NumPhysPages := by
  unfold construct at h
  by_cases hm : noffH.noffMagic = NOFFMAGIC
  · by_cases hp : NumPhysPages < noffH.numPages
    · simp [hm, hp] at h
    · exact ⟨hm, Nat.le_of_not_lt hp⟩
  · simp [hm] at h

theorem allocPages_entry (bitmap : Bitmap NumPhysPages) : ∀ k, ∀ e ∈ (allocPages bitmap k).1,
    e.valid = true ∧ e.readOnly = false
  | 0, e, he => by simp [allocPages] at he
  | k + 1, e, he => by
    simp only [allocPages] at he
    rcases List.mem_append.mp he with he | he
    · exact allocPages_entry bitmap k e he
    · rw [List.mem_singleton.mp he]
      exact ⟨rfl, rfl⟩

/-- The loop of `~AddrSpace`, with the assertion of `Clear`. -/
def clearPages : PageTable → Bitmap NumPhysPages → Option (Bitmap NumPhysPages)
  | [], bitmap => some bitmap
  | e :: t, bitmap =>
    if e.physicalPage.toNat < NumPhysPages then clearPages t (bitmap.clear e.physicalPage.toNat) else none

/-- The physical pages of the space. -/
def frames (a : AddrSpace) : List ℕ := a.pageTable.map fun e => e.physicalPage.toNat

/-! ### Taking and giving back pages -/

theorem allocPages_spec (bitmap : Bitmap NumPhysPages) : ∀ k, k ≤ bitmap.numClear →
    (allocPages bitmap k).1.length = k ∧
    ((allocPages bitmap k).1.map fun e => e.physicalPage.toNat).Nodup ∧
    (∀ i ∈ (allocPages bitmap k).1.map fun e => e.physicalPage.toNat, i < NumPhysPages ∧ bitmap.test i = false) ∧
    (∀ i, (allocPages bitmap k).2.test i =
      (decide (i ∈ (allocPages bitmap k).1.map fun e => e.physicalPage.toNat) || bitmap.test i)) ∧
    (allocPages bitmap k).2.numClear + k = bitmap.numClear
  | 0, _ => by simp [allocPages]
  | k + 1, hk => by
    obtain ⟨hlen, hnd, hfree, htest, hnum⟩ := allocPages_spec bitmap k (by omega)
    obtain ⟨i, hi, hclear, -, hset⟩ := (allocPages bitmap k).2.findAndSet_some (by omega)
    have hpage : (BitVec.ofInt 32 (i : ℤ)).toNat = i := by
      have hi128 : i < 128 := hi
      rw [BitVec.toNat_ofInt]
      omega
    have hnot := hclear
    rw [htest, Bool.or_eq_false_iff, decide_eq_false_iff_not] at hnot
    simp only [allocPages, hset, List.length_append, List.length_singleton, List.map_append, List.map_singleton,
      hpage]
    refine ⟨by omega, ?_, ?_, ?_, ?_⟩
    · exact List.nodup_append.mpr ⟨hnd, List.nodup_singleton _, fun a ha b hb => by
        rintro rfl
        rw [List.mem_singleton] at hb
        exact hnot.1 (hb ▸ ha)⟩
    · intro j hj
      rcases List.mem_append.mp hj with hj | hj
      · exact hfree j hj
      · rw [List.mem_singleton.mp hj]
        exact ⟨hi, hnot.2⟩
    · intro j
      rw [Bitmap.test_mark _ hi, htest, ← Bool.or_assoc]
      congr 1
      rw [Bool.eq_iff_iff]
      simp [or_comm]
    · have := Bitmap.numClear_mark _ hi hclear
      omega

/-- They are the first clear ones. -/
theorem allocPages_free (bitmap : Bitmap NumPhysPages) : ∀ k, k ≤ bitmap.numClear →
    ((allocPages bitmap k).1.map fun e => e.physicalPage.toNat) = bitmap.free.take k ∧
    (allocPages bitmap k).2.free = bitmap.free.drop k
  | 0, _ => by simp [allocPages]
  | k + 1, hk => by
    obtain ⟨hmap, hfree⟩ := allocPages_free bitmap k (by omega)
    have hlt : k < bitmap.free.length := by rw [Bitmap.length_free]; omega
    rw [List.drop_eq_getElem_cons hlt] at hfree
    obtain ⟨hset, hrest⟩ := Bitmap.findAndSet_free hfree
    have hpage : (BitVec.ofInt 32 (bitmap.free[k] : ℤ)).toNat = bitmap.free[k] := by
      have hp := (Bitmap.mem_free.mp (List.getElem_mem hlt)).1
      generalize bitmap.free[k] = page at hp ⊢
      rw [BitVec.toNat_ofInt]
      unfold NumPhysPages at hp
      omega
    simp only [allocPages, hset, hrest, List.map_append, List.map_singleton, hpage, hmap, List.take_concat_get',
      and_self]

theorem clearPages_spec : ∀ (t : PageTable) (bitmap : Bitmap NumPhysPages),
    (∀ e ∈ t, e.physicalPage.toNat < NumPhysPages) → ∃ bitmap', clearPages t bitmap = some bitmap' ∧
      ∀ i, bitmap'.test i = (!decide (i ∈ t.map fun e => e.physicalPage.toNat) && bitmap.test i)
  | [], bitmap, _ => ⟨bitmap, rfl, fun i => by simp⟩
  | e :: t, bitmap, h => by
    have he := h e List.mem_cons_self
    obtain ⟨bitmap', hb, ht⟩ := clearPages_spec t (bitmap.clear e.physicalPage.toNat)
      fun e' he' => h e' (List.mem_cons_of_mem _ he')
    refine ⟨bitmap', by rw [clearPages, if_pos he, hb], fun i => ?_⟩
    rw [ht, Bitmap.test_clear _ he, ← Bool.and_assoc]
    congr 1
    rw [Bool.eq_iff_iff]
    simp [and_comm]

/-- The pages that the constructor takes for a program: the first clear ones, if
there are enough. -/
def newPages (bitmap : Bitmap NumPhysPages) (h : NoffHeader) : List ℕ :=
  if h.numPages ≤ bitmap.numClear then bitmap.free.take h.numPages else []

theorem frames_construct {bitmap bitmap' : Bitmap NumPhysPages} {unset a : AddrSpace} {noffH : NoffHeader}
    (h : construct bitmap unset (some noffH) = some (a, bitmap')) : a.frames = newPages bitmap noffH := by
  obtain ⟨hm, hp⟩ := construct_some h
  unfold newPages
  generalize hk : noffH.numPages = k at hp ⊢
  rw [construct_eq bitmap unset hm hk hp] at h
  split at h
  · rename_i hc
    obtain ⟨rfl, -⟩ := Prod.mk.inj (Option.some.inj h)
    rw [if_pos hc]
    exact (allocPages_free bitmap _ hc).1
  · rename_i hc
    obtain ⟨rfl, -⟩ := Prod.mk.inj (Option.some.inj h)
    rw [if_neg hc]
    rfl

end AddrSpace

/-! ### Runs -/

/-- `gPhysPageBitMap` and the address spaces that are alive. -/
structure Spaces where
  bitmap : Bitmap NumPhysPages
  live : ℕ → Option AddrSpace

namespace Spaces

/-- The constructor (with what the new object's fields hold before), the
destructor, and an access to the memory of a space. -/
inductive Event
  | construct (id : ℕ) (unset : AddrSpace) (file : Option NoffHeader)
  | destroy (id : ℕ)
  | access (id : ℕ) (virtAddr : BitVec 32) (size : Width) (writing : Bool)

/-- `none` when an assertion fails, and when the destructor gives `delete[]` a
pointer that was never set, of which C++ says nothing. -/
def step (s : Spaces) : Event → Option Spaces
  | .construct id unset file =>
    if s.live id ≠ none then none
    else (AddrSpace.construct s.bitmap unset file).map fun r => ⟨r.2, Function.update s.live id (some r.1)⟩
  | .destroy id =>
    match s.live id with
    | none => none
    | some a =>
      if a.made then (AddrSpace.clearPages a.pageTable s.bitmap).map fun bitmap =>
        ⟨bitmap, Function.update s.live id none⟩
      else none
  | .access id virtAddr size writing =>
    match s.live id with
    | none => none
    | some a => some { s with
        live := Function.update s.live id (some { a with pageTable := (Machine.translate a.pageTable virtAddr size writing).2 }) }

def init : Spaces := ⟨.init _, fun _ => none⟩

/-- The file of a construction can be opened, and a space that is destroyed has
got its page table. -/
def Regular (s : Spaces) : Event → Prop
  | .construct _ _ file => file ≠ none
  | .destroy id => ∀ a, s.live id = some a → a.made = true
  | .access .. => True

instance (s : Spaces) : (e : Event) → Decidable (Regular s e)
  | .construct _ _ none => isFalse fun h => h rfl
  | .construct _ _ (some _) => isTrue (Option.some_ne_none _)
  | .destroy id => inferInstanceAs (Decidable (∀ a ∈ s.live id, a.made = true))
  | .access .. => isTrue trivial

/-- The live spaces have their pages for themselves, and the bitmap marks
exactly these. -/
structure Isolated (s : Spaces) : Prop where
  nodup : ∀ id a, s.live id = some a → a.frames.Nodup
  disjoint : ∀ id id' a a', id ≠ id' → s.live id = some a → s.live id' = some a' → a.frames.Disjoint a'.frames
  marked : ∀ i < NumPhysPages, s.bitmap.test i = true ↔ ∃ id a, s.live id = some a ∧ i ∈ a.frames
  frames_lt : ∀ id a, s.live id = some a → ∀ i ∈ a.frames, i < NumPhysPages

variable {s s' : Spaces}

theorem step_destroy {id : ℕ} : s.step (.destroy id) = some s' ↔ ∃ a bitmap, s.live id = some a ∧ a.made = true ∧
    AddrSpace.clearPages a.pageTable s.bitmap = some bitmap ∧ s' = ⟨bitmap, Function.update s.live id none⟩ := by
  simp only [step]
  cases hid : s.live id with
  | none => simp
  | some a =>
    constructor
    · intro h
      obtain ⟨hm, h⟩ := Option.ite_none_right_eq_some.mp h
      obtain ⟨bitmap, hb, rfl⟩ := Option.map_eq_some_iff.mp h
      exact ⟨a, bitmap, rfl, hm, hb, rfl⟩
    · rintro ⟨b, bitmap, hb, hm, hc, rfl⟩
      obtain rfl := Option.some.inj hb
      exact (if_pos hm).trans (by rw [hc, Option.map_some])

theorem isolated_init : Isolated init where
  nodup id a h := by simp [init] at h
  disjoint id id' a a' _ h := by simp [init] at h
  marked i _ := by simp [init, Bitmap.test_init]
  frames_lt id a h := by simp [init] at h

theorem isolated_update (hi : Isolated s) {id : ℕ} (hid : s.live id = none) {a : AddrSpace}
    {bitmap : Bitmap NumPhysPages} (hn : a.frames.Nodup)
    (hc : ∀ i ∈ a.frames, i < NumPhysPages ∧ s.bitmap.test i = false)
    (ht : ∀ i, bitmap.test i = (decide (i ∈ a.frames) || s.bitmap.test i)) :
    Isolated ⟨bitmap, Function.update s.live id (some a)⟩ := by
  -- a live space is the new one or an old one
  have hlive : ∀ id' a', Function.update s.live id (some a) id' = some a' ↔
      id' = id ∧ a' = a ∨ id' ≠ id ∧ s.live id' = some a' := by
    intro id' a'
    by_cases h : id' = id
    · simp [h, eq_comm]
    · simp [h]
  have hold : ∀ id' a', s.live id' = some a' → a'.frames.Disjoint a.frames := by
    intro id' a' h i hi' hia
    have hmark := (hi.marked i (hc i hia).1).mpr ⟨id', a', h, hi'⟩
    rw [(hc i hia).2] at hmark
    exact absurd hmark (by decide)
  refine ⟨fun id' a' h => ?_, fun id₁ id₂ a₁ a₂ hne h₁ h₂ => ?_, fun i hlt => ?_, fun id' a' h => ?_⟩
  · rcases (hlive id' a').mp h with ⟨-, rfl⟩ | ⟨-, h⟩
    · exact hn
    · exact hi.nodup id' a' h
  · rcases (hlive id₁ a₁).mp h₁ with ⟨rfl, rfl⟩ | ⟨-, g₁⟩
    · rcases (hlive id₂ a₂).mp h₂ with ⟨rfl, -⟩ | ⟨-, g₂⟩
      · exact absurd rfl hne
      · exact (hold id₂ a₂ g₂).symm
    · rcases (hlive id₂ a₂).mp h₂ with ⟨-, rfl⟩ | ⟨-, g₂⟩
      · exact hold id₁ a₁ g₁
      · exact hi.disjoint id₁ id₂ a₁ a₂ hne g₁ g₂
  · simp only [ht, Bool.or_eq_true, decide_eq_true_eq, hi.marked i hlt, hlive]
    constructor
    · rintro (h | ⟨id', a', h, hia⟩)
      · exact ⟨id, a, Or.inl ⟨rfl, rfl⟩, h⟩
      · refine ⟨id', a', Or.inr ⟨?_, h⟩, hia⟩
        rintro rfl
        simp [hid] at h
    · rintro ⟨id', a', ⟨rfl, rfl⟩ | ⟨-, h⟩, hia⟩
      · exact Or.inl hia
      · exact Or.inr ⟨id', a', h, hia⟩
  · rcases (hlive id' a').mp h with ⟨-, rfl⟩ | ⟨-, h⟩
    · exact fun i hia => (hc i hia).1
    · exact hi.frames_lt id' a' h

theorem isolated_construct (hi : Isolated s) {id : ℕ} {unset : AddrSpace} {noffH : NoffHeader}
    (h : s.step (.construct id unset (some noffH)) = some s') : Isolated s' := by
  simp only [step] at h
  by_cases hid : s.live id = none
  · rw [if_neg (not_not_intro hid)] at h
    obtain ⟨r, hc, rfl⟩ := Option.map_eq_some_iff.mp h
    obtain ⟨hm, hp⟩ := AddrSpace.construct_some hc
    generalize hk : noffH.numPages = k at hp
    rw [AddrSpace.construct_eq _ _ hm hk hp] at hc
    by_cases hnum : k ≤ s.bitmap.numClear
    · rw [if_pos hnum] at hc
      obtain rfl := Option.some.inj hc
      obtain ⟨-, hnd, hfree, htest, -⟩ := AddrSpace.allocPages_spec s.bitmap k hnum
      exact isolated_update hi hid hnd hfree htest
    · -- too little memory: an empty table
      rw [if_neg hnum] at hc
      obtain rfl := Option.some.inj hc
      exact isolated_update hi hid List.nodup_nil (fun i hia => absurd hia List.not_mem_nil) fun i => rfl
  · simp [hid] at h

theorem Isolated.clearPages (hi : Isolated s) {id : ℕ} {a : AddrSpace} (hid : s.live id = some a) :
    ∃ bitmap, AddrSpace.clearPages a.pageTable s.bitmap = some bitmap ∧
      ∀ i, bitmap.test i = (!decide (i ∈ a.frames) && s.bitmap.test i) :=
  AddrSpace.clearPages_spec a.pageTable s.bitmap fun _ he => hi.frames_lt id a hid _ (List.mem_map_of_mem he)

/-- The destruction of a live space goes through exactly when it has got its page
table. -/
theorem Isolated.destroyed_iff (hi : Isolated s) {id : ℕ} {a : AddrSpace} (hid : s.live id = some a) :
    (∃ s', s.step (.destroy id) = some s') ↔ a.made = true := by
  obtain ⟨bitmap, hb, -⟩ := hi.clearPages hid
  constructor
  · rintro ⟨s', h⟩
    obtain ⟨b, -, hb', hmade, -⟩ := step_destroy.mp h
    rwa [Option.some.inj (hid.symm.trans hb')]
  · exact fun hmade => ⟨_, step_destroy.mpr ⟨a, bitmap, hid, hmade, hb, rfl⟩⟩

theorem isolated_destroy (hi : Isolated s) {id : ℕ} (h : s.step (.destroy id) = some s') : Isolated s' := by
  obtain ⟨a, bitmap, hid, -, hb, rfl⟩ := step_destroy.mp h
  obtain ⟨bitmap', hb', ht⟩ := hi.clearPages hid
  obtain rfl : bitmap = bitmap' := Option.some.inj (hb.symm.trans hb')
  have hlive : ∀ id' a', Function.update s.live id none id' = some a' ↔ id' ≠ id ∧ s.live id' = some a' := by
    intro id' a'
    by_cases h : id' = id
    · simp [h]
    · simp [h]
  refine ⟨fun id' a' h => hi.nodup id' a' ((hlive id' a').mp h).2, fun id₁ id₂ a₁ a₂ hne h₁ h₂ => ?_,
    fun i hi128 => ?_, fun id' a' h => hi.frames_lt id' a' ((hlive id' a').mp h).2⟩
  · exact hi.disjoint id₁ id₂ a₁ a₂ hne ((hlive _ _).mp h₁).2 ((hlive _ _).mp h₂).2
  · -- a page of another space is not among the pages cleared
    simp only [ht, Bool.and_eq_true, Bool.not_eq_true', decide_eq_false_iff_not, hi.marked i hi128, hlive]
    constructor
    · rintro ⟨hnot, id', a', ha', hia⟩
      refine ⟨id', a', ⟨?_, ha'⟩, hia⟩
      rintro rfl
      rw [hid] at ha'
      exact hnot (Option.some.inj ha' ▸ hia)
    · rintro ⟨id', a', ⟨hne, ha'⟩, hia⟩
      exact ⟨fun hmem => hi.disjoint id' id a' a hne ha' hid hia hmem, id', a', ha', hia⟩

theorem frames_access (a : AddrSpace) (v : BitVec 32) (size : Width) (writing : Bool) :
    { a with pageTable := (Machine.translate a.pageTable v size writing).2 }.frames = a.frames := by
  unfold AddrSpace.frames
  rw [← Machine.map_page_core, Machine.map_core_translate, Machine.map_page_core]

theorem isolated_access (hi : Isolated s) {id : ℕ} {v : BitVec 32} {size : Width} {writing : Bool}
    (h : s.step (.access id v size writing) = some s') : Isolated s' := by
  simp only [step] at h
  cases hid : s.live id with
  | none => simp [hid] at h
  | some a =>
    rw [hid] at h
    obtain rfl := Option.some.inj h
    -- every live space has the pages it had before
    have hlive : ∀ id' a', Function.update s.live id
        (some { a with pageTable := (Machine.translate a.pageTable v size writing).2 }) id' = some a' →
        ∃ b, s.live id' = some b ∧ b.frames = a'.frames := by
      intro id' a' h
      by_cases he : id' = id
      · subst he
        rw [Function.update_self] at h
        exact ⟨a, hid, by rw [← Option.some.inj h, frames_access]⟩
      · rw [Function.update_of_ne he] at h
        exact ⟨a', h, rfl⟩
    refine ⟨fun id' a' h => ?_, fun id₁ id₂ a₁ a₂ hne h₁ h₂ => ?_, fun i hi128 => ?_, fun id' a' h => ?_⟩
    · obtain ⟨b, hb, hf⟩ := hlive id' a' h
      rw [← hf]
      exact hi.nodup id' b hb
    · obtain ⟨b₁, hb₁, hf₁⟩ := hlive id₁ a₁ h₁
      obtain ⟨b₂, hb₂, hf₂⟩ := hlive id₂ a₂ h₂
      rw [← hf₁, ← hf₂]
      exact hi.disjoint id₁ id₂ b₁ b₂ hne hb₁ hb₂
    · rw [hi.marked i hi128]
      constructor
      · rintro ⟨id', b, hb, hib⟩
        by_cases he : id' = id
        · subst he
          rw [hid] at hb
          exact ⟨id', _, Function.update_self .., by rw [frames_access, Option.some.inj hb]; exact hib⟩
        · exact ⟨id', b, (Function.update_of_ne he ..).trans hb, hib⟩
      · rintro ⟨id', a', h, hia⟩
        obtain ⟨b, hb, hf⟩ := hlive id' a' h
        exact ⟨id', b, hb, hf ▸ hia⟩
    · obtain ⟨b, hb, hf⟩ := hlive id' a' h
      rw [← hf]
      exact hi.frames_lt id' b hb

theorem isolated_step {e : Event} (hi : Isolated s) (ho : Regular s e) (h : s.step e = some s') : Isolated s' := by
  cases e with
  | construct id unset file =>
    cases file with
    | none => exact absurd rfl ho
    | some noffH => exact isolated_construct hi h
  | destroy id => exact isolated_destroy hi h
  | access id v size writing => exact isolated_access hi h

/-- A construction gets its pages exactly when as many are clear, and changes
no bit otherwise. -/
theorem construct_spec {id : ℕ} {unset : AddrSpace} {noffH : NoffHeader} (hid : s.live id = none)
    (hm : noffH.noffMagic = NOFFMAGIC) (hp : noffH.numPages ≤ NumPhysPages) :
    ∃ s' a, s.step (.construct id unset (some noffH)) = some s' ∧ s'.live id = some a ∧
      (a.numPages = noffH.numPages ↔ noffH.numPages ≤ s.bitmap.numClear) ∧
      (¬ noffH.numPages ≤ s.bitmap.numClear → a.numPages = 0 ∧ s'.bitmap = s.bitmap) := by
  generalize hk : noffH.numPages = k at hp
  have hstep : s.step (.construct id unset (some noffH)) =
      (AddrSpace.construct s.bitmap unset (some noffH)).map fun r => ⟨r.2, Function.update s.live id (some r.1)⟩ :=
    if_neg (not_not_intro hid)
  rw [hstep, AddrSpace.construct_eq _ _ hm hk hp]
  by_cases hc : k ≤ s.bitmap.numClear
  · rw [if_pos hc]
    exact ⟨_, _, rfl, Function.update_self .., iff_of_true (AddrSpace.allocPages_spec s.bitmap k hc).1 hc,
      fun h => absurd hc h⟩
  · rw [if_neg hc]
    refine ⟨_, ⟨[], false⟩, rfl, Function.update_self .., iff_of_false ?_ hc, fun _ => ⟨rfl, rfl⟩⟩
    intro h
    have h0 : 0 = k := h
    omega

theorem mapped_construct {bitmap : Bitmap NumPhysPages} {unset : AddrSpace} {noffH : NoffHeader}
    {r : AddrSpace × Bitmap NumPhysPages} (h : AddrSpace.construct bitmap unset (some noffH) = some r) :
    Machine.Mapped r.1.pageTable := by
  obtain ⟨hm, hp⟩ := AddrSpace.construct_some h
  generalize hk : noffH.numPages = k at hp
  rw [AddrSpace.construct_eq _ _ hm hk hp] at h
  split at h
  · rename_i hc
    obtain rfl := Option.some.inj h
    obtain ⟨-, hnd, hfree, -⟩ := AddrSpace.allocPages_spec bitmap k hc
    refine ⟨fun e he => ?_, hnd⟩
    obtain ⟨hv, hr⟩ := AddrSpace.allocPages_entry bitmap k e he
    exact ⟨hv, hr, (hfree _ (List.mem_map_of_mem he)).1⟩
  · obtain rfl := Option.some.inj h
    exact ⟨by simp, by simp⟩

/-- In every run in which each constructed space's file can be opened and no
space without a page table is destroyed, the processes can read and write all of
their pages. -/
theorem mapped_of_run (es : List Event) (s : Spaces) (ho : Along step Regular init es)
    (h : exec step init es = some s) : ∀ id a, s.live id = some a → Machine.Mapped a.pageTable := by
  refine exec_induction_along (P := fun _ s => ∀ id a, s.live id = some a → Machine.Mapped a.pageTable)
    (by simp [init]) (fun _ e s s' ih ho h => ?_) es s ho h
  -- the spaces an event does not touch are as before
  have hupdate : ∀ id (a : Option AddrSpace), (∀ b, a = some b → Machine.Mapped b.pageTable) →
      ∀ id' b, Function.update s.live id a id' = some b → Machine.Mapped b.pageTable := by
    intro id a ha id' b hb
    by_cases he : id' = id
    · subst he
      rw [Function.update_self] at hb
      exact ha b hb
    · rw [Function.update_of_ne he] at hb
      exact ih id' b hb
  cases e with
  | construct id unset file =>
    cases file with
    | none => exact absurd rfl ho
    | some noffH =>
      simp only [step] at h
      split at h
      · simp at h
      · obtain ⟨r, hr, rfl⟩ := Option.map_eq_some_iff.mp h
        exact hupdate id _ fun b hb => Option.some.inj hb ▸ mapped_construct hr
  | destroy id =>
    obtain ⟨a, bitmap, -, -, -, rfl⟩ := step_destroy.mp h
    exact hupdate id none (by simp)
  | access id v size writing =>
    simp only [step] at h
    cases hid : s.live id with
    | none => simp [hid] at h
    | some a =>
      rw [hid] at h
      obtain rfl := Option.some.inj h
      refine hupdate id _ fun b hb => ?_
      obtain rfl := Option.some.inj hb
      exact (ih id a hid).congr (Machine.map_core_translate ..)

theorem translate_inj (hi : Isolated s) {id id' : ℕ} {a a' : AddrSpace} (ha : s.live id = some a)
    (ha' : s.live id' = some a') {v v' : BitVec 32} {size size' : Width} {w w' : Bool} {p : ℕ}
    (h : (Machine.translate a.pageTable v size w).1 = .ok p)
    (h' : (Machine.translate a'.pageTable v' size' w').1 = .ok p) : id = id' ∧ v = v' := by
  have hid : id = id' := by
    by_contra hne
    obtain ⟨-, e, he, -, -, -, rfl⟩ := Machine.translate_ok_iff.mp h
    obtain ⟨-, e', he', -, -, -, hp⟩ := Machine.translate_ok_iff.mp h'
    have hframe : e.physicalPage.toNat = e'.physicalPage.toNat := by
      unfold PageSize at *
      omega
    refine hi.disjoint id id' a a' hne ha ha' (List.mem_map_of_mem (List.mem_of_getElem? he)) ?_
    rw [hframe]
    exact List.mem_map_of_mem (List.mem_of_getElem? he')
  subst hid
  obtain rfl : a = a' := Option.some.inj (ha.symm.trans ha')
  rw [Machine.translate_fst] at h h'
  exact ⟨rfl, (Machine.distinct_of_nodup (hi.nodup id a ha)).physAddr_inj h h'⟩

/-- **Memory isolation.** In every run in which each constructed space's file
can be opened and no space is destroyed that got no page table: the live spaces
have different pages and the bitmap marks exactly these; a construction gets its
pages exactly when as many are clear, and changes nothing in the bitmap
otherwise; two different pairs of a live space and an address are never
translated to the same physical address, and none to one outside the memory; and
a live space can be destroyed exactly when it has got its page table. -/
theorem memory_isolation (es : List Event) (s : Spaces) (ho : Along step Regular init es)
    (h : exec step init es = some s) :
    Isolated s ∧
    (∀ id unset noffH, s.live id = none → noffH.noffMagic = NOFFMAGIC → noffH.numPages ≤ NumPhysPages →
      ∃ s' a, s.step (.construct id unset (some noffH)) = some s' ∧ s'.live id = some a ∧
        (a.numPages = noffH.numPages ↔ noffH.numPages ≤ s.bitmap.numClear) ∧
        (¬ noffH.numPages ≤ s.bitmap.numClear → a.numPages = 0 ∧ s'.bitmap = s.bitmap)) ∧
    (∀ id id' a a' v v' size size' w w' p, s.live id = some a → s.live id' = some a' →
      (Machine.translate a.pageTable v size w).1 = .ok p → (Machine.translate a'.pageTable v' size' w').1 = .ok p →
      id = id' ∧ v = v') ∧
    (∀ id a, s.live id = some a → ((∃ s', s.step (.destroy id) = some s') ↔ a.made = true)) ∧
    ∀ id a v size w p, s.live id = some a → (Machine.translate a.pageTable v size w).1 = .ok p →
      p + size.bytes ≤ MemorySize := by
  have hi : Isolated s := exec_induction_along (P := fun _ => Isolated) isolated_init
    (fun _ _ _ _ hi ho h => isolated_step hi ho h) es s ho h
  exact ⟨hi, fun id unset noffH => construct_spec,
    fun id id' a a' v v' size size' w w' p ha ha' => translate_inj hi ha ha', fun id a => hi.destroyed_iff,
    fun id a v size w p _ => Machine.translate_assert⟩

/-- A program of one page besides its stack. -/
def smallProgram : NoffHeader := ⟨NOFFMAGIC, ⟨0, 40, 128⟩, ⟨0, 0, 0⟩, ⟨0, 0, 0⟩⟩

/-- One page table entry for page 0. -/
def page0 : AddrSpace := ⟨[⟨0, 0, true, false, false, false⟩], false⟩

/-- Two programs, an access of the first, and its end. -/
def twoPrograms : List Event :=
  [.construct 0 page0 (some smallProgram), .construct 1 page0 (some smallProgram), .access 0 4 .word true, .destroy 0]

theorem memory_isolation_twoPrograms : ∃ s, exec step init twoPrograms = some s ∧
    (s.live 1).map AddrSpace.frames = some [9, 10, 11, 12, 13, 14, 15, 16, 17] ∧ Isolated s := by
  have hrun : ((exec step init twoPrograms).bind fun s => (s.live 1).map AddrSpace.frames) =
      some [9, 10, 11, 12, 13, 14, 15, 16, 17] := by decide +kernel
  obtain ⟨s, hs, hf⟩ := Option.bind_eq_some_iff.mp hrun
  exact ⟨s, hs, hf, (memory_isolation twoPrograms s (by decide +kernel) hs).1⟩

/-- A program, and then one whose file cannot be opened, in memory that holds
a page table with page 0. -/
def missingFile : List Event := [.construct 0 page0 (some smallProgram), .construct 1 page0 none]

/-- The two live spaces share a page. -/
theorem unopened_shares_page : ∃ s a a', exec step init missingFile = some s ∧ s.live 0 = some a ∧
    s.live 1 = some a' ∧ ¬ a.frames.Disjoint a'.frames ∧ ¬ Isolated s := by
  have hrun : ((exec step init missingFile).bind fun s => (s.live 0).bind fun a => (s.live 1).map fun a' =>
      (a.frames, a'.frames)) = some ([0, 1, 2, 3, 4, 5, 6, 7, 8], [0]) := by decide +kernel
  obtain ⟨s, hs, h⟩ := Option.bind_eq_some_iff.mp hrun
  obtain ⟨a, h0, h⟩ := Option.bind_eq_some_iff.mp h
  obtain ⟨a', h1, h⟩ := Option.map_eq_some_iff.mp h
  obtain ⟨hf, hf'⟩ := Prod.mk.inj h
  have hshare : ¬ a.frames.Disjoint a'.frames := by
    rw [hf, hf']
    exact fun h => h (a := 0) (by decide) (by decide)
  exact ⟨s, a, a', hs, h0, h1, hshare, fun hi => hshare (hi.disjoint 0 1 a a' (by decide) h0 h1)⟩

end Spaces

end Nachos
