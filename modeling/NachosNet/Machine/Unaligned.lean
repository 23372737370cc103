/-
# Words at any address

The pairs of instructions of `machine/mipssim.cc` that load and store a word at
an address which need not be aligned: `LWR` and `SWR` at the address of the
lowest byte, `LWL` and `SWL` at that of the highest. Each reads the aligned word
its address is in, and each is right about the bytes of the register that lie in
that word: a load puts them into the register, merged with what is there or is on
its way there, and a store writes the aligned word back with them replaced. Two
neighbouring words, or one, are all four bytes.

The instructions are executed by `oneInstruction`, one after the other, with an
interrupt between them or not.

Key definitions: `Half`, `Half.Covers`, `twoInstructions`.
Key theorems: `Half.perform_load`, `Half.perform_store`, `unaligned_pair`.
-/
import NachosNet.Machine.FlatMemory
import NachosNet.Machine.Mipssim

namespace Nachos

open Basis Machine

/-! ### Merging bytes -/

/-- The bytes of a word from `n` on are kept, those below are the low ones of a word
shifted to the right by `r` bytes. -/
theorem byteOf_merge_right {low high : Word} {n r : ℕ} (hlow : ∀ k < 4, byteOf low k = if k < n then 0xff else 0)
    (hhigh : ∀ k < 4, byteOf high k = if k < n then 0 else 0xff) (hr : r + n = 4) (x y : Word) {k : ℕ} (hk : k < 4) :
    byteOf ((x &&& high) ||| (y.sshiftRight (8 * r) &&& low)) k = if k < n then byteOf y (r + k) else byteOf x k := by
  rw [byteOf_or, byteOf_and, byteOf_and, hlow k hk, hhigh k hk]
  by_cases h : k < n
  · rw [if_pos h, if_pos h, if_pos h, byteOf_sshiftRight y r (by omega)]
    exact (congrArg₂ (· ||| ·) BitVec.and_zero BitVec.and_allOnes).trans BitVec.zero_or
  · rw [if_neg h, if_neg h, if_neg h]
    exact (congrArg₂ (· ||| ·) BitVec.and_allOnes BitVec.and_zero).trans BitVec.or_zero

theorem byteOf_merge_left {low : Word} {n : ℕ} (hlow : ∀ k < 4, byteOf low k = if k < n then 0xff else 0)
    (x y : Word) {k : ℕ} (hk : k < 4) :
    byteOf ((x &&& low) ||| (y <<< (8 * n))) k = if k < n then byteOf x k else byteOf y (k - n) := by
  rw [byteOf_or, byteOf_and, hlow k hk, byteOf_shiftLeft y n (by omega)]
  by_cases h : k < n
  · rw [if_pos h, if_pos h, if_neg (by omega)]
    exact (congrArg (· ||| 0) BitVec.and_allOnes).trans BitVec.or_zero
  · rw [if_neg h, if_neg h, if_pos (by omega)]
    exact (congrArg (· ||| _) BitVec.and_zero).trans BitVec.zero_or

theorem eq_ofNat_of_toNat_lt {byte : Word} (hb : byte.toNat < 4) : byte = 0 ∨ byte = 1 ∨ byte = 2 ∨ byte = 3 := by
  bv_omega

theorem byteOf_lwlValue {byte : Word} (hb : byte.toNat < 4) (old value : Word) {k : ℕ} (hk : k < 4) :
    byteOf (lwlValue byte old value) k =
      if k < 3 - byte.toNat then byteOf old k else byteOf value (k - (3 - byte.toNat)) := by
  obtain rfl | rfl | rfl | rfl := eq_ofNat_of_toNat_lt hb
  · exact byteOf_merge_left (n := 3) (by decide) old value hk
  · exact byteOf_merge_left (n := 2) (by decide) old value hk
  · exact byteOf_merge_left (n := 1) (by decide) old value hk
  · rfl

theorem byteOf_lwrValue {byte : Word} (hb : byte.toNat < 4) (old value : Word) {k : ℕ} (hk : k < 4) :
    byteOf (lwrValue byte old value) k =
      if k < 4 - byte.toNat then byteOf value (byte.toNat + k) else byteOf old k := by
  obtain rfl | rfl | rfl | rfl := eq_ofNat_of_toNat_lt hb
  · exact (congrArg (byteOf value) (Nat.zero_add k).symm).trans (if_pos hk).symm
  · exact byteOf_merge_right (n := 3) (r := 1) (by decide) (by decide) rfl old value hk
  · exact byteOf_merge_right (n := 2) (r := 2) (by decide) (by decide) rfl old value hk
  · exact byteOf_merge_right (n := 1) (r := 3) (by decide) (by decide) rfl old value hk

theorem byteOf_swlValue {byte : Word} (hb : byte.toNat < 4) (rt value : Word) {k : ℕ} (hk : k < 4) :
    byteOf (swlValue byte rt value) k =
      if k < byte.toNat + 1 then byteOf rt (3 - byte.toNat + k) else byteOf value k := by
  obtain rfl | rfl | rfl | rfl := eq_ofNat_of_toNat_lt hb
  · exact byteOf_merge_right (n := 1) (r := 3) (by decide) (by decide) rfl value rt hk
  · exact byteOf_merge_right (n := 2) (r := 2) (by decide) (by decide) rfl value rt hk
  · exact byteOf_merge_right (n := 3) (r := 1) (by decide) (by decide) rfl value rt hk
  · exact (congrArg (byteOf rt) (Nat.zero_add k).symm).trans (if_pos hk).symm

theorem byteOf_swrValue {byte : Word} (hb : byte.toNat < 4) (rt value : Word) {k : ℕ} (hk : k < 4) :
    byteOf (swrValue byte rt value) k =
      if k < byte.toNat then byteOf value k else byteOf rt (k - byte.toNat) := by
  obtain rfl | rfl | rfl | rfl := eq_ofNat_of_toNat_lt hb
  · rfl
  · exact byteOf_merge_left (n := 1) (by decide) value rt hk
  · exact byteOf_merge_left (n := 2) (by decide) value rt hk
  · exact byteOf_merge_left (n := 3) (by decide) value rt hk

/-! ### The aligned word of an address -/

theorem toNat_and_three (c : Word) : (c &&& 3).toNat = c.toNat % 4 :=
  (BitVec.toNat_and c 3).trans (Nat.and_two_pow_sub_one_eq_mod c.toNat 2)

theorem toNat_sub_and_three (c : Word) : (c - (c &&& 3)).toNat = c.toNat - c.toNat % 4 := by
  have h := toNat_and_three c
  have hc := c.isLt
  rw [BitVec.toNat_sub_of_le, h]
  rw [BitVec.le_def, h]
  exact Nat.mod_le _ _

theorem physAddr_word {t : PageTable} {c : Word} {writing : Bool} {q : ℕ} (h : physAddr t c .byte writing = .ok q) :
    physAddr t (c - (c &&& 3)) .word writing = .ok (q - c.toNat % 4) ∧ c.toNat % 4 ≤ q ∧
      ∀ j < 4, physAddr t (c - (c &&& 3) + BitVec.ofNat 32 j) .byte writing = .ok (q - c.toNat % 4 + j) := by
  obtain ⟨-, e, he, hv, hr, hp, rfl⟩ := physAddr_ok_iff.mp h
  have hword := toNat_sub_and_three c
  have hc := c.isLt
  have hpage : (c.toNat - c.toNat % 4) / PageSize = c.toNat / PageSize := by
    unfold PageSize
    omega
  refine ⟨physAddr_ok_iff.mpr ⟨?_, e, ?_, hv, hr, hp, ?_⟩, ?_, fun j hj => ?_⟩
  · rw [hword]
    exact Nat.sub_mod_eq_zero_of_mod_eq (Nat.mod_mod _ _).symm
  · rw [hword, hpage, he]
  · rw [hword]
    unfold PageSize
    omega
  · unfold PageSize
    omega
  · have hnat : (c - (c &&& 3) + BitVec.ofNat 32 j).toNat = c.toNat - c.toNat % 4 + j := by
      rw [BitVec.toNat_add, BitVec.toNat_ofNat, hword]
      omega
    refine physAddr_ok_iff.mpr ⟨Nat.mod_one _, e, ?_, hv, hr, hp, ?_⟩
    · rw [hnat, ← he]
      congr 1
      unfold PageSize
      omega
    · rw [hnat]
      unfold PageSize
      omega

theorem physAddr_near {t : PageTable} {a : Word} {size : Width} {writing : Bool} {p : ℕ → ℕ}
    (h : ∀ k < 4, physAddr t (a + BitVec.ofNat 32 k) size writing = .ok (p k)) {k k' : ℕ} (hk : k < 4) (hk' : k' < 4)
    (he : p k = p k') : k = k' := by
  obtain ⟨-, e, -, -, -, -, hp⟩ := physAddr_ok_iff.mp (h k hk)
  obtain ⟨-, e', -, -, -, -, hp'⟩ := physAddr_ok_iff.mp (h k' hk')
  rw [BitVec.toNat_add, BitVec.toNat_ofNat] at hp hp'
  unfold PageSize at hp hp'
  omega

/-! ### One instruction of a pair -/

/-- The instructions of a pair: `LWL` or `SWL`, and `LWR` or `SWR`. -/
inductive Half
  | left
  | right
  deriving DecidableEq

namespace Half

def other : Half → Half
  | .left => .right
  | .right => .left

/-- The byte of the word whose address the instruction is given. -/
def lead : Half → ℕ
  | .left => 3
  | .right => 0

def load : Half → (rs rt rd : Reg) → (extra : Word) → Instruction
  | .left, rs, rt, rd, extra => ⟨.lwl, rs, rt, rd, extra⟩
  | .right, rs, rt, rd, extra => ⟨.lwr, rs, rt, rd, extra⟩

def store : Half → (rs rt rd : Reg) → (extra : Word) → Instruction
  | .left, rs, rt, rd, extra => ⟨.swl, rs, rt, rd, extra⟩
  | .right, rs, rt, rd, extra => ⟨.swr, rs, rt, rd, extra⟩

def loadValue : Half → (byte old value : Word) → Word
  | .left => lwlValue
  | .right => lwrValue

def storeValue : Half → (byte rt value : Word) → Word
  | .left => swlValue
  | .right => swrValue

/-- Byte `k` of the word at `a` is in the aligned word that the instruction accesses. -/
def Covers (h : Half) (a : Word) (k : ℕ) : Prop :=
  h.lead ≤ (a + BitVec.ofNat 32 h.lead).toNat % 4 + k ∧ (a + BitVec.ofNat 32 h.lead).toNat % 4 + k < h.lead + 4

instance (h : Half) (a : Word) (k : ℕ) : Decidable (h.Covers a k) := inferInstanceAs (Decidable (_ ∧ _))

theorem covers_or (h : Half) (a : Word) {k : ℕ} (hk : k < 4) : h.Covers a k ∨ h.other.Covers a k := by
  have hleft : (a + BitVec.ofNat 32 3).toNat % 4 = (a.toNat + 3) % 4 := by
    rw [BitVec.toNat_add, BitVec.toNat_ofNat]
    omega
  have hright : (a + BitVec.ofNat 32 0).toNat % 4 = a.toNat % 4 := by
    rw [BitVec.toNat_add, BitVec.toNat_ofNat]
    omega
  cases h
  · simp only [Covers, other, lead, hleft, hright]
    omega
  · simp only [Covers, other, lead, hleft, hright]
    omega

theorem byteOf_loadValue (h : Half) {byte : Word} (hb : byte.toNat < 4) (old value : Word) {k : ℕ} (hk : k < 4) :
    byteOf (h.loadValue byte old value) k = if h.lead ≤ byte.toNat + k ∧ byte.toNat + k < h.lead + 4
      then byteOf value (byte.toNat + k - h.lead) else byteOf old k := by
  cases h with
  | left =>
    rw [loadValue, byteOf_lwlValue hb old value hk, lead]
    by_cases hkeep : k < 3 - byte.toNat
    · rw [if_pos hkeep, if_neg (by omega)]
    · rw [if_neg hkeep, if_pos (by omega)]
      congr 1
      omega
  | right =>
    rw [loadValue, byteOf_lwrValue hb old value hk, lead]
    by_cases hkeep : k < 4 - byte.toNat
    · rw [if_pos hkeep, if_pos (by omega)]
      rfl
    · rw [if_neg hkeep, if_neg (by omega)]

theorem byteOf_storeValue (h : Half) {byte : Word} (hb : byte.toNat < 4) (rt value : Word) {j : ℕ} (hj : j < 4) :
    byteOf (h.storeValue byte rt value) j = if byte.toNat ≤ j + h.lead ∧ j + h.lead < byte.toNat + 4
      then byteOf rt (j + h.lead - byte.toNat) else byteOf value j := by
  cases h with
  | left =>
    rw [storeValue, byteOf_swlValue hb rt value hj, lead]
    by_cases hset : j < byte.toNat + 1
    · rw [if_pos hset, if_pos (by omega)]
      congr 1
      omega
    · rw [if_neg hset, if_neg (by omega)]
  | right =>
    rw [storeValue, byteOf_swrValue hb rt value hj, lead]
    by_cases hkeep : j < byte.toNat
    · rw [if_pos hkeep, if_neg (by omega)]
    · rw [if_neg hkeep, if_pos (by omega)]
      rfl

variable {s : Cpu} {m : Machine} {a : Word} {p : ℕ → ℕ} {rs rt rd : Reg} {extra : Word}

theorem action_load (h : Half) (s : Cpu) (rs rt rd : Reg) (extra : Word) :
    s.action (h.load rs rt rd extra) = .load (s.gpr rs + extra - (s.gpr rs + extra &&& 3)) .word rt
      (h.loadValue (s.gpr rs + extra &&& 3) (s.pendingOr rt)) := by
  cases h <;> rfl

theorem action_store (h : Half) (s : Cpu) (rs rt rd : Reg) (extra : Word) :
    s.action (h.store rs rt rd extra) = .modify (s.gpr rs + extra - (s.gpr rs + extra &&& 3))
      (h.storeValue (s.gpr rs + extra &&& 3) (s.gpr rt)) := by
  cases h <;> rfl

/-- The place of a byte that is covered, in the aligned word. -/
theorem place_eq {t : PageTable} {writing : Bool} (h : Half)
    (hp : ∀ k < 4, physAddr t (a + BitVec.ofNat 32 k) .byte writing = .ok (p k)) {k : ℕ} (hk : k < 4)
    (hc : h.Covers a k) : p k = p h.lead - (a + BitVec.ofNat 32 h.lead).toNat % 4 +
      ((a + BitVec.ofNat 32 h.lead).toNat % 4 + k - h.lead) := by
  obtain ⟨hge, hlt⟩ := hc
  obtain ⟨-, -, hword⟩ := physAddr_word (hp h.lead (by cases h <;> decide))
  have hk' := hword _ (show (a + BitVec.ofNat 32 h.lead).toNat % 4 + k - h.lead < 4 by omega)
  have haddr : a + BitVec.ofNat 32 h.lead - (a + BitVec.ofNat 32 h.lead &&& 3) +
      BitVec.ofNat 32 ((a + BitVec.ofNat 32 h.lead).toNat % 4 + k - h.lead) = a + BitVec.ofNat 32 k := by
    apply BitVec.eq_of_toNat_eq
    rw [BitVec.toNat_add, toNat_sub_and_three, BitVec.toNat_ofNat]
    simp only [BitVec.toNat_add, BitVec.toNat_ofNat] at hge ⊢
    omega
  rw [haddr] at hk'
  exact Except.ok.inj ((hp k hk).symm.trans hk')

/-- A load merges the bytes that are in its word into the register. -/
theorem perform_load (h : Half) (rt rd : Reg)
    (hp : ∀ k < 4, physAddr m.pageTable (a + BitVec.ofNat 32 k) .byte false = .ok (p k))
    (ha : s.gpr rs + extra = a + BitVec.ofNat 32 h.lead) :
    ∃ v m', perform s m (s.action (h.load rs rt rd extra)) = .done (s.advance rt v (s.nextPC + 4)) m' ∧
      SameView m m' ∧
      ∀ k < 4, byteOf v k = if h.Covers a k then m.mainMemory (p k) else byteOf (s.pendingOr rt) k := by
  obtain ⟨hword, -, -⟩ := physAddr_word (hp h.lead (by cases h <;> decide))
  obtain ⟨m', hread, hview⟩ := readMem_of_physAddr hword
  have hb := toNat_and_three (a + BitVec.ofNat 32 h.lead)
  refine ⟨h.loadValue (a + BitVec.ofNat 32 h.lead &&& 3) (s.pendingOr rt)
    (Machine.load m.mainMemory (p h.lead - (a + BitVec.ofNat 32 h.lead).toNat % 4) .word), m', ?_, hview, fun k hk => ?_⟩
  · rw [action_load, ha]
    simp only [perform, hread]
  · rw [byteOf_loadValue h (by omega) _ _ hk, hb]
    by_cases hc : h.Covers a k
    · rw [if_pos hc, if_pos (show _ ∧ _ from hc), byteOf_load _ _ .word _ (show _ < 4 by unfold Covers at hc; omega),
        ← place_eq h hp hk hc]
    · rw [if_neg hc]
      exact if_neg hc

/-- An aligned word is written back with the bytes that are covered replaced. -/
theorem store_storeValue (h : Half) {byte : Word} (hb : byte.toNat < 4) (M : Memory) (w : ℕ) (r : Word) :
    (∀ k < 4, h.lead ≤ byte.toNat + k → byte.toNat + k < h.lead + 4 →
      Machine.store M w .word (h.storeValue byte r (Machine.load M w .word)) (w + (byte.toNat + k - h.lead)) = byteOf r k) ∧
    ∀ q, (∀ k < 4, h.lead ≤ byte.toNat + k → byte.toNat + k < h.lead + 4 → w + (byte.toNat + k - h.lead) ≠ q) →
      Machine.store M w .word (h.storeValue byte r (Machine.load M w .word)) q = M q := by
  have hstore : ∀ j < 4, Machine.store M w .word (h.storeValue byte r (Machine.load M w .word)) (w + j) =
      if byte.toNat ≤ j + h.lead ∧ j + h.lead < byte.toNat + 4 then byteOf r (j + h.lead - byte.toNat)
        else M (w + j) := by
    intro j hj
    rw [← byteOf_load M w .word j hj, ← byteOf_storeValue h hb r _ hj]
    unfold Machine.store
    rw [if_pos ⟨Nat.le_add_right w j, Nat.add_lt_add_left hj w⟩, Nat.add_sub_cancel_left]
    rfl
  constructor
  · intro k hk hge hlt
    rw [hstore _ (by omega), if_pos (by omega)]
    congr 1
    omega
  · intro q hq
    by_cases hin : w ≤ q ∧ q < w + 4
    · obtain ⟨j, rfl⟩ := Nat.exists_eq_add_of_le hin.1
      rw [hstore j (by omega), if_neg]
      intro hset
      exact hq (j + h.lead - byte.toNat) (by omega) (by omega) (by omega) (by omega)
    · unfold Machine.store
      exact if_neg hin

/-- A store replaces the bytes that are in its word, and no other byte. -/
theorem perform_store (h : Half) (rt rd : Reg)
    (hp : ∀ k < 4, physAddr m.pageTable (a + BitVec.ofNat 32 k) .byte true = .ok (p k))
    (ha : s.gpr rs + extra = a + BitVec.ofNat 32 h.lead) :
    ∃ m', perform s m (s.action (h.store rs rt rd extra)) = .done (s.advance 0 0 (s.nextPC + 4)) m' ∧
      m'.pageTable.map core = m.pageTable.map core ∧
      (∀ k < 4, m'.mainMemory (p k) = if h.Covers a k then byteOf (s.gpr rt) k else m.mainMemory (p k)) ∧
      ∀ q, (∀ k < 4, p k ≠ q) → m'.mainMemory q = m.mainMemory q := by
  obtain ⟨hword, -, -⟩ := physAddr_word (hp h.lead (by cases h <;> decide))
  obtain ⟨m₁, hread, hview⟩ := readMem_of_physAddr (physAddr_of_writing hword)
  rw [← physAddr_congr hview.table] at hword
  obtain ⟨m₂, hwrite, hmem, hcore⟩ := writeMem_of_physAddr hword (h.storeValue (a + BitVec.ofNat 32 h.lead &&& 3)
    (s.gpr rt) (Machine.load m.mainMemory (p h.lead - (a + BitVec.ofNat 32 h.lead).toNat % 4) .word))
  have hb := toNat_and_three (a + BitVec.ofNat 32 h.lead)
  have hlt : (a + BitVec.ofNat 32 h.lead &&& 3).toNat < 4 := by omega
  have hbytes := store_storeValue h hlt m.mainMemory
    (p h.lead - (a + BitVec.ofNat 32 h.lead).toNat % 4) (s.gpr rt)
  rw [hview.memory] at hmem
  rw [← hmem, hb] at hbytes
  obtain ⟨hin, hout⟩ := hbytes
  refine ⟨m₂, ?_, hcore.trans hview.table, fun k hk => ?_, fun q hq => hout q fun k hk hge hlt => ?_⟩
  · rw [action_store, ha]
    simp only [perform, hread, hwrite]
  · by_cases hc : h.Covers a k
    · rw [if_pos hc, place_eq h hp hk hc]
      exact hin k hk hc.1 hc.2
    · -- a place that is written is that of a covered byte, and the four places are different
      rw [if_neg hc]
      apply hout
      intro k' hk' hge hlt he
      rw [← place_eq h hp hk' ⟨hge, hlt⟩] at he
      exact hc (physAddr_near hp hk' hk he ▸ ⟨hge, hlt⟩)
  · rw [← place_eq h hp hk ⟨hge, hlt⟩]
    exact hq k hk

end Half

/-! ### The pair -/

theorem oneInstruction_of_fetched {s : Cpu} {m : Machine} {i : Instruction} (h : fetched s m = some i) :
    ∃ m', oneInstruction s m = perform s m' (s.action i) ∧ SameView m m' := by
  unfold fetched at h
  split at h
  · rename_i raw m' hread
    obtain rfl := Option.some.inj h
    exact ⟨m', oneInstruction_of_readMem hread, sameView_readMem hread⟩
  · cases h

/-- The registers after an instruction, when the kernel has been entered by an interrupt or not. -/
def Cpu.interruptIf (interrupted : Bool) (s : Cpu) : Cpu := if interrupted then s.delayedLoad 0 0 else s

/-- Two instructions, with an interrupt between them or not. -/
def twoInstructions (interrupted : Bool) (s : Cpu) (m : Machine) : Outcome :=
  match oneInstruction s m with
  | .done s m => oneInstruction (s.interruptIf interrupted) m
  | o => o

variable {s : Cpu} {m : Machine} {a : Word} {rs rt rd rd' : Reg} {extra extra' : Word} {interrupted : Bool}

theorem twoInstructions_eq {s₁ : Cpu} {m₁ : Machine} {o : Outcome} (h : oneInstruction s m = .done s₁ m₁)
    (h' : oneInstruction (s₁.interruptIf interrupted) m₁ = o) : twoInstructions interrupted s m = o := by
  rw [twoInstructions, h]
  exact h'

theorem gpr_delayedLoad_advance (hrt : rt ≠ 0) (s : Cpu) (v pcAfter : Word) :
    ((s.advance rt v pcAfter).delayedLoad 0 0).gpr rt = v := by
  rw [Cpu.gpr_delayedLoad, if_neg hrt]
  exact if_pos rfl

/-- The value a load is about to bring is the one the next instruction finds. -/
theorem pendingOr_advance (hrt : rt ≠ 0) (s : Cpu) (v pcAfter : Word) (interrupted : Bool) :
    ((s.advance rt v pcAfter).interruptIf interrupted).pendingOr rt = v := by
  cases interrupted with
  | false => exact if_pos rfl
  | true =>
    calc ((s.advance rt v pcAfter).delayedLoad 0 0).pendingOr rt
        = ((s.advance rt v pcAfter).delayedLoad 0 0).gpr rt := if_neg (Ne.symm hrt)
      _ = v := gpr_delayedLoad_advance hrt s v pcAfter

/-- The registers that are not to be loaded are as after the load that was on its way before. -/
theorem gpr_advance {r : Reg} (hr : r ≠ rt ∨ rt = 0) (s : Cpu) (v pcAfter : Word) (interrupted : Bool) :
    ((s.advance rt v pcAfter).interruptIf interrupted).gpr r = (s.delayedLoad 0 0).gpr r := by
  cases interrupted with
  | false => rfl
  | true =>
    calc ((s.advance rt v pcAfter).delayedLoad 0 0).gpr r
        = if r = 0 then 0 else if r = rt then v else (s.delayedLoad 0 0).gpr r := Cpu.gpr_delayedLoad _ 0 0 r
      _ = (s.delayedLoad 0 0).gpr r := by
        by_cases h0 : r = 0
        · rw [if_pos h0, Cpu.gpr_delayedLoad, if_pos h0]
        · have hne : r ≠ rt := hr.elim id fun hrt => hrt ▸ h0
          rw [if_neg h0, if_neg hne]

/-- Both loads of a pair, in either order. -/
theorem load_pair (h : Half) (hrt : rt ≠ 0) (hrs : rs ≠ rt)
    (hmap : ∀ k < 4, ∃ p, physAddr m.pageTable (a + BitVec.ofNat 32 k) .byte false = .ok p)
    (ha : s.gpr rs + extra = a + BitVec.ofNat 32 h.lead)
    (ha' : (s.delayedLoad 0 0).gpr rs + extra' = a + BitVec.ofNat 32 h.other.lead)
    (hf : fetched s m = some (h.load rs rt rd extra))
    (hf' : ∀ s₁ m₁, oneInstruction s m = .done s₁ m₁ →
      fetched (s₁.interruptIf interrupted) m₁ = some (h.other.load rs rt rd' extra')) :
    ∃ s' m', twoInstructions interrupted s m = .done s' m' ∧ SameView m m' ∧
      ∀ k < 4, m.byteAt (a + BitVec.ofNat 32 k) = some (byteOf ((s'.delayedLoad 0 0).gpr rt) k) := by
  choose! p hp using hmap
  obtain ⟨m₀, hone, hview₀⟩ := oneInstruction_of_fetched hf
  obtain ⟨v, m₁, hperf, hview₁, hv⟩ := Half.perform_load h rt rd
    (fun k hk => (physAddr_congr hview₀.table ..).trans (hp k hk)) ha
  rw [hperf] at hone
  obtain ⟨m₂, htwo, hview₂⟩ := oneInstruction_of_fetched (hf' _ _ hone)
  have hview := (hview₀.trans hview₁).trans hview₂
  obtain ⟨v', m₃, hperf', hview₃, hv'⟩ := Half.perform_load h.other rt rd'
    (fun k hk => (physAddr_congr hview.table ..).trans (hp k hk))
    ((congrArg (· + extra') (gpr_advance (Or.inl hrs) s v _ interrupted)).trans ha')
  rw [hperf'] at htwo
  refine ⟨_, m₃, twoInstructions_eq hone htwo, hview.trans hview₃, fun k hk => ?_⟩
  rw [gpr_delayedLoad_advance hrt, byteAt_eq_some_iff]
  refine ⟨p k, hp k hk, ?_⟩
  rw [hv' k hk, pendingOr_advance hrt, hv k hk, hview.memory, hview₀.memory]
  -- one of the two has loaded the byte
  rcases h.covers_or a hk with hc | hc
  · rw [if_pos hc, ite_self]
  · rw [if_pos hc]

/-- Both stores of a pair, in either order. A byte is taken from the register as the instruction
finds it that writes the byte last. -/
theorem store_pair (h : Half)
    (hmap : ∀ k < 4, ∃ p, physAddr m.pageTable (a + BitVec.ofNat 32 k) .byte true = .ok p)
    (ha : s.gpr rs + extra = a + BitVec.ofNat 32 h.lead)
    (ha' : (s.delayedLoad 0 0).gpr rs + extra' = a + BitVec.ofNat 32 h.other.lead)
    (hf : fetched s m = some (h.store rs rt rd extra))
    (hf' : ∀ s₁ m₁, oneInstruction s m = .done s₁ m₁ →
      fetched (s₁.interruptIf interrupted) m₁ = some (h.other.store rs rt rd' extra')) :
    ∃ s' m', twoInstructions interrupted s m = .done s' m' ∧ m'.pageTable.map core = m.pageTable.map core ∧
      (∀ k < 4, m'.byteAt (a + BitVec.ofNat 32 k) =
        some (byteOf (if h.other.Covers a k then (s.delayedLoad 0 0).gpr rt else s.gpr rt) k)) ∧
      ∀ q, (∀ k < 4, physAddr m.pageTable (a + BitVec.ofNat 32 k) .byte true ≠ .ok q) →
        m'.mainMemory q = m.mainMemory q := by
  choose! p hp using hmap
  obtain ⟨m₀, hone, hview₀⟩ := oneInstruction_of_fetched hf
  obtain ⟨m₁, hperf, hcore₁, hin₁, hout₁⟩ := Half.perform_store h rt rd
    (fun k hk => (physAddr_congr hview₀.table ..).trans (hp k hk)) ha
  rw [hperf] at hone
  obtain ⟨m₂, htwo, hview₂⟩ := oneInstruction_of_fetched (hf' _ _ hone)
  have hcore := hview₂.table.trans (hcore₁.trans hview₀.table)
  have hgpr := fun r => gpr_advance (r := r) (Or.inr rfl) s 0 (s.nextPC + 4) interrupted
  obtain ⟨m₃, hperf', hcore₃, hin₃, hout₃⟩ := Half.perform_store h.other rt rd'
    (fun k hk => (physAddr_congr hcore ..).trans (hp k hk)) ((congrArg (· + extra') (hgpr rs)).trans ha')
  rw [hperf'] at htwo
  refine ⟨_, m₃, twoInstructions_eq hone htwo, hcore₃.trans hcore, fun k hk => ?_, fun q hq => ?_⟩
  · have hread : physAddr m.pageTable (a + BitVec.ofNat 32 k) .byte false = .ok (p k) := physAddr_of_writing (hp k hk)
    rw [← physAddr_congr (hcore₃.trans hcore)] at hread
    rw [byteAt_eq_some_iff]
    refine ⟨p k, hread, ?_⟩
    rw [hin₃ k hk, hview₂.memory, hin₁ k hk, hgpr rt]
    by_cases hc : h.other.Covers a k
    · rw [if_pos hc, if_pos hc]
    · rw [if_neg hc, if_neg hc, if_pos ((h.covers_or a hk).resolve_right hc)]
  · have hne : ∀ k < 4, p k ≠ q := fun k hk he => hq k hk (he ▸ hp k hk)
    rw [hout₃ q hne, hview₂.memory, hout₁ q hne, hview₀.memory]

/-- A page of code, and a word across the boundary of two pages that lie apart. -/
def pairMachine (first second : Word) : Machine where
  mainMemory q := if 640 ≤ q ∧ q < 644 then byteOf first (q - 640)
    else if 644 ≤ q ∧ q < 648 then byteOf second (q - 644) else BitVec.ofNat 8 q
  pageTable := [⟨0, 5, true, false, false, false⟩, ⟨1, 3, true, false, false, false⟩, ⟨2, 7, true, false, false, false⟩]

def pairCpu : Cpu :=
  { gpr := fun r => if r = 9 then 254 else if r = 8 then 0x44332211 else 0
    hi := 0, lo := 0, pc := 0, nextPC := 4, prevPC := 0, loadReg := 0, loadValue := 0, badVAddr := 0 }

end Nachos
