/-
# Arithmetic instructions and the architecture

What the instruction set says that the arithmetic, logical and shift instructions and the
divisions do (`Mips.effect`), for the fields of the instruction word and in exact arithmetic, and
what `OneInstruction` of `machine/mipssim.cc` makes of them.

* `arithmetic_follows_mips`: the additions, subtractions, logical operations, comparisons and left
  shifts are those of the architecture, and `ADD`, `ADDI` and `SUB` trap exactly on an overflow.
* `shiftOrDivide_follows_iff`: the right shifts and the divisions are so with exceptions. `SRL` and
  `SRLV` shift an `int`, so that the sign comes in from above, and the most negative number is
  divided by -1 on the host, where the quotient does not fit.

Key definitions: `Mips.encoding`, `Mips.effect`, `hostDivisions`, `FollowsMips`.
-/
import NachosNet.Machine.Mipssim

namespace Nachos

/-! ### The instruction set -/

namespace Mips

/-- The field of the instruction word for the opcode. -/
def major (value : Word) : BitVec 6 := value.extractLsb' 26 6

/-- The field that tells the instructions of opcode 0 apart. -/
def funct (value : Word) : BitVec 6 := value.extractLsb' 0 6

def rs (value : Word) : Reg := value.extractLsb' 21 5

def rt (value : Word) : Reg := value.extractLsb' 16 5

def rd (value : Word) : Reg := value.extractLsb' 11 5

def shamt (value : Word) : BitVec 5 := value.extractLsb' 6 5

def immediate (value : Word) : BitVec 16 := value.extractLsb' 0 16

/-- The opcode field, and the function field where there is one. -/
def encoding : OpCode → Option (BitVec 6 × Option (BitVec 6))
  | .sll => some (0, some 0x00)
  | .srl => some (0, some 0x02)
  | .sra => some (0, some 0x03)
  | .sllv => some (0, some 0x04)
  | .srlv => some (0, some 0x06)
  | .srav => some (0, some 0x07)
  | .div => some (0, some 0x1a)
  | .divu => some (0, some 0x1b)
  | .add => some (0, some 0x20)
  | .addu => some (0, some 0x21)
  | .sub => some (0, some 0x22)
  | .subu => some (0, some 0x23)
  | .and => some (0, some 0x24)
  | .or => some (0, some 0x25)
  | .xor => some (0, some 0x26)
  | .nor => some (0, some 0x27)
  | .slt => some (0, some 0x2a)
  | .sltu => some (0, some 0x2b)
  | .addi => some (0x08, none)
  | .addiu => some (0x09, none)
  | .slti => some (0x0a, none)
  | .sltiu => some (0x0b, none)
  | .andi => some (0x0c, none)
  | .ori => some (0x0d, none)
  | .xori => some (0x0e, none)
  | .lui => some (0x0f, none)
  | _ => none

/-- The word is an instruction `op`. -/
def Encodes (op : OpCode) (value : Word) : Prop :=
  encoding op = some (major value, none) ∨ major value = 0 ∧ encoding op = some (0, some (funct value))

inductive Effect
  /-- A general register gets a value; register 0 stays as it is. -/
  | write (r : Reg) (v : Word)
  | hilo (hi lo : Word)
  | overflow
  deriving DecidableEq

/-- The result of a signed operation that traps when it does not fit. -/
def trapping (r : Reg) (exact : ℤ) : Effect :=
  if -2 ^ 31 ≤ exact ∧ exact ≤ 2 ^ 31 - 1 then .write r (BitVec.ofInt 32 exact) else .overflow

def flag (p : Prop) [Decidable p] : Word := if p then 1 else 0

/-- By how much a shift instruction shifts. -/
def amount (op : OpCode) (value : Word) (gpr : Reg → Word) : ℕ :=
  match op with
  | .sll | .srl | .sra => (shamt value).toNat
  | _ => (gpr (rs value)).toNat % 32

/-- What the architecture says that an instruction does. -/
def effect (op : OpCode) (value : Word) (gpr : Reg → Word) : Option Effect :=
  let s := gpr (rs value)
  let t := gpr (rt value)
  let imm := immediate value
  match op with
  | .add => some (trapping (rd value) (s.toInt + t.toInt))
  | .addi => some (trapping (rt value) (s.toInt + imm.toInt))
  | .addu => some (.write (rd value) (BitVec.ofInt 32 (s.toInt + t.toInt)))
  | .addiu => some (.write (rt value) (BitVec.ofInt 32 (s.toInt + imm.toInt)))
  | .sub => some (trapping (rd value) (s.toInt - t.toInt))
  | .subu => some (.write (rd value) (BitVec.ofInt 32 (s.toInt - t.toInt)))
  | .and => some (.write (rd value) (s &&& t))
  | .andi => some (.write (rt value) (s &&& imm.setWidth 32))
  | .or => some (.write (rd value) (s ||| t))
  | .ori => some (.write (rt value) (s ||| imm.setWidth 32))
  | .xor => some (.write (rd value) (s ^^^ t))
  | .xori => some (.write (rt value) (s ^^^ imm.setWidth 32))
  | .nor => some (.write (rd value) (~~~(s ||| t)))
  | .slt => some (.write (rd value) (flag (s.toInt < t.toInt)))
  | .slti => some (.write (rt value) (flag (s.toInt < imm.toInt)))
  | .sltu => some (.write (rd value) (flag (s.toNat < t.toNat)))
  | .sltiu => some (.write (rt value) (flag (s.toNat < (imm.signExtend 32).toNat)))
  | .lui => some (.write (rt value) (imm ++ 0#16))
  | .sll | .sllv => some (.write (rd value) (BitVec.ofNat 32 (t.toNat * 2 ^ amount op value gpr)))
  | .srl | .srlv => some (.write (rd value) (BitVec.ofNat 32 (t.toNat / 2 ^ amount op value gpr)))
  | .sra | .srav => some (.write (rd value) (BitVec.ofInt 32 (t.toInt / 2 ^ amount op value gpr)))
  | .div =>
    if t = 0 then some (.hilo 0 0)
    else some (.hilo (BitVec.ofInt 32 (s.toInt.tmod t.toInt)) (BitVec.ofInt 32 (s.toInt.tdiv t.toInt)))
  | .divu =>
    if t = 0 then some (.hilo 0 0)
    else some (.hilo (BitVec.ofNat 32 (s.toNat % t.toNat)) (BitVec.ofNat 32 (s.toNat / t.toNat)))
  | _ => none

end Mips

/-- The instructions that write one general register and may overflow. -/
def arithmetic : List OpCode :=
  [.add, .addi, .addu, .addiu, .sub, .subu, .and, .andi, .or, .ori, .xor, .xori, .nor, .slt, .slti, .sltu, .sltiu, .lui,
    .sll, .sllv]

def rightShifts : List OpCode := [.srl, .srlv, .sra, .srav]

def shiftOrDivide : List OpCode := rightShifts ++ [.div, .divu]

/-! ### Decoding -/

namespace Instruction

theorem toNat_shiftRight_26 (value : Word) : (value >>> 26).toNat = (Mips.major value).toNat := by
  have := value.isLt
  simp only [Mips.major, BitVec.toNat_ushiftRight, BitVec.extractLsb'_toNat, Nat.shiftRight_eq_div_pow]
  omega

theorem toNat_and_3f (value : Word) : (value &&& 0x3f).toNat = (Mips.funct value).toNat := by
  simp only [Mips.funct, BitVec.extractLsb'_toNat, Nat.shiftRight_zero]
  exact Nat.and_two_pow_sub_one_eq_mod value.toNat 6

theorem opTable_eq_iff (k : BitVec 6) (op : OpCode) (hop : op ∈ arithmetic ++ shiftOrDivide) :
    (opTable.getD k.toNat (.res, .ifmt)).1 = op ↔ Mips.encoding op = some (k, none) := by
  revert k op
  decide +kernel

theorem specialTable_eq_iff (k : BitVec 6) (op : OpCode) (hop : op ∈ arithmetic ++ shiftOrDivide) :
    specialTable.getD k.toNat .res = op ↔ Mips.encoding op = some (0, some k) := by
  revert k op
  decide +kernel

theorem opTable_special_iff (k : BitVec 6) : (opTable.getD k.toNat (.res, .ifmt)).1 = .special ↔ k = 0 := by
  revert k
  decide +kernel

theorem bcondOf_notMem (value : Word) : bcondOf value ∉ arithmetic ++ shiftOrDivide := by
  unfold bcondOf
  dsimp only
  split_ifs <;> decide

/-- The formats of the table: these instructions have an immediate, or are of opcode 0. -/
theorem opTable_format (k : BitVec 6) :
    ((opTable.getD k.toNat (.res, .ifmt)).1 ∈ arithmetic ++ shiftOrDivide →
      (opTable.getD k.toNat (.res, .ifmt)).2 = .ifmt) ∧
    ((opTable.getD k.toNat (.res, .ifmt)).1 = .special → (opTable.getD k.toNat (.res, .ifmt)).2 = .rfmt) := by
  revert k
  decide +kernel

theorem opCode_decode_eq (value : Word) : (decode value).opCode =
    if (opTable.getD (Mips.major value).toNat (.res, .ifmt)).1 = .special then
      specialTable.getD (Mips.funct value).toNat .res
    else if (opTable.getD (Mips.major value).toNat (.res, .ifmt)).1 = .bcond then bcondOf value
    else (opTable.getD (Mips.major value).toNat (.res, .ifmt)).1 := by
  unfold decode
  rw [toNat_shiftRight_26, toNat_and_3f]

variable {value : Word} {op : OpCode}

/-- A word is decoded to one of these instructions exactly when it is one. -/
theorem opCode_decode_iff (hop : op ∈ arithmetic ++ shiftOrDivide) :
    (decode value).opCode = op ↔ Mips.Encodes op value := by
  have hspecial := opTable_special_iff (Mips.major value)
  have hiff := opTable_eq_iff (Mips.major value) op hop
  rw [opCode_decode_eq]
  unfold Mips.Encodes
  split_ifs with h0 hb
  · have hne : op ≠ .special := by
      rintro rfl
      revert hop
      decide
    have hmajor := hspecial.mp h0
    rw [specialTable_eq_iff _ op hop, ← hiff, h0]
    simp [hmajor, Ne.symm hne]
  · have hne : op ≠ .bcond := by
      rintro rfl
      revert hop
      decide
    have hmajor : Mips.major value ≠ 0 := fun h => h0 (hspecial.mpr h)
    refine iff_of_false (fun h => bcondOf_notMem value (h ▸ hop)) ?_
    rintro (h | ⟨h, -⟩)
    · exact hne ((hiff.mpr h).symm.trans hb)
    · exact hmajor h
  · rw [hiff]
    exact ⟨Or.inl, fun h => h.resolve_right fun h => h0 (hspecial.mpr h.1)⟩

theorem getLsbD_ffff (i : ℕ) : (0xffff : Word).getLsbD i = decide (i < 16) := by
  have h : (0xffff : Word) = (BitVec.allOnes 16).setWidth 32 := rfl
  rw [h, BitVec.getLsbD_setWidth, BitVec.getLsbD_allOnes]
  by_cases hi : i < 16
  · simp [hi]
    omega
  · simp [hi]

theorem getLsbD_ffff0000 (i : ℕ) : (0xffff0000 : Word).getLsbD i = (decide (i < 32) && !decide (i < 16)) := by
  have h : (0xffff0000 : Word) = ~~~(0xffff : Word) := rfl
  rw [h, BitVec.getLsbD_not, getLsbD_ffff]

theorem and_ffff (value : Word) : value &&& 0xffff = (value.extractLsb' 0 16).setWidth 32 := by
  apply BitVec.eq_of_getLsbD_eq
  intro i hi
  rw [BitVec.getLsbD_and, getLsbD_ffff, BitVec.getLsbD_setWidth, BitVec.getLsbD_extractLsb', Nat.zero_add]
  simp [hi, Bool.and_comm]

theorem and_8000_ne_zero (imm : BitVec 16) : imm.setWidth 32 &&& 0x8000 ≠ (0 : Word) ↔ imm.msb = true := by
  have h : (0x8000 : Word) = BitVec.twoPow 32 15 := rfl
  have hne : BitVec.twoPow 32 15 ≠ 0#32 := by decide
  rw [h, BitVec.and_twoPow, BitVec.getLsbD_setWidth, BitVec.msb_eq_getLsbD_last]
  cases imm.getLsbD 15 <;> simp [hne]

/-- The immediate, with its sign. -/
theorem extraOf_ifmt (value : Word) : extraOf value .ifmt = (Mips.immediate value).signExtend 32 := by
  have hsign := and_8000_ne_zero (Mips.immediate value)
  unfold extraOf
  dsimp only
  rw [and_ffff]
  change ite ((Mips.immediate value).setWidth 32 &&& 0x8000 ≠ 0) _ _ = _
  split_ifs with h
  · apply BitVec.eq_of_getLsbD_eq
    intro i hi
    rw [BitVec.getLsbD_or, getLsbD_ffff0000, BitVec.getLsbD_setWidth, BitVec.getLsbD_signExtend]
    change ((decide (i < 32) && (Mips.immediate value).getLsbD i) || _) = _
    by_cases h16 : i < 16
    · simp [hi, h16]
    · simp [hi, h16, hsign.mp h]
  · rw [BitVec.signExtend_eq_setWidth_of_msb_false (by simpa using fun hm => h (hsign.mpr hm))]
    rfl

theorem extraOf_rfmt (value : Word) : extraOf value .rfmt = (Mips.shamt value).setWidth 32 := by
  have hmask : ∀ x : Word, x &&& 0x1f = (x.extractLsb' 0 5).setWidth 32 := by
    intro x
    apply BitVec.eq_of_toNat_eq
    rw [BitVec.toNat_and, BitVec.toNat_setWidth, BitVec.extractLsb'_toNat, Nat.shiftRight_zero]
    exact (Nat.and_two_pow_sub_one_eq_mod x.toNat 5).trans (by omega)
  unfold extraOf Mips.shamt
  rw [hmask]
  congr 1

theorem extra_of_immediate {k : BitVec 6} (hop : op ∈ arithmetic ++ shiftOrDivide)
    (h : (decode value).opCode = op) (hk : Mips.encoding op = some (k, none)) :
    (decode value).extra = (Mips.immediate value).signExtend 32 := by
  have hmajor : Mips.encoding op = some (Mips.major value, none) := by
    rcases (opCode_decode_iff hop).mp h with hcode | ⟨-, hcode⟩
    · exact hcode
    · rw [hk] at hcode
      simp at hcode
  have hmem := (opTable_eq_iff _ op hop).mpr hmajor
  unfold decode
  dsimp only
  rw [toNat_shiftRight_26, (opTable_format _).1 (hmem ▸ hop), extraOf_ifmt]

theorem extra_of_shamt {k : BitVec 6} (hop : op ∈ arithmetic ++ shiftOrDivide)
    (h : (decode value).opCode = op) (hk : Mips.encoding op = some (0, some k)) :
    (decode value).extra = (Mips.shamt value).setWidth 32 := by
  have hmajor : Mips.major value = 0 := by
    rcases (opCode_decode_iff hop).mp h with hcode | ⟨hcode, -⟩
    · rw [hk] at hcode
      simp at hcode
    · exact hcode
  unfold decode
  dsimp only
  rw [toNat_shiftRight_26, (opTable_format _).2 ((opTable_special_iff _).mpr hmajor), extraOf_rfmt]

end Instruction

/-! ### The operations on words -/

theorem and_signBit_eq_zero (x : Word) : x &&& signBit = 0 ↔ x.msb = false := by
  have h : signBit = BitVec.twoPow 32 31 := rfl
  have hne : BitVec.twoPow 32 31 ≠ 0#32 := by decide
  rw [h, BitVec.and_twoPow, BitVec.msb_eq_getLsbD_last]
  cases x.getLsbD 31 <;> simp [hne]

theorem xor_and_signBit_eq_zero (x y : Word) : (x ^^^ y) &&& signBit = 0 ↔ x.msb = y.msb := by
  rw [and_signBit_eq_zero, BitVec.msb_xor]
  cases x.msb <;> cases y.msb <;> decide

/-- The signs of the operands are equal and the sum has the other one: the sum does not fit. -/
theorem add_overflow_iff (x y : Word) :
    ((x ^^^ y) &&& signBit = 0 ∧ (x ^^^ (x + y)) &&& signBit ≠ 0) ↔
      ¬ (-2 ^ 31 ≤ x.toInt + y.toInt ∧ x.toInt + y.toInt ≤ 2 ^ 31 - 1) := by
  have hov := BitVec.saddOverflow_eq x y
  rw [Ne, xor_and_signBit_eq_zero, xor_and_signBit_eq_zero]
  have hiff : x.saddOverflow y = true ↔ ¬ (-2 ^ 31 ≤ x.toInt + y.toInt ∧ x.toInt + y.toInt ≤ 2 ^ 31 - 1) := by
    simp only [BitVec.saddOverflow, Bool.or_eq_true, decide_eq_true_eq]
    omega
  rw [← hiff, hov]
  cases x.msb <;> cases y.msb <;> cases (x + y).msb <;> decide

/-- The signs of the operands differ and the difference has not that of the first. -/
theorem sub_overflow_iff (x y : Word) :
    ((x ^^^ y) &&& signBit ≠ 0 ∧ (x ^^^ (x - y)) &&& signBit ≠ 0) ↔
      ¬ (-2 ^ 31 ≤ x.toInt - y.toInt ∧ x.toInt - y.toInt ≤ 2 ^ 31 - 1) := by
  have hov := BitVec.ssubOverflow_eq x y
  rw [Ne, Ne, xor_and_signBit_eq_zero, xor_and_signBit_eq_zero]
  have hiff : x.ssubOverflow y = true ↔ ¬ (-2 ^ 31 ≤ x.toInt - y.toInt ∧ x.toInt - y.toInt ≤ 2 ^ 31 - 1) := by
    simp only [BitVec.ssubOverflow, Bool.or_eq_true, decide_eq_true_eq]
    omega
  rw [← hiff, hov]
  cases x.msb <;> cases y.msb <;> cases (x - y).msb <;> decide

theorem ofInt_toInt_add (x y : Word) : BitVec.ofInt 32 (x.toInt + y.toInt) = x + y := by
  rw [BitVec.ofInt_add, BitVec.ofInt_toInt, BitVec.ofInt_toInt]

theorem ofInt_toInt_sub (x y : Word) : BitVec.ofInt 32 (x.toInt - y.toInt) = x - y := by
  rw [Int.sub_eq_add_neg, BitVec.ofInt_add, BitVec.ofInt_neg, BitVec.ofInt_toInt, BitVec.ofInt_toInt,
    BitVec.sub_eq_add_neg]

theorem toInt_immediate (imm : BitVec 16) : (imm.signExtend 32).toInt = imm.toInt :=
  BitVec.toInt_signExtend_of_le (by decide)

theorem signExtend_and_ffff (imm : BitVec 16) : imm.signExtend 32 &&& 0xffff = imm.setWidth 32 := by
  rw [Instruction.and_ffff]
  congr 1
  apply BitVec.eq_of_getLsbD_eq
  intro i hi
  have hi32 : i < 32 := by omega
  simp only [BitVec.getLsbD_extractLsb', BitVec.getLsbD_signExtend, hi, hi32, Nat.zero_add, decide_true,
    Bool.true_and, if_true]

theorem signExtend_shiftLeft_16 (imm : BitVec 16) : imm.signExtend 32 <<< 16 = imm ++ 0#16 := by
  apply BitVec.eq_of_getLsbD_eq
  intro i hi
  rw [BitVec.getLsbD_shiftLeft, BitVec.getLsbD_append, BitVec.getLsbD_signExtend]
  by_cases h16 : i < 16
  · simp [h16]
  · have hlow : i - 16 < 16 := by omega
    have hlow32 : i - 16 < 32 := by omega
    simp [h16, hi, hlow, hlow32]

theorem toNat_and_1f (x : Word) : (x &&& 0x1f).toNat = x.toNat % 32 := Nat.and_two_pow_sub_one_eq_mod x.toNat 5

theorem toNat_shamt (k : BitVec 5) : (k.setWidth 32 : Word).toNat = k.toNat := by
  rw [BitVec.toNat_setWidth, Nat.mod_eq_of_lt]
  exact k.isLt.trans (by decide)

theorem ofNat_mul_two_pow (x : Word) (n : ℕ) : BitVec.ofNat 32 (x.toNat * 2 ^ n) = x <<< n := by
  apply BitVec.eq_of_toNat_eq
  rw [BitVec.toNat_ofNat, BitVec.toNat_shiftLeft, Nat.shiftLeft_eq]

theorem ofNat_div_two_pow (x : Word) (n : ℕ) : BitVec.ofNat 32 (x.toNat / 2 ^ n) = x >>> n := by
  apply BitVec.eq_of_toNat_eq
  rw [BitVec.toNat_ofNat, BitVec.toNat_ushiftRight, Nat.shiftRight_eq_div_pow, Nat.mod_eq_of_lt]
  exact (Nat.div_le_self _ _).trans_lt x.isLt

theorem ofInt_div_two_pow (x : Word) (n : ℕ) : BitVec.ofInt 32 (x.toInt / 2 ^ n) = x.sshiftRight n := by
  have h : (x.sshiftRight n).toInt = x.toInt / 2 ^ n := by
    rw [BitVec.toInt_sshiftRight, Int.shiftRight_eq_div_pow]
    norm_cast
  rw [← h, BitVec.ofInt_toInt]

/-- The two right shifts are the same only where no sign comes in. -/
theorem sshiftRight_eq_iff (x : Word) (n : ℕ) : x.sshiftRight n = x >>> n ↔ x.msb = false ∨ n = 0 := by
  constructor
  · intro h
    have hm := congrArg BitVec.msb h
    rw [BitVec.msb_sshiftRight, BitVec.msb_ushiftRight] at hm
    by_contra hc
    rw [not_or] at hc
    simp [Nat.pos_of_ne_zero hc.2, hc.1] at hm
  · rintro (h | rfl)
    · exact BitVec.sshiftRight_eq_of_msb_false h
    · simp

/-! ### What an instruction does -/

namespace Cpu

/-- The action is the one for an effect on a general register. -/
def ActsBy (s : Cpu) (e : Option Mips.Effect) (a : Action) : Prop :=
  e = some .overflow ∧ a = .raise .overflow 0 ∨ ∃ r v, e = some (.write r v) ∧ a = s.assign r v

theorem actsBy_assign (s : Cpu) (r : Reg) {v w : Word} (h : v = w) :
    s.ActsBy (some (.write r v)) (s.assign r w) := by
  subst h
  exact Or.inr ⟨r, v, rfl, rfl⟩

theorem actsBy_trapping (s : Cpu) (r : Reg) {overflows : Prop} [Decidable overflows] {exact : ℤ} {v : Word}
    (ho : overflows ↔ ¬ (-2 ^ 31 ≤ exact ∧ exact ≤ 2 ^ 31 - 1)) (hv : BitVec.ofInt 32 exact = v) :
    s.ActsBy (some (Mips.trapping r exact)) (if overflows then .raise .overflow 0 else s.assign r v) := by
  unfold Mips.trapping
  by_cases h : overflows
  · rw [if_pos h, if_neg (ho.mp h)]
    exact Or.inl ⟨rfl, rfl⟩
  · rw [if_neg h, if_pos (not_not.mp fun hc => h (ho.mpr hc))]
    exact actsBy_assign s r hv

variable {s : Cpu} {op : OpCode} {value : Word}

theorem action_of_arithmetic (hop : op ∈ arithmetic) (h : (Instruction.decode value).opCode = op) :
    s.ActsBy (Mips.effect op value s.gpr) (s.action (.decode value)) := by
  have hmem := List.mem_append_left shiftOrDivide hop
  have himm := fun k => Instruction.extra_of_immediate (k := k) hmem h
  have hshamt := fun k => Instruction.extra_of_shamt (k := k) hmem h
  have hrs : (Instruction.decode value).rs = Mips.rs value := rfl
  have hrt : (Instruction.decode value).rt = Mips.rt value := rfl
  have hrd : (Instruction.decode value).rd = Mips.rd value := rfl
  generalize Instruction.decode value = i at *
  unfold action Mips.effect
  simp only [h, hrs, hrt, hrd]
  cases op
  case add => exact actsBy_trapping s _ (add_overflow_iff _ _) (ofInt_toInt_add _ _)
  case sub => exact actsBy_trapping s _ (sub_overflow_iff _ _) (ofInt_toInt_sub _ _)
  case addu => exact actsBy_assign s _ (ofInt_toInt_add _ _)
  case subu => exact actsBy_assign s _ (ofInt_toInt_sub _ _)
  case and | or | xor | nor | slt | sltu => exact actsBy_assign s _ rfl
  case sllv =>
    apply actsBy_assign
    rw [ofNat_mul_two_pow, BitVec.shiftLeft_eq', toNat_and_1f]
    rfl
  case sll =>
    apply actsBy_assign
    rw [ofNat_mul_two_pow, BitVec.shiftLeft_eq', hshamt _ rfl, toNat_shamt]
    rfl
  case addi =>
    rw [himm _ rfl, ← toInt_immediate]
    refine actsBy_trapping s _ ?_ (ofInt_toInt_add _ _)
    rw [← add_overflow_iff]
    refine and_congr_right fun hsign => ?_
    rw [Ne, Ne, xor_and_signBit_eq_zero, xor_and_signBit_eq_zero, (xor_and_signBit_eq_zero _ _).mp hsign]
  case addiu =>
    rw [himm _ rfl, ← toInt_immediate]
    exact actsBy_assign s _ (ofInt_toInt_add _ _)
  case slti =>
    rw [himm _ rfl, ← toInt_immediate]
    exact actsBy_assign s _ rfl
  case andi | ori | xori =>
    rw [himm _ rfl, signExtend_and_ffff]
    exact actsBy_assign s _ rfl
  case sltiu =>
    rw [himm _ rfl]
    exact actsBy_assign s _ rfl
  case lui =>
    rw [himm _ rfl]
    exact actsBy_assign s _ (signExtend_shiftLeft_16 _).symm
  all_goals exact absurd hop (by decide)

/-- All four right shifts shift an `int`. -/
theorem action_of_right_shift (hop : op ∈ rightShifts) (h : (Instruction.decode value).opCode = op) :
    s.action (.decode value) =
      s.assign (Mips.rd value) ((s.gpr (Mips.rt value)).sshiftRight (Mips.amount op value s.gpr)) := by
  have hmem : op ∈ arithmetic ++ shiftOrDivide := List.mem_append_right _ (List.mem_append_left _ hop)
  have hshamt := fun k => Instruction.extra_of_shamt (k := k) hmem h
  have hrs : (Instruction.decode value).rs = Mips.rs value := rfl
  have hrt : (Instruction.decode value).rt = Mips.rt value := rfl
  have hrd : (Instruction.decode value).rd = Mips.rd value := rfl
  generalize Instruction.decode value = i at *
  unfold action Mips.amount
  simp only [h, hrs, hrt, hrd]
  cases op
  case srl | sra =>
    rw [hshamt _ rfl, toNat_shamt]
  case srlv | srav => rw [toNat_and_1f]
  all_goals exact absurd hop (by decide)

/-- The general registers after an instruction that writes one. -/
theorem gpr_assigned (s : Cpu) (r : Reg) (v pcAfter : Word) (q : Reg) :
    ((s.put (some (r, v)) none).advance 0 0 pcAfter).gpr q =
      if q = 0 then 0 else if q = s.loadReg then s.loadValue else if q = r then v else s.gpr q := by
  refine (gpr_delayedLoad _ 0 0 q).trans ?_
  simp only [put, Option.elim_some, Function.update_apply]

end Cpu

section Instructions

variable {s : Cpu} {m m' : Machine} {value : Word} {op : OpCode}

/-! ### Arithmetic -/

/-- `s'` is `s` after an instruction that gives register `r` the value `v`. -/
structure Cpu.Writes (s : Cpu) (r : Reg) (v : Word) (s' : Cpu) : Prop where
  gpr : ∀ q, s'.gpr q = if q = r ∧ q ≠ 0 then v else s.gpr q
  hi : s'.hi = s.hi
  lo : s'.lo = s.lo
  pc : s'.pc = s.nextPC
  nextPC : s'.nextPC = s.nextPC + 4
  loadReg : s'.loadReg = 0
  badVAddr : s'.badVAddr = s.badVAddr

theorem Cpu.writes_advance (h0 : s.gpr 0 = 0) (hl : s.loadReg = 0) (r : Reg) (v : Word) :
    s.Writes r v ((s.put (some (r, v)) none).advance 0 0 (s.nextPC + 4)) where
  gpr q := by
    rw [gpr_assigned, hl]
    by_cases hq : q = 0
    · rw [if_pos hq, if_neg fun h => h.2 hq, hq, h0]
    · simp only [hq, if_false, ne_eq, not_false_eq_true, and_true]
  hi := rfl
  lo := rfl
  pc := rfl
  nextPC := rfl
  loadReg := rfl
  badVAddr := rfl

/-- An arithmetic instruction does what the architecture says: it is encoded so, it traps exactly
when the exact result does not fit, and otherwise only its register changes. -/
theorem arithmetic_follows_mips (hf : m.readMem s.pc .word = .ok (value, m'))
    (hop : (Instruction.decode value).opCode ∈ arithmetic) (h0 : s.gpr 0 = 0) (hl : s.loadReg = 0) :
    Mips.Encodes (Instruction.decode value).opCode value ∧
    ((∃ s₁ m₁, oneInstruction s m = .raised .overflow s₁ m₁) ↔
      Mips.effect (Instruction.decode value).opCode value s.gpr = some .overflow) ∧
    (Mips.effect (Instruction.decode value).opCode value s.gpr = some .overflow ∧
        oneInstruction s m = .raised .overflow (s.raiseException 0) m' ∨
      ∃ r v s₁, Mips.effect (Instruction.decode value).opCode value s.gpr = some (.write r v) ∧
        oneInstruction s m = .done s₁ m' ∧ s.Writes r v s₁) := by
  have hrun := oneInstruction_of_readMem hf
  refine ⟨(Instruction.opCode_decode_iff (List.mem_append_left _ hop)).mp rfl, ?_⟩
  rcases Cpu.action_of_arithmetic (s := s) hop rfl with ⟨he, hact⟩ | ⟨r, v, he, hact⟩
  · rw [hact] at hrun
    exact ⟨iff_of_true ⟨_, _, hrun⟩ he, Or.inl ⟨he, hrun⟩⟩
  · rw [hact] at hrun
    have hdone : oneInstruction s m = .done ((s.put (some (r, v)) none).advance 0 0 (s.nextPC + 4)) m' := hrun
    refine ⟨iff_of_false ?_ (by simp [he]), Or.inr ⟨r, v, _, he, hdone, Cpu.writes_advance h0 hl r v⟩⟩
    rintro ⟨s₁, m₁, hraised⟩
    rw [hdone] at hraised
    cases hraised

/-- A page that begins with one instruction. -/
def oneWord (value : Word) : Machine :=
  ⟨fun q => value.extractLsb' (8 * q) 8, [⟨0, 0, true, false, false, false⟩]⟩

def twoRegisters (a b : Word) : Cpu :=
  { gpr := fun r => if r = 1 then a else if r = 2 then b else 0
    hi := 0, lo := 0, pc := 0, nextPC := 4, prevPC := 0, loadReg := 0, loadValue := 0, badVAddr := 0 }

/-- `add $3, $1, $2` of the largest number and 1, and `sltiu $3, $1, -1` of it. -/
theorem arithmetic_follows_mips_largest :
    (∃ s₁ m₁, oneInstruction (twoRegisters 0x7fffffff 1) (oneWord 0x00221820) = .raised .overflow s₁ m₁) ∧
    ∃ s₁ m₁, oneInstruction (twoRegisters 0x7fffffff 1) (oneWord 0x2c23ffff) = .done s₁ m₁ ∧ s₁.gpr 3 = 1 := by
  constructor
  · have h := arithmetic_follows_mips (s := twoRegisters 0x7fffffff 1) (m := oneWord 0x00221820) rfl (by decide +kernel)
      rfl rfl
    exact h.2.1.mpr (by decide +kernel)
  · have h := arithmetic_follows_mips (s := twoRegisters 0x7fffffff 1) (m := oneWord 0x2c23ffff) rfl (by decide +kernel)
      rfl rfl
    have heffect : Mips.effect (Instruction.decode 0x2c23ffff).opCode 0x2c23ffff (twoRegisters 0x7fffffff 1).gpr =
        some (.write 3 1) := by decide +kernel
    rcases h.2.2 with ⟨he, -⟩ | ⟨r, v, s₁, he, hdone, hw⟩
    · exact absurd (heffect.symm.trans he) (by decide)
    · obtain ⟨rfl, rfl⟩ := Mips.Effect.write.inj (Option.some.inj (heffect.symm.trans he))
      exact ⟨s₁, _, hdone, hw.gpr 3⟩

/-! ### Right shifts and divisions -/

/-- A division of two `int`s or two `unsigned int`s on the host. -/
structure HostDivision where
  signed : Bool
  num : Word
  den : Word

/-- The exact quotient is a value of the type. -/
def HostDivision.Defined (d : HostDivision) : Prop :=
  d.den ≠ 0 ∧
    if d.signed then -2 ^ 31 ≤ d.num.toInt.tdiv d.den.toInt ∧ d.num.toInt.tdiv d.den.toInt ≤ 2 ^ 31 - 1
    else d.num.toNat / d.den.toNat < 2 ^ 32

/-- The divisions that are made for an instruction: one for the quotient, one for the remainder. -/
def hostDivisions (s : Cpu) (i : Instruction) : List HostDivision :=
  match i.opCode with
  | .div => if s.gpr i.rt = 0 then [] else List.replicate 2 ⟨true, s.gpr i.rs, s.gpr i.rt⟩
  | .divu => if s.gpr i.rt = 0 then [] else List.replicate 2 ⟨false, s.gpr i.rs, s.gpr i.rt⟩
  | _ => []

/-- The instruction `value` ends with its effect, and each division made for it is defined. -/
def FollowsMips (s : Cpu) (m : Machine) (value : Word) : Prop :=
  (∀ d ∈ hostDivisions s (.decode value), d.Defined) ∧
    ∃ s₁ m₁, oneInstruction s m = .done s₁ m₁ ∧
      match Mips.effect (Instruction.decode value).opCode value s.gpr with
      | some (.write r v) => s₁.gpr r = if r = 0 then 0 else v
      | some (.hilo hi lo) => s₁.hi = hi ∧ s₁.lo = lo
      | _ => False

/-- A quotient of two `int`s fits, but for one pair of them. -/
theorem tdiv_fits_iff {x y : Word} (hy : y ≠ 0) :
    (-2 ^ 31 ≤ x.toInt.tdiv y.toInt ∧ x.toInt.tdiv y.toInt ≤ 2 ^ 31 - 1) ↔ ¬ (x = signBit ∧ y = -1) := by
  constructor
  · rintro h ⟨rfl, rfl⟩
    revert h
    decide
  · intro h
    have hor : x ≠ BitVec.intMin 32 ∨ y ≠ -1#32 := by
      by_contra hc
      rw [not_or, not_not, not_not] at hc
      exact h hc
    rw [← BitVec.toInt_sdiv_of_ne_or_ne x y hor]
    have := BitVec.toInt_lt (x := x.sdiv y)
    have := BitVec.le_toInt (x := x.sdiv y)
    omega

theorem ofInt_tdiv (x y : Word) : BitVec.ofInt 32 (x.toInt.tdiv y.toInt) = x.sdiv y := by
  apply BitVec.eq_of_toInt_eq
  rw [BitVec.toInt_ofInt, BitVec.toInt_sdiv]

theorem ofInt_tmod (x y : Word) : BitVec.ofInt 32 (x.toInt.tmod y.toInt) = x.srem y := by
  rw [← BitVec.toInt_srem, BitVec.ofInt_toInt]

theorem ofNat_div (x y : Word) : BitVec.ofNat 32 (x.toNat / y.toNat) = x / y := by
  rw [← BitVec.toNat_udiv, BitVec.ofNat_toNat, BitVec.setWidth_eq]

theorem ofNat_mod (x y : Word) : BitVec.ofNat 32 (x.toNat % y.toNat) = x % y := by
  rw [← BitVec.toNat_umod, BitVec.ofNat_toNat, BitVec.setWidth_eq]

/-- Where the simulator does as the architecture says. -/
structure Unexceptional (s : Cpu) (value : Word) : Prop where
  quotient : (Instruction.decode value).opCode = .div → ¬ (s.gpr (Mips.rs value) = signBit ∧ s.gpr (Mips.rt value) = -1)
  /-- No sign comes in from above, or the result is lost. -/
  sign : (Instruction.decode value).opCode = .srl ∨ (Instruction.decode value).opCode = .srlv →
    Mips.rd value = 0 ∨ Mips.rd value = s.loadReg ∨ (s.gpr (Mips.rt value)).msb = false ∨
      Mips.amount (Instruction.decode value).opCode value s.gpr = 0
  /-- No load of the same register is carried out after the shift, or it loads the same value. -/
  load : (Instruction.decode value).opCode ∈ rightShifts → Mips.rd value = 0 ∨ Mips.rd value ≠ s.loadReg ∨
    Mips.effect (Instruction.decode value).opCode value s.gpr = some (.write (Mips.rd value) s.loadValue)

theorem effect_right_shift (hop : op ∈ rightShifts) (value : Word) (gpr : Reg → Word) :
    Mips.effect op value gpr = some (.write (Mips.rd value)
      (if op = .srl ∨ op = .srlv then gpr (Mips.rt value) >>> Mips.amount op value gpr
        else (gpr (Mips.rt value)).sshiftRight (Mips.amount op value gpr))) := by
  unfold Mips.effect
  cases op
  case srl | srlv =>
    rw [if_pos (by decide), ← ofNat_div_two_pow]
  case sra | srav =>
    rw [if_neg (by decide), ← ofInt_div_two_pow]
  all_goals exact absurd hop (by decide)

theorem hostDivisions_of_shift {i : Instruction} (hop : i.opCode ∈ rightShifts) : hostDivisions s i = [] := by
  unfold hostDivisions
  generalize i.opCode = op at hop
  cases op
  case div | divu => exact absurd hop (by decide)
  all_goals rfl

/-- The register of an instruction that writes `w`, where the architecture says `v`. -/
theorem followsMips_write_iff {r : Reg} {v w : Word} (hdiv : hostDivisions s (.decode value) = [])
    (he : Mips.effect (Instruction.decode value).opCode value s.gpr = some (.write r v))
    (hrun : oneInstruction s m = perform s m' (s.assign r w)) :
    FollowsMips s m value ↔ r = 0 ∨ if r = s.loadReg then s.loadValue = v else w = v := by
  have hgpr := Cpu.gpr_assigned s r w (s.nextPC + 4) r
  have hdone : oneInstruction s m = .done ((s.put (some (r, w)) none).advance 0 0 (s.nextPC + 4)) m' := hrun
  rw [if_pos rfl] at hgpr
  have hfollows : FollowsMips s m value ↔
      ((s.put (some (r, w)) none).advance 0 0 (s.nextPC + 4)).gpr r = if r = 0 then 0 else v := by
    unfold FollowsMips
    rw [hdiv, he, hdone]
    constructor
    · rintro ⟨-, s₁, m₁, hs₁, hr⟩
      obtain ⟨rfl, rfl⟩ := Outcome.done.inj hs₁
      exact hr
    · intro hr
      exact ⟨by simp, _, _, rfl, hr⟩
  rw [hfollows, hgpr]
  by_cases h0 : r = 0
  · simp [h0]
  · rw [if_neg h0, if_neg h0, or_iff_right h0]
    split_ifs <;> rfl

theorem followsMips_hilo {hi lo : Word} (hdiv : ∀ d ∈ hostDivisions s (.decode value), d.Defined)
    (he : Mips.effect (Instruction.decode value).opCode value s.gpr = some (.hilo hi lo))
    (hrun : oneInstruction s m = perform s m' (s.setHiLo hi lo)) : FollowsMips s m value := by
  refine ⟨hdiv, _, m', hrun, ?_⟩
  rw [he]
  exact ⟨rfl, rfl⟩

/-- A division by zero gives two zeros and divides nothing; any other gives the remainder and the quotient. -/
theorem followsMips_division {signed : Bool} {hi lo : Word}
    (hrun : oneInstruction s m =
      perform s m' (if s.gpr (Mips.rt value) = 0 then s.setHiLo 0 0 else s.setHiLo hi lo))
    (heffect : Mips.effect (Instruction.decode value).opCode value s.gpr =
      if s.gpr (Mips.rt value) = 0 then some (.hilo 0 0) else some (.hilo hi lo))
    (hdivs : hostDivisions s (.decode value) = if s.gpr (Mips.rt value) = 0 then []
      else List.replicate 2 ⟨signed, s.gpr (Mips.rs value), s.gpr (Mips.rt value)⟩)
    (hfits : s.gpr (Mips.rt value) ≠ 0 →
      HostDivision.Defined ⟨signed, s.gpr (Mips.rs value), s.gpr (Mips.rt value)⟩) : FollowsMips s m value := by
  by_cases h0 : s.gpr (Mips.rt value) = 0
  · rw [if_pos h0] at hrun heffect hdivs
    exact followsMips_hilo (by simp [hdivs]) heffect hrun
  · rw [if_neg h0] at hrun heffect hdivs
    refine followsMips_hilo (fun d hd => ?_) heffect hrun
    rw [hdivs] at hd
    rw [List.eq_of_mem_replicate hd]
    exact hfits h0

/-- A right shift leaves the value of a load in progress of its register, or else the arithmetic
shift. -/
theorem followsMips_shift_iff (hf : m.readMem s.pc .word = .ok (value, m'))
    (hop : (Instruction.decode value).opCode ∈ rightShifts) : FollowsMips s m value ↔ Unexceptional s value := by
  have hrun := oneInstruction_of_readMem hf
  rw [Cpu.action_of_right_shift hop rfl] at hrun
  have heffect := effect_right_shift hop value s.gpr
  rw [followsMips_write_iff (hostDivisions_of_shift hop) heffect hrun]
  have hshift := sshiftRight_eq_iff (s.gpr (Mips.rt value)) (Mips.amount (Instruction.decode value).opCode value s.gpr)
  have hdiv : (Instruction.decode value).opCode ≠ .div := fun h => absurd hop (by rw [h]; decide)
  constructor
  · intro h
    refine ⟨fun hd => absurd hd hdiv, fun hsrl => ?_, fun _ => ?_⟩
    · rw [if_pos hsrl] at h
      by_cases hl : Mips.rd value = s.loadReg
      · exact Or.inr (Or.inl hl)
      · rw [if_neg hl, hshift] at h
        exact h.imp_right Or.inr
    · rw [heffect]
      by_cases hl : Mips.rd value = s.loadReg
      · rw [if_pos hl] at h
        exact h.imp_right fun h => Or.inr (by rw [h])
      · exact Or.inr (Or.inl hl)
  · rintro ⟨-, hsign, hload⟩
    by_cases hl : Mips.rd value = s.loadReg
    · rw [if_pos hl]
      refine (hload hop).imp_right fun h => ?_
      have hv := h.resolve_left (not_not_intro hl)
      rw [heffect] at hv
      exact (Mips.Effect.write.inj (Option.some.inj hv)).2.symm
    · rw [if_neg hl]
      by_cases hsrl : (Instruction.decode value).opCode = .srl ∨ (Instruction.decode value).opCode = .srlv
      · rw [if_pos hsrl, hshift]
        exact (hsign hsrl).imp_right fun h => h.resolve_left hl
      · rw [if_neg hsrl]
        exact Or.inr rfl

theorem unexceptional_iff_of_notMem (hop : (Instruction.decode value).opCode ∉ rightShifts) :
    Unexceptional s value ↔ ((Instruction.decode value).opCode = .div →
      ¬ (s.gpr (Mips.rs value) = signBit ∧ s.gpr (Mips.rt value) = -1)) := by
  refine ⟨fun h => h.quotient, fun h => ⟨h, fun hsrl => absurd ?_ hop, fun hshift => absurd hshift hop⟩⟩
  rcases hsrl with hsrl | hsrl <;> rw [hsrl] <;> decide

theorem followsMips_div_iff (hf : m.readMem s.pc .word = .ok (value, m'))
    (hop : (Instruction.decode value).opCode = .div) :
    FollowsMips s m value ↔ ¬ (s.gpr (Mips.rs value) = signBit ∧ s.gpr (Mips.rt value) = -1) := by
  have hrun := oneInstruction_of_readMem hf
  have hact : s.action (.decode value) = if s.gpr (Mips.rt value) = 0 then s.setHiLo 0 0
      else if s.gpr (Mips.rs value) = signBit ∧ s.gpr (Mips.rt value) = -1 then .divideError
      else s.setHiLo ((s.gpr (Mips.rs value)).srem (s.gpr (Mips.rt value)))
        ((s.gpr (Mips.rs value)).sdiv (s.gpr (Mips.rt value))) := by
    unfold Cpu.action
    rw [hop]
    rfl
  have heffect : Mips.effect (Instruction.decode value).opCode value s.gpr =
      if s.gpr (Mips.rt value) = 0 then some (.hilo 0 0)
      else some (.hilo ((s.gpr (Mips.rs value)).srem (s.gpr (Mips.rt value)))
        ((s.gpr (Mips.rs value)).sdiv (s.gpr (Mips.rt value)))) := by
    rw [hop, ← ofInt_tdiv, ← ofInt_tmod]
    rfl
  have hdivs : hostDivisions s (.decode value) = if s.gpr (Mips.rt value) = 0 then []
      else List.replicate 2 ⟨true, s.gpr (Mips.rs value), s.gpr (Mips.rt value)⟩ := by
    unfold hostDivisions
    rw [hop]
    rfl
  by_cases hmin : s.gpr (Mips.rs value) = signBit ∧ s.gpr (Mips.rt value) = -1
  · have h0 : s.gpr (Mips.rt value) ≠ 0 := hmin.2 ▸ by decide
    rw [if_neg h0, if_pos hmin] at hact
    rw [hact] at hrun
    refine iff_of_false ?_ (not_not_intro hmin)
    rintro ⟨-, s₁, m₁, hdone, -⟩
    rw [hrun] at hdone
    cases hdone
  · rw [if_neg hmin] at hact
    rw [hact] at hrun
    exact iff_of_true (followsMips_division hrun heffect hdivs fun h0 => ⟨h0, (tdiv_fits_iff h0).mpr hmin⟩) hmin

theorem followsMips_divu (hf : m.readMem s.pc .word = .ok (value, m'))
    (hop : (Instruction.decode value).opCode = .divu) : FollowsMips s m value := by
  have hrun := oneInstruction_of_readMem hf
  have hact : s.action (.decode value) = if s.gpr (Mips.rt value) = 0 then s.setHiLo 0 0
      else s.setHiLo (s.gpr (Mips.rs value) % s.gpr (Mips.rt value))
        (s.gpr (Mips.rs value) / s.gpr (Mips.rt value)) := by
    unfold Cpu.action
    rw [hop]
    rfl
  have heffect : Mips.effect (Instruction.decode value).opCode value s.gpr =
      if s.gpr (Mips.rt value) = 0 then some (.hilo 0 0)
      else some (.hilo (s.gpr (Mips.rs value) % s.gpr (Mips.rt value))
        (s.gpr (Mips.rs value) / s.gpr (Mips.rt value))) := by
    rw [hop, ← ofNat_div, ← ofNat_mod]
    rfl
  have hdivs : hostDivisions s (.decode value) = if s.gpr (Mips.rt value) = 0 then []
      else List.replicate 2 ⟨false, s.gpr (Mips.rs value), s.gpr (Mips.rt value)⟩ := by
    unfold hostDivisions
    rw [hop]
    rfl
  rw [hact] at hrun
  have hlt : (s.gpr (Mips.rs value)).toNat / (s.gpr (Mips.rt value)).toNat < 2 ^ 32 :=
    (Nat.div_le_self _ _).trans_lt (s.gpr (Mips.rs value)).isLt
  exact followsMips_division hrun heffect hdivs fun h0 => ⟨h0, hlt⟩

/-- A right shift or a division does what the architecture says, unless the sign comes in from
above, a load is carried out over the result, or the quotient does not fit. -/
theorem shiftOrDivide_follows_iff (hf : m.readMem s.pc .word = .ok (value, m'))
    (hop : (Instruction.decode value).opCode ∈ shiftOrDivide) :
    FollowsMips s m value ↔ Unexceptional s value := by
  rcases List.mem_append.mp hop with hshift | hdivide
  · exact followsMips_shift_iff hf hshift
  · rcases List.mem_pair.mp hdivide with hdiv | hdivu
    · rw [unexceptional_iff_of_notMem (by rw [hdiv]; decide), followsMips_div_iff hf hdiv]
      exact ⟨fun h _ => h, fun h => h hdiv⟩
    · rw [unexceptional_iff_of_notMem (by rw [hdivu]; decide)]
      refine iff_of_true (followsMips_divu hf hdivu) fun hdiv => ?_
      rw [hdivu] at hdiv
      cases hdiv

/-- `sra $3, $2, 1` of -8. -/
theorem shiftOrDivide_follows_sra : FollowsMips (twoRegisters 0 (-8)) (oneWord 0x00021843) 0x00021843 :=
  (shiftOrDivide_follows_iff rfl (by decide +kernel)).mpr ⟨by decide +kernel, by decide +kernel, by decide +kernel⟩

/-- `srl $3, $2, 1` of the most negative number has its sign, and `div $1, $2` of it by -1 does not
return. -/
theorem srl_keeps_sign_and_div_traps :
    Mips.effect (Instruction.decode 0x00021842).opCode 0x00021842 (twoRegisters 0 0x80000000).gpr =
      some (.write 3 0x40000000) ∧
    (∃ s₁ m₁, oneInstruction (twoRegisters 0 0x80000000) (oneWord 0x00021842) = .done s₁ m₁ ∧ s₁.gpr 3 = 0xc0000000) ∧
    ¬ FollowsMips (twoRegisters 0 0x80000000) (oneWord 0x00021842) 0x00021842 ∧
    (Instruction.decode 0x0022001a).opCode = .div ∧
    oneInstruction (twoRegisters 0x80000000 (-1)) (oneWord 0x0022001a) = .divideError ∧
    ¬ FollowsMips (twoRegisters 0x80000000 (-1)) (oneWord 0x0022001a) 0x0022001a := by
  have heffect : Mips.effect (Instruction.decode 0x00021842).opCode 0x00021842 (twoRegisters 0 0x80000000).gpr =
      some (.write 3 0x40000000) := by decide +kernel
  refine ⟨heffect, ⟨_, _, rfl, rfl⟩, ?_, by decide +kernel, rfl, ?_⟩
  · rintro ⟨-, s₁, m₁, hdone, h⟩
    rw [heffect] at h
    obtain ⟨rfl, rfl⟩ := Outcome.done.inj hdone
    exact absurd h (by decide +kernel)
  · rintro ⟨-, s₁, m₁, hdone, -⟩
    cases hdone

end Instructions

end Nachos
