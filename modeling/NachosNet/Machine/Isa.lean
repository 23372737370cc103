/-
# The instruction set

A machine of the MIPS architecture as a programmer is told of it, for all the instructions that
`machine/mipssim.cc` executes: the registers, the program counter and the address after it, and an
array of bytes. A branch is taken after the instruction that follows it. A loaded register is there
at once; what an instruction makes of a register that the instruction before it has loaded is not
defined, and neither is a jump through the register it writes.

`OneInstruction` first turns an instruction into an `Action`. What an action does to the array of
bytes (`denote`) is here compared with what the architecture says of the instruction (`execute`).

* `opOf_eq`: the tables of `mipssim.h` are those of the architecture.
* `execute_eq_denote`: all instructions are as in the architecture, but for those in `Deviates`: a
  logical shift of a negative number to the right, the division that does not fit, and a jump whose
  delay slot is the last word of a region of 256 MB.

Key definitions: `Isa.State`, `Isa.Result`, `Isa.opOf`, `Isa.execute`, `Isa.step`, `Isa.Deviates`, `Isa.denote`.
-/
import NachosNet.Basis.Words
import NachosNet.Machine.Alu
import NachosNet.Machine.Mult
import NachosNet.Machine.Unaligned

namespace Nachos

open Basis Mips

namespace Isa

/-! ### Encoding -/

/-- The opcodes. -/
def majors : List (BitVec 6 × OpCode) :=
  [(0x02, .j), (0x03, .jal), (0x04, .beq), (0x05, .bne), (0x06, .blez), (0x07, .bgtz), (0x08, .addi), (0x09, .addiu),
    (0x0a, .slti), (0x0b, .sltiu), (0x0c, .andi), (0x0d, .ori), (0x0e, .xori), (0x0f, .lui), (0x20, .lb), (0x21, .lh),
    (0x22, .lwl), (0x23, .lw), (0x24, .lbu), (0x25, .lhu), (0x26, .lwr), (0x28, .sb), (0x29, .sh), (0x2a, .swl),
    (0x2b, .sw), (0x2e, .swr)]

/-- The functions of opcode 0. -/
def functs : List (BitVec 6 × OpCode) :=
  [(0x00, .sll), (0x02, .srl), (0x03, .sra), (0x04, .sllv), (0x06, .srlv), (0x07, .srav), (0x08, .jr), (0x09, .jalr),
    (0x0c, .syscall), (0x10, .mfhi), (0x11, .mthi), (0x12, .mflo), (0x13, .mtlo), (0x18, .mult), (0x19, .multu),
    (0x1a, .div), (0x1b, .divu), (0x20, .add), (0x21, .addu), (0x22, .sub), (0x23, .subu), (0x24, .and), (0x25, .or),
    (0x26, .xor), (0x27, .nor), (0x2a, .slt), (0x2b, .sltu)]

/-- The conditions of opcode 1, which are in the field of `rt`. -/
def conditions : List (BitVec 5 × OpCode) := [(0x00, .bltz), (0x01, .bgez), (0x10, .bltzal), (0x11, .bgezal)]

def opOf (value : Word) : Option OpCode :=
  if major value = 0 then functs.lookup (funct value)
  else if major value = 1 then conditions.lookup (rt value)
  else majors.lookup (major value)

/-! ### The machine -/

structure State where
  gpr : Reg → Word
  hi : Word
  lo : Word
  pc : Word
  /-- The instruction after the one at `pc`, also where that one is a branch. -/
  next : Word
  /-- The register that the last instruction has loaded, or 0. -/
  slot : Reg
  mem : Word → Byte

inductive Result
  | next (u : State)
  /-- An exception, and the state its handler finds. -/
  | trap (which : ExceptionType) (u : State)
  /-- The architecture does not say. -/
  | undefined

/-- The two bytes at an address, in the order of the machine. -/
def halfAt (mem : Word → Byte) (a : Word) : BitVec 16 := mem (a + 1) ++ mem a

namespace State

/-- Registers are given values; register 0 stays 0. -/
def put (u : State) (dest : Option (Reg × Word)) (hilo : Option (Word × Word)) : State :=
  { u with
    gpr := dest.elim u.gpr fun d => Function.update (Function.update u.gpr d.1 d.2) 0 0
    hi := hilo.elim u.hi Prod.fst
    lo := hilo.elim u.lo Prod.snd }

/-- On to the next instruction, with `after` behind it. -/
def go (u : State) (after : Word) : State := { u with pc := u.next, next := after, slot := 0 }

def trap (u : State) (which : ExceptionType) : Result := .trap which { u with slot := 0 }

def write (u : State) (r : Reg) (v : Word) : Result := .next ((u.put (some (r, v)) none).go (u.next + 4))

def setHiLo (u : State) (hi lo : Word) : Result := .next ((u.put none (some (hi, lo))).go (u.next + 4))

def jump (u : State) (dest : Option (Reg × Word)) (after : Word) : Result := .next ((u.put dest none).go after)

/-- A branch, relative to the instruction in its delay slot. -/
def branch (u : State) (dest : Option (Reg × Word)) (value : Word) (taken : Prop) [Decidable taken] : Result :=
  u.jump dest (if taken then BitVec.ofInt 32 (u.next.toInt + 4 * (immediate value).toInt) else u.next + 4)

/-- The target of `J` and `JAL`, in the region of the delay slot. -/
def target (u : State) (value : Word) : Word := u.next.extractLsb' 28 4 ++ value.extractLsb' 0 26 ++ 0#2

def load (u : State) (t : PageTable) (addr : Word) (size : Width) (r : Reg) (v : Word) : Result :=
  match (MemAccess.read addr size).failure t with
  | some e => u.trap e
  | none => .next { (u.put (some (r, v)) none).go (u.next + 4) with slot := r }

def store (u : State) (t : PageTable) (addr : Word) (size : Width) (mem : Word → Byte) : Result :=
  match (MemAccess.write addr size 0).failure t with
  | some e => u.trap e
  | none => .next { u.go (u.next + 4) with mem := mem }

end State

/-- The aligned word around an address. -/
def aligned (a : Word) : Word := BitVec.ofNat 32 (a.toNat / 4 * 4)

/-- What the architecture says that an instruction does, with the permissions of `t`. -/
def execute (t : PageTable) (op : OpCode) (value : Word) (u : State) : Result :=
  let s := u.gpr (rs value)
  let r := u.gpr (rt value)
  let a := BitVec.ofInt 32 (s.toInt + (immediate value).toInt)
  match op with
  | .mfhi => u.write (rd value) u.hi
  | .mflo => u.write (rd value) u.lo
  | .mthi => u.setHiLo s u.lo
  | .mtlo => u.setHiLo u.hi s
  | .mult =>
    let product := BitVec.ofInt 64 (s.toInt * r.toInt)
    u.setHiLo (product.extractLsb' 32 32) (product.extractLsb' 0 32)
  | .multu =>
    let product := BitVec.ofNat 64 (s.toNat * r.toNat)
    u.setHiLo (product.extractLsb' 32 32) (product.extractLsb' 0 32)
  | .beq => u.branch none value (s = r)
  | .bne => u.branch none value (s ≠ r)
  | .blez => u.branch none value (s.toInt ≤ 0)
  | .bgtz => u.branch none value (0 < s.toInt)
  | .bltz => u.branch none value (s.toInt < 0)
  | .bgez => u.branch none value (0 ≤ s.toInt)
  | .bltzal => if rs value = 31 then .undefined else u.branch (some (31, u.next + 4)) value (s.toInt < 0)
  | .bgezal => if rs value = 31 then .undefined else u.branch (some (31, u.next + 4)) value (0 ≤ s.toInt)
  | .j => u.jump none (u.target value)
  | .jal => u.jump (some (31, u.next + 4)) (u.target value)
  | .jr => u.jump none s
  | .jalr => if rs value = rd value then .undefined else u.jump (some (rd value, u.next + 4)) s
  | .lb => u.load t a .byte (rt value) ((u.mem a).signExtend 32)
  | .lbu => u.load t a .byte (rt value) ((u.mem a).setWidth 32)
  | .lh => u.load t a .half (rt value) ((halfAt u.mem a).signExtend 32)
  | .lhu => u.load t a .half (rt value) ((halfAt u.mem a).setWidth 32)
  | .lw => u.load t a .word (rt value) (wordAt u.mem a)
  -- the bytes from the start of the word up to `a` are the high ones of the register
  | .lwl => u.load t (aligned a) .word (rt value)
      (ofBytes fun k => if 3 ≤ a.toNat % 4 + k then u.mem (a - BitVec.ofNat 32 (3 - k)) else byteOf r k)
  -- the bytes from `a` to the end of the word are the low ones
  | .lwr => u.load t (aligned a) .word (rt value)
      (ofBytes fun k => if a.toNat % 4 + k < 4 then u.mem (a + BitVec.ofNat 32 k) else byteOf r k)
  | .sb => u.store t a .byte (storeBytes u.mem a .byte r)
  | .sh => u.store t a .half (storeBytes u.mem a .half r)
  | .sw => u.store t a .word (storeBytes u.mem a .word r)
  | .swl => u.store t (aligned a) .word
      fun v => if (a - v).toNat ≤ a.toNat % 4 then byteOf r (3 - (a - v).toNat) else u.mem v
  | .swr => u.store t (aligned a) .word
      fun v => if a.toNat % 4 + (v - a).toNat < 4 then byteOf r (v - a).toNat else u.mem v
  | .syscall => u.trap .syscall
  | op =>
    match effect op value u.gpr with
    | some (.write q v) => u.write q v
    | some (.hilo hi lo) => u.setHiLo hi lo
    | some .overflow => u.trap .overflow
    | none => .undefined

/-- The general registers an instruction reads and writes, other than by a load. -/
def uses (op : OpCode) (value : Word) : List Reg :=
  let i : Instruction := ⟨op, rs value, rt value, rd value, 0⟩
  i.reads ++ i.writes

def step (t : PageTable) (u : State) : Result :=
  match (MemAccess.read u.pc .word).failure t with
  | some e => u.trap e
  | none =>
    let value := wordAt u.mem u.pc
    match opOf value with
    | none => u.trap .illegalInstr
    | some op => if u.slot ≠ 0 ∧ u.slot ∈ uses op value then .undefined else execute t op value u

/-- An instruction that the simulator does not execute as the architecture says. -/
def Exceptional (op : OpCode) (value : Word) (u : State) : Prop :=
  match op with
  | .srl | .srlv => (u.gpr (rt value)).msb = true ∧ amount op value u.gpr ≠ 0
  | .div => u.gpr (rs value) = signBit ∧ u.gpr (rt value) = -1
  | .j | .jal => (u.next + 4).extractLsb' 28 4 ≠ u.next.extractLsb' 28 4
  | _ => False

instance (op : OpCode) (value : Word) (u : State) : Decidable (Exceptional op value u) := by
  unfold Exceptional
  split <;> infer_instance

def Deviates (u : State) : Prop := ∃ op ∈ opOf (wordAt u.mem u.pc), Exceptional op (wordAt u.mem u.pc) u

instance (u : State) : Decidable (Deviates u) := inferInstanceAs (Decidable (∃ op ∈ opOf (wordAt u.mem u.pc), _))

/-! ### Decoding -/

/-- The instructions that the switch has a case of its own for. -/
def legal (op : OpCode) : Option OpCode := if op = .unimp ∨ op = .res then none else some op

theorem and_1f0000 (value : Word) : value &&& (0x1f0000 : Word) = (rt value).setWidth 32 <<< 16 := by
  have hmask : (0x1f0000 : Word) = (BitVec.allOnes 5).setWidth 32 <<< 16 := rfl
  apply BitVec.eq_of_getLsbD_eq
  intro i hi
  rw [hmask]
  simp only [BitVec.getLsbD_and, BitVec.getLsbD_shiftLeft, BitVec.getLsbD_setWidth, BitVec.getLsbD_allOnes, rt,
    BitVec.getLsbD_extractLsb']
  by_cases h16 : i < 16
  · simp [h16]
  · rw [Nat.add_sub_cancel' (Nat.le_of_not_lt h16)]
    cases value.getLsbD i <;> simp

theorem bcondOf_eq (value : Word) : conditions.lookup (rt value) = legal (Instruction.bcondOf value) := by
  unfold Instruction.bcondOf
  rw [and_1f0000]
  generalize rt value = k
  revert k
  decide +kernel

theorem majors_lookup (k : BitVec 6) (h0 : k ≠ 0) (h1 : k ≠ 1) :
    majors.lookup k = legal (opTable.getD k.toNat (.res, .ifmt)).1 := by
  revert k
  decide +kernel

theorem functs_lookup (k : BitVec 6) : functs.lookup k = legal (specialTable.getD k.toNat .res) := by
  revert k
  decide +kernel

theorem opTable_bcond_iff (k : BitVec 6) : (opTable.getD k.toNat (.res, .ifmt)).1 = .bcond ↔ k = 1 := by
  revert k
  decide +kernel

/-- A word is decoded to the instruction it is, and to no other. -/
theorem opOf_eq (value : Word) : opOf value = legal (Instruction.decode value).opCode := by
  rw [Instruction.opCode_decode_eq, opOf]
  simp only [Instruction.opTable_special_iff, opTable_bcond_iff]
  split_ifs with h0 h1
  · exact functs_lookup _
  · exact bcondOf_eq value
  · exact majors_lookup _ h0 h1

theorem opCode_decode_of_opOf {value : Word} {op : OpCode} (h : opOf value = some op) :
    (Instruction.decode value).opCode = op := by
  rw [opOf_eq, legal] at h
  split_ifs at h
  exact Option.some.inj h

theorem extra_decode (value : Word) : (Instruction.decode value).extra =
    Instruction.extraOf value (opTable.getD (major value).toNat (.res, .ifmt)).2 := by
  unfold Instruction.decode
  rw [Instruction.toNat_shiftRight_26]

/-- The instructions with an immediate. -/
def immediates : List OpCode := (majors.drop 2 ).map Prod.snd ++ conditions.map Prod.snd

def jumps : List OpCode := [.j, .jal]

theorem specialTable_notMem (k : BitVec 6) :
    specialTable.getD k.toNat .res ∉ immediates ∧ specialTable.getD k.toNat .res ∉ jumps := by
  revert k
  decide +kernel

theorem opTable_formats (k : BitVec 6) (h0 : k ≠ 0) :
    ((opTable.getD k.toNat (.res, .ifmt)).1 ∈ .bcond :: immediates → (opTable.getD k.toNat (.res, .ifmt)).2 = .ifmt) ∧
    ((opTable.getD k.toNat (.res, .ifmt)).1 ∈ jumps → (opTable.getD k.toNat (.res, .ifmt)).2 = .jfmt) := by
  revert k
  decide +kernel

theorem bcondOf_notMem_jumps (value : Word) : Instruction.bcondOf value ∉ jumps := by
  unfold Instruction.bcondOf
  dsimp only
  split_ifs <;> decide

theorem extra_of_immediates {value : Word} (h : (Instruction.decode value).opCode ∈ immediates) :
    (Instruction.decode value).extra = (immediate value).signExtend 32 := by
  rw [Instruction.opCode_decode_eq] at h
  rw [extra_decode]
  split_ifs at h with h0 h1
  · exact absurd h (specialTable_notMem _).1
  all_goals
    rw [Instruction.opTable_special_iff] at h0
    rw [(opTable_formats _ h0).1, Instruction.extraOf_ifmt]
  · exact h1 ▸ List.mem_cons_self
  · exact List.mem_cons_of_mem _ h

theorem extra_of_jumps {value : Word} (h : (Instruction.decode value).opCode ∈ jumps) :
    (Instruction.decode value).extra = (value.extractLsb' 0 26).setWidth 32 := by
  rw [Instruction.opCode_decode_eq] at h
  rw [extra_decode]
  split_ifs at h with h0 h1
  · exact absurd h (specialTable_notMem _).2
  · exact absurd h (bcondOf_notMem_jumps value)
  · rw [Instruction.opTable_special_iff] at h0
    rw [(opTable_formats _ h0).2 h]
    apply BitVec.eq_of_toNat_eq
    rw [BitVec.toNat_setWidth, BitVec.extractLsb'_toNat, Nat.shiftRight_zero]
    exact (Nat.and_two_pow_sub_one_eq_mod value.toNat 26).trans (by omega)

/-! ### What an action does to the array -/

/-- What `ReadMem` makes of the bytes. -/
def loadBytes (mem : Word → Byte) (a : Word) : Width → Word
  | .byte => (mem a).signExtend 32
  | .half => (halfAt mem a).setWidth 32
  | .word => wordAt mem a

def denote (t : PageTable) (u : State) : Action → Result
  | .compute dest hilo after => .next ((u.put dest hilo).go after)
  | .load addr size r value => u.load t addr size r (value (loadBytes u.mem addr size))
  | .store addr size value => u.store t addr size (storeBytes u.mem addr size value)
  | .modify addr value =>
    u.store t addr .word (storeBytes u.mem addr .word (value (loadBytes u.mem addr .word)))
  | .raise which _ => u.trap which
  | .divideError | .assertFalse => .undefined

/-! ### The operations -/

theorem signBit_iff (x : Word) : x &&& signBit = 0 ↔ 0 ≤ x.toInt := by
  rw [and_signBit_eq_zero, BitVec.msb_eq_toInt]
  simp

/-- A branch is relative in words. -/
theorem branch_target (next : Word) (imm : BitVec 16) :
    next + indexToAddr (imm.signExtend 32) = BitVec.ofInt 32 (next.toInt + 4 * imm.toInt) := by
  have hshift : indexToAddr (imm.signExtend 32) = 4 * imm.signExtend 32 := by
    unfold indexToAddr
    bv_omega
  rw [BitVec.ofInt_add, BitVec.ofInt_toInt, hshift, BitVec.ofInt_mul, ← toInt_immediate, BitVec.ofInt_toInt]
  rfl

theorem jump_target (next : Word) (index : BitVec 26) (h : (next + 4).extractLsb' 28 4 = next.extractLsb' 28 4) :
    ((next + 4) &&& (0xf0000000 : Word)) ||| indexToAddr (index.setWidth 32) =
      next.extractLsb' 28 4 ++ index ++ 0#2 := by
  have hmask : (0xf0000000 : Word) = (BitVec.allOnes 4).setWidth 32 <<< 28 := rfl
  rw [← h]
  generalize next + 4 = x
  apply BitVec.eq_of_getLsbD_eq
  intro i hi
  rw [hmask]
  simp only [indexToAddr, BitVec.getLsbD_or, BitVec.getLsbD_and, BitVec.getLsbD_shiftLeft, BitVec.getLsbD_setWidth,
    BitVec.getLsbD_allOnes, BitVec.getLsbD_append, BitVec.getLsbD_extractLsb', BitVec.getLsbD_zero]
  by_cases h2 : i < 2
  · simp [h2, show i < 28 by omega]
  by_cases h28 : i < 28
  · simp [h2, h28, hi, show i - 2 < 26 by omega, show i - 2 < 32 by omega]
  · simp [h2, h28, hi, show ¬ i - 2 < 26 by omega, show i - 28 < 4 by omega, show i - 28 < 32 by omega,
      show i - 2 - 26 = i - 28 by omega, show 28 + (i - 28) = i by omega,
      BitVec.getLsbD_of_ge index (i - 2) (by omega)]

/-- `LB` and `LBU`, of a byte that was read with its sign. -/
theorem narrow_byte (b : Byte) (signed : Bool) :
    Cpu.narrow 0x80 0xffffff00 signed (b.signExtend 32) = if signed then b.signExtend 32 else b.setWidth 32 := by
  revert b signed
  decide +kernel

/-- `LH` and `LHU`, of a half word that was read without a sign. -/
theorem narrow_half (h : BitVec 16) (signed : Bool) :
    Cpu.narrow 0x8000 0xffff0000 signed (h.setWidth 32) = if signed then h.signExtend 32 else h.setWidth 32 := by
  have hkeep : h.setWidth 32 &&& ~~~(0xffff0000 : Word) = h.setWidth 32 := by
    apply BitVec.eq_of_getLsbD_eq
    intro i hi
    rw [BitVec.getLsbD_and, BitVec.getLsbD_not, Instruction.getLsbD_ffff0000, BitVec.getLsbD_setWidth]
    by_cases h16 : i < 16
    · simp [hi, h16]
    · simp [hi, h16, BitVec.getLsbD_of_ge h i (Nat.le_of_not_lt h16)]
  unfold Cpu.narrow
  simp only [hkeep, Instruction.and_8000_ne_zero]
  cases signed with
  | false => simp
  | true =>
    cases hm : h.msb with
    | false => simp [BitVec.signExtend_eq_setWidth_of_msb_false hm]
    | true =>
      rw [if_pos ⟨rfl, rfl⟩, if_pos rfl]
      apply BitVec.eq_of_getLsbD_eq
      intro i hi
      rw [BitVec.getLsbD_or, Instruction.getLsbD_ffff0000, BitVec.getLsbD_setWidth, BitVec.getLsbD_signExtend, hm]
      by_cases h16 : i < 16 <;> simp [hi, h16]

theorem sub_and_three (a : Word) : a - (a &&& 3) = aligned a := by
  apply BitVec.eq_of_toNat_eq
  rw [toNat_sub_and_three, aligned, BitVec.toNat_ofNat]
  omega

theorem toNat_aligned (a : Word) : (aligned a).toNat = a.toNat - a.toNat % 4 := by
  rw [← sub_and_three, toNat_sub_and_three]

theorem lwlValue_eq (mem : Word → Byte) (a old : Word) :
    lwlValue (a &&& 3) old (wordAt mem (aligned a)) =
      ofBytes fun k => if 3 ≤ a.toNat % 4 + k then mem (a - BitVec.ofNat 32 (3 - k)) else byteOf old k := by
  have hb := toNat_and_three a
  apply eq_ofBytes
  intro k hk
  rw [byteOf_lwlValue (by omega) _ _ hk, hb]
  by_cases hkeep : k < 3 - a.toNat % 4
  · rw [if_pos hkeep, if_neg (by omega)]
  · rw [if_neg hkeep, if_pos (by omega), byteOf_wordAt _ _ (by omega)]
    congr 1
    apply BitVec.eq_of_toNat_eq
    rw [BitVec.toNat_add, BitVec.toNat_sub, toNat_aligned, BitVec.toNat_ofNat, BitVec.toNat_ofNat]
    omega

theorem lwrValue_eq (mem : Word → Byte) (a old : Word) :
    lwrValue (a &&& 3) old (wordAt mem (aligned a)) =
      ofBytes fun k => if a.toNat % 4 + k < 4 then mem (a + BitVec.ofNat 32 k) else byteOf old k := by
  have hb := toNat_and_three a
  apply eq_ofBytes
  intro k hk
  rw [byteOf_lwrValue (by omega) _ _ hk, hb]
  by_cases hin : k < 4 - a.toNat % 4
  · rw [if_pos hin, if_pos (by omega), byteOf_wordAt _ _ (by omega)]
    congr 1
    apply BitVec.eq_of_toNat_eq
    rw [BitVec.toNat_add, BitVec.toNat_add, toNat_aligned, BitVec.toNat_ofNat, BitVec.toNat_ofNat]
    omega
  · rw [if_neg hin, if_neg (by omega)]

/-- The addresses of an aligned word, from its start. -/
theorem eq_aligned_add {a v : Word} (h : (v - aligned a).toNat < 4) :
    v = aligned a + BitVec.ofNat 32 (v - aligned a).toNat ∧ v.toNat = a.toNat - a.toNat % 4 + (v - aligned a).toNat := by
  have ha := toNat_aligned a
  have hlt := a.isLt
  refine ⟨?_, ?_⟩
  · rw [BitVec.ofNat_toNat, BitVec.setWidth_eq, BitVec.add_comm, BitVec.sub_add_cancel]
  · rw [BitVec.toNat_sub, ha] at h ⊢
    omega

theorem storeBytes_swlValue (mem : Word → Byte) (a r : Word) :
    storeBytes mem (aligned a) .word (swlValue (a &&& 3) r (wordAt mem (aligned a))) =
      fun v => if (a - v).toNat ≤ a.toNat % 4 then byteOf r (3 - (a - v).toNat) else mem v := by
  have hb := toNat_and_three a
  have ha := toNat_aligned a
  funext v
  unfold storeBytes
  by_cases h : (v - aligned a).toNat < 4
  · obtain ⟨hv, hnat⟩ := eq_aligned_add h
    rw [if_pos (show _ < Width.word.bytes from h), byteOf_swlValue (by omega) _ _ h, hb, byteOf_wordAt _ _ h, ← hv]
    generalize (v - aligned a).toNat = k at h hnat
    by_cases hin : k < a.toNat % 4 + 1
    · have hsub : (a - v).toNat = a.toNat % 4 - k := by
        rw [BitVec.toNat_sub, hnat]
        omega
      rw [if_pos hin, if_pos (by omega), hsub]
      congr 1
      omega
    · rw [if_neg hin, if_neg]
      rw [BitVec.toNat_sub, hnat]
      omega
  · rw [if_neg (show ¬ _ < Width.word.bytes from h), if_neg]
    rw [BitVec.toNat_sub, ha] at h
    rw [BitVec.toNat_sub]
    omega

theorem storeBytes_swrValue (mem : Word → Byte) (a r : Word) :
    storeBytes mem (aligned a) .word (swrValue (a &&& 3) r (wordAt mem (aligned a))) =
      fun v => if a.toNat % 4 + (v - a).toNat < 4 then byteOf r (v - a).toNat else mem v := by
  have hb := toNat_and_three a
  have ha := toNat_aligned a
  funext v
  unfold storeBytes
  by_cases h : (v - aligned a).toNat < 4
  · obtain ⟨hv, hnat⟩ := eq_aligned_add h
    rw [if_pos (show _ < Width.word.bytes from h), byteOf_swrValue (by omega) _ _ h, hb, byteOf_wordAt _ _ h, ← hv]
    generalize (v - aligned a).toNat = k at h hnat
    by_cases hout : k < a.toNat % 4
    · rw [if_pos hout, if_neg]
      rw [BitVec.toNat_sub, hnat]
      omega
    · have hsub : (v - a).toNat = k - a.toNat % 4 := by
        rw [BitVec.toNat_sub, hnat]
        omega
      rw [if_neg hout, if_pos (by omega), hsub]
  · rw [if_neg (show ¬ _ < Width.word.bytes from h), if_neg]
    rw [BitVec.toNat_sub, ha] at h
    rw [BitVec.toNat_sub]
    omega

/-! ### Instructions as the architecture has them -/

/-- The registers of `c`, which has no load in progress, are those of `u`. -/
structure Views (u : State) (c : Cpu) : Prop where
  gpr : u.gpr = c.gpr
  hi : u.hi = c.hi
  lo : u.lo = c.lo
  next : u.next = c.nextPC
  pending : ∀ r, c.pendingOr r = c.gpr r

variable {t : PageTable} {u : State} {c : Cpu} {op : OpCode} {value : Word}

/-- The instructions whose effect is on registers alone. -/
theorem execute_of_effect (hop : op ∈ arithmetic ++ shiftOrDivide) : execute t op value u =
    match effect op value u.gpr with
    | some (.write q v) => u.write q v
    | some (.hilo hi lo) => u.setHiLo hi lo
    | some .overflow => u.trap .overflow
    | none => .undefined := by
  cases op <;> first | rfl | exact absurd hop (by decide)

theorem denote_assign (h : Views u c) (r : Reg) (v : Word) : denote t u (c.assign r v) = u.write r v := by
  unfold Cpu.assign denote State.write
  rw [h.next]

theorem denote_setHiLo (h : Views u c) (hi lo : Word) : denote t u (c.setHiLo hi lo) = u.setHiLo hi lo := by
  unfold Cpu.setHiLo denote State.setHiLo
  rw [h.next]

theorem denote_branch (h : Views u c) (dest : Option (Reg × Word)) (value : Word) {taken : Prop} [Decidable taken]
    {b : Bool} (hb : b = true ↔ taken) :
    denote t u (c.branch dest ((immediate value).signExtend 32) b) = u.branch dest value taken := by
  unfold Cpu.branch denote State.branch State.jump
  rw [← h.next, branch_target]
  simp only [hb]

theorem execute_arithmetic (h : Views u c) (hop : op ∈ arithmetic) (hdec : (Instruction.decode value).opCode = op) :
    execute t op value u = denote t u (c.action (.decode value)) := by
  rw [execute_of_effect (List.mem_append_left _ hop), h.gpr]
  rcases Cpu.action_of_arithmetic (s := c) hop hdec with ⟨he, ha⟩ | ⟨r, v, he, ha⟩
  · rw [he, ha]
    rfl
  · rw [he, ha, denote_assign h]

theorem execute_right_shift (h : Views u c) (hop : op ∈ rightShifts) (hdec : (Instruction.decode value).opCode = op)
    (hex : ¬ Exceptional op value u) : execute t op value u = denote t u (c.action (.decode value)) := by
  rw [execute_of_effect (List.mem_append_right _ (List.mem_append_left _ hop)), effect_right_shift hop,
    Cpu.action_of_right_shift hop hdec, denote_assign h, h.gpr]
  dsimp only
  split_ifs with hsrl
  · rw [(sshiftRight_eq_iff _ _).mpr]
    by_contra hc
    rw [not_or, Bool.not_eq_false, ← h.gpr] at hc
    rcases hsrl with rfl | rfl
    · exact hex hc
    · exact hex hc
  · rfl

theorem execute_division (h : Views u c) (hop : op = .div ∨ op = .divu) (hdec : (Instruction.decode value).opCode = op)
    (hex : ¬ Exceptional op value u) : execute t op value u = denote t u (c.action (.decode value)) := by
  have hrs : (Instruction.decode value).rs = rs value := rfl
  have hrt : (Instruction.decode value).rt = rt value := rfl
  have hmem : op ∈ arithmetic ++ shiftOrDivide := by rcases hop with rfl | rfl <;> decide
  rw [execute_of_effect hmem]
  unfold Cpu.action effect
  rcases hop with rfl | rfl
  · have hfits : ¬ (c.gpr (rs value) = signBit ∧ c.gpr (rt value) = -1) := by
      rw [← h.gpr]
      exact hex
    simp only [hdec, hrs, hrt, h.gpr, if_neg hfits, ofInt_tmod, ofInt_tdiv]
    split_ifs
    · exact (denote_setHiLo h 0 0).symm
    · exact (denote_setHiLo h _ _).symm
  · simp only [hdec, hrs, hrt, h.gpr, ofNat_mod, ofNat_div]
    split_ifs
    · exact (denote_setHiLo h 0 0).symm
    · exact (denote_setHiLo h _ _).symm

theorem extractLsb'_append (hi lo : Word) :
    (hi ++ lo : BitVec 64).extractLsb' 32 32 = hi ∧ (hi ++ lo : BitVec 64).extractLsb' 0 32 = lo :=
  ⟨BitVec.extractLsb'_append_eq_left, BitVec.extractLsb'_append_eq_right⟩

def moves : List OpCode := [.mfhi, .mflo, .mthi, .mtlo, .mult, .multu]

theorem execute_move (h : Views u c) (hop : op ∈ moves) (hdec : (Instruction.decode value).opCode = op) :
    execute t op value u = denote t u (c.action (.decode value)) := by
  have hrs : (Instruction.decode value).rs = rs value := rfl
  have hrt : (Instruction.decode value).rt = rt value := rfl
  have hrd : (Instruction.decode value).rd = rd value := rfl
  unfold Cpu.action
  simp only [hdec, hrs, hrt, hrd]
  cases op
  case mfhi | mflo =>
    rw [denote_assign h]
    simp only [execute, h.hi, h.lo]
  case mthi | mtlo =>
    rw [denote_setHiLo h]
    simp only [execute, h.hi, h.lo, h.gpr]
  case mult =>
    obtain ⟨hhi, hlo⟩ := extractLsb'_append (mult (c.gpr (rs value)) (c.gpr (rt value)) true).1
      (mult (c.gpr (rs value)) (c.gpr (rt value)) true).2
    rw [mult_signed] at hhi hlo
    rw [denote_setHiLo h, ← hhi, ← hlo]
    simp only [execute, h.gpr]
  case multu =>
    obtain ⟨hhi, hlo⟩ := extractLsb'_append (mult (c.gpr (rs value)) (c.gpr (rt value)) false).1
      (mult (c.gpr (rs value)) (c.gpr (rt value)) false).2
    rw [mult_unsigned] at hhi hlo
    rw [denote_setHiLo h, ← hhi, ← hlo]
    simp only [execute, h.gpr]
  all_goals exact absurd hop (by decide)

def branches : List OpCode := [.beq, .bne, .blez, .bgtz, .bltz, .bgez, .bltzal, .bgezal]

theorem denote_branchLink (h : Views u c) {i : Instruction} (hrs : i.rs = rs value)
    (hextra : i.extra = (immediate value).signExtend 32) (h31 : rs value ≠ 31) {negative : Bool} {taken : Prop}
    [Decidable taken] (hb : (u.gpr (rs value) &&& signBit ≠ 0 ↔ negative = true) ↔ taken) :
    denote t u (c.branchLink i negative) = u.branch (some (31, u.next + 4)) value taken := by
  unfold Cpu.branchLink
  dsimp only
  rw [hextra, hrs, Function.update_of_ne h31, ← h.next]
  apply denote_branch h
  rw [beq_iff_eq, ← hb, Bool.eq_iff_iff, decide_eq_true_eq, h.gpr]

theorem execute_branch (h : Views u c) (hop : op ∈ branches) (hdec : (Instruction.decode value).opCode = op) :
    execute t op value u = .undefined ∨ execute t op value u = denote t u (c.action (.decode value)) := by
  have hsub : ∀ op ∈ branches, op ∈ immediates := by decide
  have hextra : (Instruction.decode value).extra = (immediate value).signExtend 32 :=
    extra_of_immediates (hdec ▸ hsub op hop)
  have hrs : (Instruction.decode value).rs = rs value := rfl
  have hrt : (Instruction.decode value).rt = rt value := rfl
  have hsign := signBit_iff (u.gpr (rs value))
  generalize Instruction.decode value = i at *
  unfold Cpu.action
  simp only [hdec]
  cases op
  case beq | bne =>
    refine Or.inr (Eq.symm ?_)
    rw [hextra, hrs, hrt, ← h.gpr]
    exact denote_branch h none value decide_eq_true_iff
  case blez | bgtz =>
    refine Or.inr (Eq.symm ?_)
    rw [hextra, hrs, ← h.gpr]
    exact denote_branch h none value decide_eq_true_iff
  case bltz | bgez =>
    refine Or.inr (Eq.symm ?_)
    rw [hextra, hrs, ← h.gpr]
    exact denote_branch h none value (by rw [decide_eq_true_eq]; simp only [ne_eq, hsign, not_le])
  case bltzal | bgezal =>
    by_cases h31 : rs value = 31
    · exact Or.inl (if_pos h31)
    · refine Or.inr ((if_neg h31).trans (Eq.symm ?_))
      apply denote_branchLink h hrs hextra h31
      simp only [ne_eq, hsign, not_le, iff_true, Bool.false_eq_true, iff_false, not_lt]
  all_goals exact absurd hop (by decide)

theorem execute_jump (h : Views u c) (hop : op ∈ .jr :: .jalr :: jumps)
    (hdec : (Instruction.decode value).opCode = op) (hex : ¬ Exceptional op value u) :
    execute t op value u = .undefined ∨ execute t op value u = denote t u (c.action (.decode value)) := by
  have hextra : (Instruction.decode value).opCode ∈ jumps → _ := extra_of_jumps
  have hrs : (Instruction.decode value).rs = rs value := rfl
  have hrd : (Instruction.decode value).rd = rd value := rfl
  generalize Instruction.decode value = i at *
  unfold Cpu.action
  simp only [hdec, hrs, hrd, ← h.gpr, ← h.next]
  cases op
  case jr => exact Or.inr rfl
  case jalr =>
    by_cases heq : rs value = rd value
    · exact Or.inl (if_pos heq)
    · rw [Function.update_of_ne heq]
      exact Or.inr (if_neg heq)
  case j | jal =>
    rw [hextra (by rw [hdec]; decide), jump_target _ _ (not_not.mp hex)]
    exact Or.inr rfl
  all_goals exact absurd hop (by decide)

/-! ### Memory -/

/-- The address of an access. -/
theorem effective {i : Instruction} (hrs : i.rs = rs value) (hextra : i.extra = (immediate value).signExtend 32)
    (gpr : Reg → Word) :
    gpr i.rs + i.extra = BitVec.ofInt 32 ((gpr (rs value)).toInt + (immediate value).toInt) := by
  rw [hrs, hextra, ← toInt_immediate, ofInt_toInt_add]

/-- The check that `LH`, `LHU` and `LW` make themselves is the first of `Translate`. -/
theorem denote_checked {a mask : Word} {size : Width} (hmask : a &&& mask = 0 ↔ a.toNat % size.bytes = 0) (r : Reg)
    (value : Word → Word) :
    denote t u (if a &&& mask ≠ 0 then .raise .addressError a else .load a size r value) =
      u.load t a size r (value (loadBytes u.mem a size)) := by
  by_cases h : a &&& mask = 0
  · rw [if_neg (not_not_intro h)]
    rfl
  · have hfail : (MemAccess.read a size).failure t = some .addressError := if_pos fun hc => h (hmask.mpr hc)
    rw [if_pos h, State.load, hfail]
    rfl

theorem and_one_eq_zero (a : Word) : a &&& 1 = 0 ↔ a.toNat % Width.half.bytes = 0 := by
  rw [← BitVec.toNat_inj, BitVec.toNat_and]
  exact iff_of_eq (congrArg (· = 0) (Nat.and_two_pow_sub_one_eq_mod a.toNat 1))

theorem and_three_eq_zero (a : Word) : a &&& 3 = 0 ↔ a.toNat % Width.word.bytes = 0 := by
  rw [← BitVec.toNat_inj, toNat_and_three]
  rfl

def memoryOps : List OpCode := [.lb, .lbu, .lh, .lhu, .lw, .lwl, .lwr, .sb, .sh, .sw, .swl, .swr]

theorem execute_memory (h : Views u c) (hop : op ∈ memoryOps) (hdec : (Instruction.decode value).opCode = op) :
    execute t op value u = denote t u (c.action (.decode value)) := by
  have hsub : ∀ op ∈ memoryOps, op ∈ immediates := by decide
  have hextra : (Instruction.decode value).extra = (immediate value).signExtend 32 :=
    extra_of_immediates (hdec ▸ hsub op hop)
  have hrt : (Instruction.decode value).rt = rt value := rfl
  have haddr := effective rfl hextra u.gpr
  generalize Instruction.decode value = i at *
  unfold Cpu.action execute
  simp only [hdec, h.pending, hrt, ← h.gpr, haddr]
  generalize BitVec.ofInt 32 ((u.gpr (rs value)).toInt + (immediate value).toInt) = a
  cases op
  case lb | lbu =>
    dsimp only [denote, loadBytes]
    rw [narrow_byte]
    rfl
  case lh | lhu =>
    refine Eq.trans ?_ (denote_checked (and_one_eq_zero a) _ _).symm
    rw [loadBytes, narrow_half]
    rfl
  case lw => exact (denote_checked (and_three_eq_zero a) (rt value) id).symm
  case lwl =>
    dsimp only [denote, loadBytes]
    rw [sub_and_three, lwlValue_eq]
  case lwr =>
    dsimp only [denote, loadBytes]
    rw [sub_and_three, lwrValue_eq]
  case sb | sh | sw => rfl
  case swl =>
    dsimp only [denote, loadBytes]
    rw [sub_and_three, storeBytes_swlValue]
  case swr =>
    dsimp only [denote, loadBytes]
    rw [sub_and_three, storeBytes_swrValue]
  all_goals exact absurd hop (by decide)

/-- An instruction that the architecture defines does what its action does. -/
theorem execute_eq_denote (h : Views u c) (hop : opOf value = some op) (hex : ¬ Exceptional op value u) :
    execute t op value u = .undefined ∨ execute t op value u = denote t u (c.action (.decode value)) := by
  have hdec := opCode_decode_of_opOf hop
  have hcodes := Instruction.opCode_decode value
  rw [hdec] at hcodes
  cases op
  case add | addi | addu | addiu | sub | subu | and | andi | or | ori | xor | xori | nor | slt | slti | sltu | sltiu
    | lui | sll | sllv => exact Or.inr (execute_arithmetic h (by decide) hdec)
  case srl | srlv | sra | srav => exact Or.inr (execute_right_shift h (by decide) hdec hex)
  case div | divu => exact Or.inr (execute_division h (by decide) hdec hex)
  case mfhi | mflo | mthi | mtlo | mult | multu => exact Or.inr (execute_move h (by decide) hdec)
  case beq | bne | blez | bgtz | bltz | bgez | bltzal | bgezal => exact execute_branch h (by decide) hdec
  case j | jal | jr | jalr => exact execute_jump h (by decide) hdec hex
  case lb | lbu | lh | lhu | lw | lwl | lwr | sb | sh | sw | swl | swr =>
    exact Or.inr (execute_memory h (by decide) hdec)
  case syscall =>
    refine Or.inr ?_
    unfold Cpu.action
    rw [hdec]
    rfl
  case unimp | res =>
    rw [opOf_eq, hdec] at hop
    exact absurd hop (by decide)
  case rfe => exact absurd rfl hcodes.1
  case special => exact absurd rfl hcodes.2.1
  case bcond => exact absurd rfl hcodes.2.2

end Isa

end Nachos
