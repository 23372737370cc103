/-
# The simulated processor

`machine/mipssim.cc`: decoding and executing one instruction of a user program,
with the load delay and the branch delay of the processor. A load puts its
register and its value aside; the next `DelayedLoad` carries it out, at the end
of the next instruction or when the kernel is entered.

An instruction is first turned into an `Action`: what it does to the registers,
or which access to the memory it makes, as far as the registers alone say it.
`oneInstruction` fetches, decodes and performs it.

Key definitions: `Cpu`, `Instruction.decode`, `Cpu.action`, `oneInstruction`,
`Instruction.reads`, `Instruction.writes`, `Cpu.Hazard`, `Cpu.Settled`.

Key theorems: `Cpu.action_congr`, `perform_settled`, `perform_own`, `oneInstruction_same`.
-/
import NachosNet.Machine.Translate

namespace Nachos

abbrev Word := BitVec 32

/-- The number of a general register. -/
abbrev Reg := BitVec 5

/-- The registers: the general ones, and those after them in `registers`. -/
@[ext] structure Cpu where
  gpr : Reg → Word
  hi : Word
  lo : Word
  pc : Word
  nextPC : Word
  prevPC : Word
  loadReg : Reg
  loadValue : Word
  badVAddr : Word

inductive OpCode
  | add | addi | addiu | addu | and | andi | beq | bgez | bgezal | bgtz | blez | bltz | bltzal | bne
  | div | divu | j | jal | jalr | jr | lb | lbu | lh | lhu | lui | lw | lwl | lwr
  | mfhi | mflo | mthi | mtlo | mult | multu | nor | or | ori | rfe | sb | sh | sll | sllv
  | slt | slti | sltiu | sltu | sra | srav | srl | srlv | sub | subu | sw | swl | swr | xor | xori
  | syscall | unimp | res | special | bcond
  deriving DecidableEq, Repr

inductive Format
  | ifmt | jfmt | rfmt
  deriving DecidableEq, Repr

/-! ### Decoding -/

def opTable : List (OpCode × Format) :=
  [(.special, .rfmt), (.bcond, .ifmt), (.j, .jfmt), (.jal, .jfmt),
    (.beq, .ifmt), (.bne, .ifmt), (.blez, .ifmt), (.bgtz, .ifmt),
    (.addi, .ifmt), (.addiu, .ifmt), (.slti, .ifmt), (.sltiu, .ifmt),
    (.andi, .ifmt), (.ori, .ifmt), (.xori, .ifmt), (.lui, .ifmt),
    (.unimp, .ifmt), (.unimp, .ifmt), (.unimp, .ifmt), (.unimp, .ifmt),
    (.res, .ifmt), (.res, .ifmt), (.res, .ifmt), (.res, .ifmt),
    (.res, .ifmt), (.res, .ifmt), (.res, .ifmt), (.res, .ifmt),
    (.res, .ifmt), (.res, .ifmt), (.res, .ifmt), (.res, .ifmt),
    (.lb, .ifmt), (.lh, .ifmt), (.lwl, .ifmt), (.lw, .ifmt),
    (.lbu, .ifmt), (.lhu, .ifmt), (.lwr, .ifmt), (.res, .ifmt),
    (.sb, .ifmt), (.sh, .ifmt), (.swl, .ifmt), (.sw, .ifmt),
    (.res, .ifmt), (.res, .ifmt), (.swr, .ifmt), (.res, .ifmt),
    (.unimp, .ifmt), (.unimp, .ifmt), (.unimp, .ifmt), (.unimp, .ifmt),
    (.res, .ifmt), (.res, .ifmt), (.res, .ifmt), (.res, .ifmt),
    (.unimp, .ifmt), (.unimp, .ifmt), (.unimp, .ifmt), (.unimp, .ifmt),
    (.res, .ifmt), (.res, .ifmt), (.res, .ifmt), (.res, .ifmt)]

def specialTable : List OpCode :=
  [.sll, .res, .srl, .sra, .sllv, .res, .srlv, .srav,
    .jr, .jalr, .res, .res, .syscall, .unimp, .res, .res,
    .mfhi, .mthi, .mflo, .mtlo, .res, .res, .res, .res,
    .mult, .multu, .div, .divu, .res, .res, .res, .res,
    .add, .addu, .sub, .subu, .and, .or, .xor, .nor,
    .res, .res, .slt, .sltu, .res, .res, .res, .res,
    .res, .res, .res, .res, .res, .res, .res, .res,
    .res, .res, .res, .res, .res, .res, .res, .res]

structure Instruction where
  opCode : OpCode
  rs : Reg
  rt : Reg
  rd : Reg
  extra : Word
  deriving DecidableEq, Repr

namespace Instruction

/-- The immediate, the shift amount or the jump target. -/
def extraOf (value : Word) : Format → Word
  | .ifmt =>
    let extra := value &&& 0xffff
    if extra &&& 0x8000 ≠ 0 then extra ||| 0xffff0000 else extra
  | .rfmt => (value >>> 6) &&& 0x1f
  | .jfmt => value &&& 0x3ffffff

/-- The branches that are told apart by the field of `rt`. -/
def bcondOf (value : Word) : OpCode :=
  let i := value &&& 0x1f0000
  if i = 0 then .bltz
  else if i = 0x10000 then .bgez
  else if i = 0x100000 then .bltzal
  else if i = 0x110000 then .bgezal
  else .unimp

def decode (value : Word) : Instruction :=
  let op := opTable.getD (value >>> 26).toNat (.res, .ifmt)
  { rs := value.extractLsb' 21 5, rt := value.extractLsb' 16 5, rd := value.extractLsb' 11 5
    extra := extraOf value op.2
    opCode := if op.1 = .special then specialTable.getD (value &&& 0x3f).toNat .res
      else if op.1 = .bcond then bcondOf value
      else op.1 }

/-- The general registers an instruction reads. What `LWL` and `LWR` keep of
`rt` they take from a load of `rt` in progress, so that is not counted. -/
def reads (i : Instruction) : List Reg :=
  match i.opCode with
  | .add | .addu | .and | .beq | .bne | .div | .divu | .mult | .multu | .nor | .or | .sb | .sh | .sllv
  | .slt | .sltu | .srav | .srlv | .sub | .subu | .sw | .swl | .swr | .xor => [i.rs, i.rt]
  | .addi | .addiu | .andi | .bgez | .bgezal | .bgtz | .blez | .bltz | .bltzal | .jalr | .jr
  | .lb | .lbu | .lh | .lhu | .lw | .lwl | .lwr | .mthi | .mtlo | .ori | .slti | .sltiu | .xori => [i.rs]
  | .sll | .sra | .srl => [i.rt]
  | .j | .jal | .lui | .mfhi | .mflo | .rfe | .syscall | .unimp | .res | .special | .bcond => []

/-- The general register an instruction writes, other than by a load. -/
def writes (i : Instruction) : List Reg :=
  match i.opCode with
  | .add | .addu | .and | .jalr | .mfhi | .mflo | .nor | .or | .sll | .sllv | .slt | .sltu | .sra | .srav
  | .srl | .srlv | .sub | .subu | .xor => [i.rd]
  | .addi | .addiu | .andi | .lui | .ori | .slti | .sltiu | .xori => [i.rt]
  | .bgezal | .bltzal | .jal => [31]
  | _ => []

theorem opCode_decode (value : Word) :
    (decode value).opCode ≠ .rfe ∧ (decode value).opCode ≠ .special ∧ (decode value).opCode ≠ .bcond := by
  have hop : ∀ p ∈ opTable ++ [(.res, .ifmt)], p.1 ≠ OpCode.rfe := by decide
  have hspecial : ∀ op ∈ specialTable ++ [.res], op ≠ OpCode.rfe ∧ op ≠ .special ∧ op ≠ .bcond := by decide
  have hbcond : bcondOf value ≠ .rfe ∧ bcondOf value ≠ .special ∧ bcondOf value ≠ .bcond := by
    unfold bcondOf
    dsimp only
    split_ifs <;> decide
  have hgetD : ∀ {α : Type} (l : List α) (n : ℕ) (d : α), l.getD n d ∈ l ++ [d] := by
    intro α l n d
    rw [List.getD_eq_getElem?_getD]
    cases hn : l[n]? with
    | none => exact List.mem_append_right l (List.mem_singleton_self d)
    | some x => exact List.mem_append_left [d] (List.mem_of_getElem? hn)
  unfold decode
  dsimp only
  split_ifs with h h'
  · exact hspecial _ (hgetD specialTable _ _)
  · exact hbcond
  · exact ⟨hop _ (hgetD opTable _ _), h, h'⟩

end Instruction

/-! ### Multiplication -/

/-- The main loop of `Mult`, with `n` rounds to go; `a` is shifted with its sign. -/
def multLoop : ℕ → (a bHi bLo hi lo : Word) → Word × Word
  | 0, _, _, _, hi, lo => (hi, lo)
  | n + 1, a, bHi, bLo, hi, lo =>
    let next := multLoop n (a.sshiftRight 1) ((bHi <<< 1) ||| if bLo &&& 0x80000000 ≠ 0 then 1 else 0) (bLo <<< 1)
    if a &&& 1 ≠ 0 then
      let lo := lo + bLo
      let hi := (if lo < bLo then hi + 1 else hi) + bHi
      if a &&& 0xfffffffe = 0 then (hi, lo) else next hi lo
    else next hi lo

/-- `Mult`: the high and the low word of the product. -/
def mult (a b : Word) (signedArith : Bool) : Word × Word :=
  if a = 0 ∨ b = 0 then (0, 0)
  else
    let negative := signedArith && ((a.toInt < 0) != (b.toInt < 0))
    let a := if signedArith && a.toInt < 0 then -a else a
    let b := if signedArith && b.toInt < 0 then -b else b
    let (hi, lo) := multLoop 32 a 0 b 0 0
    if negative then
      let lo := ~~~lo + 1
      (if lo = 0 then ~~~hi + 1 else ~~~hi, lo)
    else (hi, lo)

/-! ### What an instruction does -/

def indexToAddr (x : Word) : Word := x <<< 2

def signBit : Word := 0x80000000

inductive Action
  /-- Registers are written, and `pcAfter` is the instruction after the next. -/
  | compute (dest : Option (Reg × Word)) (hilo : Option (Word × Word)) (pcAfter : Word)
  /-- Memory is read; the load of `reg` with a value made of it is delayed. -/
  | load (addr : Word) (size : Width) (reg : Reg) (value : Word → Word)
  | store (addr : Word) (size : Width) (value : Word)
  /-- A word is read and written again (`SWL`, `SWR`). -/
  | modify (addr : Word) (value : Word → Word)
  | raise (which : ExceptionType) (badVAddr : Word)
  /-- The host's division does not return. -/
  | divideError
  /-- `ASSERT(FALSE)`. -/
  | assertFalse

/-- What `LWL` makes of the register's value `old` and the word in memory. -/
def lwlValue (byte old value : Word) : Word :=
  match (3 - byte).toNat with
  | 0 => value
  | 1 => (old &&& 0xff) ||| (value <<< 8)
  | 2 => (old &&& 0xffff) ||| (value <<< 16)
  | _ => (old &&& 0xffffff) ||| (value <<< 24)

def lwrValue (byte old value : Word) : Word :=
  match (3 - byte).toNat with
  | 0 => (old &&& 0xffffff00) ||| ((value.sshiftRight 24) &&& 0xff)
  | 1 => (old &&& 0xffff0000) ||| ((value.sshiftRight 16) &&& 0xffff)
  | 2 => (old &&& 0xff000000) ||| ((value.sshiftRight 8) &&& 0xffffff)
  | _ => value

/-- What `SWL` makes of the word in memory. -/
def swlValue (byte rt value : Word) : Word :=
  match (3 - byte).toNat with
  | 0 => rt
  | 1 => (value &&& 0xff000000) ||| ((rt.sshiftRight 8) &&& 0xffffff)
  | 2 => (value &&& 0xffff0000) ||| ((rt.sshiftRight 16) &&& 0xffff)
  | _ => (value &&& 0xffffff00) ||| ((rt.sshiftRight 24) &&& 0xff)

def swrValue (byte rt value : Word) : Word :=
  match (3 - byte).toNat with
  | 0 => (value &&& 0xffffff) ||| (rt <<< 24)
  | 1 => (value &&& 0xffff) ||| (rt <<< 16)
  | 2 => (value &&& 0xff) ||| (rt <<< 8)
  | _ => rt

namespace Cpu

/-- The value `LWL` and `LWR` start from: of a load in progress, or in the register. -/
def pendingOr (s : Cpu) (r : Reg) : Word := if s.loadReg = r then s.loadValue else s.gpr r

/-- `registers[r] = v`. -/
def assign (s : Cpu) (r : Reg) (v : Word) : Action := .compute (some (r, v)) none (s.nextPC + 4)

def setHiLo (s : Cpu) (hi lo : Word) : Action := .compute none (some (hi, lo)) (s.nextPC + 4)

/-- A branch to `extra` if `taken`. -/
def branch (s : Cpu) (dest : Option (Reg × Word)) (extra : Word) (taken : Bool) : Action :=
  .compute dest none (if taken then s.nextPC + indexToAddr extra else s.nextPC + 4)

/-- A branch on the sign of a register, after `R31` has been set. -/
def branchLink (s : Cpu) (i : Instruction) (negative : Bool) : Action :=
  let link := s.nextPC + 4
  s.branch (some (31, link)) i.extra ((Function.update s.gpr 31 link i.rs &&& signBit ≠ 0) == negative)

/-- A load of a byte or half word: the bits of `high` are set if the sign is
kept and set, and cleared if not. -/
def narrow (sign high : Word) (signed : Bool) (value : Word) : Word :=
  if value &&& sign ≠ 0 ∧ signed = true then value ||| high else value &&& ~~~high

/-- The cases of `OneInstruction`. -/
def action (i : Instruction) (s : Cpu) : Action :=
  let rs := s.gpr i.rs
  let rt := s.gpr i.rt
  let tmp := rs + i.extra
  let byte := tmp &&& 3
  match i.opCode with
  | .add =>
    let sum := rs + rt
    if (rs ^^^ rt) &&& signBit = 0 ∧ (rs ^^^ sum) &&& signBit ≠ 0 then .raise .overflow 0 else s.assign i.rd sum
  | .addi =>
    let sum := rs + i.extra
    if (rs ^^^ i.extra) &&& signBit = 0 ∧ (i.extra ^^^ sum) &&& signBit ≠ 0 then .raise .overflow 0
    else s.assign i.rt sum
  | .addiu => s.assign i.rt (rs + i.extra)
  | .addu => s.assign i.rd (rs + rt)
  | .and => s.assign i.rd (rs &&& rt)
  | .andi => s.assign i.rt (rs &&& (i.extra &&& 0xffff))
  | .beq => s.branch none i.extra (rs = rt)
  | .bgezal => s.branchLink i false
  | .bgez => s.branch none i.extra (rs &&& signBit = 0)
  | .bgtz => s.branch none i.extra (0 < rs.toInt)
  | .blez => s.branch none i.extra (rs.toInt ≤ 0)
  | .bltzal => s.branchLink i true
  | .bltz => s.branch none i.extra (rs &&& signBit ≠ 0)
  | .bne => s.branch none i.extra (rs ≠ rt)
  | .div =>
    if rt = 0 then s.setHiLo 0 0
    else if rs = signBit ∧ rt = -1 then .divideError
    else s.setHiLo (rs.srem rt) (rs.sdiv rt)
  | .divu => if rt = 0 then s.setHiLo 0 0 else s.setHiLo (rs % rt) (rs / rt)
  | .jal => .compute (some (31, s.nextPC + 4)) none (((s.nextPC + 4) &&& 0xf0000000) ||| indexToAddr i.extra)
  | .j => .compute none none (((s.nextPC + 4) &&& 0xf0000000) ||| indexToAddr i.extra)
  | .jalr => .compute (some (i.rd, s.nextPC + 4)) none (Function.update s.gpr i.rd (s.nextPC + 4) i.rs)
  | .jr => .compute none none rs
  | .lb => .load tmp .byte i.rt (narrow 0x80 0xffffff00 true)
  | .lbu => .load tmp .byte i.rt (narrow 0x80 0xffffff00 false)
  | .lh => if tmp &&& 1 ≠ 0 then .raise .addressError tmp else .load tmp .half i.rt (narrow 0x8000 0xffff0000 true)
  | .lhu => if tmp &&& 1 ≠ 0 then .raise .addressError tmp else .load tmp .half i.rt (narrow 0x8000 0xffff0000 false)
  | .lui => s.assign i.rt (i.extra <<< 16)
  | .lw => if tmp &&& 3 ≠ 0 then .raise .addressError tmp else .load tmp .word i.rt id
  | .lwl => .load (tmp - byte) .word i.rt (lwlValue byte (s.pendingOr i.rt))
  | .lwr => .load (tmp - byte) .word i.rt (lwrValue byte (s.pendingOr i.rt))
  | .mfhi => s.assign i.rd s.hi
  | .mflo => s.assign i.rd s.lo
  | .mthi => s.setHiLo rs s.lo
  | .mtlo => s.setHiLo s.hi rs
  | .mult => s.setHiLo (mult rs rt true).1 (mult rs rt true).2
  | .multu => s.setHiLo (mult rs rt false).1 (mult rs rt false).2
  | .nor => s.assign i.rd (~~~(rs ||| rt))
  | .or => s.assign i.rd (rs ||| rt)
  | .ori => s.assign i.rt (rs ||| (i.extra &&& 0xffff))
  | .sb => .store tmp .byte rt
  | .sh => .store tmp .half rt
  | .sll => s.assign i.rd (rt <<< i.extra)
  | .sllv => s.assign i.rd (rt <<< (rs &&& 0x1f))
  | .slt => s.assign i.rd (if rs.toInt < rt.toInt then 1 else 0)
  | .slti => s.assign i.rt (if rs.toInt < i.extra.toInt then 1 else 0)
  | .sltiu => s.assign i.rt (if rs < i.extra then 1 else 0)
  | .sltu => s.assign i.rd (if rs < rt then 1 else 0)
  | .sra => s.assign i.rd (rt.sshiftRight i.extra.toNat)
  | .srav => s.assign i.rd (rt.sshiftRight (rs &&& 0x1f).toNat)
  -- `tmp` is a signed `int` in both of these
  | .srl => s.assign i.rd (rt.sshiftRight i.extra.toNat)
  | .srlv => s.assign i.rd (rt.sshiftRight (rs &&& 0x1f).toNat)
  | .sub =>
    let diff := rs - rt
    if (rs ^^^ rt) &&& signBit ≠ 0 ∧ (rs ^^^ diff) &&& signBit ≠ 0 then .raise .overflow 0 else s.assign i.rd diff
  | .subu => s.assign i.rd (rs - rt)
  | .sw => .store tmp .word rt
  | .swl => .modify (tmp - byte) (swlValue byte rt)
  | .swr => .modify (tmp - byte) (swrValue byte rt)
  | .syscall => .raise .syscall 0
  | .xor => s.assign i.rd (rs ^^^ rt)
  | .xori => s.assign i.rt (rs ^^^ (i.extra &&& 0xffff))
  | .res => .raise .illegalInstr 0
  | .unimp => .raise .illegalInstr 0
  | .rfe => .assertFalse
  | .special => .assertFalse
  | .bcond => .assertFalse

def delayedLoad (s : Cpu) (nextReg : Reg) (nextValue : Word) : Cpu :=
  { s with
    gpr := Function.update (Function.update s.gpr s.loadReg s.loadValue) 0 0
    loadReg := nextReg
    loadValue := nextValue }

/-- `RaiseException`, up to the call of the handler. -/
def raiseException (s : Cpu) (badVAddr : Word) : Cpu := { s with badVAddr := badVAddr }.delayedLoad 0 0

/-- The registers an instruction writes at once. -/
def put (s : Cpu) (dest : Option (Reg × Word)) (hilo : Option (Word × Word)) : Cpu :=
  { s with
    gpr := dest.elim s.gpr fun d => Function.update s.gpr d.1 d.2
    hi := hilo.elim s.hi Prod.fst
    lo := hilo.elim s.lo Prod.snd }

/-- The end of `OneInstruction`: the delayed load and the program counters. -/
def advance (s : Cpu) (nextReg : Reg) (nextValue pcAfter : Word) : Cpu :=
  { s.delayedLoad nextReg nextValue with prevPC := s.pc, pc := s.nextPC, nextPC := pcAfter }

end Cpu

/-- How an instruction ends: it is executed, or the handler of an exception is
entered, with the state it is entered in. -/
inductive Outcome
  | done (s : Cpu) (m : Machine)
  | raised (which : ExceptionType) (s : Cpu) (m : Machine)
  | divideError
  | assertFalse

/-- An action on the machine. -/
def perform (s : Cpu) (m : Machine) : Action → Outcome
  | .compute dest hilo pcAfter => .done ((s.put dest hilo).advance 0 0 pcAfter) m
  | .load addr size reg value =>
    match m.readMem addr size with
    | .error which => .raised which (s.raiseException addr) m
    | .ok (v, m) => .done (s.advance reg (value v) (s.nextPC + 4)) m
  | .store addr size value =>
    match m.writeMem addr size value with
    | .error which => .raised which (s.raiseException addr) m
    | .ok m => .done (s.advance 0 0 (s.nextPC + 4)) m
  | .modify addr value =>
    match m.readMem addr .word with
    | .error which => .raised which (s.raiseException addr) m
    | .ok (v, m) =>
      match m.writeMem addr .word (value v) with
      | .error which => .raised which (s.raiseException addr) m
      | .ok m => .done (s.advance 0 0 (s.nextPC + 4)) m
  | .raise which badVAddr => .raised which (s.raiseException badVAddr) m
  | .divideError => .divideError
  | .assertFalse => .assertFalse

def oneInstruction (s : Cpu) (m : Machine) : Outcome :=
  match m.readMem s.pc .word with
  | .error which => .raised which (s.raiseException s.pc) m
  | .ok (raw, m) => perform s m (s.action (.decode raw))

theorem oneInstruction_of_readMem {s : Cpu} {m m' : Machine} {raw : Word}
    (hf : m.readMem s.pc .word = .ok (raw, m')) : oneInstruction s m = perform s m' (s.action (.decode raw)) := by
  unfold oneInstruction
  rw [hf]

/-! ### What an action depends on -/

namespace Cpu

variable {i : Instruction} {s s' : Cpu}

theorem action_congr (hr : ∀ r ∈ i.reads, s'.gpr r = s.gpr r) (hhi : s'.hi = s.hi) (hlo : s'.lo = s.lo)
    (hpc : s'.nextPC = s.nextPC)
    (hp : i.opCode = .lwl ∨ i.opCode = .lwr → s'.pendingOr i.rt = s.pendingOr i.rt) :
    s'.action i = s.action i := by
  obtain ⟨op, rs, rt, rd, extra⟩ := i
  cases op <;>
    simp only [Instruction.reads, List.forall_mem_cons, List.not_mem_nil, false_imp_iff, implies_true, and_true] at hr <;>
    simp [action, assign, setHiLo, branch, branchLink, Function.update_apply, hr, hhi, hlo, hpc, hp]

/-- What the action of an instruction can be: it writes one of the instruction's registers, the
host's division fails only where the quotient does not fit, and the assertion is only
behind three codes. -/
def Possible (s : Cpu) (i : Instruction) : Action → Prop
  | .compute (some d) _ _ => d.1 ∈ i.writes
  | .divideError => i.opCode = .div ∧ s.gpr i.rs = signBit ∧ s.gpr i.rt = -1
  | .assertFalse => i.opCode = .rfe ∨ i.opCode = .special ∨ i.opCode = .bcond
  | _ => True

theorem possible_action (s : Cpu) (i : Instruction) : s.Possible i (s.action i) := by
  obtain ⟨op, rs, rt, rd, extra⟩ := i
  cases op
  case add | addi | sub =>
    dsimp only [action]
    split
    · trivial
    · exact List.mem_singleton_self _
  case addiu | addu | and | andi | bgezal | bltzal | jal | jalr | lui | mfhi | mflo | nor | or | ori | sll | sllv | slt
    | slti | sltiu | sltu | sra | srav | srl | srlv | subu | xor | xori =>
    exact List.mem_singleton_self _
  case div =>
    dsimp only [action]
    split
    · trivial
    · split
      · rename_i hmin
        exact ⟨rfl, hmin⟩
      · trivial
  case divu | lh | lhu | lw =>
    dsimp only [action]
    split <;> trivial
  case rfe => exact Or.inl rfl
  case special => exact Or.inr (Or.inl rfl)
  case bcond => exact Or.inr (Or.inr rfl)
  all_goals trivial

theorem action_dest {r : Reg} {v pcAfter : Word} {hilo : Option (Word × Word)}
    (h : s.action i = .compute (some (r, v)) hilo pcAfter) : r ∈ i.writes := by
  have hp := possible_action s i
  rwa [h] at hp

theorem action_ne_assertFalse (h : i.opCode ≠ .rfe ∧ i.opCode ≠ .special ∧ i.opCode ≠ .bcond) :
    s.action i ≠ .assertFalse := by
  intro ha
  have hp := possible_action s i
  rw [ha] at hp
  rcases hp with hp | hp | hp
  · exact h.1 hp
  · exact h.2.1 hp
  · exact h.2.2 hp

theorem action_divideError (h : s.action i = .divideError) :
    i.opCode = .div ∧ s.gpr i.rs = signBit ∧ s.gpr i.rt = -1 := by
  have hp := possible_action s i
  rwa [h] at hp

/-! ### The load delay -/

/-- The instruction uses the register of the load in progress. -/
def Hazard (s : Cpu) (i : Instruction) : Prop := s.loadReg ≠ 0 ∧ (s.loadReg ∈ i.reads ∨ s.loadReg ∈ i.writes)

instance (s : Cpu) (i : Instruction) : Decidable (s.Hazard i) := inferInstanceAs (Decidable (_ ∧ _))

/-- `s'` is `s`, perhaps with the load in progress carried out already. A load of
register 0 is as good as none. -/
def Settled (s s' : Cpu) : Prop := s' = s ∨ s'.loadReg = 0 ∧ s'.delayedLoad 0 0 = s.delayedLoad 0 0

theorem Settled.delayedLoad_eq (h : Settled s s') : s'.delayedLoad 0 0 = s.delayedLoad 0 0 := by
  rcases h with rfl | ⟨-, h⟩
  · rfl
  · exact h

theorem gpr_delayedLoad (s : Cpu) (r : Reg) (v : Word) (q : Reg) :
    (s.delayedLoad r v).gpr q = if q = 0 then 0 else if q = s.loadReg then s.loadValue else s.gpr q := by
  simp [delayedLoad, Function.update_apply]

theorem delayedLoad_delayedLoad (s : Cpu) : (s.delayedLoad 0 0).delayedLoad 0 0 = s.delayedLoad 0 0 := by
  simp [delayedLoad]

theorem Settled.interrupt (h : Settled s s') : Settled s (s'.delayedLoad 0 0) :=
  Or.inr ⟨rfl, (delayedLoad_delayedLoad s').trans h.delayedLoad_eq⟩

theorem gpr_of_settled (h0 : s'.gpr 0 = 0) (hl : s'.loadReg = 0) (h : s'.delayedLoad 0 0 = s.delayedLoad 0 0)
    (q : Reg) : s'.gpr q = if q = 0 then 0 else if q = s.loadReg then s.loadValue else s.gpr q := by
  rw [← gpr_delayedLoad s 0 0, ← h, gpr_delayedLoad, hl]
  split
  · rename_i hq
    rw [hq, h0]
  · rfl

/-- A write of a register other than the one to be loaded and the load can be
made in either order. -/
theorem advance_put_of_settled (h0 : s'.gpr 0 = 0) (hl : s'.loadReg = 0)
    (h : s'.delayedLoad 0 0 = s.delayedLoad 0 0) {dest : Option (Reg × Word)}
    (hd : ∀ d ∈ dest, s.loadReg ≠ 0 → s.loadReg ≠ d.1) (hilo : Option (Word × Word)) (r : Reg) (v pcAfter : Word) :
    (s'.put dest hilo).advance r v pcAfter = (s.put dest hilo).advance r v pcAfter := by
  have hg := gpr_of_settled h0 hl h
  simp only [delayedLoad, Cpu.mk.injEq] at h
  obtain ⟨-, hhi, hlo, hpc, hnext, hprev, -, -, hbad⟩ := h
  apply Cpu.ext
  · funext q
    have hq := hg q
    simp only [advance, delayedLoad, put, Function.update_apply, hl]
    by_cases h0 : q = 0
    · rw [if_pos h0, if_pos h0]
    rw [if_neg h0, if_neg h0, if_neg h0]
    rw [if_neg h0] at hq
    cases dest with
    | none => exact hq
    | some d =>
      have hne := hd d rfl
      simp only [Option.elim_some, Function.update_apply]
      by_cases hqd : q = d.1
      · have hql : q ≠ s.loadReg := fun hql => hne (hql ▸ h0) (hql.symm.trans hqd)
        rw [if_pos hqd, if_pos hqd, if_neg hql]
      · rw [if_neg hqd, if_neg hqd, hq]
  all_goals simp [advance, delayedLoad, put, hhi, hlo, hpc, hnext, hbad]

/-- Carrying out a load early changes what an instruction does at most in the
value of a load of register 0. -/
theorem action_of_settled (h0 : s.gpr 0 = 0) (h0' : s'.gpr 0 = 0) (hl : s'.loadReg = 0)
    (h : s'.delayedLoad 0 0 = s.delayedLoad 0 0) (hz : ¬ s.Hazard i) :
    s'.action i = s.action i ∨ ∃ addr value value', s.action i = .load addr .word 0 value ∧
      s'.action i = .load addr .word 0 value' := by
  have hg := gpr_of_settled h0' hl h
  have hr : ∀ r ∈ i.reads, s'.gpr r = s.gpr r := by
    intro r hr
    have hne : s.loadReg = 0 ∨ r ≠ s.loadReg := by
      by_contra hc
      rw [not_or, not_not] at hc
      exact hz ⟨hc.1, Or.inl (hc.2 ▸ hr)⟩
    rw [hg r]
    grind
  simp only [delayedLoad, Cpu.mk.injEq] at h
  obtain ⟨-, hhi, hlo, -, hnext, -⟩ := h
  by_cases hlw : (i.opCode = .lwl ∨ i.opCode = .lwr) ∧ i.rt = 0
  · -- the value of a load of register 0 may be another one
    have hrs : s'.gpr i.rs = s.gpr i.rs := hr i.rs (by rcases hlw.1 with ho | ho <;> simp [Instruction.reads, ho])
    refine Or.inr ?_
    rcases hlw with ⟨ho | ho, h0⟩ <;> simp [action, ho, h0, hrs]
  · refine Or.inl (action_congr hr hhi hlo hnext fun ho => ?_)
    have hrt : i.rt ≠ 0 := fun hrt => hlw ⟨ho, hrt⟩
    simp only [pendingOr, hl, hg i.rt, hrt, if_false, Ne.symm hrt, eq_comm]

theorem gpr_zero_advance (s : Cpu) (r : Reg) (v pcAfter : Word) : (s.advance r v pcAfter).gpr 0 = 0 := by
  simp [advance, delayedLoad]

end Cpu

theorem perform_done {s s₁ : Cpu} {m m₁ : Machine} {a : Action} (h : perform s m a = .done s₁ m₁) :
    (∃ dest hilo pcAfter, a = .compute dest hilo pcAfter ∧ s₁ = (s.put dest hilo).advance 0 0 pcAfter ∧ m₁ = m) ∨
    (∃ addr size reg value v, a = .load addr size reg value ∧ m.readMem addr size = .ok (v, m₁) ∧
      s₁ = s.advance reg (value v) (s.nextPC + 4)) ∨
    (∃ addr size value, a = .store addr size value ∧ m.writeMem addr size value = .ok m₁ ∧
      s₁ = s.advance 0 0 (s.nextPC + 4)) ∨
    (∃ addr value v m', a = .modify addr value ∧ m.readMem addr .word = .ok (v, m') ∧
      m'.writeMem addr .word (value v) = .ok m₁ ∧ s₁ = s.advance 0 0 (s.nextPC + 4)) := by
  cases a with
  | compute dest hilo pcAfter =>
    obtain ⟨rfl, rfl⟩ := Outcome.done.inj h
    exact Or.inl ⟨dest, hilo, pcAfter, rfl, rfl, rfl⟩
  | load addr size reg value =>
    simp only [perform] at h
    split at h
    · simp at h
    · rename_i v m' hv
      obtain ⟨rfl, rfl⟩ := Outcome.done.inj h
      exact Or.inr (Or.inl ⟨addr, size, reg, value, v, rfl, hv, rfl⟩)
  | store addr size value =>
    simp only [perform] at h
    split at h
    · simp at h
    · rename_i m' hv
      obtain ⟨rfl, rfl⟩ := Outcome.done.inj h
      exact Or.inr (Or.inr (Or.inl ⟨addr, size, value, rfl, hv, rfl⟩))
  | modify addr value =>
    simp only [perform] at h
    split at h
    · simp at h
    · rename_i v m' hv
      split at h
      · simp at h
      · rename_i m'' hw
        obtain ⟨rfl, rfl⟩ := Outcome.done.inj h
        exact Or.inr (Or.inr (Or.inr ⟨addr, value, v, m', rfl, hv, hw, rfl⟩))
  | raise which badVAddr => simp [perform] at h
  | divideError => simp [perform] at h
  | assertFalse => simp [perform] at h

theorem perform_raised {s s₁ : Cpu} {m m₁ : Machine} {a : Action} {which : ExceptionType}
    (h : perform s m a = .raised which s₁ m₁) :
    ∃ badVAddr, s₁ = s.raiseException badVAddr ∧ m₁.mainMemory = m.mainMemory := by
  cases a with
  | compute dest hilo pcAfter => simp [perform] at h
  | load addr size reg value =>
    simp only [perform] at h
    split at h
    · obtain ⟨-, rfl, rfl⟩ := Outcome.raised.inj h
      exact ⟨addr, rfl, rfl⟩
    · simp at h
  | store addr size value =>
    simp only [perform] at h
    split at h
    · obtain ⟨-, rfl, rfl⟩ := Outcome.raised.inj h
      exact ⟨addr, rfl, rfl⟩
    · simp at h
  | modify addr value =>
    simp only [perform] at h
    split at h
    · obtain ⟨-, rfl, rfl⟩ := Outcome.raised.inj h
      exact ⟨addr, rfl, rfl⟩
    · rename_i v m' hv
      split at h
      · obtain ⟨-, rfl, rfl⟩ := Outcome.raised.inj h
        exact ⟨addr, rfl, Machine.memory_readMem hv⟩
      · simp at h
  | raise which badVAddr =>
    obtain ⟨-, rfl, rfl⟩ := Outcome.raised.inj h
    exact ⟨badVAddr, rfl, rfl⟩
  | divideError => simp [perform] at h
  | assertFalse => simp [perform] at h

/-- An instruction whose action is carried out ends in an error of the host only when that is
its action. -/
theorem perform_eq_error {s : Cpu} {m : Machine} {a : Action} :
    (perform s m a = .divideError → a = .divideError) ∧ (perform s m a = .assertFalse → a = .assertFalse) := by
  cases a with
  | compute dest hilo pcAfter => exact ⟨nofun, nofun⟩
  | load addr size reg value =>
    dsimp only [perform]
    split <;> exact ⟨nofun, nofun⟩
  | store addr size value =>
    dsimp only [perform]
    split <;> exact ⟨nofun, nofun⟩
  | modify addr value =>
    dsimp only [perform]
    split
    · exact ⟨nofun, nofun⟩
    · split <;> exact ⟨nofun, nofun⟩
  | raise which badVAddr => exact ⟨nofun, nofun⟩
  | divideError => exact ⟨fun _ => rfl, nofun⟩
  | assertFalse => exact ⟨nofun, fun _ => rfl⟩

theorem gpr_zero_perform {s s₁ : Cpu} {m m₁ : Machine} {a : Action} (h : perform s m a = .done s₁ m₁) :
    s₁.gpr 0 = 0 := by
  rcases perform_done h with ⟨_, _, _, _, rfl, _⟩ | ⟨_, _, _, _, _, _, _, rfl⟩ | ⟨_, _, _, _, _, rfl⟩ |
    ⟨_, _, _, _, _, _, _, rfl⟩ <;> exact Cpu.gpr_zero_advance ..

open Cpu in
/-- An action does the same when the load in progress has been carried out early,
if the instruction does not use the register. -/
theorem perform_settled {s s' s₁ : Cpu} {m m₁ : Machine} {i : Instruction} (h0 : s.gpr 0 = 0)
    (h0' : s'.gpr 0 = 0) (hs : Settled s s') (hz : ¬ s.Hazard i) (h : perform s m (s.action i) = .done s₁ m₁) :
    ∃ s₁', perform s' m (s'.action i) = .done s₁' m₁ ∧ Settled s₁ s₁' := by
  rcases hs with rfl | ⟨hl, hd⟩
  · exact ⟨s₁, h, Or.inl rfl⟩
  have hnext : s'.nextPC = s.nextPC := (Cpu.mk.inj hd).2.2.2.2.1
  have hnone : ∀ d ∈ (none : Option (Reg × Word)), s.loadReg ≠ 0 → s.loadReg ≠ d.1 := by simp
  have hadv : ∀ r v pcAfter, s'.advance r v pcAfter = s.advance r v pcAfter :=
    advance_put_of_settled h0' hl hd hnone none
  rcases action_of_settled h0 h0' hl hd hz with ha | ⟨addr, value, value', ha, ha'⟩
  · refine ⟨s₁, ?_, Or.inl rfl⟩
    rcases perform_done h with ⟨dest, hilo, pcAfter, hc, rfl, rfl⟩ | ⟨addr, size, reg, value, v, hc, hv, rfl⟩ |
      ⟨addr, size, value, hc, hv, rfl⟩ | ⟨addr, value, v, m', hc, hv, hw, rfl⟩
    · have hdest : ∀ d ∈ dest, s.loadReg ≠ 0 → s.loadReg ≠ d.1 := by
        rintro d rfl hne heq
        exact hz ⟨hne, Or.inr (heq ▸ action_dest hc)⟩
      rw [ha, hc, perform, advance_put_of_settled h0' hl hd hdest]
    · simp only [ha, hc, perform, hv, hadv, hnext]
    · simp only [ha, hc, perform, hv, hadv, hnext]
    · simp only [ha, hc, perform, hv, hw, hadv, hnext]
  · rw [ha] at h
    simp only [perform] at h
    split at h
    · simp at h
    · rename_i v m' hv
      obtain ⟨rfl, rfl⟩ := Outcome.done.inj h
      refine ⟨s.advance 0 (value' v) (s.nextPC + 4), by simp only [ha', perform, hv, hadv, hnext], ?_⟩
      exact Or.inr ⟨rfl, by simp [advance, delayedLoad]⟩

/-! ### Whose memory an instruction touches -/

namespace Machine

/-- The byte of the memory is in a page of the table. -/
def Own (t : PageTable) (q : ℕ) : Prop := q / PageSize ∈ t.map fun e => e.physicalPage.toNat

theorem own_congr {t t' : PageTable} (h : t'.map core = t.map core) (q : ℕ) : Own t' q ↔ Own t q := by
  unfold Own
  rw [← map_page_core t', h, map_page_core]

theorem own_of_translate {t : PageTable} {v : BitVec 32} {size : Width} {writing : Bool} {p : ℕ}
    (h : (translate t v size writing).1 = .ok p) {q : ℕ} (hq : p ≤ q ∧ q < p + size.bytes) : Own t q := by
  obtain ⟨ha, e, he, -, -, -, rfl⟩ := translate_ok_iff.mp h
  have hpage : q / PageSize = e.physicalPage.toNat := by
    cases size <;> simp only [Width.bytes, PageSize] at * <;> omega
  unfold Own
  rw [hpage]
  exact List.mem_map_of_mem (List.mem_of_getElem? he)

theorem load_congr {mem mem' : Memory} {p : ℕ} {size : Width}
    (h : ∀ q, p ≤ q ∧ q < p + size.bytes → mem' q = mem q) : load mem' p size = load mem p size := by
  cases size <;> simp only [Width.bytes] at h <;> simp only [load]
  · rw [h p (by omega)]
  · rw [h p (by omega), h (p + 1) (by omega)]
  · rw [h p (by omega), h (p + 1) (by omega), h (p + 2) (by omega), h (p + 3) (by omega)]

variable {mem mem' : Memory} {t : PageTable} {addr : BitVec 32} {size : Width}

theorem readMem_own {v : BitVec 32} {m₁ : Machine} (hm : ∀ q, Own t q → mem' q = mem q)
    (h : readMem ⟨mem, t⟩ addr size = .ok (v, m₁)) :
    m₁.mainMemory = mem ∧ m₁.pageTable.map core = t.map core ∧
      readMem ⟨mem', t⟩ addr size = .ok (v, ⟨mem', m₁.pageTable⟩) := by
  have ht := map_core_translate t addr size false
  unfold readMem at h ⊢
  simp only at h ⊢
  cases htr : translate t addr size false with
  | mk r t' =>
    rw [htr] at h ht
    cases r with
    | error e => simp at h
    | ok p =>
      simp only [Except.ok.injEq, Prod.mk.injEq] at h ⊢
      obtain ⟨rfl, rfl⟩ := h
      exact ⟨rfl, ht, load_congr fun q hq => hm q (own_of_translate (congrArg Prod.fst htr) hq), rfl⟩

/-- A write changes the process's own bytes only, in the same way whatever the
others are. -/
theorem writeMem_own {value : BitVec 32} {m₁ : Machine} (hm : ∀ q, Own t q → mem' q = mem q)
    (h : writeMem ⟨mem, t⟩ addr size value = .ok m₁) :
    m₁.pageTable.map core = t.map core ∧ ∃ mem₁', writeMem ⟨mem', t⟩ addr size value = .ok ⟨mem₁', m₁.pageTable⟩ ∧
      (∀ q, Own t q → mem₁' q = m₁.mainMemory q) ∧ ∀ q, ¬ Own t q → mem₁' q = mem' q := by
  have ht := map_core_translate t addr size true
  unfold writeMem at h ⊢
  simp only at h ⊢
  cases htr : translate t addr size true with
  | mk r t' =>
    rw [htr] at h ht
    cases r with
    | error e => simp at h
    | ok p =>
      simp only [Except.ok.injEq] at h ⊢
      subst h
      refine ⟨ht, store mem' p size value, rfl, fun q hq => ?_, fun q hq => ?_⟩
      · simp only [store]
        split
        · rfl
        · exact hm q hq
      · simp only [store]
        rw [if_neg fun hpq => hq (own_of_translate (congrArg Prod.fst htr) hpq)]

end Machine

open Machine in
theorem perform_own {s s₁ : Cpu} {mem mem' : Memory} {t : PageTable} {m₁ : Machine} {a : Action}
    (hm : ∀ q, Own t q → mem' q = mem q) (h : perform s ⟨mem, t⟩ a = .done s₁ m₁) :
    m₁.pageTable.map core = t.map core ∧ ∃ mem₁', perform s ⟨mem', t⟩ a = .done s₁ ⟨mem₁', m₁.pageTable⟩ ∧
      (∀ q, Own t q → mem₁' q = m₁.mainMemory q) ∧ ∀ q, ¬ Own t q → mem₁' q = mem' q := by
  rcases perform_done h with ⟨dest, hilo, pcAfter, rfl, rfl, rfl⟩ | ⟨addr, size, reg, value, v, rfl, hv, rfl⟩ |
    ⟨addr, size, value, rfl, hw, rfl⟩ | ⟨addr, value, v, ⟨mem₀, t₀⟩, rfl, hv, hw, rfl⟩
  · exact ⟨rfl, mem', rfl, hm, fun _ _ => rfl⟩
  · obtain ⟨hmem, ht, hv'⟩ := readMem_own hm hv
    refine ⟨ht, mem', by simp only [perform, hv'], ?_, fun _ _ => rfl⟩
    rwa [hmem]
  · obtain ⟨ht, mem₁', hw', hown, hother⟩ := writeMem_own hm hw
    exact ⟨ht, mem₁', by simp only [perform, hw'], hown, hother⟩
  · obtain ⟨rfl, ht₀, hv'⟩ := readMem_own hm hv
    obtain ⟨ht, mem₁', hw', hown, hother⟩ := writeMem_own (fun q hq => hm q ((own_congr ht₀ q).mp hq)) hw
    refine ⟨ht.trans ht₀, mem₁', by simp only [perform, hv', hw'], fun q hq => ?_, fun q hq => ?_⟩
    · exact hown q ((own_congr ht₀ q).mpr hq)
    · exact hother q fun hq' => hq ((own_congr ht₀ q).mp hq')

/-! ### One instruction -/

/-- The instruction to come, if it can be fetched. -/
def fetched (s : Cpu) (m : Machine) : Option Instruction :=
  match m.readMem s.pc .word with
  | .ok (raw, _) => some (.decode raw)
  | .error _ => none

/-- The instruction to come uses the register of the load in progress. -/
def AtHazard (s : Cpu) (m : Machine) : Prop := ∃ i ∈ fetched s m, s.Hazard i

instance (s : Cpu) (m : Machine) : Decidable (AtHazard s m) := inferInstanceAs (Decidable (∃ i ∈ fetched s m, _))

theorem oneInstruction_done {s s₁ : Cpu} {m m₁ : Machine} (h : oneInstruction s m = .done s₁ m₁) :
    ∃ raw m', m.readMem s.pc .word = .ok (raw, m') ∧ perform s m' (s.action (.decode raw)) = .done s₁ m₁ := by
  unfold oneInstruction at h
  split at h
  · simp at h
  · rename_i raw m' hf
    exact ⟨raw, m', hf, h⟩

/-- An instruction of a process, in a memory with the same bytes in the
process's pages, and perhaps with the load in progress carried out already: the
process cannot tell, and the other pages stay as they are. -/
theorem oneInstruction_same {s s' s₁ : Cpu} {mem mem' : Memory} {t : PageTable} {m₁ : Machine}
    (h0 : s.gpr 0 = 0) (h0' : s'.gpr 0 = 0) (hs : s.Settled s') (hz : ¬ AtHazard s ⟨mem, t⟩)
    (hm : ∀ q, Machine.Own t q → mem' q = mem q) (h : oneInstruction s ⟨mem, t⟩ = .done s₁ m₁) :
    m₁.pageTable.map Machine.core = t.map Machine.core ∧ ∃ s₁' mem₁',
      oneInstruction s' ⟨mem', t⟩ = .done s₁' ⟨mem₁', m₁.pageTable⟩ ∧ s₁.Settled s₁' ∧
      (∀ q, Machine.Own t q → mem₁' q = m₁.mainMemory q) ∧ ∀ q, ¬ Machine.Own t q → mem₁' q = mem' q := by
  obtain ⟨raw, ⟨mem₀, t₀⟩, hf, hp⟩ := oneInstruction_done h
  obtain ⟨rfl, ht₀, hf'⟩ := Machine.readMem_own hm hf
  have hpc : s'.pc = s.pc := by
    rcases hs with rfl | ⟨-, hd⟩
    · rfl
    · exact (Cpu.mk.inj hd).2.2.2.1
  have hz' : ¬ s.Hazard (.decode raw) := fun hc => hz ⟨_, by simp [fetched, hf], hc⟩
  obtain ⟨s₁', hp', hs'⟩ := perform_settled h0 h0' hs hz' hp
  obtain ⟨ht, mem₁', hq, hown, hother⟩ := perform_own (fun q hq => hm q ((Machine.own_congr ht₀ q).mp hq)) hp'
  refine ⟨ht.trans ht₀, s₁', mem₁', ?_, hs', fun q hq => ?_, fun q hq => ?_⟩
  · unfold oneInstruction
    rw [hpc, hf']
    exact hq
  · exact hown q ((Machine.own_congr ht₀ q).mpr hq)
  · exact hother q fun hq' => hq ((Machine.own_congr ht₀ q).mp hq')

theorem oneInstruction_raised {s s₁ : Cpu} {m m₁ : Machine} {which : ExceptionType}
    (h : oneInstruction s m = .raised which s₁ m₁) :
    ∃ badVAddr, s₁ = s.raiseException badVAddr ∧ m₁.mainMemory = m.mainMemory := by
  unfold oneInstruction at h
  split at h
  · obtain ⟨-, rfl, rfl⟩ := Outcome.raised.inj h
    exact ⟨s.pc, rfl, rfl⟩
  · rename_i raw m' hf
    obtain ⟨badVAddr, hs, hm⟩ := perform_raised h
    exact ⟨badVAddr, hs, hm.trans (Machine.memory_readMem hf)⟩

theorem oneInstruction_ne_assertFalse (s : Cpu) (m : Machine) : oneInstruction s m ≠ .assertFalse := by
  intro h
  unfold oneInstruction at h
  split at h
  · simp at h
  · rename_i raw m' hf
    exact Cpu.action_ne_assertFalse (Instruction.opCode_decode raw) (perform_eq_error.2 h)

theorem oneInstruction_divideError {s : Cpu} {m : Machine} (h : oneInstruction s m = .divideError) :
    ∃ i ∈ fetched s m, i.opCode = .div ∧ s.gpr i.rs = signBit ∧ s.gpr i.rt = -1 := by
  unfold oneInstruction at h
  split at h
  · simp at h
  · rename_i raw m' hf
    exact ⟨.decode raw, by simp [fetched, hf], Cpu.action_divideError (perform_eq_error.1 h)⟩

theorem gpr_zero_oneInstruction {s s₁ : Cpu} {m m₁ : Machine} (h : oneInstruction s m = .done s₁ m₁) :
    s₁.gpr 0 = 0 := by
  obtain ⟨raw, m', -, hp⟩ := oneInstruction_done h
  exact gpr_zero_perform hp

end Nachos
