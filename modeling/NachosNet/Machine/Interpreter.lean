/-
# The interpreter on the array of registers

`OneInstruction` of `machine/mipssim.cc` statement by statement, on the 40 elements of
`registers`: a `RaiseException` calls the handler and comes back, and the `return` after
it is `leave`. The handler is a parameter, and the calls of it are recorded with the
state it is entered in.

Each case of the switch does one of the actions of `Cpu.action` (`eval_execute`), and
with that the interpreter does what `oneInstruction` says of a `Cpu` in the array
(`ends_oneInstruction`). An exception is raised before anything has been written, so
its handler finds the registers and the memory of before the instruction
(`precise_exceptions`).

Key definitions: `Simulator`, `Sim`, `Interpreter.execute`, `Interpreter.oneInstruction`, `Precise`.
-/
import NachosNet.Machine.Interrupt
import NachosNet.Machine.Mipssim

namespace Nachos

/-! ### The registers -/

def HiReg : ℕ := 32
def LoReg : ℕ := 33
def PCReg : ℕ := 34
def NextPCReg : ℕ := 35
def PrevPCReg : ℕ := 36
def LoadReg : ℕ := 37
def LoadValueReg : ℕ := 38
def BadVAddrReg : ℕ := 39
def NumTotalRegs : ℕ := 40

/-- The registers, the memory with the page table, and the status of the interrupts. -/
structure Simulator where
  registers : ℕ → Word
  machine : Machine
  status : MachineStatus

/-- What ends the code before its last statement. -/
inductive Exit
  | returned
  /-- `ExceptionHandler` does not come back. -/
  | noReturn
  | divideError
  | assertFalse
  /-- An element outside `registers`. -/
  | outOfRange
  deriving DecidableEq

/-- The simulator, and the calls of `ExceptionHandler` up to now. -/
structure Calls where
  sim : Simulator
  entered : List (ExceptionType × Simulator)

abbrev Sim := ExceptT Exit (StateM Calls)

namespace Sim

variable {α β : Type}

def eval (x : Sim α) (w : Calls) : Except Exit α × Calls := x.run.run w

def update (f : Simulator → Simulator) : Sim Unit := modify fun w => { w with sim := f w.sim }

end Sim

namespace Interpreter

open Sim

/-- `registers[k]` -/
def reg (k : ℕ) : Sim Word := return (← get).sim.registers k

/-- `registers[k] = v` -/
def setReg (k : ℕ) (v : Word) : Sim Unit := update fun s => { s with registers := Function.update s.registers k v }

/-- `return` -/
def leave {α : Type} : Sim α := throw .returned

def delayedLoad (nextReg nextValue : Word) : Sim Unit := do
  let r ← reg LoadReg
  if NumTotalRegs ≤ r.toNat then throw .outOfRange
  else
    setReg r.toNat (← reg LoadValueReg)
    setReg LoadReg nextReg
    setReg LoadValueReg nextValue
    setReg 0 0

def setStatus (status : MachineStatus) : Sim Unit := update fun s => { s with status := status }

section

variable (handler : ExceptionType → Simulator → Option Simulator)

/-- `ExceptionHandler`, which changes the simulator and may not come back. -/
def exceptionHandler (which : ExceptionType) : Sim Unit := do
  let w ← get
  set { w with entered := w.entered ++ [(which, w.sim)] }
  match handler which w.sim with
  | none => throw .noReturn
  | some s => update fun _ => s

def raiseException (which : ExceptionType) (badVAddr : Word) : Sim Unit := do
  setReg BadVAddrReg badVAddr
  delayedLoad 0 0
  setStatus .systemMode
  exceptionHandler handler which
  setStatus .userMode

/-- `ReadMem`; `none` is FALSE. -/
def readMem (addr : Word) (size : Width) : Sim (Option Word) := do
  match (← get).sim.machine.readMem addr size with
  | .error which =>
    raiseException handler which addr
    return none
  | .ok (value, m) =>
    update fun s => { s with machine := m }
    return some value

def writeMem (addr : Word) (size : Width) (value : Word) : Sim Bool := do
  match (← get).sim.machine.writeMem addr size value with
  | .error which =>
    raiseException handler which addr
    return false
  | .ok m =>
    update fun s => { s with machine := m }
    return true

/-- `nextLoadReg`, `nextLoadValue` and `pcAfter` after the switch. -/
structure Next where
  loadReg : Word := 0
  loadValue : Word := 0
  pcAfter : Word

/-- The value that `LWL` and `LWR` start from. -/
def loadInProgress (rt : Reg) : Sim Word := do
  if (← reg LoadReg) = rt.setWidth 32 then reg LoadValueReg else reg rt.toNat

/-- `OP_BGEZ`, `OP_BLTZ` -/
def branchOnSign (i : Instruction) (negative : Bool) (pcAfter : Word) : Sim Next := do
  if ((← reg i.rs.toNat) &&& signBit ≠ 0) == negative then
    return { pcAfter := (← reg NextPCReg) + indexToAddr i.extra }
  else return { pcAfter }

/-- The switch of `OneInstruction`. -/
def execute (i : Instruction) : Sim Next := do
  let pcAfter := (← reg NextPCReg) + 4
  match i.opCode with
  | .add =>
    let sum := (← reg i.rs.toNat) + (← reg i.rt.toNat)
    if ((← reg i.rs.toNat) ^^^ (← reg i.rt.toNat)) &&& signBit = 0 ∧ ((← reg i.rs.toNat) ^^^ sum) &&& signBit ≠ 0 then
      raiseException handler .overflow 0
      leave
    else
      setReg i.rd.toNat sum
      return { pcAfter }
  | .addi =>
    let sum := (← reg i.rs.toNat) + i.extra
    if ((← reg i.rs.toNat) ^^^ i.extra) &&& signBit = 0 ∧ (i.extra ^^^ sum) &&& signBit ≠ 0 then
      raiseException handler .overflow 0
      leave
    else
      setReg i.rt.toNat sum
      return { pcAfter }
  | .addiu =>
    setReg i.rt.toNat ((← reg i.rs.toNat) + i.extra)
    return { pcAfter }
  | .addu =>
    setReg i.rd.toNat ((← reg i.rs.toNat) + (← reg i.rt.toNat))
    return { pcAfter }
  | .and =>
    setReg i.rd.toNat ((← reg i.rs.toNat) &&& (← reg i.rt.toNat))
    return { pcAfter }
  | .andi =>
    setReg i.rt.toNat ((← reg i.rs.toNat) &&& (i.extra &&& 0xffff))
    return { pcAfter }
  | .beq =>
    if (← reg i.rs.toNat) = (← reg i.rt.toNat) then
      return { pcAfter := (← reg NextPCReg) + indexToAddr i.extra }
    else return { pcAfter }
  | .bgezal =>
    setReg 31 ((← reg NextPCReg) + 4)
    branchOnSign i false pcAfter
  | .bgez => branchOnSign i false pcAfter
  | .bgtz =>
    if 0 < (← reg i.rs.toNat).toInt then return { pcAfter := (← reg NextPCReg) + indexToAddr i.extra }
    else return { pcAfter }
  | .blez =>
    if (← reg i.rs.toNat).toInt ≤ 0 then return { pcAfter := (← reg NextPCReg) + indexToAddr i.extra }
    else return { pcAfter }
  | .bltzal =>
    setReg 31 ((← reg NextPCReg) + 4)
    branchOnSign i true pcAfter
  | .bltz => branchOnSign i true pcAfter
  | .bne =>
    if (← reg i.rs.toNat) ≠ (← reg i.rt.toNat) then
      return { pcAfter := (← reg NextPCReg) + indexToAddr i.extra }
    else return { pcAfter }
  | .div =>
    if (← reg i.rt.toNat) = 0 then
      setReg LoReg 0
      setReg HiReg 0
      return { pcAfter }
    else if (← reg i.rs.toNat) = signBit ∧ (← reg i.rt.toNat) = -1 then throw .divideError
    else
      setReg LoReg ((← reg i.rs.toNat).sdiv (← reg i.rt.toNat))
      setReg HiReg ((← reg i.rs.toNat).srem (← reg i.rt.toNat))
      return { pcAfter }
  | .divu =>
    let rs ← reg i.rs.toNat
    let rt ← reg i.rt.toNat
    if rt = 0 then
      setReg LoReg 0
      setReg HiReg 0
      return { pcAfter }
    else
      setReg LoReg (rs / rt)
      setReg HiReg (rs % rt)
      return { pcAfter }
  | .jal =>
    setReg 31 ((← reg NextPCReg) + 4)
    return { pcAfter := (pcAfter &&& 0xf0000000) ||| indexToAddr i.extra }
  | .j => return { pcAfter := (pcAfter &&& 0xf0000000) ||| indexToAddr i.extra }
  | .jalr =>
    setReg i.rd.toNat ((← reg NextPCReg) + 4)
    return { pcAfter := ← reg i.rs.toNat }
  | .jr => return { pcAfter := ← reg i.rs.toNat }
  | .lb | .lbu =>
    let tmp := (← reg i.rs.toNat) + i.extra
    let some value ← readMem handler tmp .byte | leave
    let value := if value &&& 0x80 ≠ 0 ∧ i.opCode = .lb then value ||| 0xffffff00 else value &&& 0xff
    return { loadReg := i.rt.setWidth 32, loadValue := value, pcAfter }
  | .lh | .lhu =>
    let tmp := (← reg i.rs.toNat) + i.extra
    if tmp &&& 1 ≠ 0 then
      raiseException handler .addressError tmp
      leave
    else
      let some value ← readMem handler tmp .half | leave
      let value := if value &&& 0x8000 ≠ 0 ∧ i.opCode = .lh then value ||| 0xffff0000 else value &&& 0xffff
      return { loadReg := i.rt.setWidth 32, loadValue := value, pcAfter }
  | .lui =>
    setReg i.rt.toNat (i.extra <<< 16)
    return { pcAfter }
  | .lw =>
    let tmp := (← reg i.rs.toNat) + i.extra
    if tmp &&& 3 ≠ 0 then
      raiseException handler .addressError tmp
      leave
    else
      let some value ← readMem handler tmp .word | leave
      return { loadReg := i.rt.setWidth 32, loadValue := value, pcAfter }
  | .lwl =>
    let tmp := (← reg i.rs.toNat) + i.extra
    let byte := tmp &&& 3
    let some value ← readMem handler (tmp - byte) .word | leave
    let nextLoadValue ← loadInProgress i.rt
    return { loadReg := i.rt.setWidth 32, loadValue := lwlValue byte nextLoadValue value, pcAfter }
  | .lwr =>
    let tmp := (← reg i.rs.toNat) + i.extra
    let byte := tmp &&& 3
    let some value ← readMem handler (tmp - byte) .word | leave
    let nextLoadValue ← loadInProgress i.rt
    return { loadReg := i.rt.setWidth 32, loadValue := lwrValue byte nextLoadValue value, pcAfter }
  | .mfhi =>
    setReg i.rd.toNat (← reg HiReg)
    return { pcAfter }
  | .mflo =>
    setReg i.rd.toNat (← reg LoReg)
    return { pcAfter }
  | .mthi =>
    setReg HiReg (← reg i.rs.toNat)
    return { pcAfter }
  | .mtlo =>
    setReg LoReg (← reg i.rs.toNat)
    return { pcAfter }
  | .mult =>
    let (hi, lo) := mult (← reg i.rs.toNat) (← reg i.rt.toNat) true
    setReg HiReg hi
    setReg LoReg lo
    return { pcAfter }
  | .multu =>
    let (hi, lo) := mult (← reg i.rs.toNat) (← reg i.rt.toNat) false
    setReg HiReg hi
    setReg LoReg lo
    return { pcAfter }
  | .nor =>
    setReg i.rd.toNat (~~~((← reg i.rs.toNat) ||| (← reg i.rt.toNat)))
    return { pcAfter }
  | .or =>
    setReg i.rd.toNat ((← reg i.rs.toNat) ||| (← reg i.rt.toNat))
    return { pcAfter }
  | .ori =>
    setReg i.rt.toNat ((← reg i.rs.toNat) ||| (i.extra &&& 0xffff))
    return { pcAfter }
  | .sb =>
    if !(← writeMem handler ((← reg i.rs.toNat) + i.extra) .byte (← reg i.rt.toNat)) then leave
    else return { pcAfter }
  | .sh =>
    if !(← writeMem handler ((← reg i.rs.toNat) + i.extra) .half (← reg i.rt.toNat)) then leave
    else return { pcAfter }
  | .sll =>
    setReg i.rd.toNat ((← reg i.rt.toNat) <<< i.extra)
    return { pcAfter }
  | .sllv =>
    setReg i.rd.toNat ((← reg i.rt.toNat) <<< ((← reg i.rs.toNat) &&& 0x1f))
    return { pcAfter }
  | .slt =>
    setReg i.rd.toNat (if (← reg i.rs.toNat).toInt < (← reg i.rt.toNat).toInt then 1 else 0)
    return { pcAfter }
  | .slti =>
    setReg i.rt.toNat (if (← reg i.rs.toNat).toInt < i.extra.toInt then 1 else 0)
    return { pcAfter }
  | .sltiu =>
    setReg i.rt.toNat (if (← reg i.rs.toNat) < i.extra then 1 else 0)
    return { pcAfter }
  | .sltu =>
    setReg i.rd.toNat (if (← reg i.rs.toNat) < (← reg i.rt.toNat) then 1 else 0)
    return { pcAfter }
  -- `tmp` is a signed `int` in `OP_SRL`
  | .sra | .srl =>
    setReg i.rd.toNat ((← reg i.rt.toNat).sshiftRight i.extra.toNat)
    return { pcAfter }
  | .srav | .srlv =>
    setReg i.rd.toNat ((← reg i.rt.toNat).sshiftRight ((← reg i.rs.toNat) &&& 0x1f).toNat)
    return { pcAfter }
  | .sub =>
    let diff := (← reg i.rs.toNat) - (← reg i.rt.toNat)
    if ((← reg i.rs.toNat) ^^^ (← reg i.rt.toNat)) &&& signBit ≠ 0 ∧ ((← reg i.rs.toNat) ^^^ diff) &&& signBit ≠ 0 then
      raiseException handler .overflow 0
      leave
    else
      setReg i.rd.toNat diff
      return { pcAfter }
  | .subu =>
    setReg i.rd.toNat ((← reg i.rs.toNat) - (← reg i.rt.toNat))
    return { pcAfter }
  | .sw =>
    if !(← writeMem handler ((← reg i.rs.toNat) + i.extra) .word (← reg i.rt.toNat)) then leave
    else return { pcAfter }
  | .swl =>
    let tmp := (← reg i.rs.toNat) + i.extra
    let byte := tmp &&& 3
    let some value ← readMem handler (tmp - byte) .word | leave
    if !(← writeMem handler (tmp - byte) .word (swlValue byte (← reg i.rt.toNat) value)) then leave
    else return { pcAfter }
  | .swr =>
    let tmp := (← reg i.rs.toNat) + i.extra
    let byte := tmp &&& 3
    let some value ← readMem handler (tmp - byte) .word | leave
    if !(← writeMem handler (tmp - byte) .word (swrValue byte (← reg i.rt.toNat) value)) then leave
    else return { pcAfter }
  | .syscall =>
    raiseException handler .syscall 0
    leave
  | .xor =>
    setReg i.rd.toNat ((← reg i.rs.toNat) ^^^ (← reg i.rt.toNat))
    return { pcAfter }
  | .xori =>
    setReg i.rt.toNat ((← reg i.rs.toNat) ^^^ (i.extra &&& 0xffff))
    return { pcAfter }
  | .res | .unimp =>
    raiseException handler .illegalInstr 0
    leave
  | .rfe | .special | .bcond => throw .assertFalse

/-- The end of `OneInstruction`, after the switch. -/
def finish (next : Next) : Sim Unit := do
  delayedLoad next.loadReg next.loadValue
  setReg PrevPCReg (← reg PCReg)
  setReg PCReg (← reg NextPCReg)
  setReg NextPCReg next.pcAfter

def oneInstruction : Sim Unit := do
  let some raw ← readMem handler (← reg PCReg) .word | leave
  let next ← execute handler (.decode raw)
  finish next

end

end Interpreter

/-! ### Evaluation

The lemmas are not definitional for `simp`: the kernel would run the code again. -/

namespace Sim

variable {α β : Type}

@[simp] theorem eval_pure (a : α) (w : Calls) : (pure a : Sim α).eval w = (.ok a, w) := (rfl)

@[simp] theorem eval_throw (e : Exit) (w : Calls) : (throw e : Sim α).eval w = (.error e, w) := (rfl)

@[simp] theorem eval_get (w : Calls) : (get : Sim Calls).eval w = (.ok w, w) := (rfl)

@[simp] theorem eval_set (w' w : Calls) : (set w' : Sim PUnit).eval w = (.ok (), w') := (rfl)

@[simp] theorem eval_update (f : Simulator → Simulator) (w : Calls) :
    (update f).eval w = (.ok (), { w with sim := f w.sim }) := (rfl)

@[simp] theorem eval_bind (x : Sim α) (f : α → Sim β) (w : Calls) :
    (x >>= f).eval w = match x.eval w with
      | (.ok a, w') => (f a).eval w'
      | (.error e, w') => (.error e, w') := by
  change (ExceptT.bindCont (fun a => f a) (x.eval w).1).run (x.eval w).2 = _
  rcases x.eval w with ⟨_ | a, w'⟩ <;> rfl

theorem eval_ite (c : Prop) [Decidable c] (x y : Sim α) (w : Calls) :
    (if c then x else y).eval w = if c then x.eval w else y.eval w := by
  split <;> rfl

end Sim

namespace Interpreter

open Sim

@[simp] theorem eval_reg (k : ℕ) (w : Calls) : (reg k).eval w = (.ok (w.sim.registers k), w) := (rfl)

@[simp] theorem eval_setReg (k : ℕ) (v : Word) (w : Calls) : (setReg k v).eval w =
    (.ok (), { w with sim := { w.sim with registers := Function.update w.sim.registers k v } }) := (rfl)

theorem eval_reg_bind {α : Type} (k : ℕ) (f : Word → Sim α) (w : Calls) :
    (reg k >>= f).eval w = (f (w.sim.registers k)).eval w := (rfl)

theorem eval_setReg_bind {α : Type} (k : ℕ) (v : Word) (f : Unit → Sim α) (w : Calls) :
    (setReg k v >>= f).eval w =
      (f ()).eval { w with sim := { w.sim with registers := Function.update w.sim.registers k v } } := (rfl)

theorem update_toNat (registers : ℕ → Word) (r : Reg) (v : Word) (q : Reg) :
    Function.update (fun r : Reg => registers r.toNat) r v q = Function.update registers r.toNat v q.toNat := by
  simp only [Function.update_apply, BitVec.toNat_inj]

theorem update_special {k : ℕ} (h : 32 ≤ k) (registers : ℕ → Word) (v : Word) (r : Reg) :
    Function.update registers k v r.toNat = registers r.toNat := by
  have hlt := r.isLt
  rw [Function.update_of_ne (by omega)]

theorem toNat_r31 : (31 : Reg).toNat = 31 := (rfl)

section

variable {handler : ExceptionType → Simulator → Option Simulator} {w : Calls}

/-- The registers at the call of the handler. -/
def enter (s : Simulator) (badVAddr : Word) : Simulator :=
  { s with
    registers := Function.update (Function.update (Function.update (Function.update
      (Function.update s.registers BadVAddrReg badVAddr) (s.registers LoadReg).toNat (s.registers LoadValueReg))
      LoadReg 0) LoadValueReg 0) 0 0
    status := .systemMode }

/-- A call of the handler, entered with `s`, and the `return` after it. -/
def handled (handler : ExceptionType → Simulator → Option Simulator) (which : ExceptionType) (s : Simulator)
    (entered : List (ExceptionType × Simulator)) {α : Type} : Except Exit α × Calls :=
  match handler which s with
  | none => (.error .noReturn, ⟨s, entered ++ [(which, s)]⟩)
  | some s' => (.error .returned, ⟨{ s' with status := .userMode }, entered ++ [(which, s)]⟩)

theorem eval_delayedLoad (h : (w.sim.registers LoadReg).toNat < 32) (r v : Word) :
    (delayedLoad r v).eval w = (.ok (), { w with sim := { w.sim with
      registers := Function.update (Function.update (Function.update (Function.update w.sim.registers
        (w.sim.registers LoadReg).toNat (w.sim.registers LoadValueReg)) LoadReg r) LoadValueReg v) 0 0 } }) := by
  have hlt : ¬ NumTotalRegs ≤ (w.sim.registers LoadReg).toNat := by
    unfold NumTotalRegs
    omega
  unfold delayedLoad
  simp only [eval_bind, eval_reg, if_neg hlt, eval_setReg]

theorem eval_exceptionHandler (which : ExceptionType) (w : Calls) : (exceptionHandler handler which).eval w =
    match handler which w.sim with
    | none => (.error .noReturn, ⟨w.sim, w.entered ++ [(which, w.sim)]⟩)
    | some s => (.ok (), ⟨s, w.entered ++ [(which, w.sim)]⟩) := by
  unfold exceptionHandler
  simp only [eval_bind, eval_get, eval_set]
  cases handler which w.sim <;> rfl

theorem eval_raiseException (h : (w.sim.registers LoadReg).toNat < 32) (which : ExceptionType) (badVAddr : Word) :
    (raiseException handler which badVAddr).eval w =
      match handler which (enter w.sim badVAddr) with
      | none => (.error .noReturn, ⟨enter w.sim badVAddr, w.entered ++ [(which, enter w.sim badVAddr)]⟩)
      | some s => (.ok (), ⟨{ s with status := .userMode }, w.entered ++ [(which, enter w.sim badVAddr)]⟩) := by
  have hne : LoadReg ≠ BadVAddrReg := by decide
  have hne' : LoadValueReg ≠ BadVAddrReg := by decide
  have hload : (Function.update w.sim.registers BadVAddrReg badVAddr LoadReg).toNat < 32 := by
    rwa [Function.update_of_ne hne]
  have hdelay := @eval_delayedLoad { w with sim := { w.sim with
    registers := Function.update w.sim.registers BadVAddrReg badVAddr } } hload 0 0
  simp only [Function.update_of_ne hne, Function.update_of_ne hne'] at hdelay
  generalize henter : enter w.sim badVAddr = s₁
  unfold enter at henter
  unfold raiseException setStatus
  simp only [eval_bind, eval_setReg, eval_update, hdelay, eval_exceptionHandler, henter]
  cases handler which s₁ <;> rfl

variable {α : Type}

theorem eval_raise (h : (w.sim.registers LoadReg).toNat < 32) (which : ExceptionType) (badVAddr : Word) :
    (do raiseException handler which badVAddr; leave : Sim α).eval w =
      handled handler which (enter w.sim badVAddr) w.entered := by
  simp only [eval_bind, eval_raiseException h, handled, leave, eval_throw]
  cases handler which (enter w.sim badVAddr) <;> rfl

/-- `if (!ReadMem(addr, size, &v)) return;` -/
theorem eval_readMem (h : (w.sim.registers LoadReg).toNat < 32) (addr : Word) (size : Width) (k : Word → Sim α) :
    (do let some v ← readMem handler addr size | leave
        k v : Sim α).eval w =
      match w.sim.machine.readMem addr size with
      | .error which => handled handler which (enter w.sim addr) w.entered
      | .ok (v, m) => (k v).eval { w with sim := { w.sim with machine := m } } := by
  unfold readMem
  simp only [eval_bind, eval_get]
  cases w.sim.machine.readMem addr size with
  | error which =>
    simp only [eval_bind, eval_raiseException h, handled, leave]
    cases handler which (enter w.sim addr) <;> rfl
  | ok p => rfl

section

variable {addr : Word} {size : Width} {value : Word} {which : ExceptionType} {v : Word} {m : Machine}

theorem eval_readMem_error (h : (w.sim.registers LoadReg).toNat < 32)
    (hread : w.sim.machine.readMem addr size = .error which) (k : Word → Sim α) :
    (do let some v ← readMem handler addr size | leave
        k v : Sim α).eval w = handled handler which (enter w.sim addr) w.entered := by
  rw [eval_readMem h, hread]

theorem eval_readMem_ok (h : (w.sim.registers LoadReg).toNat < 32)
    (hread : w.sim.machine.readMem addr size = .ok (v, m)) (k : Word → Sim α) :
    (do let some v ← readMem handler addr size | leave
        k v : Sim α).eval w = (k v).eval { w with sim := { w.sim with machine := m } } := by
  rw [eval_readMem h, hread]

end

theorem eval_readMem_congr (h : (w.sim.registers LoadReg).toNat < 32) {addr : Word} {size : Width}
    {k k' : Word → Sim α} (hk : ∀ v m, (k v).eval { w with sim := { w.sim with machine := m } } =
      (k' v).eval { w with sim := { w.sim with machine := m } }) :
    (do let some v ← readMem handler addr size | leave
        k v : Sim α).eval w =
      (do let some v ← readMem handler addr size | leave
          k' v : Sim α).eval w := by
  rw [eval_readMem h, eval_readMem h]
  rcases w.sim.machine.readMem addr size with which | ⟨v, m⟩
  · rfl
  · exact hk v m

theorem eval_writeMem (h : (w.sim.registers LoadReg).toNat < 32) (addr : Word) (size : Width) (value : Word)
    (k : Sim α) :
    (do if !(← writeMem handler addr size value) then leave else k : Sim α).eval w =
      match w.sim.machine.writeMem addr size value with
      | .error which => handled handler which (enter w.sim addr) w.entered
      | .ok m => k.eval { w with sim := { w.sim with machine := m } } := by
  unfold writeMem
  simp only [eval_bind, eval_get]
  cases w.sim.machine.writeMem addr size value with
  | error which =>
    simp only [eval_bind, eval_raiseException h, handled, leave]
    cases handler which (enter w.sim addr) <;> rfl
  | ok m => rfl

section

variable {addr : Word} {size : Width} {value : Word} {which : ExceptionType} {m : Machine}

theorem eval_writeMem_error (h : (w.sim.registers LoadReg).toNat < 32)
    (hwrite : w.sim.machine.writeMem addr size value = .error which) (k : Sim α) :
    (do if !(← writeMem handler addr size value) then leave else k : Sim α).eval w =
      handled handler which (enter w.sim addr) w.entered := by
  rw [eval_writeMem h, hwrite]

theorem eval_writeMem_ok (h : (w.sim.registers LoadReg).toNat < 32)
    (hwrite : w.sim.machine.writeMem addr size value = .ok m) (k : Sim α) :
    (do if !(← writeMem handler addr size value) then leave else k : Sim α).eval w =
      k.eval { w with sim := { w.sim with machine := m } } := by
  rw [eval_writeMem h, hwrite]

end

theorem eval_writeMem_congr (h : (w.sim.registers LoadReg).toNat < 32) {addr : Word} {size : Width} {value : Word}
    {k k' : Sim α} (hk : ∀ m, k.eval { w with sim := { w.sim with machine := m } } =
      k'.eval { w with sim := { w.sim with machine := m } }) :
    (do if !(← writeMem handler addr size value) then leave else k : Sim α).eval w =
      (do if !(← writeMem handler addr size value) then leave else k' : Sim α).eval w := by
  rw [eval_writeMem h, eval_writeMem h]
  cases w.sim.machine.writeMem addr size value with
  | error which => rfl
  | ok m => exact hk m

/-! ### The cases of the switch -/

/-- The registers as those of a `Cpu`. -/
def view (s : Simulator) : Cpu where
  gpr r := s.registers r.toNat
  hi := s.registers HiReg
  lo := s.registers LoReg
  pc := s.registers PCReg
  nextPC := s.registers NextPCReg
  prevPC := s.registers PrevPCReg
  loadReg := (s.registers LoadReg).setWidth 5
  loadValue := s.registers LoadValueReg
  badVAddr := s.registers BadVAddrReg

/-- An action on the registers and the memory. -/
def carryOut (handler : ExceptionType → Simulator → Option Simulator) : Action → Sim Next
  | .compute dest hilo pcAfter => do
    dest.elim (pure ()) fun d => setReg d.1.toNat d.2
    hilo.elim (pure ()) fun d => do
      setReg LoReg d.2
      setReg HiReg d.1
    return { pcAfter }
  | .load addr size r value => do
    let some v ← readMem handler addr size | leave
    return { loadReg := r.setWidth 32, loadValue := value v, pcAfter := (← reg NextPCReg) + 4 }
  | .store addr size value => do
    if !(← writeMem handler addr size value) then leave
    else return { pcAfter := (← reg NextPCReg) + 4 }
  | .modify addr value => do
    let some v ← readMem handler addr .word | leave
    if !(← writeMem handler addr .word (value v)) then leave
    else return { pcAfter := (← reg NextPCReg) + 4 }
  | .raise which badVAddr => do
    raiseException handler which badVAddr
    leave
  | .divideError => throw .divideError
  | .assertFalse => throw .assertFalse

theorem eval_loadInProgress {m : Machine} (h : (w.sim.registers LoadReg).toNat < 32) (rt : Reg) (f : Word → Sim α) :
    (loadInProgress rt >>= f).eval { w with sim := { w.sim with machine := m } } =
      (f ((view w.sim).pendingOr rt)).eval { w with sim := { w.sim with machine := m } } := by
  have hiff : w.sim.registers LoadReg = rt.setWidth 32 ↔ (w.sim.registers LoadReg).setWidth 5 = rt := by
    rw [← BitVec.toNat_inj, ← BitVec.toNat_inj, BitVec.toNat_setWidth, BitVec.toNat_setWidth,
      Nat.mod_eq_of_lt (rt.isLt.trans (by decide)), Nat.mod_eq_of_lt h]
  unfold loadInProgress Cpu.pendingOr view
  by_cases hc : w.sim.registers LoadReg = rt.setWidth 32
  · rw [if_pos (hiff.mp hc)]
    simp only [eval_bind, eval_reg, if_pos hc]
  · rw [if_neg (mt hiff.mpr hc)]
    simp only [eval_bind, eval_reg, if_neg hc]

theorem narrow_byte (signed : Bool) (v : Word) : Cpu.narrow 0x80 0xffffff00 signed v =
    if v &&& 0x80 ≠ 0 ∧ signed = true then v ||| 0xffffff00 else v &&& 0xff := (rfl)

theorem narrow_half (signed : Bool) (v : Word) : Cpu.narrow 0x8000 0xffff0000 signed v =
    if v &&& 0x8000 ≠ 0 ∧ signed = true then v ||| 0xffff0000 else v &&& 0xffff := (rfl)

theorem ok_ite (c : Prop) [Decidable c] (a b : Word) (w : Calls) :
    (if c then ((.ok { pcAfter := a }, w) : Except Exit Next × Calls) else (.ok { pcAfter := b }, w)) =
      (.ok { pcAfter := if c then a else b }, w) := by
  split <;> rfl

theorem eval_carryOut_ite (c : Prop) [Decidable c] (a b : Action) (w : Calls) :
    (carryOut handler (if c then a else b)).eval w =
      if c then (carryOut handler a).eval w else (carryOut handler b).eval w := by
  split <;> rfl

/-- Each case of the switch does its action. -/
theorem eval_execute (h : (w.sim.registers LoadReg).toNat < 32) (i : Instruction) :
    (execute handler i).eval w = (carryOut handler ((view w.sim).action i)).eval w := by
  have hnext : Function.update w.sim.registers 31 (w.sim.registers NextPCReg + 4) NextPCReg =
    w.sim.registers NextPCReg := Function.update_of_ne (by decide) _ _
  have hlo : ∀ (v : Word) (r : Reg), Function.update w.sim.registers LoReg v r.toNat = w.sim.registers r.toNat :=
    fun v r => update_special (by decide) w.sim.registers v r
  obtain ⟨op, rs, rt, rd, extra⟩ := i
  unfold execute
  rw [eval_reg_bind]
  cases op <;>
    dsimp only [Cpu.action, Cpu.assign, Cpu.setHiLo, Cpu.branch, Cpu.branchLink, branchOnSign, view]
  case addiu | addu | and | andi | j | jal | jalr | jr | lui | mfhi | mflo | nor | or | ori | sll | sllv | sra | srav
    | srl | srlv | slt | slti | sltiu | sltu | subu | xor | xori =>
    simp only [carryOut, eval_reg_bind, eval_setReg_bind, eval_pure, Option.elim_some, Option.elim_none, pure_bind,
      update_toNat, toNat_r31]
  case add | addi | sub =>
    simp only [eval_reg_bind, eval_ite, eval_carryOut_ite]
    simp only [carryOut, eval_setReg_bind, eval_pure, Option.elim_some, Option.elim_none, pure_bind]
  case beq | bgez | bgtz | blez | bltz | bne =>
    simp only [carryOut, eval_reg_bind, eval_pure, Option.elim_none, pure_bind, eval_ite, ok_ite]
    simp
  case bgezal | bltzal =>
    simp only [carryOut, eval_reg_bind, eval_setReg_bind, eval_pure, Option.elim_none, Option.elim_some, pure_bind,
      eval_ite, update_toNat, toNat_r31, hnext, ok_ite]
  case div | divu =>
    simp only [eval_reg_bind, eval_ite, eval_carryOut_ite]
    simp only [carryOut, eval_reg_bind, eval_setReg_bind, eval_pure, Option.elim_some, Option.elim_none, pure_bind,
      bind_assoc, hlo]
  case mthi =>
    simp only [carryOut, eval_reg_bind, eval_setReg_bind, eval_pure, Option.elim_some, Option.elim_none, pure_bind,
      bind_assoc, Function.update_eq_self]
  case mtlo =>
    simp only [carryOut, eval_reg_bind, eval_setReg_bind, eval_pure, Option.elim_some, Option.elim_none, pure_bind,
      bind_assoc]
    rw [Function.update_comm (by decide), Function.update_eq_self]
  case mult | multu =>
    simp only [carryOut, eval_reg_bind, eval_setReg_bind, eval_pure, Option.elim_some, Option.elim_none, pure_bind,
      bind_assoc]
    rw [Function.update_comm (by decide)]
  case lb | lbu =>
    simp only [carryOut, eval_reg_bind]
    refine eval_readMem_congr h fun v m => ?_
    simp only [eval_reg_bind, narrow_byte, reduceCtorEq, Bool.false_eq_true]
  case lh | lhu =>
    simp only [eval_reg_bind, eval_ite, eval_carryOut_ite]
    simp only [carryOut]
    by_cases hodd : w.sim.registers rs.toNat + extra &&& 1 ≠ 0
    · simp only [if_pos hodd]
    simp only [if_neg hodd]
    refine eval_readMem_congr h fun v m => ?_
    simp only [eval_reg_bind, narrow_half, reduceCtorEq, Bool.false_eq_true]
  case lw =>
    simp only [eval_reg_bind, eval_ite, eval_carryOut_ite]
    simp only [carryOut]
    by_cases hodd : w.sim.registers rs.toNat + extra &&& 3 ≠ 0
    · simp only [if_pos hodd]
    simp only [if_neg hodd]
    refine eval_readMem_congr h fun v m => ?_
    simp only [eval_reg_bind, id_eq]
  case lwl | lwr =>
    simp only [carryOut, eval_reg_bind]
    refine eval_readMem_congr h fun v m => ?_
    simp only [eval_reg_bind, eval_loadInProgress h, view]
  case sb | sh | sw => simp only [carryOut, eval_reg_bind, eval_writeMem h]
  case swl | swr =>
    simp only [carryOut, eval_reg_bind]
    refine eval_readMem_congr h fun v m => ?_
    simp only [eval_reg_bind]
    exact @eval_writeMem_congr handler { w with sim := { w.sim with machine := m } } _ h _ _ _ _ _ fun m' => (rfl)
  case syscall | unimp | res | rfe | special | bcond => simp only [carryOut]

/-! ### The interpreter and `Cpu` -/

/-- The registers of `c` in the array, with `rest` behind them. -/
def registersOf (c : Cpu) (rest : ℕ → Word) : ℕ → Word := fun k =>
  if k < 32 then c.gpr (BitVec.ofNat 5 k)
  else if k = HiReg then c.hi
  else if k = LoReg then c.lo
  else if k = PCReg then c.pc
  else if k = NextPCReg then c.nextPC
  else if k = PrevPCReg then c.prevPC
  else if k = LoadReg then c.loadReg.setWidth 32
  else if k = LoadValueReg then c.loadValue
  else if k = BadVAddrReg then c.badVAddr
  else rest k

section

variable {c : Cpu} {rest : ℕ → Word}

theorem registersOf_gpr (r : Reg) : registersOf c rest r.toNat = c.gpr r := by
  unfold registersOf
  rw [if_pos r.isLt, BitVec.ofNat_toNat, BitVec.setWidth_eq]

theorem update_gpr (r : Reg) (v : Word) : Function.update (registersOf c rest) r.toNat v =
    registersOf { c with gpr := Function.update c.gpr r v } rest := by
  funext k
  by_cases hk : k < 32
  · have hr : k = r.toNat ↔ BitVec.ofNat 5 k = r := by
      rw [← BitVec.toNat_inj, BitVec.toNat_ofNat, Nat.mod_eq_of_lt hk]
    simp only [Function.update_apply, registersOf, if_pos hk, hr]
  · have hne : k ≠ r.toNat := fun he => hk (he ▸ r.isLt)
    simp only [Function.update_of_ne hne, registersOf, if_neg hk]

theorem update_hi (v : Word) :
    Function.update (registersOf c rest) HiReg v = registersOf { c with hi := v } rest :=
  Function.update_eq_iff.mpr ⟨rfl, fun k hk => by simp only [registersOf, if_neg hk]⟩

theorem update_lo (v : Word) :
    Function.update (registersOf c rest) LoReg v = registersOf { c with lo := v } rest :=
  Function.update_eq_iff.mpr ⟨rfl, fun k hk => by simp only [registersOf, if_neg hk]⟩

theorem update_pc (v : Word) :
    Function.update (registersOf c rest) PCReg v = registersOf { c with pc := v } rest :=
  Function.update_eq_iff.mpr ⟨rfl, fun k hk => by simp only [registersOf, if_neg hk]⟩

theorem update_nextPC (v : Word) :
    Function.update (registersOf c rest) NextPCReg v = registersOf { c with nextPC := v } rest :=
  Function.update_eq_iff.mpr ⟨rfl, fun k hk => by simp only [registersOf, if_neg hk]⟩

theorem update_prevPC (v : Word) :
    Function.update (registersOf c rest) PrevPCReg v = registersOf { c with prevPC := v } rest :=
  Function.update_eq_iff.mpr ⟨rfl, fun k hk => by simp only [registersOf, if_neg hk]⟩

theorem update_loadValue (v : Word) :
    Function.update (registersOf c rest) LoadValueReg v = registersOf { c with loadValue := v } rest :=
  Function.update_eq_iff.mpr ⟨rfl, fun k hk => by simp only [registersOf, if_neg hk]⟩

theorem update_badVAddr (v : Word) :
    Function.update (registersOf c rest) BadVAddrReg v = registersOf { c with badVAddr := v } rest :=
  Function.update_eq_iff.mpr ⟨rfl, fun k hk => by simp only [registersOf, if_neg hk]⟩

theorem update_loadReg (r : Reg) :
    Function.update (registersOf c rest) LoadReg (r.setWidth 32) = registersOf { c with loadReg := r } rest :=
  Function.update_eq_iff.mpr ⟨rfl, fun k hk => by simp only [registersOf, if_neg hk]⟩

theorem toNat_loadReg : (registersOf c rest LoadReg).toNat = c.loadReg.toNat := by
  have hload : registersOf c rest LoadReg = c.loadReg.setWidth 32 := rfl
  rw [hload, BitVec.toNat_setWidth, Nat.mod_eq_of_lt (c.loadReg.isLt.trans (by decide))]

/-- The simulator with the registers of `c`. -/
def simOf (c : Cpu) (rest : ℕ → Word) (m : Machine) (status : MachineStatus) : Simulator :=
  ⟨registersOf c rest, m, status⟩

variable {m : Machine} {status : MachineStatus} {l : List (ExceptionType × Simulator)}

theorem view_simOf : view (simOf c rest m status) = c := by
  apply Cpu.ext
  · funext r
    exact registersOf_gpr r
  all_goals try exact (rfl)
  · apply BitVec.eq_of_toNat_eq
    change ((registersOf c rest LoadReg).setWidth 5).toNat = _
    rw [BitVec.toNat_setWidth, toNat_loadReg, Nat.mod_eq_of_lt c.loadReg.isLt]

/-- Every simulator with a general register in `LoadReg` is of this form. -/
theorem simOf_view {s : Simulator} (h : (s.registers LoadReg).toNat < 32) :
    simOf (view s) s.registers s.machine s.status = s := by
  have hload : ((s.registers LoadReg).setWidth 5).setWidth 32 = s.registers LoadReg := by
    apply BitVec.eq_of_toNat_eq
    rw [BitVec.toNat_setWidth, BitVec.toNat_setWidth, Nat.mod_eq_of_lt h, Nat.mod_eq_of_lt (h.trans (by decide))]
  have hregs : registersOf (view s) s.registers = s.registers := by
    funext k
    unfold registersOf view
    dsimp only
    by_cases hk : k < 32
    · rw [if_pos hk, BitVec.toNat_ofNat, Nat.mod_eq_of_lt hk]
    · rw [if_neg hk, hload]
      split_ifs with h1 h2 h3 h4 h5 h6 h7 h8
      · rw [h1]
      · rw [h2]
      · rw [h3]
      · rw [h4]
      · rw [h5]
      · rw [h6]
      · rw [h7]
      · rw [h8]
      · rfl
  unfold simOf
  rw [hregs]

theorem loadReg_lt : ((simOf c rest m status).registers LoadReg).toNat < 32 := by
  change (registersOf c rest LoadReg).toNat < 32
  rw [toNat_loadReg]
  exact c.loadReg.isLt

/-- `DelayedLoad` on the array. -/
theorem update_delayedLoad (r : Reg) (v : Word) :
    Function.update (Function.update (Function.update (Function.update (registersOf c rest)
      (registersOf c rest LoadReg).toNat (registersOf c rest LoadValueReg)) LoadReg (r.setWidth 32)) LoadValueReg v) 0 0 =
      registersOf (c.delayedLoad r v) rest := by
  have hload : registersOf c rest LoadValueReg = c.loadValue := rfl
  rw [toNat_loadReg, hload, update_gpr, update_loadReg, update_loadValue]
  exact update_gpr 0 0

theorem enter_simOf (badVAddr : Word) :
    enter (simOf c rest m status) badVAddr = simOf (c.raiseException badVAddr) rest m .systemMode := by
  have hload : registersOf c rest LoadReg = registersOf { c with badVAddr := badVAddr } rest LoadReg := rfl
  have hvalue : registersOf c rest LoadValueReg = registersOf { c with badVAddr := badVAddr } rest LoadValueReg := rfl
  unfold enter simOf
  dsimp only
  rw [update_badVAddr, hload, hvalue]
  exact congrArg (Simulator.mk · m _) (update_delayedLoad 0 0)

theorem eval_finish (r : Reg) (v pcAfter : Word) :
    (finish { loadReg := r.setWidth 32, loadValue := v, pcAfter }).eval ⟨simOf c rest m status, l⟩ =
      (.ok (), ⟨simOf (c.advance r v pcAfter) rest m status, l⟩) := by
  have hdelay := @eval_delayedLoad ⟨simOf c rest m status, l⟩ loadReg_lt (r.setWidth 32) v
  simp only [simOf, update_delayedLoad] at hdelay
  have hpc : registersOf (c.delayedLoad r v) rest PCReg = c.pc := rfl
  have hnext : registersOf { c.delayedLoad r v with prevPC := c.pc } rest NextPCReg = c.nextPC := rfl
  unfold finish simOf
  simp only [eval_bind, hdelay, eval_reg, eval_setReg, hpc, update_prevPC, hnext, update_pc, update_nextPC]
  rfl

theorem eval_put (dest : Option (Reg × Word)) (hilo : Option (Word × Word)) (pcAfter : Word) :
    (carryOut handler (.compute dest hilo pcAfter)).eval ⟨simOf c rest m status, l⟩ =
      (.ok { pcAfter }, ⟨simOf (c.put dest hilo) rest m status, l⟩) := by
  unfold carryOut simOf Cpu.put
  cases dest with
  | none =>
    cases hilo with
    | none => rfl
    | some d =>
      simp only [Option.elim_none, Option.elim_some, pure_bind, bind_assoc, eval_setReg_bind, eval_pure, update_lo, update_hi]
  | some e =>
    cases hilo with
    | none => simp only [Option.elim_none, Option.elim_some, pure_bind, eval_setReg_bind, eval_pure, update_gpr]
    | some d =>
      simp only [Option.elim_some, bind_assoc, eval_setReg_bind, eval_pure, update_gpr, update_lo, update_hi]

/-- What the interpreter ends with, for each outcome of an instruction. -/
def Ends (handler : ExceptionType → Simulator → Option Simulator) (rest : ℕ → Word) (status : MachineStatus)
    (l : List (ExceptionType × Simulator)) (p : Except Exit Unit × Calls) : Outcome → Prop
  | .done c m => p = (.ok (), ⟨simOf c rest m status, l⟩)
  | .raised which c m => p = handled handler which (simOf c rest m .systemMode) l
  | .divideError => p.1 = .error .divideError ∧ p.2.entered = l
  | .assertFalse => p.1 = .error .assertFalse ∧ p.2.entered = l

theorem eval_bind_ok {β : Type} {x : Sim α} {f : α → Sim β} {w w' : Calls} {a : α} (h : x.eval w = (.ok a, w')) :
    (x >>= f).eval w = (f a).eval w' := by
  rw [eval_bind, h]

theorem eval_bind_handled {β : Type} {x : Sim α} {f : α → Sim β} {w : Calls} {which : ExceptionType} {s : Simulator}
    (h : x.eval w = handled handler which s l) : (x >>= f).eval w = handled handler which s l := by
  rw [eval_bind, h]
  unfold handled
  cases handler which s <;> rfl

/-- An action and the end of the instruction. -/
theorem ends_perform (a : Action) :
    Ends handler rest status l ((carryOut handler a >>= finish).eval ⟨simOf c rest m status, l⟩) (perform c m a) := by
  have hload := @loadReg_lt c rest m status
  cases a with
  | compute dest hilo pcAfter =>
    exact (eval_bind_ok (eval_put dest hilo pcAfter)).trans (eval_finish 0 0 pcAfter)
  | load addr size r value =>
    dsimp only [perform]
    cases hread : m.readMem addr size with
    | error which =>
      have heval : (carryOut handler (.load addr size r value)).eval ⟨simOf c rest m status, l⟩ = _ :=
        eval_readMem_error hload hread _
      rw [enter_simOf] at heval
      exact eval_bind_handled heval
    | ok p =>
      have heval : (carryOut handler (.load addr size r value)).eval ⟨simOf c rest m status, l⟩ = _ :=
        eval_readMem_ok hload hread _
      exact (eval_bind_ok heval).trans (eval_finish r (value p.1) (c.nextPC + 4))
  | store addr size value =>
    dsimp only [perform]
    cases hwrite : m.writeMem addr size value with
    | error which =>
      have heval : (carryOut handler (.store addr size value)).eval ⟨simOf c rest m status, l⟩ = _ :=
        eval_writeMem_error hload hwrite _
      rw [enter_simOf] at heval
      exact eval_bind_handled heval
    | ok m' =>
      have heval : (carryOut handler (.store addr size value)).eval ⟨simOf c rest m status, l⟩ = _ :=
        eval_writeMem_ok hload hwrite _
      exact (eval_bind_ok heval).trans (eval_finish 0 0 (c.nextPC + 4))
  | modify addr value =>
    dsimp only [perform]
    cases hread : m.readMem addr .word with
    | error which =>
      have heval : (carryOut handler (.modify addr value)).eval ⟨simOf c rest m status, l⟩ = _ :=
        eval_readMem_error hload hread _
      rw [enter_simOf] at heval
      exact eval_bind_handled heval
    | ok p =>
      obtain ⟨v, m₁⟩ := p
      have hload' := @loadReg_lt c rest m₁ status
      have heval : (carryOut handler (.modify addr value)).eval ⟨simOf c rest m status, l⟩ =
          (do if !(← writeMem handler addr .word (value v)) then leave
              else return { pcAfter := (← reg NextPCReg) + 4 } : Sim Next).eval ⟨simOf c rest m₁ status, l⟩ :=
        eval_readMem_ok hload hread _
      dsimp only
      cases hwrite : m₁.writeMem addr .word (value v) with
      | error which =>
        rw [eval_writeMem_error hload' hwrite, enter_simOf] at heval
        exact eval_bind_handled heval
      | ok m' =>
        rw [eval_writeMem_ok hload' hwrite] at heval
        exact (eval_bind_ok heval).trans (eval_finish 0 0 (c.nextPC + 4))
  | raise which badVAddr =>
    have heval := @eval_raise handler ⟨simOf c rest m status, l⟩ Next hload which badVAddr
    rw [enter_simOf] at heval
    exact eval_bind_handled heval
  | divideError => exact ⟨rfl, rfl⟩
  | assertFalse => exact ⟨rfl, rfl⟩

/-- The interpreter on the array does what `oneInstruction` says. -/
theorem ends_oneInstruction (c : Cpu) (m : Machine) : Ends handler rest status l
    ((oneInstruction handler).eval ⟨simOf c rest m status, l⟩) (Nachos.oneInstruction c m) := by
  have hload := @loadReg_lt c rest m status
  unfold Nachos.oneInstruction oneInstruction
  rw [eval_reg_bind]
  cases hread : m.readMem c.pc .word with
  | error which =>
    rw [eval_readMem_error hload hread, enter_simOf]
    rfl
  | ok p =>
    obtain ⟨raw, m₁⟩ := p
    have hexec := @eval_execute handler ⟨simOf c rest m₁ status, l⟩ loadReg_lt (.decode raw)
    rw [view_simOf] at hexec
    rw [eval_readMem_ok hload hread]
    have heval := @ends_perform handler c rest m₁ status l (c.action (.decode raw))
    rwa [eval_bind, ← hexec, ← eval_bind] at heval

end

end

/-! ### Exceptions are precise -/

/-- `s₁` is the state of `s` before an instruction, but for the load in progress. -/
structure Precise (s s₁ : Simulator) : Prop where
  special : ∀ k ∈ [HiReg, LoReg, PCReg, NextPCReg, PrevPCReg], s₁.registers k = s.registers k
  general : ∀ k, 0 < k → k < 32 →
    s₁.registers k = if k = (s.registers LoadReg).toNat then s.registers LoadValueReg else s.registers k
  zero : s₁.registers 0 = 0
  memory : s₁.machine.mainMemory = s.machine.mainMemory

theorem handled_eq {handler : ExceptionType → Simulator → Option Simulator} {which : ExceptionType} {s : Simulator}
    {l : List (ExceptionType × Simulator)} {r : Except Exit Unit} {w : Calls} (h : (r, w) = handled handler which s l) :
    w.entered = l ++ [(which, s)] ∧
      match handler which s with
      | none => r = .error .noReturn
      | some s₂ => r = .error .returned ∧ w.sim = { s₂ with status := .userMode } := by
  unfold handled at h
  revert h
  cases handler which s with
  | none =>
    intro h
    obtain ⟨rfl, rfl⟩ := Prod.mk.inj h
    exact ⟨rfl, rfl⟩
  | some s₂ =>
    intro h
    obtain ⟨rfl, rfl⟩ := Prod.mk.inj h
    exact ⟨rfl, rfl, rfl⟩

theorem precise_raiseException {c : Cpu} {rest : ℕ → Word} {m m₁ : Machine} {status status₁ : MachineStatus}
    (hm : m₁.mainMemory = m.mainMemory) (badVAddr : Word) :
    Precise (simOf c rest m status) (simOf (c.raiseException badVAddr) rest m₁ status₁) where
  special := by
    intro k hk
    simp only [List.mem_cons, List.not_mem_nil, or_false] at hk
    rcases hk with rfl | rfl | rfl | rfl | rfl <;> rfl
  general := by
    intro k hpos hlt
    obtain ⟨r, rfl⟩ : ∃ r : Reg, r.toNat = k := ⟨BitVec.ofNat 5 k, by rw [BitVec.toNat_ofNat, Nat.mod_eq_of_lt hlt]⟩
    have hr : r ≠ 0 := by
      rintro rfl
      exact absurd hpos (by decide)
    change registersOf (c.raiseException badVAddr) rest r.toNat =
      if r.toNat = (registersOf c rest LoadReg).toNat then c.loadValue else registersOf c rest r.toNat
    rw [registersOf_gpr, registersOf_gpr, toNat_loadReg]
    simp only [Cpu.raiseException, Cpu.gpr_delayedLoad, if_neg hr, BitVec.toNat_inj]
  zero := by
    change registersOf (c.raiseException badVAddr) rest (0 : Reg).toNat = 0
    rw [registersOf_gpr]
    exact Cpu.gpr_delayedLoad _ _ _ 0
  memory := hm

/-- The division to come has a quotient that does not fit. -/
def DivideError (s : Simulator) : Prop :=
  ∃ i ∈ fetched (view s) s.machine, i.opCode = .div ∧ s.registers i.rs.toNat = signBit ∧ s.registers i.rt.toNat = -1

/-- An instruction raises at most one exception. Its handler finds the registers and
the memory as they were, with the load in progress carried out, and nothing is
changed after the handler; without an exception the instruction is completed,
unless the host's division fails. -/
theorem precise_exceptions (handler : ExceptionType → Simulator → Option Simulator) (s : Simulator)
    (hload : (s.registers LoadReg).toNat < 32) :
    ∃ r w, (oneInstruction handler).eval ⟨s, []⟩ = (r, w) ∧
      ((∃ which s₁, w.entered = [(which, s₁)] ∧ Precise s s₁ ∧
          match handler which s₁ with
          | none => r = .error .noReturn
          | some s₂ => r = .error .returned ∧ w.sim = { s₂ with status := .userMode }) ∨
        w.entered = [] ∧
          (r = .ok () ∧ w.sim.registers 0 = 0 ∧ (w.sim.registers LoadReg).toNat < 32 ∨
            r = .error .divideError ∧ DivideError s)) := by
  have hends := @ends_oneInstruction handler s.registers s.status [] (view s) s.machine
  rw [simOf_view hload] at hends
  generalize (oneInstruction handler).eval ⟨s, []⟩ = p at hends ⊢
  obtain ⟨r, w⟩ := p
  refine ⟨r, w, rfl, ?_⟩
  cases hone : Nachos.oneInstruction (view s) s.machine with
  | done c m =>
    rw [hone] at hends
    obtain ⟨rfl, rfl⟩ := Prod.mk.inj hends
    have hzero : registersOf c s.registers 0 = 0 := (registersOf_gpr 0).trans (gpr_zero_oneInstruction hone)
    exact Or.inr ⟨rfl, Or.inl ⟨rfl, hzero, loadReg_lt⟩⟩
  | raised which c m =>
    rw [hone] at hends
    obtain ⟨badVAddr, rfl, hm⟩ := oneInstruction_raised hone
    have hprecise := @precise_raiseException (view s) s.registers _ m s.status .systemMode hm badVAddr
    rw [simOf_view hload] at hprecise
    obtain ⟨hentered, hafter⟩ := handled_eq hends
    exact Or.inl ⟨which, _, hentered, hprecise, hafter⟩
  | divideError =>
    rw [hone] at hends
    exact Or.inr ⟨hends.2, Or.inr ⟨hends.1, oneInstruction_divideError hone⟩⟩
  | assertFalse => exact absurd hone (oneInstruction_ne_assertFalse _ _)

/-- A system call at address 0, with a load of `R8` in progress. -/
def atSyscall : Simulator where
  registers k := if k = LoadReg then 8 else if k = LoadValueReg then 7 else 0
  machine := ⟨fun p => if p = 0 then 12 else 0, [⟨0, 0, true, false, false, false⟩]⟩
  status := .userMode

theorem precise_exceptions_syscall :
    ∃ s₁, ((oneInstruction fun _ s => some s).eval ⟨atSyscall, []⟩).2.entered = [(.syscall, s₁)] ∧
      Precise atSyscall s₁ := by
  have hcall : ((oneInstruction fun _ s => some s).eval ⟨atSyscall, []⟩).2.entered.map Prod.fst = [.syscall] := by
    decide +kernel
  obtain ⟨r, w, heval, ⟨which, s₁, hentered, hprecise, -⟩ | ⟨hentered, -⟩⟩ :=
    precise_exceptions (fun _ s => some s) atSyscall (by decide)
  · rw [heval, hentered] at hcall
    obtain rfl : which = .syscall := List.head_eq_of_cons_eq hcall
    exact ⟨s₁, by rw [heval, hentered], hprecise⟩
  · rw [heval, hentered] at hcall
    exact absurd hcall (by decide)

end Interpreter

end Nachos
