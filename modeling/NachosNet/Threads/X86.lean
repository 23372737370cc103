/-
# The host's processor

`SWITCH` and `ThreadRoot` of `threads/switch.S` for the x86, instruction by instruction, on a memory
of bytes. `SWITCH(old, next)` saves all registers and the return address in the object of one thread
(`run_saveCode`) and takes those of the other one from its object (`run_restoreCode`). It copies the
return address over its own first argument on the stack (`4(%esp)`), where it is not needed: the
address is at `0(%esp)` already.

`ThreadRoot` makes three calls, of the functions that it finds in registers. The argument of the
second one is on the stack during the first one, which leaves it there, and the registers for the
later calls are such as a function keeps for its caller (`calls_ThreadRoot`).

Key definitions: `X86`, `X86.execute`, `X86.SWITCH`, `X86.ThreadRoot`, `X86.Returned`.
-/
import NachosNet.Basis.Words

namespace Nachos

open Basis

/-! ### The processor -/

namespace X86

abbrev Word := BitVec 32

inductive Register
  | eax | ebx | ecx | edx | esi | edi | ebp | esp
  deriving DecidableEq

inductive Operand
  /-- `%r` -/
  | reg (r : Register)
  /-- `disp(%base)` -/
  | at (disp : ℕ) (base : Register)
  /-- A variable. -/
  | var (addr : Word)

inductive Instr
  | movl (src dst : Operand)
  | pushl (src : Operand)
  | popl (dst : Register)
  /-- `call *%target`, with `after` the address of the next instruction. -/
  | call (target : Register) (after : Word)
  | ret

end X86

open X86 in
structure X86 where
  gpr : Register → X86.Word
  eip : X86.Word
  mem : X86.Word → Byte

namespace X86

def read (s : X86) : Operand → Word
  | .reg r => s.gpr r
  | .at disp base => wordAt s.mem (s.gpr base + BitVec.ofNat 32 disp)
  | .var addr => wordAt s.mem addr

def write (s : X86) (value : Word) : Operand → X86
  | .reg r => { s with gpr := Function.update s.gpr r value }
  | .at disp base => { s with mem := setWord s.mem (s.gpr base + BitVec.ofNat 32 disp) value }
  | .var addr => { s with mem := setWord s.mem addr value }

def push (s : X86) (value : Word) : X86 :=
  { s with
    gpr := Function.update s.gpr .esp (s.gpr .esp - 4)
    mem := setWord s.mem (s.gpr .esp - 4) value }

/-- One instruction. `call` goes to the entry of the function. -/
def execute (s : X86) : Instr → X86
  | .movl src dst => s.write (s.read src) dst
  | .pushl src => s.push (s.read src)
  | .popl dst =>
    { s with gpr := Function.update (Function.update s.gpr .esp (s.gpr .esp + 4)) dst (wordAt s.mem (s.gpr .esp)) }
  | .call target after => { s.push after with eip := s.gpr target }
  | .ret => { s with gpr := Function.update s.gpr .esp (s.gpr .esp + 4), eip := wordAt s.mem (s.gpr .esp) }

/-- Instructions one after the other. -/
def run (code : List Instr) (s : X86) : X86 := code.foldl execute s

/-! ### `SWITCH` -/

/-- The words of a `Thread` object: `stackTop`, then `machineState`. -/
def index : Register → ℕ
  | .esp => 0
  | .eax => 1
  | .ebx => 2
  | .ecx => 3
  | .edx => 4
  | .ebp => 5
  | .esi => 6
  | .edi => 7

def pcIndex : ℕ := 8

/-- `_ESP`, `_EAX`, … -/
def offset (r : Register) : ℕ := 4 * index r

/-- `_PC` -/
def pcOffset : ℕ := 4 * pcIndex

/-- The half of `SWITCH` that saves the old thread. -/
def saveCode (eaxSave : Word) : List Instr :=
  [.movl (.reg .eax) (.var eaxSave),
    .movl (.at 4 .esp) (.reg .eax),
    .movl (.reg .ebx) (.at (offset .ebx) .eax),
    .movl (.reg .ecx) (.at (offset .ecx) .eax),
    .movl (.reg .edx) (.at (offset .edx) .eax),
    .movl (.reg .esi) (.at (offset .esi) .eax),
    .movl (.reg .edi) (.at (offset .edi) .eax),
    .movl (.reg .ebp) (.at (offset .ebp) .eax),
    .movl (.reg .esp) (.at (offset .esp) .eax),
    .movl (.var eaxSave) (.reg .ebx),
    .movl (.reg .ebx) (.at (offset .eax) .eax),
    .movl (.at 0 .esp) (.reg .ebx),
    .movl (.reg .ebx) (.at pcOffset .eax)]

/-- The half that restores the new one. -/
def restoreCode (eaxSave : Word) : List Instr :=
  [.movl (.at 8 .esp) (.reg .eax),
    .movl (.at (offset .eax) .eax) (.reg .ebx),
    .movl (.reg .ebx) (.var eaxSave),
    .movl (.at (offset .ebx) .eax) (.reg .ebx),
    .movl (.at (offset .ecx) .eax) (.reg .ecx),
    .movl (.at (offset .edx) .eax) (.reg .edx),
    .movl (.at (offset .esi) .eax) (.reg .esi),
    .movl (.at (offset .edi) .eax) (.reg .edi),
    .movl (.at (offset .ebp) .eax) (.reg .ebp),
    .movl (.at (offset .esp) .eax) (.reg .esp),
    .movl (.at pcOffset .eax) (.reg .eax),
    .movl (.reg .eax) (.at 4 .esp),
    .movl (.var eaxSave) (.reg .eax),
    .ret]

def SWITCH (eaxSave : Word) : List Instr := saveCode eaxSave ++ restoreCode eaxSave

theorem index_lt (r : Register) : index r < 9 := by cases r <;> decide

/-- The registers as `SWITCH` leaves them in the object, in this order. -/
def savedFields (gpr : Register → Word) (pc : Word) : List (ℕ × Word) :=
  [(index .ebx, gpr .ebx), (index .ecx, gpr .ecx), (index .edx, gpr .edx), (index .esi, gpr .esi),
    (index .edi, gpr .edi), (index .ebp, gpr .ebp), (index .esp, gpr .esp), (index .eax, gpr .eax), (pcIndex, pc)]

theorem savedFields_lt (gpr : Register → Word) (pc : Word) : ∀ f ∈ savedFields gpr pc, f.1 < 9 := by
  simp only [savedFields, List.forall_mem_cons, index, pcIndex, List.not_mem_nil, false_imp_iff, implies_true, and_true]
  decide

theorem nodup_savedFields (gpr : Register → Word) (pc : Word) : ((savedFields gpr pc).map Prod.fst).Nodup := by
  simp only [savedFields, List.map_cons, List.map_nil, index, pcIndex]
  decide

section Spec

variable {eaxSave old next : Word} {s : X86}

theorem run_saveCode (hold : wordAt s.mem (field (s.gpr .esp) 1) = old) (hvar : ∀ i < 9, Apart (field old i) eaxSave)
    (hsp : ∀ i < 9, Apart (field old i) (s.gpr .esp)) (hvar0 : Apart eaxSave (s.gpr .esp))
    (hvar1 : Apart eaxSave (field (s.gpr .esp) 1)) :
    run (saveCode eaxSave) s = { s with
      gpr := Function.update (Function.update s.gpr .eax old) .ebx (wordAt s.mem (s.gpr .esp))
      mem := setFields old (savedFields s.gpr (wordAt s.mem (s.gpr .esp))) (setWord s.mem eaxSave (s.gpr .eax)) } := by
  have h4 : s.gpr .esp + BitVec.ofNat 32 4 = field (s.gpr .esp) 1 := rfl
  have h0 : s.gpr .esp + BitVec.ofNat 32 0 = s.gpr .esp := BitVec.add_zero _
  have hfield : ∀ r, old + BitVec.ofNat 32 (offset r) = field old (index r) := fun _ => rfl
  have hpc : old + BitVec.ofNat 32 pcOffset = field old pcIndex := rfl
  simp only [run, saveCode, List.foldl_cons, List.foldl_nil, execute, read, write, Function.update_self, ne_eq,
    reduceCtorEq, not_false_eq_true, Function.update_of_ne, h4, h0, hfield, hpc, hold, wordAt_setWord_self,
    wordAt_setWord_of_apart _ _ hvar1, wordAt_setWord_of_apart _ _ hvar0,
    wordAt_setWord_of_apart _ _ (hvar _ (index_lt _)), wordAt_setWord_of_apart _ _ (hsp _ (index_lt _)),
    Function.update_idem]
  rfl

/-- The restored registers, from the object of the new thread. -/
def restored (mem : Word → Byte) (next : Word) (r : Register) : Word := wordAt mem (field next (index r))

theorem run_restoreCode (hnext : wordAt s.mem (field (s.gpr .esp) 2) = next) (hvar : ∀ i < 9, Apart eaxSave (field next i))
    (harg : Apart (field (restored s.mem next .esp) 1) eaxSave) :
    run (restoreCode eaxSave) s =
      let mem := setWord (setWord s.mem eaxSave (restored s.mem next .eax)) (field (restored s.mem next .esp) 1)
        (wordAt s.mem (field next pcIndex))
      ⟨Function.update (restored s.mem next) .esp (restored s.mem next .esp + 4), wordAt mem (restored s.mem next .esp),
        mem⟩ := by
  have h8 : s.gpr .esp + BitVec.ofNat 32 8 = field (s.gpr .esp) 2 := rfl
  have hfield : ∀ r, next + BitVec.ofNat 32 (offset r) = field next (index r) := fun _ => rfl
  have hpc : next + BitVec.ofNat 32 pcOffset = field next pcIndex := rfl
  have h4 : ∀ a : Word, a + BitVec.ofNat 32 4 = field a 1 := fun _ => rfl
  have hread : ∀ r, wordAt s.mem (field next (index r)) = restored s.mem next r := fun _ => rfl
  simp only [run, restoreCode, List.foldl_cons, List.foldl_nil, execute, read, write, Function.update_self, ne_eq,
    reduceCtorEq, not_false_eq_true, Function.update_of_ne, h8, h4, hfield, hpc, hnext, hread, wordAt_setWord_self,
    wordAt_setWord_of_apart _ _ (hvar _ (index_lt _)), wordAt_setWord_of_apart _ _ (hvar pcIndex (by decide)),
    wordAt_setWord_of_apart _ _ harg]
  refine congrArg (fun gpr => X86.mk gpr _ _) (funext fun r => ?_)
  cases r <;> simp

end Spec

/-! ### `ThreadRoot` -/

/-- `ThreadRoot`, with the addresses behind its calls. `ThreadFinish` does not return. -/
def ThreadRoot (after : ℕ → Word) : List Instr :=
  [.pushl (.reg .ebp),
    .movl (.reg .esp) (.reg .ebp),
    .pushl (.reg .edx),
    .call .ecx (after 0),
    .call .esi (after 1),
    .call .edi (after 2),
    .movl (.reg .ebp) (.reg .esp),
    .popl .ebp,
    .ret]

/-- The states at the entries of the functions that are called, when `callee` is what a function does from its entry until
it returns. -/
def calls (callee : X86 → X86) : List Instr → X86 → List X86
  | [], _ => []
  | i :: code, s =>
    match i with
    | .call target after => s.execute (.call target after) :: calls callee code (callee (s.execute (.call target after)))
    | i => calls callee code (s.execute i)

/-- A function with `args` words of arguments has returned: it keeps the registers that are its caller's, and what is on
the stack above its arguments, up to `top`. -/
structure Returned (top : Word) (args : ℕ) (s t : X86) : Prop where
  kept : ∀ r, r = .ebx ∨ r = .esi ∨ r = .edi ∨ r = .ebp → t.gpr r = s.gpr r
  esp : t.gpr .esp = s.gpr .esp + 4
  eip : t.eip = wordAt s.mem (s.gpr .esp)
  stack : ∀ a ∈ span (field (s.gpr .esp) (args + 1)) (top - field (s.gpr .esp) (args + 1)).toNat, t.mem a = s.mem a

theorem execute_call (s : X86) (target : Register) (after : Word) : (s.execute (.call target after)).eip = s.gpr target ∧
    (s.execute (.call target after)).gpr = Function.update s.gpr .esp (s.gpr .esp - 4) ∧
    (s.execute (.call target after)).mem = setWord s.mem (s.gpr .esp - 4) after := ⟨rfl, rfl, rfl⟩

/-- The calls of `ThreadRoot`. The argument stays on the stack during the first call, and the procedure finds it. -/
theorem calls_ThreadRoot {callee : X86 → X86} {s : X86} {top : Word}
    (hbegin : ∀ t, t.eip = s.gpr .ecx → Returned top 0 t (callee t))
    (hfunc : ∀ t, t.eip = s.gpr .esi → Returned top 1 t (callee t)) (hroom : 4 ≤ (top - (s.gpr .esp - 8)).toNat)
    (after : ℕ → Word) :
    ∃ b f d, calls callee (ThreadRoot after) s = [b, f, d] ∧ b.eip = s.gpr .ecx ∧ f.eip = s.gpr .esi ∧
      wordAt f.mem (field (f.gpr .esp) 1) = s.gpr .edx ∧ d.eip = s.gpr .edi := by
  have h8 : s.gpr .esp - 4 - 4 = s.gpr .esp - 8 := by bv_omega
  have hfield : ∀ e : Word, field (e - 4) 1 = e := fun e => BitVec.sub_add_cancel ..
  have hpush : ∀ e : Word, Apart (e - 4) e := by
    intro e
    unfold Apart
    bv_omega
  -- the stack up to the first call
  obtain ⟨s₁, hs₁⟩ : ∃ s₁, s₁ = run [.pushl (.reg .ebp), .movl (.reg .esp) (.reg .ebp), .pushl (.reg .edx)] s := ⟨_, rfl⟩
  have hregs : ∀ r, r ≠ .esp → r ≠ .ebp → s₁.gpr r = s.gpr r := by
    intro r hesp hebp
    rw [hs₁]
    change Function.update (Function.update (Function.update s.gpr .esp _) .ebp _) .esp _ r = _
    rw [Function.update_of_ne hesp, Function.update_of_ne hebp, Function.update_of_ne hesp]
  have hesp : s₁.gpr .esp = s.gpr .esp - 8 := by
    rw [hs₁, ← h8]
    rfl
  have harg : wordAt s₁.mem (s₁.gpr .esp) = s.gpr .edx := by
    rw [hs₁]
    exact wordAt_setWord_self ..
  -- `ThreadBegin` leaves the argument, and the registers for the other calls
  obtain ⟨b, hb⟩ : ∃ b, b = s₁.execute (.call .ecx (after 0)) := ⟨_, rfl⟩
  obtain ⟨hbip, hbgpr, hbmem⟩ := execute_call s₁ .ecx (after 0)
  rw [← hb] at hbip hbgpr hbmem
  rw [hregs .ecx Register.noConfusion Register.noConfusion] at hbip
  have hbret := hbegin b hbip
  have hbesp : b.gpr .esp = s₁.gpr .esp - 4 := by rw [hbgpr, Function.update_self]
  have hesp' : (callee b).gpr .esp = s₁.gpr .esp := by rw [hbret.esp, hbesp, BitVec.sub_add_cancel]
  have harg' : wordAt (callee b).mem (s₁.gpr .esp) = s.gpr .edx := by
    rw [← harg, ← wordAt_setWord_of_apart s₁.mem (after 0) (hpush (s₁.gpr .esp)), ← hbmem]
    refine wordAt_congr fun k hk => hbret.stack _ ?_
    rw [Nat.zero_add, hbesp, hfield, hesp]
    exact add_mem_span _ (Nat.lt_of_lt_of_le hk hroom)
  have hkept : ∀ r, r = .esi ∨ r = .edi → (callee b).gpr r = s.gpr r := by
    intro r hr
    rw [hbret.kept r (Or.inr (hr.imp_right Or.inl)), hbgpr]
    rcases hr with rfl | rfl
    · rw [Function.update_of_ne Register.noConfusion, hregs _ Register.noConfusion Register.noConfusion]
    · rw [Function.update_of_ne Register.noConfusion, hregs _ Register.noConfusion Register.noConfusion]
  -- the procedure
  obtain ⟨f, hf⟩ : ∃ f, f = (callee b).execute (.call .esi (after 1)) := ⟨_, rfl⟩
  obtain ⟨hfip, hfgpr, hfmem⟩ := execute_call (callee b) .esi (after 1)
  rw [← hf] at hfip hfgpr hfmem
  rw [hkept .esi (Or.inl rfl)] at hfip
  have hfret := hfunc f hfip
  have hfarg : wordAt f.mem (field (f.gpr .esp) 1) = s.gpr .edx := by
    rw [hfgpr, Function.update_self, hfield, hfmem, wordAt_setWord_of_apart _ _ (hpush _), hesp', harg']
  have hdone : (callee f).gpr .edi = s.gpr .edi := by
    rw [hfret.kept .edi (Or.inr (Or.inr (Or.inl rfl))), hfgpr, Function.update_of_ne Register.noConfusion, hkept .edi (Or.inr rfl)]
  refine ⟨b, f, (callee f).execute (.call .edi (after 2)), ?_, hbip, hfip, hfarg, hdone⟩
  rw [hf, hb, hs₁]
  rfl

end X86

end Nachos
