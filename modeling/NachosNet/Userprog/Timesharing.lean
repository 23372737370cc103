/-
# Processes share the machine

The user programs of several processes on one machine, with their system calls. A program executes
instructions (`OneInstruction`) up to a `syscall`; its thread is then in the handler of
`userprog/exception.cc`, which reads the registers and the memory of the program (`ReadRegister`,
`ReadMem`), writes its memory (`WriteMem`), and comes back through `move_program_counter`, with a
result in register 2 or without one. Interrupts come and threads are switched (`Scheduler::Run`) at
any time, also while a thread is in a handler.

Each process has a machine of the architecture of its own, `Isa.Process`, with a kernel that
answers its calls. In every interleaving of processes that share no page each of them goes through
the states of its own machine, and each call is given the arguments and the bytes that are there
(`processes_follow_mips`): the machine and the kernel are shared, and no process can tell.

Key definitions: `Timesharing`, `Timesharing.step`, `Isa.Process`, `Isa.Process.step`.
-/
import NachosNet.Basis.Components
import NachosNet.Machine.Programs
import NachosNet.Threads.ContextSwitch

namespace Nachos

open Basis Machine Isa

/-! ### The handlers of system calls -/

def Cpu.writeRegister (s : Cpu) (r : Reg) (value : Word) : Cpu := { s with gpr := Function.update s.gpr r value }

def Cpu.moveProgramCounter (s : Cpu) : Cpu := { s with prevPC := s.pc, pc := s.nextPC, nextPC := s.nextPC + 4 }

/-- The end of a handler: the result, if there is one, and `move_program_counter`. -/
def Cpu.finishCall (s : Cpu) (result : Option Word) : Cpu :=
  (result.elim s (s.writeRegister 2)).moveProgramCounter

/-- The processes of a machine; `inHandler` says which threads are in the handler of a system call. -/
structure Timesharing (ι : Type*) extends UserThreads ι where
  inHandler : ι → Bool

namespace Timesharing

inductive Event (ι : Type*)
  /-- The current program executes an instruction. -/
  | instruction
  /-- An interrupt is due: `DelayedLoad(0, 0)` and the handler. -/
  | interrupt
  /-- The current thread gives up the processor, and `next` goes on. -/
  | switch (next : ι)
  /-- The handler finds `value` in a register. -/
  | readRegister (r : Reg) (value : Word)
  /-- The handler reads `value` from the memory of the program. -/
  | readMem (addr : Word) (size : Width) (value : Word)
  | writeMem (addr : Word) (size : Width) (value : Word)
  /-- The handler comes back to the program. -/
  | finish (result : Option Word)

variable {ι : Type*} [DecidableEq ι]

def machine (s : Timesharing ι) : Machine := ⟨s.mainMemory, s.space s.pageTable⟩

/-- The current program has the registers `c` and leaves the machine `m`. -/
def put (s : Timesharing ι) (c : Cpu) (m : Machine) (inHandler : Bool) : Timesharing ι :=
  { s with
    registers := c
    mainMemory := m.mainMemory
    space := Function.update s.space s.pageTable m.pageTable
    inHandler := Function.update s.inHandler s.currentThread inHandler }

/-- One event. `none` when it cannot happen, and when the machine halts: for an exception that is no system call,
also when it is raised in a handler. -/
def step (s : Timesharing ι) : Event ι → Option (Timesharing ι)
  | .instruction =>
    if s.inHandler s.currentThread then none
    else match oneInstruction s.registers s.machine with
      | .done c m => some (s.put c m false)
      | .raised which c m => if which = .syscall then some (s.put c m true) else none
      | _ => none
  | .interrupt => some { s with registers := s.registers.delayedLoad 0 0 }
  | .switch next => some { s with toUserThreads := s.toUserThreads.run next }
  | .readRegister r value => if s.inHandler s.currentThread ∧ s.registers.gpr r = value then some s else none
  | .readMem addr size value =>
    if s.inHandler s.currentThread then
      match s.machine.readMem addr size with
      | .ok (v, m) => if v = value then some (s.put s.registers m true) else none
      | .error _ => none
    else none
  | .writeMem addr size value =>
    if s.inHandler s.currentThread then
      match s.machine.writeMem addr size value with
      | .ok m => some (s.put s.registers m true)
      | .error _ => none
    else none
  | .finish result =>
    if s.inHandler s.currentThread then some (s.put (s.registers.finishCall result) s.machine false) else none

/-- The machine when process `cur` has been started and the others wait, with their registers saved. -/
def start (regs : ι → Cpu) (space : ι → PageTable) (mem : Memory) (cur : ι) : Timesharing ι :=
  ⟨UserThreads.start regs space mem cur, fun _ => false⟩

end Timesharing

/-! ### A process of its own -/

namespace Isa

/-- A machine of the architecture, of which the kernel may be executing a system call. -/
structure Process where
  state : State
  inCall : Bool

/-- What a process does, and what the kernel does in a system call. -/
inductive Process.Event
  | instruction
  | readRegister (r : Reg) (value : Word)
  | readMem (addr : Word) (size : Width) (value : Word)
  | writeMem (addr : Word) (size : Width) (value : Word)
  | finish (result : Option Word)

def State.finishCall (u : State) (result : Option Word) : State :=
  { u with gpr := result.elim u.gpr (Function.update u.gpr 2), pc := u.next, next := u.next + 4 }

/-- A step of a process alone, with the permissions of `t`. -/
def Process.step (t : PageTable) (p : Process) : Process.Event → Option Process
  | .instruction =>
    if p.inCall then none
    else match Isa.step t p.state with
      | .next u => some ⟨u, false⟩
      | .trap which u => if which = .syscall then some ⟨u, true⟩ else none
      | .undefined => none
  | .readRegister r value => if p.inCall ∧ p.state.gpr r = value then some p else none
  | .readMem addr size value =>
    if p.inCall ∧ (MemAccess.read addr size).failure t = none ∧ loadBytes p.state.mem addr size = value then some p
    else none
  | .writeMem addr size value =>
    if p.inCall ∧ (MemAccess.write addr size 0).failure t = none then
      some { p with state := { p.state with mem := storeBytes p.state.mem addr size value } }
    else none
  | .finish result => if p.inCall then some ⟨p.state.finishCall result, false⟩ else none

end Isa

namespace Timesharing

variable {ι : Type*} [DecidableEq ι]

/-- The process whose event it is, and what it is for that process. -/
def label (s : Timesharing ι) : Event ι → Option (ι × Process.Event)
  | .instruction => some (s.currentThread, .instruction)
  | .interrupt => none
  | .switch _ => none
  | .readRegister r value => some (s.currentThread, .readRegister r value)
  | .readMem addr size value => some (s.currentThread, .readMem addr size value)
  | .writeMem addr size value => some (s.currentThread, .writeMem addr size value)
  | .finish result => some (s.currentThread, .finish result)

/-- The instruction is one that the simulator executes as the architecture says. -/
def Executed (p : Process) (e : Process.Event) : Prop := e = .instruction → ¬ Deviates p.state

/-! ### One event -/

/-- The registers and the bytes of each process show the state of its own machine. -/
structure Tracks (space : ι → PageTable) (s : Timesharing ι) (ps : ι → Process) : Prop where
  table : s.pageTable = s.currentThread
  inCall : ∀ i, s.inHandler i = (ps i).inCall
  shows : ∀ i, Shows (space i) (ps i).state (s.registersOf i) ⟨s.mainMemory, s.space i⟩
  /-- An exception has carried out the load in progress. -/
  loaded : ∀ i, (ps i).inCall = true → (s.registersOf i).loadReg = 0

def Apart (space : ι → PageTable) : Prop := ∀ i j, i ≠ j → ∀ q, Own (space i) q → ¬ Own (space j) q

section Steps

variable {space : ι → PageTable} {s : Timesharing ι} {ps : ι → Process}

theorem own_of_physAddr {t : PageTable} {v : Word} {q : ℕ} (h : physAddr t v .byte false = .ok q) : Own t q :=
  own_of_translate ((translate_fst t v .byte false).trans h) ⟨Nat.le_refl q, Nat.lt_succ_self q⟩

theorem bytes_congr {m m' : Machine} (htable : m'.pageTable = m.pageTable)
    (hmem : ∀ q, Own m.pageTable q → m'.mainMemory q = m.mainMemory q) : m'.bytes = m.bytes := by
  funext v
  cases hv : physAddr m.pageTable v .byte false with
  | ok q => rw [bytes_of_physAddr hv, bytes_of_physAddr (htable ▸ hv), hmem q (own_of_physAddr hv)]
  | error e => rw [bytes, bytes, byteAt, byteAt, htable, hv]

/-- A step of the current process that changes no page but its own. -/
theorem Tracks.put (h : Tracks space s ps) (hapart : Apart space) {c : Cpu} {m : Machine} {u : State} {inCall : Bool}
    (hshows : Shows (space s.currentThread) u c m) (hloaded : inCall = true → c.loadReg = 0)
    (hother : ∀ q, ¬ Own (space s.currentThread) q → m.mainMemory q = s.mainMemory q) :
    Tracks space (s.put c m inCall) (Function.update ps s.currentThread ⟨u, inCall⟩) where
  table := h.table
  inCall i := by
    change Function.update s.inHandler s.currentThread inCall i = _
    by_cases hi : i = s.currentThread
    · rw [hi, Function.update_self, Function.update_self]
    · rw [Function.update_of_ne hi, Function.update_of_ne hi]
      exact h.inCall i
  shows i := by
    change Shows _ _ (if i = s.currentThread then c else s.userRegisters i)
      ⟨m.mainMemory, Function.update s.space s.pageTable m.pageTable i⟩
    rw [h.table]
    by_cases hi : i = s.currentThread
    · subst hi
      rw [if_pos rfl, Function.update_self, Function.update_self]
      exact hshows
    · rw [if_neg hi, Function.update_of_ne hi, Function.update_of_ne hi]
      have hi' := h.shows i
      rw [UserThreads.registersOf, if_neg hi] at hi'
      -- the bytes of the other processes are in pages of their own
      have hbytes : Machine.bytes ⟨m.mainMemory, s.space i⟩ = Machine.bytes ⟨s.mainMemory, s.space i⟩ := by
        refine bytes_congr rfl fun q hq => hother q ?_
        exact hapart i s.currentThread hi q ((own_congr hi'.table q).mp hq)
      exact { hi' with mem := hi'.mem.trans hbytes.symm }
  loaded i hi := by
    change (if i = s.currentThread then c else s.userRegisters i).loadReg = 0
    by_cases hc : i = s.currentThread
    · subst hc
      rw [Function.update_self] at hi
      rw [if_pos rfl]
      exact hloaded hi
    · rw [Function.update_of_ne hc] at hi
      have hi' := h.loaded i hi
      rw [UserThreads.registersOf, if_neg hc] at hi'
      rwa [if_neg hc]

theorem Tracks.current (h : Tracks space s ps) :
    Shows (space s.currentThread) (ps s.currentThread).state s.registers s.machine := by
  have hc := h.shows s.currentThread
  rw [UserThreads.registersOf, if_pos rfl] at hc
  rw [machine, h.table]
  exact hc

theorem Tracks.own_iff (h : Tracks space s ps) (q : ℕ) : Own s.machine.pageTable q ↔ Own (space s.currentThread) q :=
  own_congr h.current.table q

theorem oneInstruction_other {c c' : Cpu} {m m' : Machine} (h : oneInstruction c m = .done c' m') {q : ℕ}
    (hq : ¬ Own m.pageTable q) : m'.mainMemory q = m.mainMemory q := by
  obtain ⟨mem, t⟩ := m
  obtain ⟨raw, ⟨mem₀, t₀⟩, hread, hperform⟩ := oneInstruction_done h
  obtain ⟨rfl, ht₀, -⟩ := readMem_own (fun _ _ => rfl) hread
  obtain ⟨-, mem₁, hsame, -, hother⟩ := perform_own (fun _ _ => rfl) hperform
  rw [hperform] at hsame
  rw [(Outcome.done.inj hsame).2]
  exact hother q fun hown => hq ((own_congr ht₀ q).mp hown)

theorem writeMem_other {m m' : Machine} {addr value : Word} {size : Width} (h : m.writeMem addr size value = .ok m')
    {q : ℕ} (hq : ¬ Own m.pageTable q) : m'.mainMemory q = m.mainMemory q := by
  obtain ⟨mem, t⟩ := m
  obtain ⟨-, mem₁, hsame, -, hother⟩ := writeMem_own (fun _ _ => rfl) h
  rw [h] at hsame
  rw [Except.ok.inj hsame]
  exact hother q hq

theorem Tracks.instruction (h : Tracks space s ps) (hapart : Apart space) (hd : ∀ i, Distinct (space i))
    (hf : ∀ i, FramesFit (space i)) (hdev : ¬ Deviates (ps s.currentThread).state) {p : Process}
    (hp : (ps s.currentThread).step (space s.currentThread) .instruction = some p) :
    ∃ s', s.step .instruction = some s' ∧ Tracks space s' (Function.update ps s.currentThread p) := by
  have hone := h.current.oneInstruction (hd _) (hf _) hdev
  have hcall := h.inCall s.currentThread
  unfold Process.step at hp
  by_cases hin : (ps s.currentThread).inCall = true
  · rw [if_pos hin] at hp
    cases hp
  rw [if_neg hin] at hp
  rw [Bool.not_eq_true] at hin
  rw [hin] at hcall
  cases hstep : Isa.step (space s.currentThread) (ps s.currentThread).state with
  | undefined =>
    rw [hstep] at hp
    cases hp
  | next u =>
    rw [hstep] at hp hone
    obtain rfl := Option.some.inj hp
    cases hout : oneInstruction s.registers s.machine with
    | done c m =>
      rw [hout] at hone
      have hshows : Shows (space s.currentThread) u c m := hone
      refine ⟨s.put c m false, by simp only [step, hcall, hout, Bool.false_eq_true, if_false],
        h.put hapart hshows Bool.noConfusion fun q hq => ?_⟩
      exact oneInstruction_other hout fun hown => hq ((h.own_iff q).mp hown)
    | raised which c m => simp [hout, Meets] at hone
    | divideError => simp [hout, Meets] at hone
    | assertFalse => simp [hout, Meets] at hone
  | trap which u =>
    rw [hstep] at hp hone
    by_cases hw : which = .syscall
    · subst hw
      obtain rfl := Option.some.inj ((if_pos rfl).symm.trans hp)
      cases hout : oneInstruction s.registers s.machine with
      | raised which' c m =>
        rw [hout] at hone
        obtain ⟨rfl, hshows⟩ := hone
        obtain ⟨badVAddr, rfl, hmem⟩ := oneInstruction_raised hout
        exact ⟨s.put (s.registers.raiseException badVAddr) m true,
          by simp only [step, hcall, hout, Bool.false_eq_true, ↓reduceIte],
          h.put hapart hshows (fun _ => rfl) fun q _ => congrFun hmem q⟩
      | done c m => simp [hout, Meets] at hone
      | divideError => simp [hout, Meets] at hone
      | assertFalse => simp [hout, Meets] at hone
    · cases (if_neg hw).symm.trans hp

theorem gpr_of_shows {t : PageTable} {u : State} {c : Cpu} {m : Machine} (h : Shows t u c m) (hl : c.loadReg = 0)
    (r : Reg) : u.gpr r = c.gpr r := by
  rw [h.gpr_apply, hl]
  by_cases hr : r = 0
  · rw [if_pos hr, hr, h.zero]
  · rw [if_neg hr, if_neg hr]

theorem shows_finishCall {t : PageTable} {u : State} {c : Cpu} {m : Machine} (h : Shows t u c m) (hl : c.loadReg = 0)
    (result : Option Word) : Shows t (u.finishCall result) (c.finishCall result) m := by
  have h02 : (0 : Reg) ≠ 2 := by decide
  have hgpr : ∀ r, (c.finishCall result).gpr r = result.elim (c.gpr r) fun v => Function.update c.gpr 2 v r := by
    intro r
    cases result with
    | none => rfl
    | some v => rfl
  have hload : (c.finishCall result).loadReg = 0 := by
    cases result with
    | none => exact hl
    | some v => exact hl
  have hzero : (c.finishCall result).gpr 0 = 0 := by
    rw [hgpr]
    cases result with
    | none => exact h.zero
    | some v => exact (Function.update_of_ne h02 v c.gpr).trans h.zero
  have hrest : (c.finishCall result).hi = c.hi ∧ (c.finishCall result).lo = c.lo ∧ (c.finishCall result).pc = c.nextPC ∧
      (c.finishCall result).nextPC = c.nextPC + 4 := by
    cases result with
    | none => exact ⟨rfl, rfl, rfl, rfl⟩
    | some v => exact ⟨rfl, rfl, rfl, rfl⟩
  obtain ⟨hhi, hlo, hpc, hnext⟩ := hrest
  refine ⟨?_, hzero, h.hi.trans hhi.symm, h.lo.trans hlo.symm, h.next.trans hpc.symm, ?_, Or.inr hload, h.mem, h.table⟩
  · funext r
    rw [Cpu.gpr_delayedLoad, hload, hgpr]
    by_cases hr : r = 0
    · subst hr
      have hu : u.gpr 0 = 0 := (gpr_of_shows h hl 0).trans h.zero
      cases result with
      | none => exact hu
      | some v => exact (Function.update_of_ne h02 v u.gpr).trans hu
    · rw [if_neg hr, if_neg hr]
      cases result with
      | none => exact gpr_of_shows h hl r
      | some v =>
        change Function.update u.gpr 2 v r = Function.update c.gpr 2 v r
        rw [Function.update_apply, Function.update_apply, gpr_of_shows h hl r]
  · rw [hnext, ← h.next]
    rfl

theorem Tracks.loadReg (h : Tracks space s ps) (hin : (ps s.currentThread).inCall = true) : s.registers.loadReg = 0 := by
  have hl := h.loaded s.currentThread hin
  rwa [UserThreads.registersOf, if_pos rfl] at hl

/-- A handler touches what its process has, as the kernel of that process does. -/
theorem Tracks.handler (h : Tracks space s ps) (hapart : Apart space) (hd : ∀ i, Distinct (space i))
    (hf : ∀ i, FramesFit (space i)) {e : Event ι} {a : Process.Event} (hl : s.label e = some (s.currentThread, a))
    (hne : a ≠ .instruction) {p : Process}
    (hp : (ps s.currentThread).step (space s.currentThread) a = some p) :
    ∃ s', s.step e = some s' ∧ Tracks space s' (Function.update ps s.currentThread p) := by
  have hcur := h.current
  have hcall := h.inCall s.currentThread
  cases e with
  | instruction => exact absurd (Prod.mk.inj (Option.some.inj hl)).2.symm hne
  | interrupt => cases hl
  | switch next => cases hl
  | readRegister r value =>
    obtain ⟨-, rfl⟩ := Prod.mk.inj (Option.some.inj hl)
    obtain ⟨⟨hin, hvalue⟩, hp⟩ := Option.ite_none_right_eq_some.mp hp
    obtain rfl := Option.some.inj hp
    rw [gpr_of_shows hcur (h.loadReg hin)] at hvalue
    rw [Function.update_eq_self]
    exact ⟨s, if_pos ⟨hcall.trans hin, hvalue⟩, h⟩
  | readMem addr size value =>
    obtain ⟨-, rfl⟩ := Prod.mk.inj (Option.some.inj hl)
    obtain ⟨⟨hin, hfail, hvalue⟩, hp⟩ := Option.ite_none_right_eq_some.mp hp
    obtain rfl := Option.some.inj hp
    rcases read_cases (hf _) hcur.table addr size with ⟨e, he, -⟩ | ⟨-, m, hread, hview⟩
    · rw [hfail] at he
      cases he
    rw [← hcur.mem, hvalue] at hread
    refine ⟨s.put s.registers m true, ?_, ?_⟩
    · simp only [step, hcall, hin, hread, ↓reduceIte]
    · rw [show ps s.currentThread = ⟨(ps s.currentThread).state, true⟩ from by rw [← hin]]
      exact h.put hapart (hcur.sameView hview) (fun _ => h.loadReg hin) fun q _ => congrFun hview.memory q
  | writeMem addr size value =>
    obtain ⟨-, rfl⟩ := Prod.mk.inj (Option.some.inj hl)
    obtain ⟨⟨hin, hfail⟩, hp⟩ := Option.ite_none_right_eq_some.mp hp
    obtain rfl := Option.some.inj hp
    rcases write_cases (hd _) (hf _) hcur.table addr size value with ⟨e, he, -⟩ | ⟨-, m, hwrite, hbytes, hcore⟩
    · rw [hfail] at he
      cases he
    refine ⟨s.put s.registers m true, by simp only [step, hcall, hin, hwrite, ↓reduceIte], ?_⟩
    rw [hin]
    refine h.put hapart ?_ (fun _ => h.loadReg hin) fun q hq => ?_
    · exact { hcur with mem := by rw [hbytes, hcur.mem], table := hcore.trans hcur.table }
    · exact writeMem_other hwrite fun hown => hq ((h.own_iff q).mp hown)
  | finish result =>
    obtain ⟨-, rfl⟩ := Prod.mk.inj (Option.some.inj hl)
    obtain ⟨hin, hp⟩ := Option.ite_none_right_eq_some.mp hp
    obtain rfl := Option.some.inj hp
    refine ⟨s.put (s.registers.finishCall result) s.machine false, if_pos (hcall.trans hin), ?_⟩
    exact h.put hapart (shows_finishCall hcur (h.loadReg hin) result) Bool.noConfusion fun q _ => rfl

theorem Tracks.interrupt (h : Tracks space s ps) :
    Tracks space { s with registers := s.registers.delayedLoad 0 0 } ps where
  table := h.table
  inCall := h.inCall
  shows i := by
    have hi := h.shows i
    unfold UserThreads.registersOf at hi ⊢
    by_cases hc : i = s.currentThread
    · rw [if_pos hc] at hi ⊢
      exact hi.interrupt
    · rw [if_neg hc] at hi ⊢
      exact hi
  loaded i hin := by
    have hi := h.loaded i hin
    unfold UserThreads.registersOf at hi ⊢
    by_cases hc : i = s.currentThread
    · rw [if_pos hc]
      rfl
    · rw [if_neg hc] at hi ⊢
      exact hi

theorem Tracks.switch (h : Tracks space s ps) (next : ι) :
    Tracks space { s with toUserThreads := s.toUserThreads.run next } ps where
  table := rfl
  inCall := h.inCall
  shows i := (UserThreads.registersOf_run s.toUserThreads next i).symm ▸ h.shows i
  loaded i hin := (UserThreads.registersOf_run s.toUserThreads next i).symm ▸ h.loaded i hin

end Steps

/-! ### Every run -/

theorem tracks_start {regs : ι → Cpu} {space : ι → PageTable} {mem : Memory} {cur : ι} (h0 : ∀ i, (regs i).gpr 0 = 0) :
    Tracks space (start regs space mem cur) fun i => ⟨ofCpu (regs i) ⟨mem, space i⟩, false⟩ where
  table := rfl
  inCall _ := rfl
  shows i := by
    have hregs : (start regs space mem cur).registersOf i = regs i := by
      change (if i = cur then regs cur else regs i) = regs i
      by_cases hi : i = cur
      · rw [if_pos hi, hi]
      · rw [if_neg hi]
    rw [hregs]
    exact shows_ofCpu ⟨mem, space i⟩ (h0 i)
  loaded _ hin := by cases hin

/-- **Each process has a machine of its own.** Processes that share no page execute instructions and make system calls
in any interleaving, with interrupts and switches anywhere. If for all of them the own machine can take the steps and
the system calls of the process alone, and none executes an instruction in which the simulator differs (`Executed`), the
shared machine can take all steps, and each process is after them in the state of its own machine, with its registers,
its memory and its call in progress; the handlers have found the arguments and the bytes that its own kernel would have. -/
theorem processes_follow_mips (regs : ι → Cpu) (space : ι → PageTable) (mem : Memory) (cur : ι) (es : List (Event ι))
    (h0 : ∀ i, (regs i).gpr 0 = 0) (hd : ∀ i, Distinct (space i)) (hf : ∀ i, FramesFit (space i)) (hapart : Apart space)
    (ps : ι → Process)
    (hexecuted : ∀ i, Along (Process.step (space i)) Executed ⟨ofCpu (regs i) ⟨mem, space i⟩, false⟩
      (eventsOf step label i (start regs space mem cur) es))
    (halone : ∀ i, exec (Process.step (space i)) ⟨ofCpu (regs i) ⟨mem, space i⟩, false⟩
      (eventsOf step label i (start regs space mem cur) es) = some (ps i)) :
    ∃ s, exec step (start regs space mem cur) es = some s ∧ ∀ i, s.inHandler i = (ps i).inCall ∧
      Shows (space i) (ps i).state (s.registersOf i) ⟨s.mainMemory, s.space i⟩ := by
  have hown : ∀ s as e i a b, Tracks space s as → label s e = some (i, a) → Executed (as i) a →
      Process.step (space i) (as i) a = some b → ∃ s', step s e = some s' ∧ Tracks space s' (Function.update as i b) := by
    intro s as e i a b h hl hexec hb
    obtain rfl : i = s.currentThread := by
      cases e with
      | interrupt => cases hl
      | switch next => cases hl
      | _ => exact (Prod.mk.inj (Option.some.inj hl)).1.symm
    by_cases ha : a = .instruction
    · subst ha
      have he : e = .instruction := by
        cases e with
        | instruction => rfl
        | _ => cases hl
      subst he
      exact h.instruction hapart hd hf (hexec rfl) hb
    · exact h.handler hapart hd hf hl ha hb
  have hinternal : ∀ s as e, Tracks space s as → label s e = none → ∃ s', step s e = some s' ∧ Tracks space s' as := by
    intro s as e h hl
    cases e with
    | interrupt => exact ⟨_, rfl, h.interrupt⟩
    | switch next => exact ⟨_, rfl, h.switch next⟩
    | _ => cases hl
  obtain ⟨s, hs, h⟩ := exec_components (C := fun _ => Executed) hown hinternal es _ _ ps (tracks_start h0) hexecuted halone
  exact ⟨s, hs, fun i => ⟨h.inCall i, h.shows i⟩⟩

instance (p : Process) (e : Process.Event) : Decidable (Executed p e) := by
  cases e with
  | instruction => exact decidable_of_iff (¬ Deviates p.state) ⟨fun h _ => h, fun h => h rfl⟩
  | _ => exact isTrue nofun

/-- `addiu $2, $0, 22`, a system call and `addu $3, $2, $2`, in every page. -/
def callAndDouble : Memory := fun q => (programPage [0x24020016, 0x0000000c, 0x00421821]).mainMemory (q % 128)

/-- One process is in its call when the other one runs; the kernel gives the first a result and a byte, and the second
nothing. -/
def switchInCall : List (Event Bool) :=
  [.instruction, .instruction, .readRegister 2 22, .switch true, .instruction, .interrupt, .switch false,
    .writeMem 64 .byte 7, .finish (some 5), .instruction, .switch true, .instruction, .readMem 64 .byte 0, .finish none,
    .instruction]

theorem processes_follow_mips_switchInCall : ∃ (s : Timesharing Bool) (ps : Bool → Process),
    exec step (start (fun _ => UserThreads.atStart) UserThreads.pageEach callAndDouble false) switchInCall = some s ∧
    (∀ i, s.inHandler i = (ps i).inCall ∧
      Shows (UserThreads.pageEach i) (ps i).state (s.registersOf i) ⟨s.mainMemory, s.space i⟩) ∧
    (ps false).state.gpr 3 = 10 ∧ (ps true).state.gpr 3 = 44 := by
  have hvalues : ∀ i : Bool, ((exec (Process.step (UserThreads.pageEach i))
      ⟨ofCpu UserThreads.atStart ⟨callAndDouble, UserThreads.pageEach i⟩, false⟩ (eventsOf step label i
        (start (fun _ => UserThreads.atStart) UserThreads.pageEach callAndDouble false) switchInCall)).map
      fun p => p.state.gpr 3) = some (if i then 44 else 10) := by decide +kernel
  have halone := fun i => Option.map_eq_some_iff.mp (hvalues i)
  choose ps hps hgpr using halone
  have hd : ∀ i, Distinct (UserThreads.pageEach i) := fun i => distinct_of_nodup (by revert i; decide)
  have hf : ∀ i, FramesFit (UserThreads.pageEach i) := by unfold FramesFit; decide
  have hapart : Apart UserThreads.pageEach := by
    intro i j hij q hi hj
    simp only [Own, UserThreads.pageEach, List.map_cons, List.map_nil, List.mem_singleton] at hi hj
    rw [hi] at hj
    clear hi
    revert i j
    decide
  obtain ⟨s, hs, h⟩ := processes_follow_mips (fun _ => UserThreads.atStart) UserThreads.pageEach callAndDouble false
    switchInCall (fun _ => rfl) hd hf hapart ps (by decide +kernel) hps
  exact ⟨s, ps, hs, h, hgpr false, hgpr true⟩

end Timesharing

end Nachos
