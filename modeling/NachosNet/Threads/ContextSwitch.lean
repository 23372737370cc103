/-
# Context switches between user programs

`Scheduler::Run` with `SaveUserState`, `RestoreUserState` and `RestoreState`:
the registers are saved in the thread that gives up the processor and restored
from the one that gets it, and the machine is told its page table. An interrupt
that is due carries out the load in progress first (`CheckIfDue`).

Key definitions: `UserThreads`, `UserThreads.step`, `alone`, `Quiet`.

Key theorem: `switches_transparent`, processes that share no page go through the
same registers and memory as each one does alone.
-/
import NachosNet.Basis.Run
import NachosNet.Machine.Mipssim

namespace Nachos

open Basis

/-- The user programs of a machine. `pageTable` says whose table the machine uses. -/
structure UserThreads (ι : Type*) where
  registers : Cpu
  mainMemory : Memory
  pageTable : ι
  currentThread : ι
  userRegisters : ι → Cpu
  space : ι → PageTable

/-! ### A program alone -/

def nextAlone (p : Cpu × Machine) : Option (Cpu × Machine) :=
  match oneInstruction p.1 p.2 with
  | .done s m => some (s, m)
  | _ => none

def alone : Cpu × Machine → ℕ → Option (Cpu × Machine)
  | p, 0 => some p
  | p, n + 1 => (nextAlone p).bind fun q => alone q n

/-- In the next `n` instructions there is no system call or exception, and none
uses the register of a load in progress. -/
def Quiet : Cpu × Machine → ℕ → Prop
  | _, 0 => True
  | p, n + 1 => ¬ AtHazard p.1 p.2 ∧ ∃ q ∈ nextAlone p, Quiet q n

namespace UserThreads

variable {ι : Type*} [DecidableEq ι]

inductive Event (ι : Type*)
  /-- The current program executes an instruction. -/
  | instruction
  /-- An interrupt is due: `DelayedLoad(0, 0)` and the handler. -/
  | interrupt
  /-- `Yield`, with `next` taken from the ready list. -/
  | yield (next : ι)

/-- `Thread::SaveUserState` of the current thread. -/
def saveUserState (s : UserThreads ι) : UserThreads ι :=
  { s with userRegisters := Function.update s.userRegisters s.currentThread s.registers }

/-- `Thread::RestoreUserState` and `AddrSpace::RestoreState` of the current thread. -/
def restoreState (s : UserThreads ι) : UserThreads ι :=
  { s with registers := s.userRegisters s.currentThread, pageTable := s.currentThread }

def run (s : UserThreads ι) (nextThread : ι) : UserThreads ι :=
  { s.saveUserState with currentThread := nextThread }.restoreState

/-- One event. `none` when the instruction enters the kernel. -/
def step (s : UserThreads ι) : Event ι → Option (UserThreads ι)
  | .instruction =>
    match oneInstruction s.registers ⟨s.mainMemory, s.space s.pageTable⟩ with
    | .done c m => some { s with
        registers := c, mainMemory := m.mainMemory, space := Function.update s.space s.pageTable m.pageTable }
    | _ => none
  | .interrupt => some { s with registers := s.registers.delayedLoad 0 0 }
  | .yield next => some (s.run next)

/-- How many of the instructions are of program `i`. -/
def executed (i : ι) : ι → List (Event ι) → ℕ
  | _, [] => 0
  | cur, .instruction :: es => (if cur = i then 1 else 0) + executed i cur es
  | cur, .interrupt :: es => executed i cur es
  | _, .yield next :: es => executed i next es

/-- The registers of a program: the machine's, or those saved. -/
def registersOf (s : UserThreads ι) (i : ι) : Cpu := if i = s.currentThread then s.registers else s.userRegisters i

/-- Each program is in the state it would be in alone. -/
structure Tracks (s : UserThreads ι) (q : ι → Cpu × Machine) : Prop where
  table : s.pageTable = s.currentThread
  zero : ∀ i, (s.registersOf i).gpr 0 = 0 ∧ (q i).1.gpr 0 = 0
  settled : ∀ i, (q i).1.Settled (s.registersOf i)
  space : ∀ i, s.space i = (q i).2.pageTable
  memory : ∀ i p, Machine.Own (s.space i) p → s.mainMemory p = (q i).2.mainMemory p
  disjoint : ∀ i j, i ≠ j → ∀ p, Machine.Own (s.space i) p → ¬ Machine.Own (s.space j) p

variable {s : UserThreads ι} {q : ι → Cpu × Machine}

theorem Tracks.interrupt (h : Tracks s q) : Tracks { s with registers := s.registers.delayedLoad 0 0 } q where
  table := h.table
  zero i := by
    refine ⟨?_, (h.zero i).2⟩
    unfold registersOf
    split
    · simp [Cpu.gpr_delayedLoad]
    · rename_i hi
      have := (h.zero i).1
      rwa [registersOf, if_neg hi] at this
  settled i := by
    have hs := h.settled i
    unfold registersOf at hs ⊢
    split
    · rename_i hi
      rw [if_pos hi] at hs
      exact hs.interrupt
    · rename_i hi
      rwa [if_neg hi] at hs
  space := h.space
  memory := h.memory
  disjoint := h.disjoint

theorem registersOf_run (s : UserThreads ι) (next i : ι) : (s.run next).registersOf i = s.registersOf i := by
  simp only [registersOf, run, restoreState, saveUserState, Function.update_apply]
  by_cases hi : i = next
  · subst hi
    simp
  · rw [if_neg hi]

theorem Tracks.run (h : Tracks s q) (next : ι) : Tracks (s.run next) q where
  table := rfl
  zero i := by
    rw [registersOf_run]
    exact h.zero i
  settled i := by
    rw [registersOf_run]
    exact h.settled i
  space := h.space
  memory := h.memory
  disjoint := h.disjoint

theorem nextAlone_eq_some {p q : Cpu × Machine} : nextAlone p = some q ↔ oneInstruction p.1 p.2 = .done q.1 q.2 := by
  unfold nextAlone
  split
  · rename_i c m h
    rw [h, Option.some.injEq, Outcome.done.injEq, Prod.ext_iff]
  · rename_i h
    simp only [reduceCtorEq, false_iff]
    exact fun hc => h _ _ hc

/-- An instruction of the current program is the one it would execute alone, and
the other programs do not notice it. -/
theorem Tracks.instruction (h : Tracks s q) {p : Cpu × Machine}
    (hz : ¬ AtHazard (q s.currentThread).1 (q s.currentThread).2)
    (hp : nextAlone (q s.currentThread) = some p) :
    ∃ s', s.step .instruction = some s' ∧ s'.currentThread = s.currentThread ∧
      Tracks s' (Function.update q s.currentThread p) := by
  obtain ⟨hzero, hzero'⟩ := h.zero s.currentThread
  have hset := h.settled s.currentThread
  have hspace := h.space s.currentThread
  have hmem := h.memory s.currentThread
  have hregs : s.registersOf s.currentThread = s.registers := if_pos rfl
  rw [hregs] at hzero hset
  have hone := nextAlone_eq_some.mp hp
  generalize hq : q s.currentThread = r at *
  obtain ⟨c, mem, t⟩ := r
  obtain ⟨c₁, mem₁, t₁⟩ := p
  simp only at hz hone hzero' hset hspace hmem
  rw [hspace] at hmem
  obtain ⟨ht, c₁', mem₁', hone', hset', hown, hother⟩ :=
    oneInstruction_same hzero' hzero hset hz hmem hone
  have hown_iff : ∀ i b, Machine.Own (Function.update s.space s.currentThread t₁ i) b ↔ Machine.Own (s.space i) b := by
    intro i b
    by_cases hi : i = s.currentThread
    · rw [hi, Function.update_self, hspace]
      exact Machine.own_congr ht b
    · rw [Function.update_of_ne hi]
  refine ⟨{ s with registers := c₁', mainMemory := mem₁', space := Function.update s.space s.currentThread t₁ },
    by simp only [step, h.table, hspace, hone'], rfl, ?_⟩
  constructor
  · exact h.table
  · intro i
    by_cases hi : i = s.currentThread
    · subst hi
      simp only [registersOf, if_true, Function.update_self]
      exact ⟨gpr_zero_oneInstruction hone', gpr_zero_oneInstruction hone⟩
    · have := h.zero i
      simp only [registersOf, if_neg hi, Function.update_of_ne hi] at this ⊢
      exact this
  · intro i
    by_cases hi : i = s.currentThread
    · subst hi
      simp only [registersOf, if_true, Function.update_self]
      exact hset'
    · have := h.settled i
      simp only [registersOf, if_neg hi, Function.update_of_ne hi] at this ⊢
      exact this
  · intro i
    show Function.update s.space s.currentThread t₁ i = (Function.update q s.currentThread _ i).2.pageTable
    by_cases hi : i = s.currentThread
    · rw [hi, Function.update_self, Function.update_self]
    · rw [Function.update_of_ne hi, Function.update_of_ne hi]
      exact h.space i
  · intro i b hb
    have hb' := (hown_iff i b).mp hb
    by_cases hi : i = s.currentThread
    · subst hi
      rw [Function.update_self]
      exact hown b (hspace ▸ hb')
    · rw [Function.update_of_ne hi, ← h.memory i b hb']
      exact hother b fun hc => h.disjoint i s.currentThread hi b hb' (hspace ▸ hc)
  · intro i j hij b hb hc
    exact h.disjoint i j hij b ((hown_iff i b).mp hb) ((hown_iff j b).mp hc)

/-- What a run does to programs that are each in the state they would be in alone. -/
theorem Tracks.exec : ∀ (es : List (Event ι)) {s : UserThreads ι} {q : ι → Cpu × Machine}, Tracks s q →
    (∀ i, Quiet (q i) (executed i s.currentThread es)) →
    ∃ s' q', Basis.exec step s es = some s' ∧ Tracks s' q' ∧
      ∀ i, alone (q i) (executed i s.currentThread es) = some (q' i)
  | [], s, q, h, _ => ⟨s, q, rfl, h, fun _ => rfl⟩
  | .instruction :: es, s, q, h, hquiet => by
    have hcur := hquiet s.currentThread
    simp only [executed, if_true, Nat.add_comm 1, Quiet] at hcur
    obtain ⟨hz, p, hp, hq⟩ := hcur
    obtain ⟨s₁, hs₁, hc, h₁⟩ := h.instruction hz hp
    -- the programs' runs that are left
    have hrest : ∀ i, alone (q i) (executed i s.currentThread (.instruction :: es)) =
        alone (Function.update q s.currentThread p i) (executed i s₁.currentThread es) := by
      intro i
      rw [hc]
      by_cases hi : i = s.currentThread
      · subst hi
        simp only [executed, if_true, Nat.add_comm 1, Function.update_self, alone]
        rw [Option.mem_def.mp hp, Option.bind_some]
      · simp only [executed, if_neg (Ne.symm hi), Nat.zero_add, Function.update_of_ne hi]
    obtain ⟨s', q', hs', h', ha⟩ := Tracks.exec es h₁ fun i => by
      rw [hc]
      by_cases hi : i = s.currentThread
      · subst hi
        rwa [Function.update_self]
      · have := hquiet i
        simp only [executed, if_neg (Ne.symm hi), Nat.zero_add] at this
        rwa [Function.update_of_ne hi]
    exact ⟨s', q', by rw [Basis.exec, hs₁]; exact hs', h', fun i => (hrest i).trans (ha i)⟩
  | .interrupt :: es, s, q, h, hquiet => Tracks.exec es h.interrupt hquiet
  | .yield next :: es, s, q, h, hquiet => Tracks.exec es (h.run next) hquiet

/-- The machine when program `cur` has been started and the others wait, with
their registers saved. -/
def start (regs : ι → Cpu) (space : ι → PageTable) (mem : Memory) (cur : ι) : UserThreads ι :=
  ⟨regs cur, mem, cur, cur, regs, space⟩

theorem tracks_start {regs : ι → Cpu} {space : ι → PageTable} {mem : Memory} {cur : ι}
    (h0 : ∀ i, (regs i).gpr 0 = 0)
    (hd : ∀ i j, i ≠ j → ∀ p, Machine.Own (space i) p → ¬ Machine.Own (space j) p) :
    Tracks (start regs space mem cur) fun i => (regs i, ⟨mem, space i⟩) := by
  have hregs : ∀ i, (start regs space mem cur).registersOf i = regs i := by
    intro i
    unfold registersOf start
    split
    · rename_i hi
      rw [hi]
    · rfl
  constructor
  · rfl
  · intro i
    rw [hregs]
    exact ⟨h0 i, h0 i⟩
  · intro i
    rw [hregs]
    exact Or.inl rfl
  · exact fun i => rfl
  · exact fun i p _ => rfl
  · exact hd

/-- Programs that share no page, and that make no system call, raise no exception
and do not use the register of a load in progress: whatever the interrupts and
switches between their instructions, each of them has executed its instructions
as it would have alone. Its registers are the same once the load in progress
counts as carried out, and so are its page table and the bytes of its pages. -/
theorem switches_transparent (regs : ι → Cpu) (space : ι → PageTable) (mem : Memory) (cur : ι) (es : List (Event ι))
    (h0 : ∀ i, (regs i).gpr 0 = 0)
    (hd : ∀ i j, i ≠ j → ∀ p, Machine.Own (space i) p → ¬ Machine.Own (space j) p)
    (hquiet : ∀ i, Quiet (regs i, ⟨mem, space i⟩) (executed i cur es)) :
    ∃ s, exec step (start regs space mem cur) es = some s ∧ ∀ i, ∃ c m,
      alone (regs i, ⟨mem, space i⟩) (executed i cur es) = some (c, m) ∧
      (s.registersOf i).delayedLoad 0 0 = c.delayedLoad 0 0 ∧ s.space i = m.pageTable ∧
      ∀ p, Machine.Own (s.space i) p → s.mainMemory p = m.mainMemory p := by
  have hstart : Tracks (start regs space mem cur) fun i => (regs i, ⟨mem, space i⟩) := tracks_start h0 hd
  obtain ⟨s, q, hs, h, ha⟩ := Tracks.exec es hstart hquiet
  exact ⟨s, hs, fun i => ⟨(q i).1, (q i).2, ha i, (h.settled i).delayedLoad_eq, h.space i, h.memory i⟩⟩

instance decidableQuiet : ∀ (p : Cpu × Machine) (n : ℕ), Decidable (Quiet p n)
  | _, 0 => isTrue trivial
  | p, n + 1 =>
    have := fun q => decidableQuiet q n
    inferInstanceAs (Decidable (¬ AtHazard p.1 p.2 ∧ ∃ q ∈ nextAlone p, Quiet q n))

/-- `LW r1,16(r0)`, `SLL r0,r0,0`, `ADDU r2,r1,r1`, and the number 7 at 16; all
else is 0. -/
def loadAndDouble : Memory := fun p =>
  [0x10, 0, 0x01, 0x8c, 0, 0, 0, 0, 0x21, 0x10, 0x21, 0, 0, 0, 0, 0, 7].getD p 0

def atStart : Cpu := ⟨fun _ => 0, 0, 0, 0, 4, 0, 0, 0, 0⟩

/-- One page for each of two programs. -/
def pageEach (i : Bool) : PageTable := [⟨0, if i then 1 else 0, true, false, false, false⟩]

/-- The load of one program is in progress when the other one gets the processor. -/
def switchInLoad : List (Event Bool) :=
  [.instruction, .interrupt, .yield true, .instruction, .instruction, .interrupt, .yield false, .instruction,
    .instruction]

theorem switches_transparent_switchInLoad :
    ∃ s, exec step (start (fun _ => atStart) pageEach loadAndDouble false) switchInLoad = some s ∧ ∀ i, ∃ c m,
      alone (atStart, ⟨loadAndDouble, pageEach i⟩) (executed i false switchInLoad) = some (c, m) ∧
      (s.registersOf i).delayedLoad 0 0 = c.delayedLoad 0 0 ∧ s.space i = m.pageTable ∧
      ∀ p, Machine.Own (s.space i) p → s.mainMemory p = m.mainMemory p := by
  refine switches_transparent (fun _ => atStart) pageEach loadAndDouble false switchInLoad (fun _ => rfl) ?_
    (by decide +kernel)
  intro i j hij p hi hj
  simp only [Machine.Own, pageEach, List.map_cons, List.map_nil, List.mem_singleton] at hi hj
  rw [hi] at hj
  revert hij hj
  cases i <;> cases j <;> decide

end UserThreads

end Nachos
