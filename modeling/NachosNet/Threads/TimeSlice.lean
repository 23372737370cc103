/-
# Time slices

The threads of `threads/scheduler.cc` with the interrupts of
`machine/interrupt.cc` and the timer: `OneTick` makes the yield that the alarm
asks for when the handlers have returned.

A step is one of the scheduler or one of the interrupts, in any order that the
place of the current thread allows: simulated time goes on while the thread is
in its own code, and `Idle` is called from `Sleep` when no thread is ready. What
the handlers of the devices do to the semaphores are steps of the scheduler.

The time of the timer's next interrupt and the threads before `t` in the ready
list bound the time that `t` still waits (`Waiting`): when the timer calls, the
first of them is switched to.

Key definitions: `TimeSlicing`, `TimeSlicing.step`, `TimeSlicing.Waiting`.

Key theorem: `ready_thread_runs`.
-/
import NachosNet.Machine.Timer
import NachosNet.Threads.Scheduler

namespace Nachos

open Basis

/-! ### The ready list -/

namespace Scheduling

variable {τ ℓ : Type*} [DecidableEq τ] [DecidableEq ℓ] {s s' : Scheduling τ ℓ}

/-- The first ready thread has been switched to. -/
def Switched (s s' : Scheduling τ ℓ) : Prop :=
  ∃ n rest l, s.readyList = n :: rest ∧ s'.readyList = rest ++ l ∧ s'.status n = .running

omit [DecidableEq τ] [DecidableEq ℓ] in
/-- The thread switched to is `t`, or `t` has one thread less before it. -/
theorem Switched.position {t : τ} {ahead behind : List τ} (h : Switched s s')
    (hr : s.readyList = ahead ++ t :: behind) :
    ahead = [] ∧ s'.status t = .running ∨
    ∃ n ahead' behind', ahead = n :: ahead' ∧ s'.readyList = ahead' ++ t :: behind' := by
  obtain ⟨n, rest, l, hlist, hlist', hrunning⟩ := h
  rw [hr] at hlist
  cases ahead with
  | nil =>
    obtain ⟨rfl, -⟩ := List.cons.inj hlist
    exact Or.inl ⟨rfl, hrunning⟩
  | cons m ahead =>
    obtain ⟨-, rfl⟩ := List.cons.inj hlist
    exact Or.inr ⟨m, ahead, behind ++ l, rfl, by rw [hlist']; simp⟩

omit [DecidableEq ℓ] in
theorem readyList_readyToRun {t : τ} (h : s.readyToRun t = some s') : s'.readyList = s.readyList ++ [t] := by
  unfold readyToRun at h
  split at h
  · cases h
  · rw [← Option.some.inj h]

omit [DecidableEq ℓ] in
theorem run_spec {n : τ} {finishing : Bool} {p : Place ℓ} (h : s.run n finishing p = some s') :
    s'.readyList = s.readyList ∧ s'.status n = .running := by
  unfold run at h
  split at h
  · cases h
  split at h
  · rw [← Option.some.inj h]
    exact ⟨rfl, Function.update_self ..⟩
  · cases h

omit [DecidableEq ℓ] in
theorem readyList_checkToBeDestroyed (h : s.checkToBeDestroyed = some s') : s'.readyList = s.readyList := by
  unfold checkToBeDestroyed at h
  split at h
  · rw [Option.some.inj h]
  split at h
  · cases h
  · rw [← Option.some.inj h]

theorem readyList_passP {k : ℓ} (h : s.passP k = some s') : s'.readyList = s.readyList := by
  unfold passP at h
  split at h
  · split at h
    · cases h
    · rw [← Option.some.inj h]
      rfl
  · rw [← Option.some.inj h]
    rfl

omit [DecidableEq ℓ] in
theorem readyList_arrive {p : Place ℓ} (h : (s.checkToBeDestroyed.map fun s => s.goto p) = some s') :
    s'.readyList = s.readyList := by
  obtain ⟨s₁, hs₁, rfl⟩ := Option.map_eq_some_iff.mp h
  have hlist : s₁.readyList = s.readyList := readyList_checkToBeDestroyed hs₁
  exact hlist

theorem yield_cases (h : s.step .yield = some s') : s.readyList = [] ∧ s' = s ∨ Switched s s' := by
  simp only [step] at h
  split at h
  · split at h
    · exact Or.inl ⟨‹_›, (Option.some.inj h).symm⟩
    · rename_i n rest hr
      obtain ⟨s₁, hs₁, hs'⟩ := Option.bind_eq_some_iff.mp h
      obtain ⟨hlist, hrunning⟩ := run_spec hs'
      exact Or.inr ⟨n, rest, [s.currentThread], hr, hlist.trans (readyList_readyToRun hs₁), hrunning⟩
  · cases h

theorem readyList_step {e : Event τ ℓ} (h : s.step e = some s') :
    (∃ l, s'.readyList = s.readyList ++ l) ∨ Switched s s' := by
  cases e with
  | fork t =>
    simp only [step] at h
    split at h
    · have hlist := readyList_readyToRun h
      exact Or.inl ⟨[t], hlist⟩
    · cases h
  | yield =>
    rcases yield_cases h with ⟨-, rfl⟩ | hswitched
    · exact Or.inl ⟨[], by simp⟩
    · exact Or.inr hswitched
  | P k =>
    simp only [step] at h
    split at h
    · exact Or.inl ⟨[], by simp [readyList_passP h]⟩
    · cases h
  | again =>
    simp only [step] at h
    split at h
    · exact Or.inl ⟨[], by simp [readyList_passP h]⟩
    · cases h
  | V k =>
    simp only [step] at h
    split at h
    · rw [← Option.some.inj h]
      exact Or.inl ⟨[], by simp⟩
    · have hlist := readyList_readyToRun h
      exact Or.inl ⟨_, hlist⟩
  | finish =>
    simp only [step] at h
    split at h
    · rw [← Option.some.inj h]
      exact Or.inl ⟨[], by simp [block, goto]⟩
    · cases h
  | dispatch =>
    simp only [step] at h
    split at h
    · rename_i n rest _ hr
      obtain ⟨hlist, hrunning⟩ := run_spec h
      exact Or.inr ⟨_, _, [], hr, by simpa using hlist, hrunning⟩
    · rename_i n rest _ hr
      obtain ⟨hlist, hrunning⟩ := run_spec h
      exact Or.inr ⟨_, _, [], hr, by simpa using hlist, hrunning⟩
    · cases h
  | arrive =>
    simp only [step] at h
    split at h
    · exact Or.inl ⟨[], by simp [readyList_arrive h]⟩
    · exact Or.inl ⟨[], by simp [readyList_arrive h]⟩
    · cases h

end Scheduling

/-! ### Threads with time slices -/

/-- In the loop of `Sleep`. -/
def Place.inSleep {ℓ : Type*} : Place ℓ → Bool
  | .sleep _ => true
  | _ => false

structure TimeSlicing (τ ℓ δ : Type*) where
  interrupt : Interrupt (Called δ)
  threads : Scheduling τ ℓ

namespace TimeSlicing

inductive Event (τ ℓ δ : Type*)
  | thread (e : Scheduling.Event τ ℓ)
  | machine (random : ℕ) (e : Interrupt.Event (Called δ))

variable {τ ℓ δ : Type*} [DecidableEq τ] [DecidableEq ℓ]

/-- The place of the current thread. -/
def place (s : TimeSlicing τ ℓ δ) : Place ℓ := s.threads.place s.threads.currentThread

def totalTicks (s : TimeSlicing τ ℓ δ) : ℤ := s.interrupt.stats.totalTicks

omit [DecidableEq τ] in
/-- What the machine can do where the current thread is. Interrupts are on in a
thread's own code only, the timer is scheduled by itself, and only `Idle` is in
`IdleMode`. -/
def mayOccur (s : TimeSlicing τ ℓ δ) : Interrupt.Event (Called δ) → Bool
  | .schedule .timer _ => false
  | .schedule (.device _) _ => true
  | .setLevel .intOff => true
  | .setLevel .intOn => s.place = .running
  | .oneTick => s.place = .running
  | .idle => s.place.inSleep && s.threads.readyList.isEmpty
  | .setStatus st => st ≠ .idleMode

section System

variable (doRandom : Bool) (devices : δ → MachineStatus → List (δ × ℤ))

/-- The timer has been constructed, and the main thread is running. -/
def init (main : τ) (value : ℓ → ℤ) (random : ℕ) : TimeSlicing τ ℓ δ where
  interrupt := Interrupt.init.put .timer ((Timer.new doRandom).delay random)
  threads := .init main value

def step (s : TimeSlicing τ ℓ δ) : Event τ ℓ δ → Option (TimeSlicing τ ℓ δ)
  | .thread e => (s.threads.step e).map fun threads => { s with threads := threads }
  | .machine random e =>
    let callBack := Interrupt.handlers doRandom devices random
    let fuel := s.interrupt.pending.length
    if s.mayOccur e then
      (s.interrupt.step callBack fuel e).bind fun interrupt =>
        if s.interrupt.callsYield callBack fuel e then
          (s.threads.step .yield).map fun threads => ⟨interrupt, threads⟩
        else some { s with interrupt := interrupt }
    else none

/-- The clock stays within an `int`, and the devices schedule for later. -/
def Fits (s : TimeSlicing τ ℓ δ) : Event τ ℓ δ → Prop
  | .thread _ => True
  | .machine random e => s.interrupt.Fits (Interrupt.handlers doRandom devices random) e

instance (s : TimeSlicing τ ℓ δ) : (e : Event τ ℓ δ) → Decidable (Fits doRandom devices s e)
  | .thread _ => isTrue trivial
  | .machine random e =>
    inferInstanceAs (Decidable (s.interrupt.Fits (Interrupt.handlers doRandom devices random) e))

end System

structure Inv (doRandom : Bool) (s : TimeSlicing τ ℓ δ) : Prop where
  interrupt : s.interrupt.Inv
  outside : s.interrupt.inHandler = false
  awake : s.interrupt.status ≠ .idleMode
  threads : s.threads.Inv
  timer : ∃ D, s.interrupt.Armed D ∧ s.totalTicks < D ∧ D ≤ s.totalTicks + Timer.longest doRandom

variable {doRandom : Bool} {devices : δ → MachineStatus → List (δ × ℤ)} {s s' : TimeSlicing τ ℓ δ}

omit [DecidableEq ℓ] in
theorem inv_init (main : τ) (value : ℓ → ℤ) (random : ℕ) :
    Inv doRandom (init doRandom main value random : TimeSlicing τ ℓ δ) := by
  have hdelay := Timer.delay_mem doRandom random
  have hlongest : Timer.longest doRandom ≤ 200 := by cases doRandom <;> decide
  have hmax : (200 : ℤ) ≤ maxInt := by decide
  have hmin : minInt ≤ (0 : ℤ) := by decide
  have hzero : (Interrupt.init : Interrupt (Called δ)).stats.totalTicks = 0 := rfl
  have hput : (Interrupt.init.put Called.timer ((Timer.new doRandom).delay random) : Interrupt (Called δ)).Inv :=
    Interrupt.inv_init.put Called.timer hdelay.1 (by omega)
  refine ⟨hput, rfl, fun h => ?_, Scheduling.inv_init main value, _, Interrupt.armed_put_timer rfl _, ?_⟩
  · cases h
  · rw [toInt_eq (by omega) (by omega)]
    show (0 : ℤ) < 0 + _ ∧ 0 + _ ≤ (0 : ℤ) + _
    omega

theorem machine_cases {random : ℕ} {e : Interrupt.Event (Called δ)}
    (h : step doRandom devices s (.machine random e) = some s') :
    s.mayOccur e = true ∧
    s.interrupt.step (Interrupt.handlers doRandom devices random) s.interrupt.pending.length e = some s'.interrupt ∧
    if s.interrupt.callsYield (Interrupt.handlers doRandom devices random) s.interrupt.pending.length e then
      s.threads.step .yield = some s'.threads else s'.threads = s.threads := by
  simp only [step] at h
  split at h
  · rename_i hmay
    obtain ⟨i, hi, h⟩ := Option.bind_eq_some_iff.mp h
    refine ⟨hmay, ?_⟩
    split at h
    · rename_i hyield
      obtain ⟨threads, ht, rfl⟩ := Option.map_eq_some_iff.mp h
      rw [if_pos hyield]
      exact ⟨hi, ht⟩
    · rename_i hyield
      obtain rfl := Option.some.inj h
      rw [if_neg hyield]
      exact ⟨hi, rfl⟩
  · cases h

omit [DecidableEq τ] in
theorem ne_of_mayOccur {e : Interrupt.Event (Called δ)} (h : s.mayOccur e = true) :
    (∀ fromNow, e ≠ .schedule .timer fromNow) ∧ e ≠ .setStatus .idleMode := by
  refine ⟨?_, ?_⟩
  · rintro fromNow rfl
    cases h
  · rintro rfl
    simp [mayOccur] at h

/-- Where the timer stands after a step of the machine. -/
theorem Inv.machine (h : Inv doRandom s) {random : ℕ} {e : Interrupt.Event (Called δ)} {D : ℤ}
    (hD : s.interrupt.Armed D) (hfit : Fits doRandom devices s (.machine random e))
    (hs : step doRandom devices s (.machine random e) = some s') :
    ∃ D', s'.interrupt.Armed D' ∧ s'.totalTicks < D' ∧ s.totalTicks ≤ s'.totalTicks ∧
      (D' = D ∨ D' ≤ s'.totalTicks + Timer.longest doRandom ∧
        (e = .idle ∨ s.interrupt.callsYield (Interrupt.handlers doRandom devices random)
          s.interrupt.pending.length e = true ∧ s'.totalTicks ≤ D + 9)) := by
  obtain ⟨hmay, hi, -⟩ := machine_cases hs
  obtain ⟨D₀, hD₀, hlater, -⟩ := h.timer
  obtain rfl := hD₀.unique hD
  exact Interrupt.timer_step h.interrupt h.outside h.awake hD hlater (ne_of_mayOccur hmay).1 hfit hi

theorem inv_step {e : Event τ ℓ δ} (h : Inv doRandom s) (hfit : Fits doRandom devices s e)
    (hs : step doRandom devices s e = some s') : Inv doRandom s' := by
  cases e with
  | thread e =>
    obtain ⟨threads, ht, rfl⟩ := Option.map_eq_some_iff.mp hs
    exact ⟨h.interrupt, h.outside, h.awake, (Scheduling.inv_step h.threads ht).2, h.timer⟩
  | machine random e =>
    obtain ⟨hmay, hi, hyield⟩ := machine_cases hs
    obtain ⟨hinv, hout⟩ := Interrupt.inv_step ⟨h.interrupt, h.outside⟩ hfit hi
    refine ⟨hinv, hout, Interrupt.status_step h.awake (ne_of_mayOccur hmay).2 hi, ?_, ?_⟩
    · split at hyield
      · exact (Scheduling.inv_step h.threads hyield).2
      · rw [hyield]
        exact h.threads
    · obtain ⟨D, hD, -, hsoon⟩ := h.timer
      obtain ⟨D', hD', hlater, hpast, hcase⟩ := h.machine hD hfit hs
      refine ⟨D', hD', hlater, ?_⟩
      rcases hcase with rfl | ⟨hsoon', -⟩
      · omega
      · exact hsoon'

/-- `t` is ready, and the time by which it is switched to, were the timer as late as
it can be for each thread before it, is at most `B`. -/
structure Waiting (doRandom : Bool) (t : τ) (B : ℤ) (s : TimeSlicing τ ℓ δ) : Prop where
  inv : Inv doRandom s
  bound : ∃ ahead behind D, s.threads.readyList = ahead ++ t :: behind ∧ s.interrupt.Armed D ∧
    D + (Timer.longest doRandom + 9) * ahead.length ≤ B

theorem waiting_step {e : Event τ ℓ δ} {t : τ} {B : ℤ} (h : Waiting doRandom t B s)
    (hfit : Fits doRandom devices s e) (hs : step doRandom devices s e = some s') :
    Waiting doRandom t B s' ∨ s'.threads.status t = .running ∧ s'.totalTicks ≤ B + 9 := by
  have hinv := inv_step h.inv hfit hs
  obtain ⟨ahead, behind, D, hready, hD, hB⟩ := h.bound
  obtain ⟨D₀, hD₀, hlater, -⟩ := h.inv.timer
  obtain rfl := hD₀.unique hD
  have hlongest := Timer.longest_pos doRandom
  have hwait := Timer.slices_nonneg doRandom ahead.length
  cases e with
  | thread e =>
    obtain ⟨threads, ht, rfl⟩ := Option.map_eq_some_iff.mp hs
    rcases Scheduling.readyList_step ht with ⟨l, hl⟩ | hswitched
    · exact Or.inl ⟨hinv, ahead, behind ++ l, D₀, by simp [hl, hready], hD, hB⟩
    rcases hswitched.position hready with ⟨rfl, hrunning⟩ | ⟨n, ahead', behind', rfl, hready'⟩
    · refine Or.inr ⟨hrunning, ?_⟩
      show s.totalTicks ≤ B + 9
      omega
    · refine Or.inl ⟨hinv, ahead', behind', D₀, hready', hD, ?_⟩
      rw [List.length_cons, Nat.cast_succ, mul_add_one] at hB
      omega
  | machine random e =>
    obtain ⟨hmay, -, hyield⟩ := machine_cases hs
    obtain ⟨D', hD', hlater', -, hcase⟩ := h.inv.machine hD hfit hs
    have hbusy : e ≠ .idle := by
      rintro rfl
      simp [mayOccur, hready] at hmay
    split at hyield
    · rcases Scheduling.yield_cases hyield with ⟨hnil, -⟩ | hswitched
      · rw [hready] at hnil
        simp at hnil
      -- the timer is late by a tick at most
      have hlate : s'.totalTicks ≤ D₀ + 9 ∧ D' ≤ D₀ + (Timer.longest doRandom + 9) := by
        rcases hcase with rfl | ⟨hsoon, hidle | ⟨-, hle⟩⟩
        · omega
        · exact absurd hidle hbusy
        · omega
      rcases hswitched.position hready with ⟨rfl, hrunning⟩ | ⟨n, ahead', behind', rfl, hready'⟩
      · exact Or.inr ⟨hrunning, by omega⟩
      · refine Or.inl ⟨hinv, ahead', behind', D', hready', hD', ?_⟩
        rw [List.length_cons, Nat.cast_succ, mul_add_one] at hB
        omega
    · rename_i hno
      have hsame : D' = D₀ := by
        rcases hcase with heq | ⟨-, hidle | ⟨hyes, -⟩⟩
        · exact heq
        · exact absurd hidle hbusy
        · exact absurd hyes hno
      exact Or.inl ⟨hinv, ahead, behind, D', by rw [hyield, hready], hD', hsame ▸ hB⟩

theorem oneTick_possible (h : Inv doRandom s) (hrun : s.place = .running) {random : ℕ}
    (hfit : Fits doRandom devices s (.machine random .oneTick)) :
    ∃ s', step doRandom devices s (.machine random .oneTick) = some s' ∧ s.totalTicks < s'.totalTicks := by
  have hfits : s.interrupt.Fits (Interrupt.handlers doRandom devices random) .oneTick := hfit
  have hentry : s.interrupt.entry .oneTick = some (false, s.interrupt.tick) := rfl
  obtain ⟨fired, i, hi, -⟩ := h.interrupt.checkIfDue h.outside hentry hfits
  have hpass := hi s.interrupt.pending.length le_rfl
  have htick : s.interrupt.step (Interrupt.handlers doRandom devices random) s.interrupt.pending.length .oneTick =
      some i.untick := by
    simp only [Interrupt.step, Interrupt.perform, Interrupt.oneTick, hpass]
    rfl
  have hlater : s.totalTicks < i.untick.stats.totalTicks := by
    have hlen := (Interrupt.tickLength_mem s.interrupt).1
    rw [(Interrupt.same_untick i).stats, (Interrupt.keeps_checkIfDue hpass).2.2 rfl,
      Interrupt.totalTicks_tick h.interrupt ((hfits.entry hentry).1 rfl)]
    exact lt_add_of_pos_right _ hlen
  obtain ⟨threads, ht, -⟩ := Scheduling.step_yield h.threads hrun
  have hmay : s.mayOccur .oneTick = true := decide_eq_true hrun
  by_cases hyield : s.interrupt.callsYield (Interrupt.handlers doRandom devices random)
      s.interrupt.pending.length .oneTick = true
  · refine ⟨⟨i.untick, threads⟩, ?_, hlater⟩
    simp only [step, hmay, if_true, htick, Option.bind_some, hyield, ht, Option.map_some]
  · refine ⟨⟨i.untick, s.threads⟩, ?_, hlater⟩
    simp only [step, hmay, if_true, htick, Option.bind_some, hyield]
    rfl

/-- In every run in which the clock stays within an `int`, whatever the threads and
the devices do: simulated time can go on while the current thread is in its own code,
and a ready thread gets the processor before the time slices of the threads before it
in the ready list, and one more, have gone by. A slice is the longest delay of the
timer, and the ticks by which it may be late. -/
theorem ready_thread_runs (doRandom : Bool) (devices : δ → MachineStatus → List (δ × ℤ)) (main : τ) (value : ℓ → ℤ)
    (random : ℕ) (es : List (Event τ ℓ δ)) (s : TimeSlicing τ ℓ δ)
    (h : exec (step doRandom devices) (init doRandom main value random) es = some s)
    (hfit : Along (step doRandom devices) (Fits doRandom devices) (init doRandom main value random) es) :
    (∀ random, s.place = .running → Fits doRandom devices s (.machine random .oneTick) →
      ∃ s', step doRandom devices s (.machine random .oneTick) = some s' ∧ s.totalTicks < s'.totalTicks) ∧
    ∀ t ahead behind, s.threads.readyList = ahead ++ t :: behind →
      ∀ es' s', exec (step doRandom devices) s es' = some s' →
        Along (step doRandom devices) (Fits doRandom devices) s es' →
        s.totalTicks + (Timer.longest doRandom + 9) * (ahead.length + 1) ≤ s'.totalTicks →
        ∃ before after s₁, es' = before ++ after ∧ exec (step doRandom devices) s before = some s₁ ∧
          s₁.threads.status t = .running ∧
          s₁.totalTicks ≤ s.totalTicks + (Timer.longest doRandom + 9) * (ahead.length + 1) := by
  have hinv := exec_induction_along (P := fun _ s => Inv doRandom s) (inv_init main value random)
    (fun _ _ _ _ hi hf hs => inv_step hi hf hs) es s hfit h
  refine ⟨fun _ hrun hf => oneTick_possible hinv hrun hf, ?_⟩
  intro t ahead behind hready es' s' h' hfit' hlong
  obtain ⟨D, hD, -, hsoon⟩ := hinv.timer
  rw [mul_add_one] at hlong ⊢
  have hwaiting : Waiting doRandom t
      (s.totalTicks + Timer.longest doRandom + (Timer.longest doRandom + 9) * ahead.length) s :=
    ⟨hinv, ahead, behind, D, hready, hD, by omega⟩
  rcases exec_unless (fun _ _ _ hw hf hs => waiting_step hw hf hs) es' s s' hwaiting hfit' h' with
    hstill | ⟨before, after, s₁, hes, hrun, hrunning, hle⟩
  · -- a thread that is still waiting has not waited for so long
    obtain ⟨ahead', behind', D', -, hD', hB⟩ := hstill.bound
    obtain ⟨D₀, hD₀, hlater, -⟩ := hstill.inv.timer
    obtain rfl := hD₀.unique hD'
    have hmore := Timer.slices_nonneg doRandom ahead'.length
    omega
  · exact ⟨before, after, s₁, hes, hrun, hrunning, by omega⟩

/-- The threads compute, and the timer calls at times 100 and 200. -/
def twoSlices : List (Event ℕ Unit Unit) :=
  List.replicate 10 (.machine 0 .oneTick) ++ .thread .arrive :: List.replicate 10 (.machine 0 .oneTick) ++
    [.thread .arrive, .machine 0 .oneTick, .machine 0 .oneTick]

/-- The main thread forks two threads: the second one has the first one before it. -/
theorem ready_thread_runs_forked :
    ∃ s s' : TimeSlicing ℕ Unit Unit,
      exec (step false fun _ _ => []) (init false 0 (fun _ => 0) 0) [.thread (.fork 1), .thread (.fork 2)] = some s ∧
      s.threads.readyList = [1, 2] ∧ s.totalTicks = 0 ∧
      exec (step false fun _ _ => []) s twoSlices = some s' ∧ s'.totalTicks = 220 ∧
      ∃ before s₁, exec (step false fun _ _ => []) s before = some s₁ ∧ s₁.threads.status 2 = .running ∧
        s₁.totalTicks ≤ 218 := by
  have h : ((exec (step false fun _ _ => []) (init false 0 (fun _ => 0) 0) [.thread (.fork 1), .thread (.fork 2)]).bind
      fun s : TimeSlicing ℕ Unit Unit => (exec (step false fun _ _ => []) s twoSlices).bind fun s' =>
        some ((s.threads.readyList, s.totalTicks), s'.totalTicks, decide (Along (step false fun _ _ => [])
          (Fits false fun _ _ => []) s twoSlices))) = some (([1, 2], 0), 220, true) := by decide +kernel
  obtain ⟨s, hs, h⟩ := Option.bind_eq_some_iff.mp h
  obtain ⟨s', hs', h⟩ := Option.bind_eq_some_iff.mp h
  obtain ⟨hfirst, hlast⟩ := Prod.mk.inj (Option.some.inj h)
  obtain ⟨hready, hzero⟩ := Prod.mk.inj hfirst
  obtain ⟨htime, hfits⟩ := Prod.mk.inj hlast
  have hfork : Along (step false fun _ _ => []) (Fits false fun _ _ => [])
      (init false 0 (fun _ => 0) 0 : TimeSlicing ℕ Unit Unit) [.thread (.fork 1), .thread (.fork 2)] := by
    decide +kernel
  obtain ⟨-, hruns⟩ := ready_thread_runs false (fun _ _ => []) 0 (fun _ => 0) 0 _ s hs hfork
  obtain ⟨before, after, s₁, -, hrun, hrunning, hle⟩ :=
    hruns 2 [1] [] hready _ s' hs' (of_decide_eq_true hfits) (by rw [hzero, htime]; decide)
  refine ⟨s, s', hs, hready, hzero, hs', htime, before, s₁, hrun, hrunning, ?_⟩
  rw [hzero] at hle
  exact hle

end TimeSlicing

end Nachos
