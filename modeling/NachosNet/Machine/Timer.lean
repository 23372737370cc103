/-
# The timer

`machine/timer.cc` and `threads/alarm.cc`, on `machine/interrupt.cc`. The timer
sets itself again in every call, and the alarm asks for a yield unless the
machine is idle. The other devices schedule what they like, the timer apart.
`random` is what `RandomNumber` returns to the timer in a pass: it draws at most
one number there, since it is due once.

Outside the handlers the timer has one interrupt pending (`Armed`). A pass of
`CheckIfDue` leaves it, or the timer has been called and is set again
(`Rearmed`); nothing is due after the pass, so that the timer is called at the
first tick after its time (`timer_step`).

Key definitions: `Timer`, `Interrupt.handlers`, `Interrupt.Armed`, `Interrupt.callsYield`.

Key theorem: `Interrupt.timer_step`.
-/
import NachosNet.Machine.Devices

namespace Nachos

open Basis

/-- What an interrupt calls: the timer, or another device. -/
inductive Called (δ : Type*)
  | timer
  | device (d : δ)

structure Timer where
  randomize : Bool
  disable : Bool

namespace Timer

/-- `Timer::Timer`, before its call of `SetInterrupt`. -/
def new (doRandom : Bool) : Timer := ⟨doRandom, false⟩

def delay (timer : Timer) (random : ℕ) : ℤ := Device.delay timer.randomize fun _ => random

def setInterrupt {δ : Type*} (timer : Timer) (random : ℕ) : List (Called δ × ℤ) :=
  if timer.disable then [] else [(.timer, timer.delay random)]

end Timer

/-- `Alarm::CallBack`: whether it calls `YieldOnReturn`. -/
def Alarm.callBack (status : MachineStatus) : Bool := status ≠ .idleMode

def Timer.callBack {δ : Type*} (timer : Timer) (random : ℕ) (status : MachineStatus) : Handled (Called δ) :=
  ⟨timer.setInterrupt random, Alarm.callBack status⟩

namespace Timer

/-- The longest delay. -/
def longest (doRandom : Bool) : ℤ := if doRandom then timerTicks * 2 else timerTicks

theorem delay_mem (doRandom : Bool) (random : ℕ) :
    0 < (new doRandom).delay random ∧ (new doRandom).delay random ≤ longest doRandom := by
  have hticks : timerTicks = 100 := rfl
  cases doRandom with
  | false => simp [new, delay, Device.delay, longest, hticks]
  | true =>
    simp only [new, delay, Device.delay, longest, hticks, if_true]
    omega

theorem longest_pos (doRandom : Bool) : 0 < longest doRandom := by cases doRandom <;> decide

theorem slices_nonneg (doRandom : Bool) (n : ℕ) : 0 ≤ (longest doRandom + 9) * (n : ℤ) := by
  have hpos := longest_pos doRandom
  exact Int.mul_nonneg (by omega) (Int.natCast_nonneg n)

end Timer

/-! ### What the handlers leave alone -/

namespace Interrupt

section Keep

variable {κ : Type*} {callBack : κ → MachineStatus → Handled κ} {s s' : Interrupt κ}

theorem keeps_schedules (calls : List (κ × ℤ)) (s : Interrupt κ)
    (h : calls.foldlM (fun s c => s.schedule c.1 c.2) s = .ok s') :
    s'.stats = s.stats ∧ s'.status = s.status ∧ s'.yieldOnReturn = s.yieldOnReturn := by
  induction calls generalizing s with
  | nil =>
    rw [← Except.ok.inj h]
    exact ⟨rfl, rfl, rfl⟩
  | cons c calls ih =>
    rw [List.foldlM_cons, schedule] at h
    split at h
    · exact ih (s.put c.1 c.2) h
    · cases h

theorem keeps_drain (n : ℕ) (s : Interrupt κ) (h : drain callBack n s = .ok s') :
    s'.stats = s.stats ∧ s'.status = s.status := by
  induction n generalizing s with
  | zero => cases h
  | succ n ih =>
    obtain ⟨_, next, rest, s₁, heq, hp, hi, hcase⟩ := drain_cases h
    obtain rfl := Nat.succ.inj heq
    obtain ⟨hstats, hstatus, -⟩ := keeps_schedules _ _ hi
    rcases hcase with ⟨-, hd⟩ | ⟨-, rfl⟩
    · obtain ⟨hstats', hstatus'⟩ := ih s₁ hd
      exact ⟨hstats'.trans hstats, hstatus'.trans hstatus⟩
    · exact ⟨hstats, hstatus⟩

/-- A pass that does not advance the clock makes no time go by. -/
theorem keeps_checkIfDue {n : ℕ} {advanceClock : Bool} {r : Bool × Interrupt κ}
    (h : checkIfDue callBack n advanceClock s = .ok r) :
    r.2.status = s.status ∧ s.stats.totalTicks ≤ r.2.stats.totalTicks ∧ (advanceClock = false → r.2.stats = s.stats) := by
  rcases checkIfDue_eq callBack advanceClock (level_of_checkIfDue h) with ⟨-, heq⟩ | ⟨next, rest, hp, hgo, heq⟩
  · rw [heq n] at h
    rw [← Except.ok.inj h]
    exact ⟨rfl, le_rfl, fun _ => rfl⟩
  · rw [heq n] at h
    cases hd : drain callBack n (s.enter next) with
    | error e => rw [hd] at h; cases h
    | ok s₁ =>
      rw [hd] at h
      obtain rfl := Except.ok.inj h
      obtain ⟨hstats, hstatus⟩ := keeps_drain n _ hd
      refine ⟨hstatus.trans (same_enter s next).2.2.1, ?_, fun hadv => ?_⟩
      · show s.stats.totalTicks ≤ s₁.stats.totalTicks
        rw [hstats, enter, advance]
        split
        · exact le_of_lt ‹_›
        · exact le_rfl
      · have hdue : next.when ≤ s.stats.totalTicks := by
          by_contra hlt
          rw [hgo (not_le.mp hlt)] at hadv
          cases hadv
        show s₁.stats = s.stats
        rw [hstats, enter_of_due hdue]

theorem status_oneTick {fuel : ℕ} (h : s.status ≠ .idleMode) (hs : s.oneTick callBack fuel = .ok s') :
    s'.status ≠ .idleMode := by
  unfold oneTick at hs
  cases hc : checkIfDue callBack fuel false s.tick with
  | error e => rw [hc] at hs; cases hs
  | ok r =>
    rw [hc] at hs
    obtain rfl := Except.ok.inj hs
    have hr : r.2.status = s.status := (keeps_checkIfDue hc).1
    unfold untick
    split
    · exact fun hidle => by cases hidle
    · exact hr ▸ h

/-- Only `Idle` is in `IdleMode`. -/
theorem status_step {fuel : ℕ} {e : Event κ} (h : s.status ≠ .idleMode) (he : e ≠ .setStatus .idleMode)
    (hs : step callBack fuel s e = some s') : s'.status ≠ .idleMode := by
  unfold step at hs
  cases hp : s.perform callBack fuel e with
  | error err => rw [hp] at hs; cases hs
  | ok s₁ =>
    rw [hp] at hs
    obtain rfl := Option.some.inj hs
    cases e with
    | schedule toCall fromNow =>
      simp only [perform, schedule] at hp
      split at hp
      · rw [← Except.ok.inj hp]
        exact h
      · cases hp
    | setStatus st =>
      rw [← Except.ok.inj hp]
      exact fun hidle => he (congrArg Event.setStatus hidle)
    | oneTick => exact status_oneTick h hp
    | setLevel now =>
      simp only [perform, setLevel] at hp
      split at hp
      · cases hp
      split at hp
      · have hawake : ({ s with level := now } : Interrupt κ).status ≠ .idleMode := h
        exact status_oneTick hawake hp
      · rw [← Except.ok.inj hp]
        exact h
    | idle =>
      simp only [perform, idle, bind, Except.bind] at hp
      split at hp
      · cases hp
      split at hp
      · rw [← Except.ok.inj hp]
        exact fun hidle => by cases hidle
      · cases hp

end Keep

/-! ### The timer's interrupt -/

section Armed

variable {δ : Type*} {s s' : Interrupt (Called δ)} {D : ℤ}

def isTimer (i : PendingInterrupt (Called δ)) : Bool :=
  match i.callOnInterrupt with
  | .timer => true
  | .device _ => false

/-- The timer has one interrupt pending, for the time `D`. -/
def Armed (D : ℤ) (s : Interrupt (Called δ)) : Prop := ∃ i, s.pending.filter isTimer = [i] ∧ i.when = D

theorem Armed.mem (h : Armed D s) : ∃ i ∈ s.pending, i.when = D := by
  obtain ⟨i, hi, hw⟩ := h
  exact ⟨i, List.mem_of_mem_filter (hi ▸ List.mem_singleton_self i : i ∈ s.pending.filter isTimer), hw⟩

theorem Armed.unique {D' : ℤ} (h : Armed D s) (h' : Armed D' s) : D = D' := by
  obtain ⟨i, hi, rfl⟩ := h
  obtain ⟨j, hj, rfl⟩ := h'
  rw [List.singleton_inj.mp (hi.symm.trans hj)]

theorem Armed.congr (h : Armed D s) (ht : s'.pending.filter isTimer = s.pending.filter isTimer) : Armed D s' := by
  obtain ⟨i, hi, hw⟩ := h
  exact ⟨i, ht.trans hi, hw⟩

theorem filter_put_device (s : Interrupt (Called δ)) (d : δ) (fromNow : ℤ) :
    (s.put (.device d) fromNow).pending.filter isTimer = s.pending.filter isTimer := filter_insert rfl

/-- The timer, whose interrupt is no longer pending, sets it again. -/
theorem armed_put_timer (h : s.pending.filter isTimer = []) (fromNow : ℤ) :
    Armed (toInt (s.stats.totalTicks + fromNow)) (s.put .timer fromNow) := by
  refine ⟨⟨s.scheduled, .timer, toInt (s.stats.totalTicks + fromNow)⟩, ?_, rfl⟩
  apply List.perm_singleton.mp
  refine (perm_insert.filter isTimer).trans ?_
  rw [List.filter_cons_of_pos rfl, h]

theorem filter_schedules_device (calls : List (δ × ℤ)) (s : Interrupt (Called δ))
    (h : (calls.map fun c => (Called.device c.1, c.2)).foldlM (fun s c => s.schedule c.1 c.2) s = .ok s') :
    s'.pending.filter isTimer = s.pending.filter isTimer := by
  induction calls generalizing s with
  | nil => rw [← Except.ok.inj h]
  | cons c calls ih =>
    rw [List.map_cons, List.foldlM_cons, schedule] at h
    split at h
    · exact (ih _ h).trans (filter_put_device s c.1 c.2)
    · cases h

variable (doRandom : Bool) (devices : δ → MachineStatus → List (δ × ℤ)) (random : ℕ)

/-- The handlers, when the timer next gets the number `random`. -/
def handlers : Called δ → MachineStatus → Handled (Called δ)
  | .timer, status => (Timer.new doRandom).callBack random status
  | .device d, status => ⟨(devices d status).map fun c => (.device c.1, c.2), false⟩

/-- The timer has called, and set itself again. -/
structure Rearmed (s : Interrupt (Called δ)) : Prop where
  armed : Armed (toInt (s.stats.totalTicks + (Timer.new doRandom).delay random)) s
  yields : s.status ≠ .idleMode → s.yieldOnReturn = true

variable {doRandom devices random}

/-- The handler of a device leaves the timer alone, and the timer sets itself again. -/
theorem timer_invoke {next : PendingInterrupt (Called δ)} {rest : List (PendingInterrupt (Called δ))}
    (h : Armed D s ∨ Rearmed doRandom random s) (hp : s.pending = next :: rest)
    (hs : s.invoke (handlers doRandom devices random) next rest = .ok s') :
    Armed D s' ∨ Rearmed doRandom random s' := by
  obtain ⟨hstats, hstatus, hyields⟩ := keeps_schedules _ _ hs
  cases hnext : next.callOnInterrupt with
  | device d =>
    have hfilter : s'.pending.filter isTimer = s.pending.filter isTimer := by
      rw [invoke, hnext] at hs
      have hskip : rest.filter isTimer = s.pending.filter isTimer := by
        rw [hp, List.filter_cons_of_neg (by simp [isTimer, hnext])]
      exact (filter_schedules_device _ _ hs).trans hskip
    refine h.imp (fun ha => ha.congr hfilter) fun hr => ⟨?_, fun hidle => ?_⟩
    · rw [hstats]
      exact hr.armed.congr hfilter
    · rw [hyields]
      show (s.yieldOnReturn || _) = true
      rw [hr.yields (hstatus ▸ hidle), Bool.true_or]
  | timer =>
    have hnone : rest.filter isTimer = [] := by
      obtain ⟨D', i, hi, -⟩ : ∃ D', Armed D' s := h.elim (fun ha => ⟨D, ha⟩) fun hr => ⟨_, hr.armed⟩
      rw [hp, List.filter_cons_of_pos (by simp [isTimer, hnext])] at hi
      exact (List.cons.inj hi).2
    rw [invoke, hnext] at hs
    have hs' : s' = (s.fire next rest (Alarm.callBack s.status)).put .timer ((Timer.new doRandom).delay random) := by
      have hpos := (Timer.delay_mem doRandom random).1
      simp only [handlers, Timer.callBack, Timer.setInterrupt, Timer.new] at hs hpos ⊢
      simp only [Bool.false_eq_true, if_false, List.foldlM_cons, List.foldlM_nil, schedule, if_pos hpos] at hs
      exact (Except.ok.inj hs).symm
    subst hs'
    refine Or.inr ⟨armed_put_timer hnone _, fun hidle => ?_⟩
    have hawake : s.status ≠ .idleMode := hidle
    show (s.yieldOnReturn || decide (s.status ≠ .idleMode)) = true
    rw [decide_eq_true hawake, Bool.or_true]

theorem timer_drain (n : ℕ) (s : Interrupt (Called δ)) (h : Armed D s ∨ Rearmed doRandom random s)
    (hs : drain (handlers doRandom devices random) n s = .ok s') : Armed D s' ∨ Rearmed doRandom random s' := by
  induction n generalizing s with
  | zero => cases hs
  | succ n ih =>
    obtain ⟨_, next, rest, s₁, heq, hp, hi, hcase⟩ := drain_cases hs
    obtain rfl := Nat.succ.inj heq
    have h₁ := timer_invoke h hp hi
    rcases hcase with ⟨-, hd⟩ | ⟨-, rfl⟩
    · exact ih s₁ h₁ hd
    · exact h₁

theorem timer_checkIfDue {n : ℕ} {advanceClock : Bool} {r : Bool × Interrupt (Called δ)} (h : Armed D s)
    (hs : checkIfDue (handlers doRandom devices random) n advanceClock s = .ok r) :
    Armed D r.2 ∨ Rearmed doRandom random r.2 := by
  rcases checkIfDue_cases hs with rfl | ⟨next, rest, s₁, hp, hd, rfl⟩
  · exact Or.inl h
  · have hentered : Armed D (s.enter next) := h.congr (by rw [(same_enter s next).1])
    exact (timer_drain n _ (Or.inl hentered) hd).imp (fun ha => ha) fun hr => ⟨hr.armed, hr.yields⟩

end Armed

/-! ### The steps of the interrupts -/

/-- The event is an `OneTick` that calls `Yield`. -/
def callsYield {κ : Type*} (callBack : κ → MachineStatus → Handled κ) (fuel : ℕ) (s : Interrupt κ) (e : Event κ) :
    Bool :=
  match s.entry e with
  | some (false, s₁) =>
    match checkIfDue callBack fuel false s₁ with
    | .ok r => r.2.yieldOnReturn
    | .error _ => false
  | _ => false

section Ticks

variable {κ : Type*} {callBack : κ → MachineStatus → Handled κ} {fuel : ℕ} {s s' : Interrupt κ}

theorem tickLength_mem (s : Interrupt κ) : 0 < s.tickLength ∧ s.tickLength ≤ 10 := by
  unfold tickLength
  split <;> decide

theorem totalTicks_tick (h : Inv s) (hle : s.stats.totalTicks + s.tickLength ≤ maxInt) :
    s.tick.stats.totalTicks = s.stats.totalTicks + s.tickLength := by
  have hmin := h.clock.1
  have hpos := (tickLength_mem s).1
  have hsum := toInt_eq (by omega) hle
  unfold tickLength at hsum ⊢
  unfold tick
  dsimp only
  split <;> simp_all

theorem idle_of_entry {e : Event κ} {s₁ : Interrupt κ} (h : s.entry e = some (true, s₁)) : e = .idle := by
  cases e with
  | idle => rfl
  | oneTick => cases h
  | schedule toCall fromNow => cases h
  | setStatus st => cases h
  | setLevel now =>
    cases now with
    | intOff => cases h
    | intOn =>
      simp only [entry] at h
      split at h <;> cases h

theorem status_entry {e : Event κ} {s₁ : Interrupt κ} (h : s.entry e = some (false, s₁)) : s₁.status = s.status := by
  cases e with
  | oneTick =>
    rw [← (Prod.mk.inj (Option.some.inj h)).2]
    rfl
  | idle =>
    simp only [entry] at h
    split at h <;> cases h
  | schedule toCall fromNow => cases h
  | setStatus st => cases h
  | setLevel now =>
    cases now with
    | intOff => cases h
    | intOn =>
      simp only [entry] at h
      split at h
      · rw [← (Prod.mk.inj (Option.some.inj h)).2]
        rfl
      · cases h

/-- Nothing is due after the pass of a step. -/
theorem due_pass {e : Event κ} {advanceClock : Bool} {s₁ : Interrupt κ} {r : Bool × Interrupt κ} (h : Inv s)
    (hin : s.inHandler = false) (he : s.entry e = some (advanceClock, s₁)) (hfit : Fits callBack s e)
    (hr : checkIfDue callBack fuel advanceClock s₁ = .ok r) : r.2.due = [] := by
  obtain ⟨fired, s₂, hs₂, -, hdue, -⟩ := h.checkIfDue hin he hfit
  have hmax := checkIfDue_mono hr (le_max_left fuel s₁.pending.length)
  rw [hs₂ _ (le_max_right _ _)] at hmax
  rw [← Except.ok.inj hmax]
  exact hdue

/-- The time at the start of the pass of a step. -/
theorem totalTicks_entry {e : Event κ} {advanceClock : Bool} {s₁ : Interrupt κ} (h : Inv s)
    (he : s.entry e = some (advanceClock, s₁)) (hfit : Fits callBack s e) :
    s.stats.totalTicks ≤ s₁.stats.totalTicks ∧ s₁.stats.totalTicks ≤ s.stats.totalTicks + 10 := by
  obtain ⟨-, ⟨hadv, hsame⟩ | ⟨-, hsame⟩⟩ := entry_cases he
  · have hlen := tickLength_mem s
    rw [hsame.stats, totalTicks_tick h ((hfit.entry he).1 hadv)]
    omega
  · rw [hsame.stats]
    omega

theorem pending_entry {e : Event κ} {advanceClock : Bool} {s₁ : Interrupt κ}
    (he : s.entry e = some (advanceClock, s₁)) : s₁.pending = s.pending := by
  obtain ⟨-, ⟨-, hsame⟩ | ⟨-, hsame⟩⟩ := entry_cases he
  · exact hsame.pending
  · exact hsame.pending

end Ticks

section TimerStep

variable {δ : Type*} {s s' : Interrupt (Called δ)} {D : ℤ} {doRandom : Bool}
  {devices : δ → MachineStatus → List (δ × ℤ)} {random fuel : ℕ}

/-- The timer stays set for `D`, or it is set again; then it has called at the first
tick after `D`, and `Yield` is called, or the machine was idle. -/
theorem timer_step {e : Event (Called δ)} (h : Inv s) (hin : s.inHandler = false) (hawake : s.status ≠ .idleMode)
    (ha : Armed D s) (hlater : s.stats.totalTicks < D) (he : ∀ fromNow, e ≠ .schedule .timer fromNow)
    (hfit : Fits (handlers doRandom devices random) s e)
    (hs : step (handlers doRandom devices random) fuel s e = some s') :
    ∃ D', Armed D' s' ∧ s'.stats.totalTicks < D' ∧ s.stats.totalTicks ≤ s'.stats.totalTicks ∧
      (D' = D ∨ D' ≤ s'.stats.totalTicks + Timer.longest doRandom ∧
        (e = .idle ∨ callsYield (handlers doRandom devices random) fuel s e = true ∧
          s'.stats.totalTicks ≤ D + 9)) := by
  rcases step_cases hs with ⟨toCall, fromNow, rfl, rfl⟩ | ⟨adv, s₁, r, hentry, hr, hsame⟩ | hsame
  · cases toCall with
    | timer => exact absurd rfl (he fromNow)
    | device d => exact ⟨D, ha.congr (filter_put_device s d fromNow), hlater, le_rfl, Or.inl rfl⟩
  · have hdue := due_nil_iff.mp (due_pass h hin hentry hfit hr)
    have hentered := totalTicks_entry h hentry hfit
    obtain ⟨hstatus, hpast, hnow⟩ := keeps_checkIfDue hr
    have ha₁ : Armed D s₁ := ha.congr (by rw [pending_entry hentry])
    rw [hsame.stats]
    have hset : ∀ D', Armed D' r.2 → Armed D' s' ∧ r.2.stats.totalTicks < D' ∧
        s.stats.totalTicks ≤ r.2.stats.totalTicks := by
      intro D' hD'
      obtain ⟨i, hi, rfl⟩ := hD'.mem
      exact ⟨hD'.congr (by rw [hsame.pending]), hdue i hi, hentered.1.trans hpast⟩
    rcases timer_checkIfDue ha₁ hr with hstill | hagain
    · obtain ⟨hD, hlt, hle⟩ := hset D hstill
      exact ⟨D, hD, hlt, hle, Or.inl rfl⟩
    · obtain ⟨hD, hlt, hle⟩ := hset _ hagain.armed
      have hmin := h.clock.1
      have hdelay := Timer.delay_mem doRandom random
      have hnext := toInt_le (x := r.2.stats.totalTicks + (Timer.new doRandom).delay random) (by omega)
      refine ⟨_, hD, hlt, hle, Or.inr ⟨by omega, ?_⟩⟩
      cases adv with
      | true => exact Or.inl (idle_of_entry hentry)
      | false =>
        refine Or.inr ⟨?_, ?_⟩
        · simp only [callsYield, hentry, hr]
          apply hagain.yields
          rw [hstatus, status_entry hentry]
          exact hawake
        · rw [hnow rfl]
          omega
  · refine ⟨D, ha.congr (by rw [hsame.pending]), ?_, ?_, Or.inl rfl⟩
    · rw [hsame.stats]
      exact hlater
    · rw [hsame.stats]

end TimerStep

end Interrupt

end Nachos
