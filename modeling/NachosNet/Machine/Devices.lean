/-
# The devices that schedule themselves again

`machine/timer.cc`, `machine/console.cc`, `machine/network.cc` and
`threads/alarm.cc`: the timer and the polls for input schedule their next
interrupt from the handler of the last one. A pass of `CheckIfDue` ends because
this lies in the future (`checkIfDue_ends`), and it does while the sum is an
`int` (`Device.handlersFit`). `main` yields for ever, so that simulated time
reaches the end of the `int`s; the next interrupt of the timer then lies in the
past, and the pass runs on for ever (`checkIfDue_runsOn`).

Key definitions: `Device`, `Device.callBack`, `boot`, `yields`.
-/
import NachosNet.Machine.Interrupt

namespace Nachos

open Basis

def timerTicks : ℤ := 100

def consoleTime : ℤ := 100

def networkTime : ℤ := 100

/-- The devices. A timer comes with the random numbers it will draw, the console
with the outcomes of the polls of the keyboard. -/
inductive Device
  | timer (randomize : Bool) (random : ℕ → ℕ)
  | consoleInput (available : ℕ → Bool)
  | consoleOutput
  | networkInput
  | networkOutput

namespace Device

/-- `Timer::SetInterrupt` -/
def delay (randomize : Bool) (random : ℕ → ℕ) : ℤ :=
  if randomize then 1 + (random 0 : ℤ) % (timerTicks * 2) else timerTicks

def callBack : Device → MachineStatus → Handled Device
  | .timer randomize random, status =>
    -- the alarm asks for a time slice, unless the machine is idle
    ⟨[(.timer randomize fun n => random (n + 1), delay randomize random)], status ≠ .idleMode⟩
  | .consoleInput available, _ =>
    -- a character that has come is fetched first, and the next poll is scheduled then
    if available 0 then ⟨[], false⟩ else ⟨[(.consoleInput fun n => available (n + 1), consoleTime)], false⟩
  | .networkInput, _ => ⟨[(.networkInput, networkTime)], false⟩
  | .consoleOutput, _ | .networkOutput, _ => ⟨[], false⟩

theorem delay_mem (randomize : Bool) (random : ℕ → ℕ) :
    0 < delay randomize random ∧ delay randomize random ≤ 200 := by
  unfold delay timerTicks
  split <;> omega

theorem callBack_mem {d : Device} {status : MachineStatus} {c : Device × ℤ} (hc : c ∈ (d.callBack status).schedules) :
    0 < c.2 ∧ c.2 ≤ 200 := by
  cases d with
  | timer randomize random =>
    rw [List.mem_singleton.mp hc]
    exact delay_mem randomize random
  | consoleInput available =>
    simp only [callBack] at hc
    split at hc
    · cases hc
    · rw [List.mem_singleton.mp hc]
      show 0 < consoleTime ∧ consoleTime ≤ 200
      decide
  | networkInput =>
    rw [List.mem_singleton.mp hc]
    decide
  | consoleOutput => cases hc
  | networkOutput => cases hc

theorem handlersFit {s : Interrupt Device} {advanceClock : Bool} (h : s.passTime advanceClock ≤ maxInt - 200) :
    Interrupt.HandlersFit callBack advanceClock s := by
  intro i _ _ c hc
  have hmem := callBack_mem hc
  omega

end Device

namespace Interrupt

variable {κ : Type*} (callBack : κ → MachineStatus → Handled κ)

/-- A call of `CheckIfDue` at any time of any run ends, and invokes none of the
interrupts that its handlers schedule, when the sums of these calls of
`Schedule` stay within an `int`. -/
theorem checkIfDue_ends (fuel : ℕ) (es : List (Event κ)) (s : Interrupt κ)
    (h : exec (step callBack fuel) init es = some s) (e : Event κ) (advanceClock : Bool) (s₁ : Interrupt κ)
    (he : s.entry e = some (advanceClock, s₁)) (hfit : HandlersFit callBack advanceClock s₁) :
    ∃ fired s₂, (∀ n, s₁.pending.length ≤ n → checkIfDue callBack n advanceClock s₁ = .ok (fired, s₂)) ∧
      ∃ l, s₂.invoked = s₁.invoked ++ l ∧ ∀ x ∈ l, x.1 ∈ s₁.pending := by
  obtain ⟨hwf, hin⟩ := exec_induction (P := fun _ s => Wf s ∧ s.inHandler = false) ⟨wf_init, rfl⟩
    (fun _ _ _ _ hinv hs => wf_step hinv hs) es s h
  obtain ⟨fired, s₂, hs₂, -, -, -, -, -, hl⟩ := checkIfDue_fits passInv_wf (hwf.entry he) (entry_cases he).1
    ((inHandler_entry he).trans hin) hfit
  exact ⟨fired, s₂, hs₂, hl⟩

/-- The timer, idling. -/
theorem checkIfDue_ends_timer : ∃ s fired s₂,
    exec (step Device.callBack 1) init [.schedule (.timer false fun _ => 0) timerTicks, .idle] = some s ∧
      checkIfDue Device.callBack 1 true { s with status := .idleMode } = .ok (fired, s₂) := by
  have hrun : exec (step Device.callBack 1) init [.schedule (.timer false fun _ => 0) timerTicks, .idle] = some _ := rfl
  obtain ⟨fired, s₂, hs₂, -⟩ := checkIfDue_ends Device.callBack 1 _ _ hrun .idle true _ rfl
    (Device.handlersFit (by decide))
  exact ⟨_, fired, s₂, rfl, hs₂ 1 (by decide)⟩

/-! ### The end of the `int`s -/

theorem insert_first {i : PendingInterrupt κ} {l : List (PendingInterrupt κ)} (h : ∀ j ∈ l, i.when < j.when) :
    insert i l = i :: l := by
  cases l with
  | nil => rfl
  | cons j l => rw [insert_cons, if_pos (h j List.mem_cons_self)]

theorem insert_last {i : PendingInterrupt κ} {l : List (PendingInterrupt κ)} (h : ∀ j ∈ l, j.when ≤ i.when) :
    insert i l = l ++ [i] := by
  induction l with
  | nil => rfl
  | cons j l ih =>
    rw [insert_cons, if_neg (not_lt.mpr (h j List.mem_cons_self)), ih fun x hx => h x (List.mem_cons_of_mem _ hx)]
    rfl

/-- The handler of `k` schedules `k` again, `d` ticks later. -/
def Polls (d : ℤ) (k : κ) : Prop := ∀ status, (callBack k status).schedules = [(k, d)]

section Polls

variable {callBack} {d now : ℤ} {s : Interrupt κ} {next : PendingInterrupt κ} {rest : List (PendingInterrupt κ)}

theorem invoke_polls (rest : List (PendingInterrupt κ)) (hk : Polls callBack d next.callOnInterrupt) (hd : 0 < d)
    (htotal : s.stats.totalTicks = now) :
    ∃ s', s.invoke callBack next rest = .ok s' ∧ Keeps s s' ∧
      s'.pending = insert ⟨s.scheduled, next.callOnInterrupt, toInt (now + d)⟩ rest := by
  refine ⟨(s.fire next rest (callBack next.callOnInterrupt s.status).yields).put next.callOnInterrupt d, ?_,
    ⟨rfl, rfl, rfl, rfl⟩, by rw [← htotal]; rfl⟩
  simp only [invoke, hk s.status, List.foldlM_cons, schedule, if_pos hd]
  rfl

theorem drain_runsOn (hk : Polls callBack d next.callOnInterrupt) (hd : 0 < d) (hd' : d ≤ maxInt)
    (hnow : now ≤ maxInt) (hbeyond : maxInt < now + d) (hp : s.pending = next :: rest)
    (htotal : s.stats.totalTicks = now) (hrest : ∀ i ∈ rest, now + d - 2 ^ 32 < i.when) (n : ℕ) :
    drain callBack n s = .error .running := by
  have hwrap : toInt (now + d) = now + d - 2 ^ 32 := toInt_beyond hbeyond (by omega)
  have hmax : maxInt = 2 ^ 31 - 1 := rfl
  induction n generalizing s next with
  | zero => rfl
  | succ n ih =>
    obtain ⟨s₁, hinvoke, hkeep, hp₁⟩ := invoke_polls rest hk hd htotal
    have htotal₁ : s₁.stats.totalTicks = now := by rw [hkeep.stats, htotal]
    -- its next time is in the past, before all others
    rw [hwrap, insert_first hrest] at hp₁
    have hdue : s₁.frontDue = true := by
      rw [frontDue_iff hp₁, htotal₁]
      show now + d - 2 ^ 32 ≤ now
      omega
    rw [drain_succ hp hinvoke, if_pos hdue]
    exact ih (by exact hk) hp₁ htotal₁

theorem drain_round (hd : 0 < d) (hnow : 0 ≤ now) (hle : now + d ≤ maxInt) (l m : List (PendingInterrupt κ))
    (s : Interrupt κ) (hp : s.pending = l ++ m) (hne : l ≠ [])
    (hl : ∀ i ∈ l, i.when = now ∧ Polls callBack d i.callOnInterrupt) (hm : ∀ i ∈ m, i.when = now + d)
    (htotal : s.stats.totalTicks = now) :
    ∃ s', drain callBack l.length s = .ok s' ∧ Keeps s s' ∧
      s'.pending.map (fun i => (i.callOnInterrupt, i.when)) =
        m.map (fun i => (i.callOnInterrupt, i.when)) ++ l.map fun i => (i.callOnInterrupt, now + d) := by
  have hsum : toInt (now + d) = now + d := toInt_eq (by unfold minInt; omega) hle
  induction l generalizing m s with
  | nil => exact absurd rfl hne
  | cons i l ih =>
    obtain ⟨-, hpolls⟩ := hl i List.mem_cons_self
    obtain ⟨s₁, hinvoke, hkeep, hp₁⟩ := invoke_polls (l ++ m) hpolls hd htotal
    have htotal₁ : s₁.stats.totalTicks = now := by rw [hkeep.stats, htotal]
    have hlast : ∀ j ∈ l ++ m, j.when ≤ now + d := by
      intro j hj
      rcases List.mem_append.mp hj with hj | hj
      · rw [(hl j (List.mem_cons_of_mem _ hj)).1]
        omega
      · rw [hm j hj]
    rw [hsum, insert_last hlast, List.append_assoc] at hp₁
    have hm₁ : ∀ j ∈ m ++ [⟨s.scheduled, i.callOnInterrupt, now + d⟩], j.when = now + d := by
      intro j hj
      rcases List.mem_append.mp hj with hj | hj
      · exact hm j hj
      · rw [List.mem_singleton.mp hj]
    cases l with
    | nil =>
      rw [List.nil_append] at hp₁
      refine ⟨s₁, ?_, hkeep, by rw [hp₁]; simp⟩
      have hdue : s₁.frontDue = false := by
        rw [frontDue, hp₁, Option.any_eq_false]
        intro front hfront
        have hwhen := hm₁ front (List.mem_of_mem_head? hfront)
        exact decide_eq_false (by omega)
      rw [List.length_singleton, drain_succ hp hinvoke, hdue]
      rfl
    | cons j l =>
      obtain ⟨s', hs', hkeep', hp'⟩ := ih (m ++ [⟨s.scheduled, i.callOnInterrupt, now + d⟩]) s₁ hp₁
        (List.cons_ne_nil _ _) (fun x hx => hl x (List.mem_cons_of_mem _ hx)) hm₁ htotal₁
      have hwhen := (hl j (List.mem_cons_of_mem _ List.mem_cons_self)).1
      refine ⟨s', ?_, hkeep.trans hkeep', by rw [hp']; simp⟩
      rw [List.length_cons, drain_succ hp hinvoke, if_pos ((frontDue_iff hp₁).mpr (by omega))]
      exact hs'

end Polls

end Interrupt

/-! ### `main` yields for ever -/

open Interrupt

/-- The devices that `Kernel::Initialize` starts and that poll. -/
def pollers : List Device := [.timer false fun _ => 0, .consoleInput fun _ => false, .networkInput]

/-- The constructors of the devices, and `interrupt->Enable()`. -/
def boot : List (Event Device) := pollers.map (fun k => .schedule k 100) ++ [.setLevel .intOn]

/-- Calls of `Yield` that find no other thread. -/
def yields : ℕ → List (Event Device)
  | 0 => []
  | n + 1 => yields n ++ [.setLevel .intOff, .setLevel .intOn]

theorem polls_pollers {k : Device} (hk : k ∈ pollers) : Polls Device.callBack 100 k := by
  intro status
  simp only [pollers, List.mem_cons, List.not_mem_nil, or_false] at hk
  rcases hk with rfl | rfl | rfl <;> rfl

/-- After `n` ticks, each of the devices is to be called at the next hundred. -/
structure Polling (n : ℕ) (s : Interrupt Device) : Prop where
  level : s.level = .intOn
  inHandler : s.inHandler = false
  yieldOnReturn : s.yieldOnReturn = false
  status : s.status = .systemMode
  totalTicks : s.stats.totalTicks = 10 * n
  pending : s.pending.map (fun i => (i.callOnInterrupt, i.when)) = pollers.map (·, 100 * (n / 10 + 1 : ℤ))

theorem polling_boot : ∃ s, exec (step Device.callBack 3) init boot = some s ∧ Polling 1 s :=
  ⟨_, rfl, rfl, rfl, rfl, rfl, rfl, rfl⟩

section Ticks

variable {n : ℕ} {s : Interrupt Device}

theorem Polling.totalTicks_tick (h : Polling n s) (hle : 10 * (n + 1 : ℤ) ≤ maxInt) :
    { s with level := .intOn }.tick.stats.totalTicks = 10 * (n + 1 : ℤ) := by
  show (if s.status = .systemMode then _ else _ : Statistics).totalTicks = _
  rw [if_pos h.status]
  show toInt (s.stats.totalTicks + systemTick) = _
  rw [h.totalTicks, toInt_eq] <;> unfold systemTick
  · omega
  · unfold minInt
    omega
  · omega

theorem Polling.mem (h : Polling n s) {i : PendingInterrupt Device} (hi : i ∈ s.pending) :
    i.when = 100 * (n / 10 + 1 : ℤ) ∧ i.callOnInterrupt ∈ pollers := by
  have hmem : (i.callOnInterrupt, i.when) ∈ s.pending.map fun i => (i.callOnInterrupt, i.when) :=
    List.mem_map_of_mem hi
  rw [h.pending, List.mem_map] at hmem
  obtain ⟨k, hk, heq⟩ := hmem
  obtain ⟨rfl, hwhen⟩ := Prod.mk.inj heq
  exact ⟨hwhen.symm, hk⟩

theorem Polling.length (h : Polling n s) : s.pending.length = 3 := by
  simpa [pollers] using congrArg List.length h.pending

/-- Where `CheckIfDue` finds the devices in the next tick. -/
theorem Polling.tick (h : Polling n s) (hle : 10 * (n + 1 : ℤ) ≤ maxInt) :
    ∃ s₁ next rest, s₁ = { s with level := .intOn }.tick ∧ s₁.level = .intOff ∧ s₁.pending = s.pending ∧
      s.pending = next :: rest ∧ s₁.stats.totalTicks = 10 * (n + 1 : ℤ) := by
  obtain ⟨next, rest, hnext⟩ := List.exists_cons_of_ne_nil (List.ne_nil_of_length_eq_add_one h.length)
  exact ⟨_, next, rest, rfl, rfl, rfl, hnext, h.totalTicks_tick hle⟩

/-- `CheckIfDue` in the next tick. -/
theorem Polling.checkIfDue (h : Polling n s) (hn : n + 1 ≤ 214748359) :
    ∃ r, checkIfDue Device.callBack 3 false { s with level := .intOn }.tick = .ok r ∧ r.2.inHandler = false ∧
      r.2.status = .systemMode ∧ r.2.stats.totalTicks = 10 * (n + 1 : ℤ) ∧
      r.2.pending.map (fun i => (i.callOnInterrupt, i.when)) = pollers.map (·, 100 * ((n + 1 : ℕ) / 10 + 1 : ℤ)) := by
  have hmax : maxInt = 2147483647 := rfl
  obtain ⟨s₁, next, rest, hs₁, hoff, hp, hnext, htotal⟩ := h.tick (by omega)
  have hstatus : s₁.status = .systemMode := by rw [hs₁]; exact h.status
  have hin : s₁.inHandler = false := by rw [hs₁]; exact h.inHandler
  rw [← hs₁]
  rcases checkIfDue_eq Device.callBack false hoff with ⟨hnone, heq⟩ | ⟨next', rest', hp', hgo, heq⟩
  · refine ⟨_, heq 3, hin, hstatus, htotal, ?_⟩
    have hwhen := (h.mem (hnext ▸ List.mem_cons_self)).1
    have hlt : ¬ next.when ≤ s₁.stats.totalTicks := by
      rw [← frontDue_iff (hp.trans hnext), hnone]
      exact Bool.false_ne_true
    have hdiv : ((n + 1 : ℕ) : ℤ) / 10 = n / 10 := by omega
    rw [hp, h.pending, hdiv]
  · obtain ⟨rfl, rfl⟩ := List.cons.inj (hp'.symm.trans (hp.trans hnext))
    have hwhen := (h.mem (hnext ▸ List.mem_cons_self)).1
    have hdue : next'.when ≤ s₁.stats.totalTicks := not_lt.mp fun hlt => Bool.false_ne_true (hgo hlt)
    obtain ⟨s', hs', hkeep, hp'⟩ := @drain_round _ Device.callBack 100 (10 * (n + 1 : ℤ)) (by decide)
      (by omega) (by omega) s.pending [] { s₁ with inHandler := true } (by simp [hp])
      (List.ne_nil_of_length_eq_add_one h.length)
      (fun i hi => ⟨by rw [(h.mem hi).1]; omega, polls_pollers (h.mem hi).2⟩) (by simp) htotal
    rw [h.length] at hs'
    refine ⟨_, by rw [heq 3, enter_of_due hdue, hs']; rfl, rfl, hkeep.status.trans hstatus, ?_, ?_⟩
    · show s'.stats.totalTicks = _
      rw [hkeep.stats]
      exact htotal
    · have hdiv : 10 * (n + 1 : ℤ) + 100 = 100 * (((n + 1 : ℕ) : ℤ) / 10 + 1) := by omega
      show s'.pending.map _ = _
      rw [hp', ← hdiv]
      have hk : s.pending.map PendingInterrupt.callOnInterrupt = pollers := by
        simpa [Function.comp_def] using congrArg (List.map Prod.fst) h.pending
      rw [← hk]
      simp

theorem Polling.step (h : Polling n s) (hn : n + 1 ≤ 214748359) :
    ∃ s', exec (Interrupt.step Device.callBack 3) s [.setLevel .intOff, .setLevel .intOn] = some s' ∧
      Polling (n + 1) s' := by
  obtain ⟨r, hr, hin, hstatus, htotal, hp⟩ := h.checkIfDue hn
  have hoff : s.step Device.callBack 3 (.setLevel .intOff) = some { s with level := .intOff } := by
    simp [Interrupt.step, perform, setLevel, Except.toOption]
  have hon : { s with level := .intOff }.step Device.callBack 3 (.setLevel .intOn) = some r.2.untick := by
    have hset : { s with level := .intOff }.setLevel Device.callBack 3 .intOn =
        { s with level := .intOn }.oneTick Device.callBack 3 := by
      unfold setLevel
      rw [if_neg (by simp [h.inHandler]), if_pos ⟨rfl, rfl⟩]
    rw [Interrupt.step, perform, hset, oneTick, hr]
    rfl
  refine ⟨r.2.untick, by rw [exec_cons, hoff]; exact (exec_cons ..).trans (by rw [hon]; rfl), ?_⟩
  have hsame := same_untick r.2
  constructor
  · unfold untick
    split <;> rfl
  · rw [hsame.inHandler, hin]
  · unfold untick
    split
    · rfl
    · rename_i hno
      simpa using hno
  · unfold untick
    split
    · rfl
    · exact hstatus
  · rw [hsame.stats, htotal]
    omega
  · rw [hsame.pending, hp]

theorem polling_yields (n : ℕ) (hn : n + 1 ≤ 214748359) :
    ∃ s, exec (Interrupt.step Device.callBack 3) init (boot ++ yields n) = some s ∧ Polling (n + 1) s := by
  induction n with
  | zero =>
    rw [yields, List.append_nil]
    exact polling_boot
  | succ n ih =>
    obtain ⟨s, hs, hpoll⟩ := ih (by omega)
    obtain ⟨s', hs', hpoll'⟩ := hpoll.step hn
    refine ⟨s', ?_, hpoll'⟩
    rw [yields, ← List.append_assoc, exec_append, hs]
    exact hs'

/-- The pass at the time 2147483600 never ends. -/
theorem checkIfDue_runsOn : ∃ s s₁,
    exec (Interrupt.step Device.callBack 3) init (boot ++ yields 214748358 ++ [.setLevel .intOff]) = some s ∧
      s.entry (.setLevel .intOn) = some (false, s₁) ∧ s₁.stats.totalTicks = 2147483600 ∧
      ∀ n, Interrupt.checkIfDue Device.callBack n false s₁ = .error .running := by
  obtain ⟨s, hs, h⟩ := polling_yields 214748358 (by decide)
  obtain ⟨s₁, next, rest, hs₁, hoff, hp, hnext, htotal⟩ := h.tick (by decide)
  refine ⟨{ s with level := .intOff }, s₁, ?_, ?_, htotal, fun n => ?_⟩
  · rw [exec_append, hs]
    rfl
  · rw [Interrupt.entry, if_pos ⟨rfl, h.inHandler⟩, hs₁]
  obtain ⟨hwhen, hpoller⟩ := h.mem (hnext ▸ List.mem_cons_self)
  have hdue : next.when ≤ s₁.stats.totalTicks := by
    rw [htotal, hwhen]
    decide
  -- the sum wraps to -2147483596
  have hruns : drain Device.callBack n { s₁ with inHandler := true } = .error .running := by
    have hentered : ({ s₁ with inHandler := true } : Interrupt Device).pending = next :: rest := hp.trans hnext
    refine drain_runsOn (polls_pollers hpoller) (by decide) (by decide) (by decide) (by decide) hentered htotal
      (fun i hi => ?_) n
    rw [(h.mem (hnext ▸ List.mem_cons_of_mem _ hi)).1]
    decide
  rcases checkIfDue_eq Device.callBack false hoff with ⟨hnone, -⟩ | ⟨next', rest', hp', -, heq⟩
  · rw [(frontDue_iff (hp.trans hnext)).mpr hdue] at hnone
    cases hnone
  · obtain ⟨rfl, rfl⟩ := List.cons.inj (hp'.symm.trans (hp.trans hnext))
    rw [heq n, enter_of_due hdue, hruns]
    rfl

end Ticks

end Nachos
