/-
# The interrupt simulation

`machine/interrupt.cc`, with the sorted list of `lib/list.cc` and the counters of
`machine/stats.h`. Simulated time is an `int`. A scheduled interrupt is known by
its number among the calls of `Schedule`, and its handler by the object that is
called: `callBack` says which calls of `Schedule` the handler makes, and whether
it asks for a yield. An object may stand for a single call, so that nothing is
assumed about what the handlers do.

The loop of `CheckIfDue` has a bound on its passes, `fuel`; `Stop.running` is the
loop that has not ended within it. `OneTick` ends with its call of `Yield`, whose
ticks are steps of their own; the status is restored by a `setStatus`. The list
`invoked` records the handlers called, each with the time.

Key definitions: `Interrupt`, `Interrupt.checkIfDue`, `Interrupt.perform`.

`drain_cases` and `checkIfDue_cases` say what a pass does, `step_cases` what a
step does. Key theorem: `interrupts_in_order`, for runs that stay within an `int`.
-/
import Mathlib.Data.List.Sort
import NachosNet.Basis.Int32
import NachosNet.Basis.Run

namespace Nachos

open Basis

inductive IntStatus
  | intOff
  | intOn
  deriving DecidableEq

inductive MachineStatus
  | idleMode
  | systemMode
  | userMode
  deriving DecidableEq

structure Statistics where
  totalTicks : ℤ
  idleTicks : ℤ
  systemTicks : ℤ
  userTicks : ℤ
  deriving DecidableEq

def userTick : ℤ := 1

def systemTick : ℤ := 10

structure PendingInterrupt (κ : Type*) where
  id : ℕ
  callOnInterrupt : κ
  when : ℤ

/-- `i` is called before `j`: it is due earlier, or it has been scheduled earlier
for the same time. -/
def PendingInterrupt.Before {κ : Type*} (i j : PendingInterrupt κ) : Prop :=
  i.when < j.when ∨ i.when = j.when ∧ i.id < j.id

/-- What a handler does: the calls of `Schedule`, and `YieldOnReturn`. -/
structure Handled (κ : Type*) where
  schedules : List (κ × ℤ)
  yields : Bool

structure Interrupt (κ : Type*) where
  level : IntStatus
  inHandler : Bool
  yieldOnReturn : Bool
  status : MachineStatus
  pending : List (PendingInterrupt κ)
  stats : Statistics
  scheduled : ℕ
  invoked : List (PendingInterrupt κ × ℤ)

namespace Interrupt

/-- Why a call does not return. -/
inductive Stop
  | assertion
  | halted
  | running
  deriving DecidableEq

inductive Event (κ : Type*)
  | schedule (toCall : κ) (fromNow : ℤ)
  | setLevel (now : IntStatus)
  | oneTick
  | idle
  | setStatus (st : MachineStatus)

variable {κ : Type*}

def init : Interrupt κ where
  level := .intOff
  inHandler := false
  yieldOnReturn := false
  status := .systemMode
  pending := []
  stats := ⟨0, 0, 0, 0⟩
  scheduled := 0
  invoked := []

/-- `SortedList::Insert`: before the first interrupt that is due later. -/
def insert (toOccur : PendingInterrupt κ) (pending : List (PendingInterrupt κ)) : List (PendingInterrupt κ) :=
  pending.orderedInsert (fun i j => i.when < j.when) toOccur

/-- `Schedule`, after its assertion. -/
def put (s : Interrupt κ) (toCall : κ) (fromNow : ℤ) : Interrupt κ :=
  { s with
    pending := insert ⟨s.scheduled, toCall, toInt (s.stats.totalTicks + fromNow)⟩ s.pending
    scheduled := s.scheduled + 1 }

def schedule (s : Interrupt κ) (toCall : κ) (fromNow : ℤ) : Except Stop (Interrupt κ) :=
  if 0 < fromNow then .ok (s.put toCall fromNow) else .error .assertion

/-- The handler of `next` is about to run. -/
def fire (s : Interrupt κ) (next : PendingInterrupt κ) (rest : List (PendingInterrupt κ)) (yields : Bool) :
    Interrupt κ :=
  { s with
    pending := rest
    invoked := s.invoked ++ [(next, s.stats.totalTicks)]
    yieldOnReturn := s.yieldOnReturn || yields }

section Handlers

variable (callBack : κ → MachineStatus → Handled κ)

/-- `next->callOnInterrupt->CallBack()`, with `next` off the list. -/
def invoke (s : Interrupt κ) (next : PendingInterrupt κ) (rest : List (PendingInterrupt κ)) :
    Except Stop (Interrupt κ) :=
  let h := callBack next.callOnInterrupt s.status
  h.schedules.foldlM (fun s c => s.schedule c.1 c.2) (s.fire next rest h.yields)

/-- The loop of `CheckIfDue`. -/
def drain : ℕ → Interrupt κ → Except Stop (Interrupt κ)
  | 0, _ => .error .running
  | fuel + 1, s =>
    match s.pending with
    | [] => .error .assertion
    | next :: rest => do
      let s ← s.invoke callBack next rest
      match s.pending with
      | [] => .ok s
      | front :: _ => if front.when ≤ s.stats.totalTicks then drain fuel s else .ok s

/-- The clock is advanced to the next interrupt, if that is not yet due. -/
def advance (s : Interrupt κ) (next : PendingInterrupt κ) : Interrupt κ :=
  if s.stats.totalTicks < next.when then
    { s with stats := { s.stats with
      idleTicks := toInt (s.stats.idleTicks + toInt (next.when - s.stats.totalTicks))
      totalTicks := next.when } }
  else s

def checkIfDue (fuel : ℕ) (advanceClock : Bool) (s : Interrupt κ) : Except Stop (Bool × Interrupt κ) :=
  if s.level ≠ .intOff then .error .assertion
  else match s.pending with
  | [] => .ok (false, s)
  | next :: _ =>
    if s.stats.totalTicks < next.when ∧ advanceClock = false then .ok (false, s)
    else do
      let s ← drain callBack fuel { s.advance next with inHandler := true }
      .ok (true, { s with inHandler := false })

def tickLength (s : Interrupt κ) : ℤ := if s.status = .systemMode then systemTick else userTick

/-- The first half of `OneTick`: simulated time goes on, and interrupts are off. -/
def tick (s : Interrupt κ) : Interrupt κ :=
  { s with
    level := .intOff
    stats :=
      if s.status = .systemMode then { s.stats with
        totalTicks := toInt (s.stats.totalTicks + systemTick), systemTicks := toInt (s.stats.systemTicks + systemTick) }
      else { s.stats with
        totalTicks := toInt (s.stats.totalTicks + userTick), userTicks := toInt (s.stats.userTicks + userTick) } }

/-- The second half of `OneTick`, up to the call of `Yield`. -/
def untick (s : Interrupt κ) : Interrupt κ :=
  if s.yieldOnReturn then { s with level := .intOn, yieldOnReturn := false, status := .systemMode }
  else { s with level := .intOn }

def oneTick (fuel : ℕ) (s : Interrupt κ) : Except Stop (Interrupt κ) := do
  let r ← checkIfDue callBack fuel false s.tick
  .ok r.2.untick

def idle (fuel : ℕ) (s : Interrupt κ) : Except Stop (Interrupt κ) := do
  let r ← checkIfDue callBack fuel true { s with status := .idleMode }
  if r.1 then .ok { r.2 with status := .systemMode } else .error .halted

def setLevel (fuel : ℕ) (now : IntStatus) (s : Interrupt κ) : Except Stop (Interrupt κ) :=
  if now = .intOn ∧ s.inHandler = true then .error .assertion
  else if now = .intOn ∧ s.level = .intOff then oneTick callBack fuel { s with level := now }
  else .ok { s with level := now }

def perform (fuel : ℕ) (s : Interrupt κ) : Event κ → Except Stop (Interrupt κ)
  | .schedule toCall fromNow => s.schedule toCall fromNow
  | .setLevel now => s.setLevel callBack fuel now
  | .oneTick => s.oneTick callBack fuel
  | .idle => s.idle callBack fuel
  | .setStatus st => .ok { s with status := st }

def step (fuel : ℕ) (s : Interrupt κ) (e : Event κ) : Option (Interrupt κ) := (s.perform callBack fuel e).toOption

end Handlers

/-- The argument and the state with which an event calls `CheckIfDue`, if it does. -/
def entry (s : Interrupt κ) : Event κ → Option (Bool × Interrupt κ)
  | .setLevel .intOn =>
    if s.level = .intOff ∧ s.inHandler = false then some (false, { s with level := .intOn }.tick) else none
  | .oneTick => some (false, s.tick)
  | .idle => if s.level = .intOff then some (true, { s with status := .idleMode }) else none
  | _ => none

/-! ### The list -/

theorem perm_insert {i : PendingInterrupt κ} {l : List (PendingInterrupt κ)} : (insert i l).Perm (i :: l) :=
  List.perm_orderedInsert _ _ _

theorem mem_insert {i j : PendingInterrupt κ} {l : List (PendingInterrupt κ)} : j ∈ insert i l ↔ j = i ∨ j ∈ l := by
  rw [perm_insert.mem_iff, List.mem_cons]

theorem insert_cons {i j : PendingInterrupt κ} {l : List (PendingInterrupt κ)} :
    insert i (j :: l) = if i.when < j.when then i :: j :: l else j :: insert i l := List.orderedInsert_cons _ _ _ _

/-- The last one scheduled goes after those for the same time. -/
theorem pairwise_insert {i : PendingInterrupt κ} {l : List (PendingInterrupt κ)}
    (h : l.Pairwise PendingInterrupt.Before) (hid : ∀ j ∈ l, j.id < i.id) :
    (insert i l).Pairwise PendingInterrupt.Before := by
  induction l with
  | nil => simp [insert]
  | cons j l ih =>
    rw [List.pairwise_cons] at h
    rw [insert_cons]
    split
    · rename_i hij
      rw [List.pairwise_cons, List.pairwise_cons]
      refine ⟨fun k hk => Or.inl ?_, h⟩
      rcases List.mem_cons.mp hk with rfl | hk
      · exact hij
      · rcases h.1 k hk with hjk | ⟨hjk, -⟩
        · exact hij.trans hjk
        · exact hjk ▸ hij
    · rename_i hij
      rw [List.pairwise_cons]
      refine ⟨fun k hk => ?_, ih h.2 fun k hk => hid k (List.mem_cons_of_mem _ hk)⟩
      rcases mem_insert.mp hk with rfl | hk
      · rcases (not_lt.mp hij).lt_or_eq with hji | hji
        · exact Or.inl hji
        · exact Or.inr ⟨hji, hid j List.mem_cons_self⟩
      · exact h.1 k hk

theorem filter_insert {i : PendingInterrupt κ} {l : List (PendingInterrupt κ)} {p : PendingInterrupt κ → Bool}
    (hi : p i = false) : (insert i l).filter p = l.filter p := by
  induction l with
  | nil => simp [insert, hi]
  | cons j l ih =>
    rw [insert_cons]
    split
    · rw [List.filter_cons_of_neg (by simp [hi])]
    · simp only [List.filter_cons, ih]

/-! ### The loop -/

/-- The first interrupt on the list is due. -/
def frontDue (s : Interrupt κ) : Bool := s.pending.head?.any fun i => i.when ≤ s.stats.totalTicks

theorem frontDue_iff {s : Interrupt κ} {front : PendingInterrupt κ} {rest : List (PendingInterrupt κ)}
    (hp : s.pending = front :: rest) : s.frontDue = true ↔ front.when ≤ s.stats.totalTicks := by
  simp [frontDue, hp]

section Loop

variable {callBack : κ → MachineStatus → Handled κ} {s s' : Interrupt κ} {advanceClock : Bool}

/-- One turn of the loop. -/
theorem drain_succ {s₁ : Interrupt κ} {next : PendingInterrupt κ} {rest : List (PendingInterrupt κ)}
    (hp : s.pending = next :: rest) (hs₁ : s.invoke callBack next rest = .ok s₁) (n : ℕ) :
    drain callBack (n + 1) s = if s₁.frontDue then drain callBack n s₁ else .ok s₁ := by
  simp only [drain, hp, hs₁, bind, Except.bind]
  cases hp₁ : s₁.pending with
  | nil => simp [frontDue, hp₁]
  | cons front rest' => simp [frontDue_iff hp₁]

theorem drain_cases {n : ℕ} (h : drain callBack n s = .ok s') :
    ∃ m next rest s₁, n = m + 1 ∧ s.pending = next :: rest ∧ s.invoke callBack next rest = .ok s₁ ∧
      (s₁.frontDue = true ∧ drain callBack m s₁ = .ok s' ∨ s₁.frontDue = false ∧ s₁ = s') := by
  cases n with
  | zero => cases h
  | succ m =>
    cases hp : s.pending with
    | nil => simp [drain, hp] at h
    | cons next rest =>
      cases hi : s.invoke callBack next rest with
      | error e => simp [drain, hp, hi, bind, Except.bind] at h
      | ok s₁ =>
        refine ⟨m, next, rest, s₁, rfl, rfl, hi, ?_⟩
        rw [drain_succ hp hi] at h
        cases hdue : s₁.frontDue with
        | true => exact Or.inl ⟨rfl, by simpa [hdue] using h⟩
        | false => exact Or.inr ⟨rfl, by simpa [hdue] using h⟩

/-- The loop is about to start. -/
def enter (s : Interrupt κ) (next : PendingInterrupt κ) : Interrupt κ := { s.advance next with inHandler := true }

theorem same_enter (s : Interrupt κ) (next : PendingInterrupt κ) :
    (s.enter next).pending = s.pending ∧ (s.enter next).invoked = s.invoked ∧
      (s.enter next).status = s.status ∧ (s.enter next).level = s.level := by
  unfold enter advance
  split <;> exact ⟨rfl, rfl, rfl, rfl⟩

theorem enter_of_due {next : PendingInterrupt κ} (hdue : next.when ≤ s.stats.totalTicks) :
    s.enter next = { s with inHandler := true } := by
  rw [enter, advance, if_neg (not_lt.mpr hdue)]

/-- `CheckIfDue` finds nothing to do, or runs the loop. -/
theorem checkIfDue_eq (callBack : κ → MachineStatus → Handled κ) (advanceClock : Bool) (hoff : s.level = .intOff) :
    (s.frontDue = false ∧ ∀ n, checkIfDue callBack n advanceClock s = .ok (false, s)) ∨
    ∃ next rest, s.pending = next :: rest ∧ (s.stats.totalTicks < next.when → advanceClock = true) ∧
      ∀ n, checkIfDue callBack n advanceClock s =
        (drain callBack n (s.enter next)).map fun s => (true, { s with inHandler := false }) := by
  have hlevel : ¬ s.level ≠ .intOff := not_not_intro hoff
  cases hp : s.pending with
  | nil =>
    refine Or.inl ⟨by simp [frontDue, hp], fun n => ?_⟩
    simp only [checkIfDue, if_neg hlevel, hp]
  | cons next rest =>
    by_cases hwait : s.stats.totalTicks < next.when ∧ advanceClock = false
    · refine Or.inl ⟨by simp [frontDue, hp, hwait.1], fun n => ?_⟩
      simp only [checkIfDue, if_neg hlevel, hp]
      rw [if_pos hwait]
    · refine Or.inr ⟨next, rest, rfl, fun hlt => by simpa [hlt] using hwait, fun n => ?_⟩
      simp only [checkIfDue, if_neg hlevel, hp]
      rw [if_neg hwait]
      rfl

theorem level_of_checkIfDue {n : ℕ} {r : Bool × Interrupt κ} (h : checkIfDue callBack n advanceClock s = .ok r) :
    s.level = .intOff := by
  by_contra hne
  rw [checkIfDue, if_pos hne] at h
  cases h

theorem checkIfDue_cases {n : ℕ} {r : Bool × Interrupt κ} (h : checkIfDue callBack n advanceClock s = .ok r) :
    r = (false, s) ∨ ∃ next rest s₁, s.pending = next :: rest ∧ drain callBack n (s.enter next) = .ok s₁ ∧
      r = (true, { s₁ with inHandler := false }) := by
  rcases checkIfDue_eq callBack advanceClock (level_of_checkIfDue h) with ⟨-, heq⟩ | ⟨next, rest, hp, -, heq⟩
  · exact Or.inl (Except.ok.inj (h.symm.trans (heq n)))
  · rw [heq n] at h
    cases hd : drain callBack n (s.enter next) with
    | error e => rw [hd] at h; cases h
    | ok s₁ =>
      rw [hd] at h
      exact Or.inr ⟨next, rest, s₁, hp, hd, (Except.ok.inj h).symm⟩

theorem drain_mono {n m : ℕ} (h : drain callBack n s = .ok s') (hle : n ≤ m) : drain callBack m s = .ok s' := by
  induction n generalizing m s with
  | zero => cases h
  | succ n ih =>
    obtain ⟨m, rfl⟩ : ∃ m', m = m' + 1 := ⟨m - 1, by omega⟩
    obtain ⟨_, next, rest, s₁, heq, hp, hi, hcase⟩ := drain_cases h
    obtain rfl := Nat.succ.inj heq
    rw [drain_succ hp hi]
    rcases hcase with ⟨hdue, hd⟩ | ⟨hdue, rfl⟩
    · rw [if_pos hdue]
      exact ih hd (by omega)
    · rw [hdue]
      rfl

/-- More fuel does not matter. -/
theorem checkIfDue_mono {n m : ℕ} {r : Bool × Interrupt κ} (h : checkIfDue callBack n advanceClock s = .ok r)
    (hle : n ≤ m) : checkIfDue callBack m advanceClock s = .ok r := by
  rcases checkIfDue_eq callBack advanceClock (level_of_checkIfDue h) with ⟨-, heq⟩ | ⟨next, rest, hp, -, heq⟩
  · rw [heq n] at h
    rw [heq m, h]
  · rw [heq n] at h
    rw [heq m]
    cases hd : drain callBack n (s.enter next) with
    | error e => rw [hd] at h; cases h
    | ok s₁ =>
      rw [drain_mono hd hle]
      rw [hd] at h
      exact h

end Loop

/-! ### Every run -/

/-- What holds however the sums come out. -/
structure Wf (s : Interrupt κ) : Prop where
  sorted : s.pending.Pairwise PendingInterrupt.Before
  ids : (s.pending.map PendingInterrupt.id ++ s.invoked.map fun x => x.1.id).Perm (List.range s.scheduled)
  clock : minInt ≤ s.stats.totalTicks ∧ s.stats.totalTicks ≤ maxInt
  whens : ∀ i ∈ s.pending, minInt ≤ i.when ∧ i.when ≤ maxInt

variable {s s' : Interrupt κ}

theorem wf_init : Wf (init : Interrupt κ) := by
  constructor <;> simp [init, minInt, maxInt]

theorem Wf.id_lt (h : Wf s) {i : PendingInterrupt κ} (hi : i ∈ s.pending) : i.id < s.scheduled := by
  rw [← List.mem_range, ← h.ids.mem_iff]
  exact List.mem_append_left _ (List.mem_map_of_mem hi)

theorem Wf.put (h : Wf s) (toCall : κ) (fromNow : ℤ) : Wf (s.put toCall fromNow) := by
  constructor
  · exact pairwise_insert h.sorted fun j hj => h.id_lt hj
  · show (List.map _ (insert _ _) ++ _).Perm (List.range (s.scheduled + 1))
    rw [List.range_succ]
    refine ((perm_insert.map _).append_right _).trans ?_
    exact (h.ids.cons _).trans (List.perm_append_singleton _ _).symm
  · exact h.clock
  · intro i hi
    rcases mem_insert.mp hi with rfl | hi
    · exact toInt_mem _
    · exact h.whens i hi

theorem Wf.fire (h : Wf s) {next : PendingInterrupt κ} {rest : List (PendingInterrupt κ)}
    (hp : s.pending = next :: rest) (yields : Bool) : Wf (s.fire next rest yields) := by
  have hsorted := h.sorted
  have hids := h.ids
  rw [hp] at hsorted hids
  constructor
  · exact (List.pairwise_cons.mp hsorted).2
  · refine List.Perm.trans ?_ hids
    show (_ ++ (s.invoked ++ [(next, _)]).map _).Perm _
    rw [List.map_append, ← List.append_assoc]
    exact List.perm_append_singleton _ _
  · exact h.clock
  · intro i hi
    exact h.whens i (hp ▸ List.mem_cons_of_mem _ hi)

theorem Wf.congr (h : Wf s) (hp : s'.pending = s.pending) (hi : s'.invoked = s.invoked)
    (hn : s'.scheduled = s.scheduled) (ht : minInt ≤ s'.stats.totalTicks ∧ s'.stats.totalTicks ≤ maxInt) : Wf s' := by
  constructor
  · rw [hp]
    exact h.sorted
  · rw [hp, hi, hn]
    exact h.ids
  · exact ht
  · rw [hp]
    exact h.whens

/-! ### A pass of `CheckIfDue` -/

/-- The interrupts that are due. -/
def due (s : Interrupt κ) : List (PendingInterrupt κ) := s.pending.filter fun i => i.when ≤ s.stats.totalTicks

theorem mem_due {i : PendingInterrupt κ} : i ∈ s.due ↔ i ∈ s.pending ∧ i.when ≤ s.stats.totalTicks := by
  simp [due]

theorem due_nil_iff : s.due = [] ↔ ∀ i ∈ s.pending, s.stats.totalTicks < i.when := by
  simp [due, List.filter_eq_nil_iff]

/-- The interrupts that are due come first. -/
theorem Wf.frontDue_eq_false (h : Wf s) : s.frontDue = false ↔ s.due = [] := by
  rw [due_nil_iff]
  cases hp : s.pending with
  | nil => simp [frontDue, hp]
  | cons front rest =>
    rw [Bool.eq_false_iff, ne_eq, frontDue_iff hp, not_le]
    have hsorted := h.sorted
    rw [hp, List.pairwise_cons] at hsorted
    refine ⟨fun hlt i hi => ?_, fun hall => hall front List.mem_cons_self⟩
    rcases List.mem_cons.mp hi with rfl | hi
    · exact hlt
    · have := hsorted.1 i hi
      unfold PendingInterrupt.Before at this
      omega

theorem due_cons {next : PendingInterrupt κ} {rest : List (PendingInterrupt κ)} (hp : s.pending = next :: rest)
    (hdue : next.when ≤ s.stats.totalTicks) :
    s.due = next :: rest.filter fun i => i.when ≤ s.stats.totalTicks := by
  rw [due, hp, List.filter_cons_of_pos (by simpa using hdue)]

/-- What the handlers leave alone. -/
structure Keeps (s s' : Interrupt κ) : Prop where
  stats : s'.stats = s.stats
  level : s'.level = s.level
  status : s'.status = s.status
  inHandler : s'.inHandler = s.inHandler

theorem Keeps.trans {s'' : Interrupt κ} (h : Keeps s s') (h' : Keeps s' s'') : Keeps s s'' :=
  ⟨h'.stats.trans h.stats, h'.level.trans h.level, h'.status.trans h.status, h'.inHandler.trans h.inHandler⟩

/-- The handler of `i` called at `now` schedules for later, within an `int`. -/
def HandlerFits (callBack : κ → MachineStatus → Handled κ) (status : MachineStatus) (now : ℤ)
    (i : PendingInterrupt κ) : Prop :=
  ∀ c ∈ (callBack i.callOnInterrupt status).schedules, 0 < c.2 ∧ now + c.2 ≤ maxInt

/-- The time at which a pass calls the handlers. -/
def passTime (advanceClock : Bool) (s : Interrupt κ) : ℤ :=
  match s.pending with
  | [] => s.stats.totalTicks
  | next :: _ => if advanceClock then max s.stats.totalTicks next.when else s.stats.totalTicks

/-- The handlers that a pass calls schedule for later, within an `int`. -/
def HandlersFit (callBack : κ → MachineStatus → Handled κ) (advanceClock : Bool) (s : Interrupt κ) : Prop :=
  ∀ i ∈ s.pending, i.when ≤ s.passTime advanceClock →
    HandlerFits callBack s.status (s.passTime advanceClock) i

/-- An invariant of the calls of a pass. -/
structure PassInv (P : Interrupt κ → Prop) : Prop where
  wf : ∀ s, P s → Wf s
  congr : ∀ s s', P s → s'.pending = s.pending → s'.invoked = s.invoked → s'.scheduled = s.scheduled →
    s'.stats = s.stats → P s'
  advance : ∀ s next, P s → next ∈ s.pending → P (s.advance next)
  put : ∀ s toCall fromNow, P s → 0 < fromNow → s.stats.totalTicks + fromNow ≤ maxInt → P (s.put toCall fromNow)
  fire : ∀ s next rest yields, P s → s.pending = next :: rest → next.when ≤ s.stats.totalTicks →
    P (s.fire next rest yields)

section Pass

variable {P : Interrupt κ → Prop} (hP : PassInv P) {callBack : κ → MachineStatus → Handled κ}

include hP

theorem schedules_fit (calls : List (κ × ℤ)) (s : Interrupt κ) (h : P s)
    (hfit : ∀ c ∈ calls, 0 < c.2 ∧ s.stats.totalTicks + c.2 ≤ maxInt) :
    ∃ s', calls.foldlM (fun s c => s.schedule c.1 c.2) s = .ok s' ∧ P s' ∧ Keeps s s' ∧
      s'.invoked = s.invoked ∧ s'.due = s.due := by
  induction calls generalizing s with
  | nil => exact ⟨s, rfl, h, ⟨rfl, rfl, rfl, rfl⟩, rfl, rfl⟩
  | cons c calls ih =>
    obtain ⟨hpos, hle⟩ := hfit c List.mem_cons_self
    obtain ⟨s', hs', hi, hk, hinv, hdue⟩ := ih (s.put c.1 c.2) (hP.put s c.1 c.2 h hpos hle)
      fun d hd => hfit d (List.mem_cons_of_mem _ hd)
    refine ⟨s', ?_, hi, ⟨hk.stats, hk.level, hk.status, hk.inHandler⟩, hinv, hdue.trans (filter_insert ?_)⟩
    · rw [List.foldlM_cons, schedule, if_pos hpos]
      exact hs'
    · -- the sum has not wrapped
      have hmin := (hP.wf s h).clock.1
      rw [toInt_eq (by omega) hle]
      apply decide_eq_false
      show ¬ s.stats.totalTicks + c.2 ≤ s.stats.totalTicks
      omega

theorem invoke_fits {next : PendingInterrupt κ} {rest : List (PendingInterrupt κ)} (h : P s)
    (hp : s.pending = next :: rest) (hdue : next.when ≤ s.stats.totalTicks)
    (hfit : HandlerFits callBack s.status s.stats.totalTicks next) :
    ∃ s', s.invoke callBack next rest = .ok s' ∧ P s' ∧ Keeps s s' ∧
      s'.invoked = s.invoked ++ [(next, s.stats.totalTicks)] ∧ s.due = next :: s'.due := by
  obtain ⟨s', hs', hi, hk, hinv, hd⟩ := schedules_fit hP _ _
    (hP.fire s next rest (callBack next.callOnInterrupt s.status).yields h hp hdue) hfit
  refine ⟨s', hs', hi, ⟨hk.stats, hk.level, hk.status, hk.inHandler⟩, hinv, ?_⟩
  rw [hd, due_cons hp hdue]
  rfl

/-- The interrupts that are due are called, each once, and the loop ends. -/
theorem drain_fits (l : List (PendingInterrupt κ)) (s : Interrupt κ) (h : P s) (hl : s.due = l) (hne : l ≠ [])
    (hfit : ∀ i ∈ l, HandlerFits callBack s.status s.stats.totalTicks i) :
    ∃ s', (∀ n, l.length ≤ n → drain callBack n s = .ok s') ∧ P s' ∧ Keeps s s' ∧
      s'.invoked = s.invoked ++ l.map (·, s.stats.totalTicks) ∧ s'.due = [] := by
  induction l generalizing s with
  | nil => exact absurd rfl hne
  | cons i l ih =>
    obtain ⟨next, rest, hp⟩ : ∃ next rest, s.pending = next :: rest := by
      have hi := (mem_due.mp (hl ▸ List.mem_cons_self : i ∈ s.due)).1
      exact List.exists_cons_of_ne_nil (List.ne_nil_of_mem hi)
    have hdue : next.when ≤ s.stats.totalTicks := by
      rw [← frontDue_iff hp, ← Bool.not_eq_false, (hP.wf s h).frontDue_eq_false, hl]
      exact List.cons_ne_nil i l
    obtain ⟨rfl, -⟩ := List.cons.inj ((due_cons hp hdue).symm.trans hl)
    obtain ⟨s₁, hs₁, h₁, hk₁, hinv₁, hd₁⟩ := invoke_fits hP h hp hdue (hfit next List.mem_cons_self)
    have hl₁ : s₁.due = l := (List.cons.inj (hd₁.symm.trans hl)).2
    have hfront := (hP.wf s₁ h₁).frontDue_eq_false
    rw [hl₁] at hfront
    rcases eq_or_ne l [] with hnil | hnil
    · refine ⟨s₁, fun n hn => ?_, h₁, hk₁, ?_, by rw [hl₁, hnil]⟩
      · obtain ⟨m, rfl⟩ : ∃ m, n = m + 1 := ⟨n - 1, by simp at hn; omega⟩
        rw [drain_succ hp hs₁, hfront.mpr hnil]
        rfl
      · rw [hinv₁, hnil]
        rfl
    · obtain ⟨s', hs', hi, hk, hinv, hd⟩ := ih s₁ h₁ hl₁ hnil fun j hj => by
        rw [hk₁.status, hk₁.stats]
        exact hfit j (List.mem_cons_of_mem _ hj)
      refine ⟨s', fun n hn => ?_, hi, hk₁.trans hk, ?_, hd⟩
      · obtain ⟨m, rfl⟩ : ∃ m, n = m + 1 := ⟨n - 1, by simp at hn; omega⟩
        rw [drain_succ hp hs₁, if_pos (by rw [← Bool.not_eq_false, hfront]; exact hnil)]
        apply hs' m
        simpa using hn
      · rw [hinv, hinv₁, hk₁.stats, List.append_assoc]
        rfl

/-- The time of the pass, and what is due then. -/
theorem enter_spec {advanceClock : Bool} {next : PendingInterrupt κ} {rest : List (PendingInterrupt κ)} (h : P s)
    (hp : s.pending = next :: rest) (hgo : s.stats.totalTicks < next.when → advanceClock = true) :
    P (s.enter next) ∧ (s.enter next).stats.totalTicks = s.passTime advanceClock ∧
      next.when ≤ (s.enter next).stats.totalTicks := by
  refine ⟨hP.congr _ _ (hP.advance s next h (by simp [hp])) rfl rfl rfl rfl, ?_⟩
  unfold enter advance passTime
  rw [hp]
  by_cases hlt : s.stats.totalTicks < next.when
  · simp [hlt, hgo hlt, hlt.le]
  · simp [hlt, not_lt.mp hlt]

/-- Nothing is due after `CheckIfDue`, and it has called only what was pending when
it was entered. -/
theorem checkIfDue_fits {advanceClock : Bool} (h : P s) (hoff : s.level = .intOff) (hin : s.inHandler = false)
    (hfit : HandlersFit callBack advanceClock s) :
    ∃ fired s', (∀ n, s.pending.length ≤ n → checkIfDue callBack n advanceClock s = .ok (fired, s')) ∧ P s' ∧
      s'.level = s.level ∧ s'.status = s.status ∧ s'.inHandler = s.inHandler ∧ s'.due = [] ∧
      ∃ l, s'.invoked = s.invoked ++ l ∧ ∀ x ∈ l, x.1 ∈ s.pending := by
  rcases checkIfDue_eq callBack advanceClock hoff with ⟨hnone, heq⟩ | ⟨next, rest, hp, hgo, heq⟩
  · exact ⟨false, s, fun n _ => heq n, h, rfl, rfl, rfl, (hP.wf s h).frontDue_eq_false.mp hnone, [], by simp, by simp⟩
  obtain ⟨h₀, hnow, hdue⟩ := enter_spec hP h hp hgo
  have hkeep := same_enter s next
  obtain ⟨s', hs', hi, hk, hinv, hd⟩ := drain_fits hP _ (s.enter next) h₀ rfl
    (by rw [due_cons (hkeep.1.trans hp) hdue]; exact List.cons_ne_nil _ _) fun i hi => by
      obtain ⟨hmem, hle⟩ := mem_due.mp hi
      rw [hkeep.2.2.1, hnow]
      exact hfit i (hkeep.1 ▸ hmem) (hnow ▸ hle)
  refine ⟨true, { s' with inHandler := false }, fun n hn => ?_, hP.congr _ _ hi rfl rfl rfl rfl,
    hk.level.trans hkeep.2.2.2, hk.status.trans hkeep.2.2.1, hin.symm, hd, _, hkeep.2.1 ▸ hinv, ?_⟩
  · rw [heq n, hs' n]
    · rfl
    · rw [← hkeep.1] at hn
      exact (List.length_filter_le _ _).trans hn
  · intro x hx
    obtain ⟨i, hi, rfl⟩ := List.mem_map.mp hx
    exact hkeep.1 ▸ (mem_due.mp hi).1

end Pass

/-! ### Runs within an `int` -/

/-- No sum leaves the `int`s, and everything is scheduled for later. -/
def Fits (callBack : κ → MachineStatus → Handled κ) (s : Interrupt κ) (e : Event κ) : Prop :=
  (match e with
    | .schedule _ fromNow => 0 < fromNow ∧ s.stats.totalTicks + fromNow ≤ maxInt
    | _ => True) ∧
  match s.entry e with
    | some (advanceClock, s₁) =>
      (advanceClock = false → s.stats.totalTicks + s.tickLength ≤ maxInt) ∧ HandlersFit callBack advanceClock s₁
    | none => True

instance (callBack : κ → MachineStatus → Handled κ) (advanceClock : Bool) (s : Interrupt κ) :
    Decidable (HandlersFit callBack advanceClock s) :=
  inferInstanceAs (Decidable (∀ i ∈ s.pending, i.when ≤ s.passTime advanceClock →
    ∀ c ∈ (callBack i.callOnInterrupt s.status).schedules, 0 < c.2 ∧ s.passTime advanceClock + c.2 ≤ maxInt))

instance (callBack : κ → MachineStatus → Handled κ) (s : Interrupt κ) (e : Event κ) :
    Decidable (Fits callBack s e) :=
  @instDecidableAnd _ _
    (match e with
      | .schedule _ _ => inferInstanceAs (Decidable (_ ∧ _))
      | .setLevel _ | .oneTick | .idle | .setStatus _ => isTrue trivial)
    (match s.entry e with
      | some _ => inferInstanceAs (Decidable (_ ∧ _))
      | none => isTrue trivial)

theorem Fits.entry {callBack : κ → MachineStatus → Handled κ} {e : Event κ} {advanceClock : Bool} {s₁ : Interrupt κ}
    (h : Fits callBack s e) (he : s.entry e = some (advanceClock, s₁)) :
    (advanceClock = false → s.stats.totalTicks + s.tickLength ≤ maxInt) ∧ HandlersFit callBack advanceClock s₁ := by
  have h2 := h.2
  rw [he] at h2
  exact h2

structure Inv (s : Interrupt κ) : Prop extends Wf s where
  early : ∀ x ∈ s.invoked, x.1.when ≤ x.2
  order : (s.invoked.map Prod.fst).Pairwise PendingInterrupt.Before
  past : ∀ x ∈ s.invoked, ∀ i ∈ s.pending, x.1.Before i
  done : ∀ x ∈ s.invoked, x.1.when ≤ s.stats.totalTicks
  ticks : s.stats.totalTicks = s.stats.idleTicks + s.stats.systemTicks + s.stats.userTicks
  nonneg : 0 ≤ s.stats.idleTicks ∧ 0 ≤ s.stats.systemTicks ∧ 0 ≤ s.stats.userTicks

theorem inv_init : Inv (init : Interrupt κ) := by
  refine ⟨wf_init, ?_, ?_, ?_, ?_, ?_, ?_⟩ <;> simp [init]

theorem Inv.congr (h : Inv s) (hp : s'.pending = s.pending) (hi : s'.invoked = s.invoked)
    (hn : s'.scheduled = s.scheduled) (hle : s.stats.totalTicks ≤ s'.stats.totalTicks)
    (hmax : s'.stats.totalTicks ≤ maxInt)
    (hticks : s'.stats.totalTicks = s'.stats.idleTicks + s'.stats.systemTicks + s'.stats.userTicks)
    (hnonneg : 0 ≤ s'.stats.idleTicks ∧ 0 ≤ s'.stats.systemTicks ∧ 0 ≤ s'.stats.userTicks) : Inv s' := by
  refine ⟨h.toWf.congr hp hi hn ⟨h.clock.1.trans hle, hmax⟩, ?_, ?_, ?_, ?_, hticks, hnonneg⟩
  · rw [hi]
    exact h.early
  · rw [hi]
    exact h.order
  · rw [hi, hp]
    exact h.past
  · rw [hi]
    exact fun x hx => (h.done x hx).trans hle

theorem Inv.put (h : Inv s) (toCall : κ) {fromNow : ℤ} (hpos : 0 < fromNow)
    (hle : s.stats.totalTicks + fromNow ≤ maxInt) : Inv (s.put toCall fromNow) := by
  refine ⟨h.toWf.put toCall fromNow, h.early, h.order, fun x hx i hi => ?_, h.done, h.ticks, h.nonneg⟩
  rcases mem_insert.mp hi with rfl | hi
  · -- it is due after the present time
    have hdone := h.done x hx
    have hmin := h.clock.1
    left
    show x.1.when < toInt _
    rw [toInt_eq (by omega) hle]
    omega
  · exact h.past x hx i hi

theorem Inv.fire (h : Inv s) {next : PendingInterrupt κ} {rest : List (PendingInterrupt κ)}
    (hp : s.pending = next :: rest) (hdue : next.when ≤ s.stats.totalTicks) (yields : Bool) :
    Inv (s.fire next rest yields) := by
  have hmem : next ∈ s.pending := by simp [hp]
  have hrest : ∀ i ∈ rest, i ∈ s.pending := fun i hi => by simp [hp, hi]
  refine ⟨h.toWf.fire hp yields, ?_, ?_, ?_, ?_, h.ticks, h.nonneg⟩
  · intro x hx
    rcases List.mem_append.mp hx with hx | hx
    · exact h.early x hx
    · rw [List.mem_singleton.mp hx]
      exact hdue
  · show ((s.invoked ++ [(next, _)]).map Prod.fst).Pairwise _
    rw [List.map_append, List.pairwise_append]
    refine ⟨h.order, by simp, fun i hi j hj => ?_⟩
    obtain ⟨x, hx, rfl⟩ := List.mem_map.mp hi
    rw [List.mem_singleton.mp hj]
    exact h.past x hx next hmem
  · intro x hx i hi
    rcases List.mem_append.mp hx with hx | hx
    · exact h.past x hx i (hrest i hi)
    · rw [List.mem_singleton.mp hx]
      have hsorted := h.sorted
      rw [hp] at hsorted
      exact (List.pairwise_cons.mp hsorted).1 i hi
  · intro x hx
    rcases List.mem_append.mp hx with hx | hx
    · exact h.done x hx
    · rw [List.mem_singleton.mp hx]
      exact hdue

theorem Inv.advance (h : Inv s) {next : PendingInterrupt κ} (hmem : next ∈ s.pending) : Inv (s.advance next) := by
  unfold Interrupt.advance
  split
  · rename_i hlt
    have hmax := (h.whens next hmem).2
    have hticks := h.ticks
    obtain ⟨hidle, hsystem, huser⟩ := h.nonneg
    have hmin : minInt ≤ 0 := by decide
    have hgap : toInt (next.when - s.stats.totalTicks) = next.when - s.stats.totalTicks :=
      toInt_eq (by omega) (by omega)
    have hidle' : toInt (s.stats.idleTicks + (next.when - s.stats.totalTicks)) =
        s.stats.idleTicks + (next.when - s.stats.totalTicks) := toInt_eq (by omega) (by omega)
    refine h.congr rfl rfl rfl hlt.le hmax ?_ ?_
    · show next.when = toInt _ + s.stats.systemTicks + s.stats.userTicks
      rw [hgap, hidle']
      omega
    · show 0 ≤ toInt _ ∧ _
      rw [hgap, hidle']
      exact ⟨by omega, hsystem, huser⟩
  · exact h

theorem Inv.tick (h : Inv s) (hle : s.stats.totalTicks + s.tickLength ≤ maxInt) : Inv s.tick := by
  have hticks := h.ticks
  obtain ⟨hidle, hsystem, huser⟩ := h.nonneg
  have hmin : minInt ≤ 0 := by decide
  have hs : systemTick = 10 := rfl
  have hu : userTick = 1 := rfl
  unfold tickLength at hle
  by_cases hstatus : s.status = .systemMode
  · rw [if_pos hstatus] at hle
    have htotal : toInt (s.stats.totalTicks + systemTick) = s.stats.totalTicks + systemTick := toInt_eq (by omega) hle
    have hsys : toInt (s.stats.systemTicks + systemTick) = s.stats.systemTicks + systemTick :=
      toInt_eq (by omega) (by omega)
    refine h.congr rfl rfl rfl ?_ ?_ ?_ ?_ <;> simp only [Interrupt.tick, if_pos hstatus, htotal, hsys] <;> omega
  · rw [if_neg hstatus] at hle
    have htotal : toInt (s.stats.totalTicks + userTick) = s.stats.totalTicks + userTick := toInt_eq (by omega) hle
    have husr : toInt (s.stats.userTicks + userTick) = s.stats.userTicks + userTick :=
      toInt_eq (by omega) (by omega)
    refine h.congr rfl rfl rfl ?_ ?_ ?_ ?_ <;> simp only [Interrupt.tick, if_neg hstatus, htotal, husr] <;> omega

theorem Inv.same (h : Inv s) (hp : s'.pending = s.pending) (hi : s'.invoked = s.invoked)
    (hn : s'.scheduled = s.scheduled) (ht : s'.stats = s.stats) : Inv s' := by
  apply h.congr hp hi hn <;> rw [ht]
  · exact h.clock.2
  · exact h.ticks
  · exact h.nonneg

theorem passInv_inv : PassInv (Inv : Interrupt κ → Prop) where
  wf _ h := h.toWf
  congr _ _ h := h.same
  advance _ _ h := h.advance
  put _ toCall _ h := h.put toCall
  fire _ _ _ yields h hp hdue := h.fire hp hdue yields

theorem passInv_wf : PassInv (Wf : Interrupt κ → Prop) where
  wf _ h := h
  congr s s' h hp hi hn ht := h.congr hp hi hn (ht ▸ h.clock)
  advance s next h hmem := by
    unfold Interrupt.advance
    split
    · exact h.congr rfl rfl rfl (h.whens next hmem)
    · exact h
  put _ toCall fromNow h _ _ := h.put toCall fromNow
  fire _ _ _ yields h hp _ := h.fire hp yields

/-! ### Steps -/

/-- The level, the status and `yieldOnReturn` aside. -/
structure Same (s s' : Interrupt κ) : Prop where
  pending : s'.pending = s.pending
  invoked : s'.invoked = s.invoked
  scheduled : s'.scheduled = s.scheduled
  stats : s'.stats = s.stats
  inHandler : s'.inHandler = s.inHandler

theorem same_untick (s : Interrupt κ) : Same s s.untick := by
  unfold untick
  split <;> exact ⟨rfl, rfl, rfl, rfl, rfl⟩

theorem entry_cases {e : Event κ} {advanceClock : Bool} {s₁ : Interrupt κ} (h : s.entry e = some (advanceClock, s₁)) :
    s₁.level = .intOff ∧ (advanceClock = false ∧ Same s.tick s₁ ∨ advanceClock = true ∧ Same s s₁) := by
  cases e with
  | schedule toCall fromNow => cases h
  | setStatus st => cases h
  | oneTick =>
    obtain ⟨rfl, rfl⟩ := Prod.mk.inj (Option.some.inj h)
    exact ⟨rfl, Or.inl ⟨rfl, rfl, rfl, rfl, rfl, rfl⟩⟩
  | idle =>
    simp only [entry] at h
    split at h
    · obtain ⟨rfl, rfl⟩ := Prod.mk.inj (Option.some.inj h)
      exact ⟨‹_›, Or.inr ⟨rfl, rfl, rfl, rfl, rfl, rfl⟩⟩
    · cases h
  | setLevel now =>
    cases now with
    | intOff => cases h
    | intOn =>
      simp only [entry] at h
      split at h
      · obtain ⟨rfl, rfl⟩ := Prod.mk.inj (Option.some.inj h)
        exact ⟨rfl, Or.inl ⟨rfl, rfl, rfl, rfl, rfl, rfl⟩⟩
      · cases h

section Steps

variable {callBack : κ → MachineStatus → Handled κ} {fuel : ℕ}

theorem oneTick_cases (h : s.oneTick callBack fuel = .ok s') :
    ∃ r, checkIfDue callBack fuel false s.tick = .ok r ∧ Same r.2 s' := by
  unfold oneTick at h
  cases hc : checkIfDue callBack fuel false s.tick with
  | error e => rw [hc] at h; cases h
  | ok r =>
    rw [hc] at h
    refine ⟨r, rfl, ?_⟩
    rw [← Except.ok.inj h]
    exact same_untick r.2

/-- A step schedules an interrupt, makes a pass, or leaves everything as it is. -/
theorem step_cases {e : Event κ} (h : step callBack fuel s e = some s') :
    (∃ toCall fromNow, e = .schedule toCall fromNow ∧ s' = s.put toCall fromNow) ∨
    (∃ advanceClock s₁ r, s.entry e = some (advanceClock, s₁) ∧
      checkIfDue callBack fuel advanceClock s₁ = .ok r ∧ Same r.2 s') ∨ Same s s' := by
  have hperform : s.perform callBack fuel e = .ok s' := by
    unfold step at h
    cases hp : s.perform callBack fuel e with
    | error e => rw [hp] at h; cases h
    | ok s'' => rw [hp] at h; rw [Option.some.inj h]
  cases e with
  | schedule toCall fromNow =>
    simp only [perform, schedule] at hperform
    split at hperform
    · exact Or.inl ⟨toCall, fromNow, rfl, (Except.ok.inj hperform).symm⟩
    · cases hperform
  | setStatus st =>
    rw [← Except.ok.inj hperform]
    exact Or.inr (Or.inr ⟨rfl, rfl, rfl, rfl, rfl⟩)
  | oneTick =>
    obtain ⟨r, hr, hsame⟩ := oneTick_cases hperform
    exact Or.inr (Or.inl ⟨false, s.tick, r, rfl, hr, hsame⟩)
  | idle =>
    simp only [perform, idle] at hperform
    cases hc : checkIfDue callBack fuel true { s with status := .idleMode } with
    | error e => rw [hc] at hperform; cases hperform
    | ok r =>
      rw [hc] at hperform
      refine Or.inr (Or.inl ⟨true, _, r, if_pos (level_of_checkIfDue hc), hc, ?_⟩)
      simp only [bind, Except.bind] at hperform
      split at hperform
      · rw [← Except.ok.inj hperform]
        exact ⟨rfl, rfl, rfl, rfl, rfl⟩
      · cases hperform
  | setLevel now =>
    simp only [perform, setLevel] at hperform
    split at hperform
    · cases hperform
    rename_i hin
    split at hperform
    · obtain ⟨rfl, hoff⟩ := ‹_ ∧ _›
      obtain ⟨r, hr, hsame⟩ := oneTick_cases hperform
      have hin' : s.inHandler = false := by simpa using hin
      exact Or.inr (Or.inl ⟨false, _, r, if_pos ⟨hoff, hin'⟩, hr, hsame⟩)
    · rw [← Except.ok.inj hperform]
      exact Or.inr (Or.inr ⟨rfl, rfl, rfl, rfl, rfl⟩)

theorem inHandler_checkIfDue {advanceClock : Bool} {r : Bool × Interrupt κ}
    (h : checkIfDue callBack fuel advanceClock s = .ok r) (hin : s.inHandler = false) : r.2.inHandler = false := by
  rcases checkIfDue_cases h with rfl | ⟨next, rest, s₁, -, -, rfl⟩
  · exact hin
  · rfl

theorem wf_schedules (calls : List (κ × ℤ)) (s : Interrupt κ) (h : Wf s)
    (hs : calls.foldlM (fun s c => s.schedule c.1 c.2) s = .ok s') : Wf s' := by
  induction calls generalizing s with
  | nil =>
    rw [← Except.ok.inj hs]
    exact h
  | cons c calls ih =>
    rw [List.foldlM_cons, schedule] at hs
    split at hs
    · exact ih _ (h.put c.1 c.2) hs
    · cases hs

theorem wf_drain (n : ℕ) (s : Interrupt κ) (h : Wf s) (hs : drain callBack n s = .ok s') : Wf s' := by
  induction n generalizing s with
  | zero => cases hs
  | succ n ih =>
    obtain ⟨_, next, rest, s₁, heq, hp, hi, hcase⟩ := drain_cases hs
    obtain rfl := Nat.succ.inj heq
    have h₁ : Wf s₁ := wf_schedules _ _ (h.fire hp _) hi
    rcases hcase with ⟨-, hd⟩ | ⟨-, rfl⟩
    · exact ih s₁ h₁ hd
    · exact h₁

theorem wf_checkIfDue {advanceClock : Bool} {r : Bool × Interrupt κ} (h : Wf s)
    (hr : checkIfDue callBack fuel advanceClock s = .ok r) : Wf r.2 := by
  rcases checkIfDue_cases hr with rfl | ⟨next, rest, s₁, hp, hd, rfl⟩
  · exact h
  · have hadv : Wf (s.advance next) := passInv_wf.advance s next h (by simp [hp])
    have hentered : Wf (s.enter next) := hadv.congr rfl rfl rfl hadv.clock
    have hs₁ : Wf s₁ := wf_drain fuel _ hentered hd
    exact hs₁.congr rfl rfl rfl hs₁.clock

theorem Wf.entry {e : Event κ} {advanceClock : Bool} {s₁ : Interrupt κ} (h : Wf s)
    (he : s.entry e = some (advanceClock, s₁)) : Wf s₁ := by
  obtain ⟨-, ⟨-, hsame⟩ | ⟨-, hsame⟩⟩ := entry_cases he
  · apply h.congr hsame.pending hsame.invoked hsame.scheduled
    rw [hsame.stats]
    unfold tick
    dsimp only
    split <;> exact toInt_mem _
  · apply h.congr hsame.pending hsame.invoked hsame.scheduled
    rw [hsame.stats]
    exact h.clock

theorem inHandler_entry {e : Event κ} {advanceClock : Bool} {s₁ : Interrupt κ}
    (he : s.entry e = some (advanceClock, s₁)) : s₁.inHandler = s.inHandler := by
  obtain ⟨-, ⟨-, hsame⟩ | ⟨-, hsame⟩⟩ := entry_cases he <;> exact hsame.inHandler

theorem wf_step {e : Event κ} (h : Wf s ∧ s.inHandler = false) (hs : step callBack fuel s e = some s') :
    Wf s' ∧ s'.inHandler = false := by
  obtain ⟨hwf, hin⟩ := h
  rcases step_cases hs with ⟨toCall, fromNow, -, rfl⟩ | ⟨adv, s₁, r, he, hr, hsame⟩ | hsame
  · exact ⟨hwf.put toCall fromNow, hin⟩
  · have hr' := wf_checkIfDue (hwf.entry he) hr
    refine ⟨hr'.congr hsame.pending hsame.invoked hsame.scheduled (hsame.stats ▸ hr'.clock), ?_⟩
    exact hsame.inHandler.trans (inHandler_checkIfDue hr ((inHandler_entry he).trans hin))
  · exact ⟨hwf.congr hsame.pending hsame.invoked hsame.scheduled (hsame.stats ▸ hwf.clock),
      hsame.inHandler.trans hin⟩

theorem Inv.entry {e : Event κ} {advanceClock : Bool} {s₁ : Interrupt κ} (h : Inv s)
    (he : s.entry e = some (advanceClock, s₁)) (hfit : Fits callBack s e) : Inv s₁ := by
  obtain ⟨-, ⟨hadv, hsame⟩ | ⟨-, hsame⟩⟩ := entry_cases he
  · exact (h.tick ((hfit.entry he).1 hadv)).same hsame.pending hsame.invoked hsame.scheduled hsame.stats
  · exact h.same hsame.pending hsame.invoked hsame.scheduled hsame.stats

/-- The calls of `CheckIfDue` in a run that stays within an `int`. -/
theorem Inv.checkIfDue {e : Event κ} {advanceClock : Bool} {s₁ : Interrupt κ} (h : Inv s) (hin : s.inHandler = false)
    (he : s.entry e = some (advanceClock, s₁)) (hfit : Fits callBack s e) :
    ∃ fired s₂, (∀ n, s₁.pending.length ≤ n → checkIfDue callBack n advanceClock s₁ = .ok (fired, s₂)) ∧ Inv s₂ ∧
      s₂.due = [] ∧ ∃ l, s₂.invoked = s₁.invoked ++ l ∧ ∀ x ∈ l, x.1 ∈ s₁.pending := by
  obtain ⟨fired, s₂, hs₂, hi, -, -, -, hdue, hl⟩ := checkIfDue_fits passInv_inv (h.entry he hfit)
    (entry_cases he).1 ((inHandler_entry he).trans hin) (hfit.entry he).2
  exact ⟨fired, s₂, hs₂, hi, hdue, hl⟩

theorem inv_step {e : Event κ} (h : Inv s ∧ s.inHandler = false) (hfit : Fits callBack s e)
    (hs : step callBack fuel s e = some s') : Inv s' ∧ s'.inHandler = false := by
  obtain ⟨hi, hin⟩ := h
  refine ⟨?_, (wf_step ⟨hi.toWf, hin⟩ hs).2⟩
  rcases step_cases hs with ⟨toCall, fromNow, rfl, rfl⟩ | ⟨adv, s₁, r, he, hr, hsame⟩ | hsame
  · obtain ⟨hpos, hle⟩ := hfit.1
    exact hi.put toCall hpos hle
  · obtain ⟨fired, s₂, hs₂, hi₂, -⟩ := hi.checkIfDue hin he hfit
    -- the pass of the step is the one that ends
    have hmax := checkIfDue_mono hr (le_max_left fuel s₁.pending.length)
    rw [hs₂ _ (le_max_right _ _)] at hmax
    obtain rfl := Except.ok.inj hmax
    exact hi₂.same hsame.pending hsame.invoked hsame.scheduled hsame.stats
  · exact hi.same hsame.pending hsame.invoked hsame.scheduled hsame.stats

end Steps

/-! ### The runs -/

section Runs

variable (callBack : κ → MachineStatus → Handled κ)

/-- In every run in which the sums of the clock stay within an `int` and the
handlers schedule for later: every interrupt is invoked at most once, not before
its time, in the order of the times and, for equal times, of scheduling; the
ticks add up; and every call of `CheckIfDue` ends, having invoked only what was
pending when it was entered and leaving nothing that is due. -/
theorem interrupts_in_order (fuel : ℕ) (es : List (Event κ)) (s : Interrupt κ)
    (h : exec (step callBack fuel) init es = some s) (hfit : Along (step callBack fuel) (Fits callBack) init es) :
    (s.invoked.map fun x => x.1.id).Nodup ∧ (∀ x ∈ s.invoked, x.1.when ≤ x.2) ∧
    (s.invoked.map Prod.fst).Pairwise PendingInterrupt.Before ∧
    s.stats.totalTicks = s.stats.idleTicks + s.stats.systemTicks + s.stats.userTicks ∧
    ∀ e advanceClock s₁, s.entry e = some (advanceClock, s₁) → Fits callBack s e →
      ∃ fired s₂, (∀ n, s₁.pending.length ≤ n → checkIfDue callBack n advanceClock s₁ = .ok (fired, s₂)) ∧
        (∀ i ∈ s₂.pending, s₂.stats.totalTicks < i.when) ∧
        s₂.stats.totalTicks = s₂.stats.idleTicks + s₂.stats.systemTicks + s₂.stats.userTicks ∧
        ∃ l, s₂.invoked = s₁.invoked ++ l ∧ ∀ x ∈ l, x.1 ∈ s₁.pending := by
  obtain ⟨hi, hin⟩ := exec_induction_along (P := fun _ s => Inv s ∧ s.inHandler = false) ⟨inv_init, rfl⟩
    (fun _ _ _ _ hinv hf hs => inv_step hinv hf hs) es s hfit h
  refine ⟨?_, hi.early, hi.order, hi.ticks, fun e adv s₁ he hf => ?_⟩
  · have hnodup := hi.ids.nodup_iff.mpr List.nodup_range
    exact (List.nodup_append.mp hnodup).2.1
  · obtain ⟨fired, s₂, hs₂, hi₂, hdue, hl⟩ := hi.checkIfDue hin he hf
    exact ⟨fired, s₂, hs₂, due_nil_iff.mp hdue, hi₂.ticks, hl⟩

/-- An interrupt whose handler schedules another one, for the time of one that is
scheduled later. -/
theorem interrupts_in_order_sameTime :
    ∃ s : Interrupt Unit, exec (step (fun _ _ => ⟨[((), 3)], false⟩) 2) init
        [.schedule () 5, .idle, .schedule () 3, .idle] = some s ∧
      s.invoked.map (fun x => (x.1.id, x.1.when, x.2)) = [(0, 5, 5), (1, 8, 8), (2, 8, 8)] ∧
      (s.invoked.map fun x => x.1.id).Nodup ∧ s.stats.totalTicks = 8 := by
  have h : ((exec (step (fun _ _ => ⟨[((), 3)], false⟩) 2) init
      [.schedule () 5, .idle, .schedule () 3, .idle]).bind fun s : Interrupt Unit =>
        some (s.invoked.map fun x => (x.1.id, x.1.when, x.2), s.stats.totalTicks)) =
      some ([(0, 5, 5), (1, 8, 8), (2, 8, 8)], 8) := by decide +kernel
  obtain ⟨s, hs, hd⟩ := Option.bind_eq_some_iff.mp h
  obtain ⟨hinv, ht⟩ := Prod.mk.inj (Option.some.inj hd)
  have hfit : Along (step (fun _ _ => ⟨[((), 3)], false⟩) 2) (Fits fun _ _ => ⟨[((), 3)], false⟩) init
      [.schedule () 5, .idle, .schedule () 3, .idle] := by decide +kernel
  exact ⟨s, hs, hinv, (interrupts_in_order _ 2 _ s hs hfit).1, ht⟩

end Runs

end Interrupt

end Nachos
