/-
# Threads and the scheduler

`threads/thread.cc` and `threads/scheduler.cc`. A step is a stretch with
interrupts off, cut where another thread goes on: at `SWITCH` in
`Scheduler::Run`, and at `Idle` in `Thread::Sleep`, where interrupt handlers run.
What follows `SWITCH` (the end of `Run`, or `Begin` in a new thread) is a step of
its own, executed when the thread has become current again.

`Place` says where in this code each thread is. From the places follow the
statuses, the ready list and the queues of the semaphores (`Inv`); each step
keeps this, also when a thread is made ready while it is still in the loop of
`Sleep`, and the assertions on the way hold (`step_enabled`). A step concerns
one thread, or the two of a switch (`Inv.move`, `inv_switch`).

Key definitions: `Place`, `Scheduling`, `Scheduling.step`, `Scheduling.Inv`.

Key theorem: `thread_states`.
-/
import NachosNet.Basis.Run
import NachosNet.Threads.Synch

namespace Nachos

open Basis

inductive ThreadStatus
  | justCreated
  | running
  | ready
  | blocked
  deriving DecidableEq, Repr

/-- What a thread goes on with when it becomes current: `Begin`, the end of
`Yield`, or the loop of `P` on a semaphore. -/
inductive Resume (ℓ : Type*)
  | begin
  | yielded
  | slept (k : ℓ)
  deriving DecidableEq

inductive Place (ℓ : Type*)
  /-- `Fork` has not been called. -/
  | created
  /-- Waiting to become current. -/
  | away (r : Resume ℓ)
  /-- Current, before `CheckToBeDestroyed`. -/
  | arrived (r : Resume ℓ)
  /-- In its own code. -/
  | running
  /-- Back from `Sleep`, in the loop of `P`. -/
  | retry (k : ℓ)
  /-- In the loop of `Sleep`, for a semaphore or (`none`) in `Finish`. -/
  | sleep (k : Option ℓ)
  /-- Switched away from in `Finish`. -/
  | finished
  | deleted
  deriving DecidableEq

namespace Place

variable {ℓ : Type*}

/-- The places of the current thread. -/
def isCurrent : Place ℓ → Bool
  | .arrived _ | .running | .retry _ | .sleep _ => true
  | .created | .away _ | .finished | .deleted => false

/-- The statuses a thread can have at a place. -/
def HasStatus : Place ℓ → ThreadStatus → Prop
  | .created, st => st = .justCreated
  | .away (.slept _), st => st = .ready ∨ st = .blocked
  | .away _, st => st = .ready
  | .arrived _, st => st = .running
  | .running, st => st = .running
  | .retry _, st => st = .running
  | .sleep (some _), st => st = .ready ∨ st = .blocked
  | .sleep none, st => st = .blocked
  | .finished, st => st = .blocked
  | .deleted, st => st = .blocked

/-- The semaphore whose queue a blocked thread is in. -/
def waitsFor : Place ℓ → Option ℓ
  | .away (.slept k) => some k
  | .sleep k => k
  | _ => none

/-- After the last switch away from it. -/
def isDone : Place ℓ → Bool
  | .finished | .deleted => true
  | _ => false

theorem isDone_of_isCurrent {p : Place ℓ} (h : p.isCurrent = true) : p.isDone = false := by
  cases p <;> simp_all [isCurrent, isDone]

theorem isDone_of_waitsFor {p : Place ℓ} {k : ℓ} (h : p.waitsFor = some k) : p.isDone = false := by
  cases p <;> simp_all [waitsFor, isDone]

theorem hasStatus_ready {p : Place ℓ} {k : ℓ} (h : p.waitsFor = some k) : p.HasStatus .ready := by
  unfold waitsFor at h
  split at h
  · exact Or.inl rfl
  · subst h
    exact Or.inl rfl
  · simp at h

end Place

/-- The threads `τ` and semaphores `ℓ` of a kernel. `deletions` are the threads
deleted so far, each with the thread that was current then. -/
structure Scheduling (τ ℓ : Type*) where
  currentThread : τ
  status : τ → ThreadStatus
  readyList : List τ
  toBeDestroyed : Option τ
  sem : ℓ → Semaphore τ
  place : τ → Place ℓ
  deletions : List (τ × τ)

namespace Scheduling

variable {τ ℓ : Type*} [DecidableEq τ] [DecidableEq ℓ]

/-- `Scheduler::ReadyToRun`. `none` when `Append` finds the thread in the list. -/
def readyToRun (s : Scheduling τ ℓ) (t : τ) : Option (Scheduling τ ℓ) :=
  if t ∈ s.readyList then none
  else some { s with status := Function.update s.status t .ready, readyList := s.readyList ++ [t] }

/-- `Scheduler::Run` up to `SWITCH`: the current thread goes to `p`, and
`nextThread` has been switched to. `none` when the assertion fails, or when
there is no place to go on for `nextThread`. -/
def run (s : Scheduling τ ℓ) (nextThread : τ) (finishing : Bool) (p : Place ℓ) : Option (Scheduling τ ℓ) :=
  if finishing = true ∧ s.toBeDestroyed ≠ none then none
  else
    match Function.update s.place s.currentThread p nextThread with
    | .away r => some { s with
        toBeDestroyed := if finishing then some s.currentThread else s.toBeDestroyed
        currentThread := nextThread
        status := Function.update s.status nextThread .running
        place := Function.update (Function.update s.place s.currentThread p) nextThread (.arrived r) }
    | _ => none

/-- `Scheduler::CheckToBeDestroyed`. `none` when `~Thread` is called on the
current thread. -/
def checkToBeDestroyed (s : Scheduling τ ℓ) : Option (Scheduling τ ℓ) :=
  match s.toBeDestroyed with
  | none => some s
  | some d =>
    if d = s.currentThread then none
    else some { s with
      toBeDestroyed := none
      place := Function.update s.place d .deleted
      deletions := s.deletions ++ [(d, s.currentThread)] }

/-- The current thread goes on to `p`. -/
def goto (s : Scheduling τ ℓ) (p : Place ℓ) : Scheduling τ ℓ :=
  { s with place := Function.update s.place s.currentThread p }

/-- The start of `Sleep`. -/
def block (s : Scheduling τ ℓ) (k : Option ℓ) : Scheduling τ ℓ :=
  { s with status := Function.update s.status s.currentThread .blocked }.goto (.sleep k)

/-- A pass through the loop of `P`. `none` when the thread is in the queue already. -/
def passP (s : Scheduling τ ℓ) (k : ℓ) : Option (Scheduling τ ℓ) :=
  if (s.sem k).value = 0 then
    if s.currentThread ∈ (s.sem k).queue then none
    else some ({ s with sem := Function.update s.sem k ((s.sem k).P s.currentThread).1 }.block (some k))
  else some ({ s with sem := Function.update s.sem k ((s.sem k).P s.currentThread).1 }.goto .running)

inductive Event (τ ℓ : Type*)
  /-- The current thread calls `Fork` on `t`. -/
  | fork (t : τ)
  | yield
  /-- The current thread calls `P`. -/
  | P (k : ℓ)
  /-- Another pass through the loop of `P`. -/
  | again
  /-- The current thread or an interrupt handler calls `V`. -/
  | V (k : ℓ)
  | finish
  /-- `Sleep` finds a ready thread and runs it. -/
  | dispatch
  /-- The end of `Run`, or `Begin`. -/
  | arrive

def step (s : Scheduling τ ℓ) : Event τ ℓ → Option (Scheduling τ ℓ)
  | .fork t =>
    if s.place s.currentThread = .running ∧ s.place t = .created then
      { s with place := Function.update s.place t (.away .begin) }.readyToRun t
    else none
  | .yield =>
    if s.place s.currentThread = .running then
      match s.readyList with
      | [] => some s
      | n :: rest => ({ s with readyList := rest }.readyToRun s.currentThread).bind fun s =>
          s.run n false (.away .yielded)
    else none
  | .P k => if s.place s.currentThread = .running then s.passP k else none
  | .again =>
    match s.place s.currentThread with
    | .retry k => s.passP k
    | _ => none
  | .V k =>
    let s' := { s with sem := Function.update s.sem k (s.sem k).V.1 }
    match (s.sem k).V.2 with
    | none => some s'
    | some u => s'.readyToRun u
  | .finish => if s.place s.currentThread = .running then some (s.block none) else none
  | .dispatch =>
    match s.place s.currentThread, s.readyList with
    | .sleep (some k), n :: rest => { s with readyList := rest }.run n false (.away (.slept k))
    | .sleep none, n :: rest => { s with readyList := rest }.run n true .finished
    | _, _ => none
  | .arrive =>
    match s.place s.currentThread with
    | .arrived (.slept k) => s.checkToBeDestroyed.map fun s => s.goto (.retry k)
    | .arrived _ => s.checkToBeDestroyed.map fun s => s.goto .running
    | _ => none

/-- What the current thread, or a handler, can do next: `step` gives no state
for it only if an assertion fails. -/
def Enabled (s : Scheduling τ ℓ) : Event τ ℓ → Prop
  | .fork t => s.place s.currentThread = .running ∧ s.place t = .created
  | .yield | .P _ | .finish => s.place s.currentThread = .running
  | .again => ∃ k, s.place s.currentThread = .retry k
  | .V _ => True
  | .dispatch => (∃ k, s.place s.currentThread = .sleep k) ∧ s.readyList ≠ []
  | .arrive => ∃ r, s.place s.currentThread = .arrived r

/-- The main thread is running and no other one has been forked. -/
def init (main : τ) (value : ℓ → ℤ) : Scheduling τ ℓ where
  currentThread := main
  status := Function.update (fun _ => .justCreated) main .running
  readyList := []
  toBeDestroyed := none
  sem k := .mk0 (value k)
  place := Function.update (fun _ => .created) main .running
  deletions := []

/-- What the place of a thread says about the rest. -/
structure ThreadOk (s : Scheduling τ ℓ) (t : τ) : Prop where
  current : (s.place t).isCurrent = true ↔ t = s.currentThread
  status : (s.place t).HasStatus (s.status t)
  ready : t ∈ s.readyList ↔ s.status t = .ready
  queue : ∀ k, t ∈ (s.sem k).queue ↔ s.status t = .blocked ∧ (s.place t).waitsFor = some k
  doomed : s.place t = .finished ↔ s.toBeDestroyed = some t

structure Inv (s : Scheduling τ ℓ) : Prop where
  threads : ∀ t, s.ThreadOk t
  readyNodup : s.readyList.Nodup
  queueNodup : ∀ k, (s.sem k).queue.Nodup
  checked : s.toBeDestroyed ≠ none → ∃ r, s.place s.currentThread = .arrived r
  deleted : ∀ d ∈ s.deletions, s.place d.1 = .deleted ∧ d.1 ≠ d.2
  deletedOnce : (s.deletions.map Prod.fst).Nodup

variable {s s' : Scheduling τ ℓ}

omit [DecidableEq ℓ] in
theorem inv_init (main : τ) (value : ℓ → ℤ) : Inv (init main value : Scheduling τ ℓ) := by
  refine ⟨fun t => ?_, by simp [init], by simp [init, Semaphore.mk0], by simp [init], by simp [init], by simp [init]⟩
  rcases eq_or_ne t main with h | h
  · constructor <;> simp [init, h, Place.isCurrent, Place.HasStatus, Semaphore.mk0]
  · constructor <;> simp [init, h, Place.isCurrent, Place.HasStatus, Semaphore.mk0]

/-! ### The steps -/

omit [DecidableEq τ] [DecidableEq ℓ] in
/-- A ready thread has been switched away from, or it is current and still in
the loop of `Sleep`. -/
theorem Inv.place_of_ready (h : Inv s) {t : τ} (ht : s.status t = .ready) :
    (∃ r, s.place t = .away r) ∨ t = s.currentThread ∧ ∃ k, s.place t = .sleep (some k) := by
  obtain ⟨hcur, hst, -⟩ := h.threads t
  rw [ht] at hst
  cases hp : s.place t with
  | away r => exact Or.inl ⟨r, rfl⟩
  | sleep k =>
    rw [hp] at hst hcur
    cases k with
    | none => simp [Place.HasStatus] at hst
    | some k => exact Or.inr ⟨hcur.mp rfl, k, rfl⟩
  | _ => simp [hp, Place.HasStatus] at hst

/-- A thread that has been switched away from in `Finish` stays so. -/
def Stays (s s' : Scheduling τ ℓ) : Prop := ∀ t, (s.place t).isDone = true → (s'.place t).isDone = true

section Facts

omit [DecidableEq τ] [DecidableEq ℓ]

theorem Inv.not_ready (h : Inv s) {t : τ} (ht : s.status t ≠ .ready) : t ∉ s.readyList :=
  fun hm => ht ((h.threads t).ready.mp hm)

theorem Inv.not_queued (h : Inv s) {t : τ} (ht : s.status t ≠ .blocked) (k : ℓ) : t ∉ (s.sem k).queue :=
  fun hm => ht (((h.threads t).queue k).mp hm).1

theorem Inv.status_running (h : Inv s) {t : τ} (ht : s.place t = .running) : s.status t = .running := by
  have hst := (h.threads t).status
  rwa [ht] at hst

theorem Inv.none_doomed (h : Inv s) (hp : ∀ r, s.place s.currentThread ≠ .arrived r) : s.toBeDestroyed = none := by
  by_contra hd
  obtain ⟨r, hr⟩ := h.checked hd
  exact hp r hr

/-- A step does not concern the thread `t`. -/
structure Apart (s s' : Scheduling τ ℓ) (t : τ) : Prop where
  place : s'.place t = s.place t
  status : s'.status t = s.status t
  current : t = s'.currentThread ↔ t = s.currentThread
  ready : t ∈ s'.readyList ↔ t ∈ s.readyList
  queue : ∀ k, t ∈ (s'.sem k).queue ↔ t ∈ (s.sem k).queue
  doomed : s'.toBeDestroyed = some t ↔ s.toBeDestroyed = some t

theorem Apart.threadOk {t : τ} (ha : Apart s s' t) (h : s.ThreadOk t) : s'.ThreadOk t where
  current := by
    rw [ha.place, ha.current]
    exact h.current
  status := by
    rw [ha.place, ha.status]
    exact h.status
  ready := by
    rw [ha.ready, ha.status]
    exact h.ready
  queue k := by
    rw [ha.queue, ha.status, ha.place]
    exact h.queue k
  doomed := by
    rw [ha.place, ha.doomed]
    exact h.doomed

/-- A step that concerns the threads `M`, none of which has been switched away
from in `Finish`. -/
theorem Inv.move (h : Inv s) (M : τ → Prop) (hother : ∀ t, ¬ M t → Apart s s' t)
    (hmoved : ∀ t, M t → (s.place t).isDone = false ∧ s'.ThreadOk t) (hready : s'.readyList.Nodup)
    (hqueue : ∀ k, (s'.sem k).queue.Nodup)
    (hchecked : s'.toBeDestroyed ≠ none → ∃ r, s'.place s'.currentThread = .arrived r)
    (hdel : s'.deletions = s.deletions) : Stays s s' ∧ Inv s' := by
  have hdone : ∀ t, (s.place t).isDone = true → s'.place t = s.place t := by
    intro t ht
    apply (hother t fun hm => ?_).place
    rw [(hmoved t hm).1] at ht
    cases ht
  refine ⟨fun t ht => by rw [hdone t ht]; exact ht, fun t => ?_, hready, hqueue, hchecked, ?_, ?_⟩
  · by_cases hm : M t
    · exact (hmoved t hm).2
    · exact (hother t hm).threadOk (h.threads t)
  · intro d hd
    rw [hdel] at hd
    obtain ⟨hp, hne⟩ := h.deleted d hd
    exact ⟨by rw [hdone d.1 (by rw [hp]; rfl), hp], hne⟩
  · rw [hdel]
    exact h.deletedOnce

end Facts

theorem step_fork (h : Inv s) {t : τ} (he : s.Enabled (.fork t)) :
    ∃ s', s.step (.fork t) = some s' ∧ Stays s s' ∧ Inv s' := by
  obtain ⟨hcur, ht⟩ := he
  have hst : s.status t = .justCreated := by
    have := (h.threads t).status
    rwa [ht] at this
  have hready := h.not_ready (t := t) (by simp [hst])
  have hqueue := h.not_queued (t := t) (by simp [hst])
  have hnone := h.none_doomed (by simp [hcur])
  have hne : t ≠ s.currentThread := by
    rintro rfl
    rw [hcur] at ht
    cases ht
  refine ⟨{ s with
    place := Function.update s.place t (.away .begin)
    status := Function.update s.status t .ready
    readyList := s.readyList ++ [t] }, by simp [step, hcur, ht, readyToRun, hready],
    h.move (· = t) (fun u hu => ?_) ?_ (List.concat_eq_append ▸ h.readyNodup.concat hready) h.queueNodup
      (fun hd => absurd hnone hd) rfl⟩
  · constructor <;> simp [hu]
  · rintro _ rfl
    refine ⟨by simp [ht, Place.isDone], ?_⟩
    constructor <;> simp [Place.isCurrent, Place.HasStatus, hne, hqueue, hnone]

omit [DecidableEq ℓ] in
/-- The processor goes from the current thread, now at `p`, to the first ready
one, which may be the current thread itself. -/
theorem inv_switch (h : Inv s) (p : Place ℓ) (st : ThreadStatus) {n : τ} {rest l : List τ} {r : Resume ℓ}
    {d : Option τ} (hr : s.readyList = n :: rest) (hl : l.Nodup) (hn : n ∉ l)
    (hmem : ∀ u, u ≠ s.currentThread → (u ∈ l ↔ u ∈ rest)) (hnone : s.toBeDestroyed = none)
    (hd : ∀ u, d = some u → u = s.currentThread ∧ n ≠ s.currentThread)
    (hs' : s' = { s with
      currentThread := n
      toBeDestroyed := d
      place := Function.update (Function.update s.place s.currentThread p) n (.arrived r)
      status := Function.update (Function.update s.status s.currentThread st) n .running
      readyList := l })
    (hself : n ≠ s.currentThread → s'.ThreadOk s.currentThread) : Stays s s' ∧ Inv s' := by
  have hst : s.status n = .ready := (h.threads n).ready.mp (by simp [hr])
  subst hs'
  refine h.move (fun u => u = n ∨ u = s.currentThread) (fun u hu => ?_) (fun u hu => ?_) hl h.queueNodup
    (fun _ => ⟨r, by simp⟩) rfl
  · obtain ⟨hun, hucur⟩ := not_or.mp hu
    have hdu : d ≠ some u := fun he => hucur (hd u he).1
    constructor <;> simp [hun, hucur, hr, hmem u hucur, hnone, hdu]
  · rcases eq_or_ne u n with rfl | hun
    · have hdu : d ≠ some u := fun he => (hd u he).2 (hd u he).1
      refine ⟨?_, ?_⟩
      · rcases h.place_of_ready hst with ⟨r', hp⟩ | ⟨-, k, hp⟩ <;> rw [hp] <;> rfl
      · constructor <;> simp [Place.isCurrent, Place.HasStatus, hn, h.not_queued (t := u) (by simp [hst]), hdu]
    · obtain rfl := hu.resolve_left hun
      exact ⟨Place.isDone_of_isCurrent ((h.threads _).current.mpr rfl), hself (Ne.symm hun)⟩

theorem step_yield (h : Inv s) (he : s.Enabled .yield) : ∃ s', s.step .yield = some s' ∧ Stays s s' ∧ Inv s' := by
  have hcur : s.place s.currentThread = .running := he
  have hst := h.status_running hcur
  have hnone := h.none_doomed (by simp [hcur])
  cases hr : s.readyList with
  | nil => exact ⟨s, by simp [step, hcur, hr], fun _ hu => hu, h⟩
  | cons n rest =>
    have hn : s.status n = .ready := (h.threads n).ready.mp (by simp [hr])
    have hne : n ≠ s.currentThread := by
      rintro rfl
      rw [hst] at hn
      cases hn
    obtain ⟨hnot, hrest⟩ : s.currentThread ∉ rest ∧ n ∉ rest ∧ rest.Nodup := by
      have hnd := h.readyNodup
      have hmem := h.not_ready (t := s.currentThread) (by simp [hst])
      rw [hr] at hnd hmem
      exact ⟨fun hm => hmem (List.mem_cons_of_mem _ hm), List.nodup_cons.mp hnd⟩
    obtain ⟨r, hp⟩ := (h.place_of_ready hn).resolve_right fun hc => hne hc.1
    refine ⟨_, ?_, inv_switch h (.away .yielded) .ready (n := n) (l := rest ++ [s.currentThread]) (r := r)
      (d := none) hr (List.concat_eq_append ▸ hrest.2.concat hnot) (by simp [hrest.1, hne])
      (fun u hu => by simp [hu]) hnone (by simp) rfl fun _ => ?_⟩
    · simp [step, hcur, hr, readyToRun, hnot, run, hne, hp, hnone]
    · constructor <;>
        simp [Place.isCurrent, Place.HasStatus, Ne.symm hne, h.not_queued (t := s.currentThread) (by simp [hst])]

theorem inv_passP (h : Inv s) (k : ℓ) (hst : s.status s.currentThread = .running)
    (hp : ∀ r, s.place s.currentThread ≠ .arrived r) : ∃ s', s.passP k = some s' ∧ Stays s s' ∧ Inv s' := by
  have hqueue := h.not_queued (t := s.currentThread) (by simp [hst])
  have hready := h.not_ready (t := s.currentThread) (by simp [hst])
  have hnone := h.none_doomed hp
  have hdone := Place.isDone_of_isCurrent ((h.threads s.currentThread).current.mpr rfl)
  rcases eq_or_ne (s.sem k).value 0 with hv | hv
  · have hmem : ∀ u l,
        u ∈ (Function.update s.sem k ⟨(s.sem k).value, (s.sem k).queue ++ [s.currentThread]⟩ l).queue ↔
          u ∈ (s.sem l).queue ∨ u = s.currentThread ∧ k = l := by
      intro u l
      rcases eq_or_ne l k with rfl | hl
      · simp
      · simp [hl, Ne.symm hl]
    refine ⟨{ s with
      sem := Function.update s.sem k ⟨(s.sem k).value, (s.sem k).queue ++ [s.currentThread]⟩
      status := Function.update s.status s.currentThread .blocked
      place := Function.update s.place s.currentThread (.sleep (some k)) },
      by simp [passP, hv, hqueue, block, goto, Semaphore.P_zero hv],
      h.move (· = s.currentThread) (fun u hu => ?_) ?_ h.readyNodup (fun l => ?_) (fun hd => absurd hnone hd) rfl⟩
    · constructor <;> simp [hu, hmem]
    · rintro _ rfl
      refine ⟨hdone, ?_⟩
      constructor <;> simp [Place.isCurrent, Place.HasStatus, Place.waitsFor, hready, hmem, hqueue, hnone]
    · rcases eq_or_ne l k with rfl | hl
      · simpa using List.concat_eq_append ▸ (h.queueNodup l).concat (hqueue l)
      · simpa [hl] using h.queueNodup l
  · have hqs : ∀ l, (Function.update s.sem k ⟨(s.sem k).value - 1, (s.sem k).queue⟩ l).queue = (s.sem l).queue := by
      intro l
      rcases eq_or_ne l k with rfl | hl
      · rw [Function.update_self]
      · rw [Function.update_of_ne hl]
    refine ⟨{ s with
      sem := Function.update s.sem k ⟨(s.sem k).value - 1, (s.sem k).queue⟩
      place := Function.update s.place s.currentThread .running },
      by simp [passP, hv, goto, Semaphore.P_ne hv],
      h.move (· = s.currentThread) (fun u hu => ?_) ?_ h.readyNodup (fun l => ?_) (fun hd => absurd hnone hd) rfl⟩
    · constructor <;> simp [hu, hqs]
    · rintro _ rfl
      refine ⟨hdone, ?_⟩
      constructor <;> simp [Place.isCurrent, Place.HasStatus, hst, hready, hqs, hqueue, hnone]
    · rw [hqs l]
      exact h.queueNodup l

theorem step_P (h : Inv s) {k : ℓ} (he : s.Enabled (.P k)) :
    ∃ s', s.step (.P k) = some s' ∧ Stays s s' ∧ Inv s' := by
  have hcur : s.place s.currentThread = .running := he
  simp only [step, hcur, if_true]
  exact inv_passP h k (h.status_running hcur) (by simp [hcur])

theorem step_again (h : Inv s) (he : s.Enabled .again) : ∃ s', s.step .again = some s' ∧ Stays s s' ∧ Inv s' := by
  obtain ⟨k, hcur⟩ := he
  have hst := (h.threads s.currentThread).status
  rw [hcur] at hst
  simp only [step, hcur]
  exact inv_passP h k hst (by simp [hcur])

theorem step_V (h : Inv s) (k : ℓ) : ∃ s', s.step (.V k) = some s' ∧ Stays s s' ∧ Inv s' := by
  cases hq : (s.sem k).queue with
  | nil =>
    have hqs : ∀ l, (Function.update s.sem k ⟨(s.sem k).value + 1, []⟩ l).queue = (s.sem l).queue := by
      intro l
      rcases eq_or_ne l k with rfl | hl
      · rw [Function.update_self, hq]
      · rw [Function.update_of_ne hl]
    refine ⟨{ s with sem := Function.update s.sem k ⟨(s.sem k).value + 1, []⟩ }, by simp [step, Semaphore.V, hq],
      h.move (fun _ => False) (fun u _ => ?_) (fun _ hu => hu.elim) h.readyNodup (fun l => ?_) h.checked rfl⟩
    · constructor <;> simp [hqs]
    · rw [hqs l]
      exact h.queueNodup l
  | cons x q =>
    obtain ⟨hst, hwaits⟩ := ((h.threads x).queue k).mp (by simp [hq])
    have hready := h.not_ready (t := x) (by simp [hst])
    have hnd := h.queueNodup k
    rw [hq, List.nodup_cons] at hnd
    have hmem : ∀ u l, u ∈ (Function.update s.sem k ⟨(s.sem k).value + 1, q⟩ l).queue ↔
        u ∈ (s.sem l).queue ∧ u ≠ x := by
      intro u l
      rcases eq_or_ne l k with rfl | hl
      · rcases eq_or_ne u x with rfl | hu
        · simp [hnd.1]
        · simp [hq, hu]
      · have hx : x ∉ (s.sem l).queue := fun hm =>
          hl (Option.some.inj ((((h.threads x).queue l).mp hm).2.symm.trans hwaits))
        rw [Function.update_of_ne hl]
        exact ⟨fun hm => ⟨hm, fun he => hx (he ▸ hm)⟩, And.left⟩
    refine ⟨{ s with
      sem := Function.update s.sem k ⟨(s.sem k).value + 1, q⟩
      status := Function.update s.status x .ready
      readyList := s.readyList ++ [x] }, by simp [step, Semaphore.V, hq, readyToRun, hready],
      h.move (· = x) (fun u hu => ?_) ?_ (List.concat_eq_append ▸ h.readyNodup.concat hready) (fun l => ?_)
        h.checked rfl⟩
    · constructor <;> simp [hu, hmem]
    · rintro _ rfl
      have hdone := Place.isDone_of_waitsFor hwaits
      refine ⟨hdone, (h.threads _).current, ?_, by simp, by simp [hmem], (h.threads _).doomed⟩
      simpa using Place.hasStatus_ready hwaits
    · rcases eq_or_ne l k with rfl | hl
      · simpa using hnd.2
      · simpa [hl] using h.queueNodup l

theorem step_finish (h : Inv s) (he : s.Enabled .finish) :
    ∃ s', s.step .finish = some s' ∧ Stays s s' ∧ Inv s' := by
  have hcur : s.place s.currentThread = .running := he
  have hst := h.status_running hcur
  have hqueue := h.not_queued (t := s.currentThread) (by simp [hst])
  have hready := h.not_ready (t := s.currentThread) (by simp [hst])
  have hnone := h.none_doomed (by simp [hcur])
  refine ⟨{ s with
    status := Function.update s.status s.currentThread .blocked
    place := Function.update s.place s.currentThread (.sleep none) }, by simp [step, hcur, block, goto],
    h.move (· = s.currentThread) (fun u hu => ?_) ?_ h.readyNodup h.queueNodup (fun hd => absurd hnone hd) rfl⟩
  · constructor <;> simp [hu]
  · rintro _ rfl
    refine ⟨by simp [hcur, Place.isDone], ?_⟩
    constructor <;> simp [Place.isCurrent, Place.HasStatus, Place.waitsFor, hready, hqueue, hnone]

theorem step_dispatch (h : Inv s) (he : s.Enabled .dispatch) :
    ∃ s', s.step .dispatch = some s' ∧ Stays s s' ∧ Inv s' := by
  obtain ⟨⟨k, hcur⟩, hne⟩ := he
  have hnone := h.none_doomed (by simp [hcur])
  obtain ⟨hcurrent, hst, hready, hqueue, -⟩ := h.threads s.currentThread
  rw [hcur] at hst hqueue
  cases hr : s.readyList with
  | nil => exact absurd hr hne
  | cons n rest =>
    have hn : s.status n = .ready := (h.threads n).ready.mp (by simp [hr])
    obtain ⟨hnot, hrest⟩ : n ∉ rest ∧ rest.Nodup := List.nodup_cons.mp (hr ▸ h.readyNodup)
    rw [hr, List.mem_cons] at hready
    cases k with
    | some k =>
      obtain ⟨r, hp⟩ : ∃ r, Function.update s.place s.currentThread (.away (.slept k)) n = .away r := by
        rcases h.place_of_ready hn with ⟨r, hp⟩ | ⟨rfl, -⟩
        · have : n ≠ s.currentThread := by
            rintro rfl
            rw [hcur] at hp
            cases hp
          exact ⟨r, by rw [Function.update_of_ne this, hp]⟩
        · exact ⟨_, Function.update_self ..⟩
      refine ⟨_, ?_, inv_switch h (.away (.slept k)) (s.status s.currentThread) (l := rest) (r := r)
        (d := none) hr hrest hnot (fun _ _ => Iff.rfl) hnone (by simp) rfl fun hne => ?_⟩
      · simp [step, hcur, hr, run, hp, hnone]
      · rw [or_iff_right (Ne.symm hne)] at hready
        refine ⟨by simp [Place.isCurrent, Ne.symm hne], ?_, ?_, fun l => ?_, by simp [Ne.symm hne]⟩ <;>
          simp only [Function.update_of_ne (Ne.symm hne), Function.update_self]
        · exact hst
        · exact hready
        · exact hqueue l
    | none =>
      have hne : n ≠ s.currentThread := by
        rintro rfl
        rw [hn] at hst
        cases hst
      obtain ⟨r, hp⟩ := (h.place_of_ready hn).resolve_right fun hc => hne hc.1
      rw [or_iff_right (Ne.symm hne)] at hready
      refine ⟨_, ?_, inv_switch h .finished (s.status s.currentThread) (l := rest) (r := r)
        (d := some s.currentThread) hr hrest hnot (fun _ _ => Iff.rfl) hnone
        (fun u hu => ⟨(Option.some.inj hu).symm, hne⟩) rfl fun _ => ?_⟩
      · simp [step, hcur, hr, run, hnone, hne, hp]
      · refine ⟨by simp [Place.isCurrent, Ne.symm hne], ?_, ?_, fun l => ?_, by simp [Ne.symm hne]⟩ <;>
          simp only [Function.update_of_ne (Ne.symm hne), Function.update_self]
        · exact hst
        · exact hready
        · exact hqueue l

omit [DecidableEq ℓ] in
theorem inv_checkToBeDestroyed (h : Inv s) {r : Resume ℓ} (hcur : s.place s.currentThread = .arrived r) :
    ∃ s', s.checkToBeDestroyed = some s' ∧ Stays s s' ∧ Inv s' ∧ s'.toBeDestroyed = none ∧
      s'.place s'.currentThread = .arrived r := by
  cases hd : s.toBeDestroyed with
  | none => exact ⟨s, by simp [checkToBeDestroyed, hd], fun _ ht => ht, h, hd, hcur⟩
  | some d =>
    have hdone := (h.threads d).doomed.mpr hd
    have hne : d ≠ s.currentThread := by
      rintro rfl
      rw [hcur] at hdone
      cases hdone
    refine ⟨{ s with
      toBeDestroyed := none
      place := Function.update s.place d .deleted
      deletions := s.deletions ++ [(d, s.currentThread)] }, by simp [checkToBeDestroyed, hd, hne],
      fun t ht => ?_, ⟨fun t => ?_, h.readyNodup, h.queueNodup, by simp, fun e he => ?_, ?_⟩, rfl,
      by simp [Ne.symm hne, hcur]⟩
    · rcases eq_or_ne t d with rfl | htd
      · simp [Place.isDone]
      · simpa [htd] using ht
    · rcases eq_or_ne t d with rfl | htd
      · obtain ⟨hc, hst, hready, hqueue, -⟩ := h.threads t
        rw [hdone] at hc hst hqueue
        refine ⟨?_, ?_, hready, ?_, by simp⟩ <;> simp only [Function.update_self]
        · exact hc
        · exact hst
        · exact hqueue
      · obtain ⟨hc, hst, hready, hqueue, hdoomed⟩ := h.threads t
        have hfin : s.place t ≠ .finished := by
          rw [Ne, hdoomed, hd]
          simpa using Ne.symm htd
        exact ⟨by simpa [htd] using hc, by simpa [htd] using hst, hready, by simpa [htd] using hqueue,
          by simp [htd, hfin]⟩
    · rcases List.mem_append.mp he with he | he
      · obtain ⟨hp, hne'⟩ := h.deleted e he
        refine ⟨?_, hne'⟩
        rcases eq_or_ne e.1 d with hed | hed
        · simp [hed]
        · simpa [hed] using hp
      · rw [List.mem_singleton.mp he]
        exact ⟨by simp, hne⟩
    · -- the thread was not deleted before
      have hnot : d ∉ s.deletions.map Prod.fst := by
        intro hm
        obtain ⟨e, he, rfl⟩ := List.mem_map.mp hm
        have := (h.deleted e he).1
        rw [hdone] at this
        cases this
      simpa using List.concat_eq_append ▸ h.deletedOnce.concat hnot

omit [DecidableEq ℓ] in
theorem inv_arrive (h : Inv s) {r : Resume ℓ} (hcur : s.place s.currentThread = .arrived r) {p : Place ℓ}
    (hp : p = .running ∨ ∃ k, p = .retry k) :
    ∃ s', (s.checkToBeDestroyed.map fun s => s.goto p) = some s' ∧ Stays s s' ∧ Inv s' := by
  obtain ⟨s₁, hs₁, hstay, h₁, hnone, hcur₁⟩ := inv_checkToBeDestroyed h hcur
  have hst : s₁.status s₁.currentThread = .running := by
    have := (h₁.threads s₁.currentThread).status
    rwa [hcur₁] at this
  have hqueue := h₁.not_queued (t := s₁.currentThread) (by simp [hst])
  have hready := h₁.not_ready (t := s₁.currentThread) (by simp [hst])
  have hpcur : p.isCurrent = true ∧ p.HasStatus .running ∧ p ≠ .finished := by
    rcases hp with rfl | ⟨k, rfl⟩ <;> simp [Place.isCurrent, Place.HasStatus]
  have hmove : Stays s₁ (s₁.goto p) ∧ Inv (s₁.goto p) := by
    refine h₁.move (· = s₁.currentThread) (fun u hu => ?_) ?_ h₁.readyNodup h₁.queueNodup
      (fun hd => absurd hnone hd) rfl
    · constructor <;> simp [goto, hu]
    · rintro _ rfl
      refine ⟨by simp [hcur₁, Place.isDone], ?_⟩
      constructor <;> simp [goto, hpcur, hst, hready, hqueue, hnone]
  exact ⟨_, by rw [hs₁]; rfl, fun t ht => hmove.1 t (hstay t ht), hmove.2⟩

theorem step_arrive (h : Inv s) (he : s.Enabled .arrive) :
    ∃ s', s.step .arrive = some s' ∧ Stays s s' ∧ Inv s' := by
  obtain ⟨r, hcur⟩ := he
  simp only [step, hcur]
  cases r with
  | slept k => exact inv_arrive h hcur (Or.inr ⟨k, rfl⟩)
  | begin => exact inv_arrive h hcur (Or.inl rfl)
  | yielded => exact inv_arrive h hcur (Or.inl rfl)

theorem step_enabled (h : Inv s) {e : Event τ ℓ} (he : s.Enabled e) :
    ∃ s', s.step e = some s' ∧ Stays s s' ∧ Inv s' := by
  cases e with
  | fork t => exact step_fork h he
  | yield => exact step_yield h he
  | P k => exact step_P h he
  | again => exact step_again h he
  | V k => exact step_V h k
  | finish => exact step_finish h he
  | dispatch => exact step_dispatch h he
  | arrive => exact step_arrive h he

theorem enabled_of_step {e : Event τ ℓ} (h : s.step e = some s') : s.Enabled e := by
  cases e <;> simp only [step] at h <;> grind [Enabled]

theorem inv_step {e : Event τ ℓ} (h : Inv s) (hs : s.step e = some s') : Stays s s' ∧ Inv s' := by
  obtain ⟨s'', hs'', hi⟩ := step_enabled h (enabled_of_step hs)
  rw [hs''] at hs
  exact Option.some.inj hs ▸ hi

theorem inv_exec (h : Inv s) (es : List (Event τ ℓ)) (hs : exec step s es = some s') : Stays s s' ∧ Inv s' := by
  refine exec_induction (P := fun _ r => Stays s r ∧ Inv r) ⟨fun _ ht => ht, h⟩ (fun _ e r r' hr he => ?_) es s' hs
  obtain ⟨hstay, hi⟩ := inv_step hr.2 he
  exact ⟨fun t ht => hstay t (hr.1 t ht), hi⟩

/-- In every run of forks, yields, `P`, `V` and finishes: while the current
thread is not in `Sleep` it is the one running thread; a ready thread is in the
ready list once and in no queue; a blocked thread is not in the ready list, and
in at most one queue, once; a finished thread is not current or ready, now or
later, is deleted at most once, and while another thread is current; and no
assertion of these functions fails, that in `Run` included. -/
theorem thread_states (main : τ) (value : ℓ → ℤ) (es : List (Event τ ℓ)) (s : Scheduling τ ℓ)
    (h : exec step (init main value) es = some s) :
    ((∀ k, s.place s.currentThread ≠ .sleep k) → ∀ t, s.status t = .running ↔ t = s.currentThread) ∧
    (∀ t, s.status t = .ready → s.readyList.count t = 1 ∧ ∀ k, t ∉ (s.sem k).queue) ∧
    (∀ t, s.status t = .blocked → t ∉ s.readyList ∧ (∀ k, (s.sem k).queue.count t ≤ 1) ∧
      ∀ k l, t ∈ (s.sem k).queue → t ∈ (s.sem l).queue → k = l) ∧
    (∀ t, (s.place t).isDone = true → ∀ es' s', exec step s es' = some s' →
      t ≠ s'.currentThread ∧ s'.status t ≠ .ready ∧ t ∉ s'.readyList) ∧
    (s.deletions.map Prod.fst).Nodup ∧ (∀ d ∈ s.deletions, (s.place d.1).isDone = true ∧ d.1 ≠ d.2) ∧
    (s.place s.currentThread = .sleep none → s.toBeDestroyed = none) ∧
    ∀ e, s.Enabled e → (s.step e).isSome = true := by
  obtain ⟨-, hi⟩ := inv_exec (inv_init main value) es h
  refine ⟨fun hns t => ?_, fun t ht => ?_, fun t ht => ?_, fun t ht es' s' hs' => ?_, hi.deletedOnce, fun d hd => ?_,
    fun hp => ?_, fun e he => ?_⟩
  · constructor
    · intro ht
      have := (hi.threads t).status
      apply (hi.threads t).current.mp
      revert this
      rw [ht]
      rcases s.place t with _ | (_ | _ | _) | _ | _ | _ | (_ | _) | _ | _ <;> simp [Place.HasStatus, Place.isCurrent]
    · rintro rfl
      have hst := (hi.threads s.currentThread).status
      have hcur := (hi.threads s.currentThread).current.mpr rfl
      revert hst hcur hns
      rcases s.place s.currentThread with _ | (_ | _ | _) | _ | _ | _ | (_ | _) | _ | _ <;>
        simp [Place.HasStatus, Place.isCurrent]
  · refine ⟨List.count_eq_one_of_mem hi.readyNodup ((hi.threads t).ready.mpr ht), fun k hm => ?_⟩
    have := (((hi.threads t).queue k).mp hm).1
    rw [ht] at this
    cases this
  · refine ⟨fun hm => ?_, fun k => List.nodup_iff_count_le_one.mp (hi.queueNodup k) t, fun k l hk hl => ?_⟩
    · have := (hi.threads t).ready.mp hm
      rw [ht] at this
      cases this
    · have hk := (((hi.threads t).queue k).mp hk).2
      have hl := (((hi.threads t).queue l).mp hl).2
      exact Option.some.inj (hk.symm.trans hl)
  · obtain ⟨hstay, hi'⟩ := inv_exec hi es' hs'
    have hdone := hstay t ht
    have hst := (hi'.threads t).status
    have hready : s'.status t ≠ .ready := by
      intro hr
      rw [hr] at hst
      revert hdone hst
      rcases s'.place t with _ | (_ | _ | _) | _ | _ | _ | (_ | _) | _ | _ <;> simp [Place.HasStatus, Place.isDone]
    refine ⟨?_, hready, fun hm => hready ((hi'.threads t).ready.mp hm)⟩
    rintro rfl
    have := Place.isDone_of_isCurrent ((hi'.threads s'.currentThread).current.mpr rfl)
    rw [hdone] at this
    cases this
  · obtain ⟨hp, hne⟩ := hi.deleted d hd
    exact ⟨by rw [hp]; rfl, hne⟩
  · by_contra hd
    obtain ⟨r, hr⟩ := hi.checked hd
    rw [hp] at hr
    cases hr
  · obtain ⟨s', hs', -⟩ := step_enabled hi he
    rw [hs']
    rfl

/-- The main thread forks a thread that finishes, sleeps meanwhile, and is made
ready by an interrupt when it is alone in the loop of `Sleep`. -/
def forkAndFinish : List (Event (Fin 2) Unit) :=
  [.fork 1, .P (), .dispatch, .arrive, .V (), .finish, .dispatch, .arrive, .again, .P (), .V (), .dispatch, .arrive]

theorem thread_states_forkAndFinish : ∃ s : Scheduling (Fin 2) Unit,
    exec step (init 0 fun _ => 0) forkAndFinish = some s ∧ s.deletions = [(1, 0)] ∧
      (s.deletions.map Prod.fst).Nodup ∧ ∀ e, s.Enabled e → (s.step e).isSome = true := by
  have h : ((exec step (init 0 fun _ => 0) forkAndFinish).bind fun s : Scheduling (Fin 2) Unit =>
      some s.deletions) = some [(1, 0)] := by decide
  obtain ⟨s, hs, hd⟩ := Option.bind_eq_some_iff.mp h
  obtain ⟨-, -, -, -, hn, -, -, he⟩ := thread_states 0 (fun _ => 0) forkAndFinish s hs
  exact ⟨s, hs, Option.some.inj hd, hn, he⟩

end Scheduling

end Nachos
