/-
# Synchronised lists

`threads/synchlist.cc` over the locks and conditions of `threads/synch.cc`. A
lock is a semaphore that starts at 1 and the thread that holds it; a condition
is a list of semaphores, one for each waiting thread, that start at 0. `Wait`
releases the lock before it sleeps, and acquires it again when it has been woken.

Every statement is a step of its own, and each pass through the loop of `P`. The
semaphore of the lock is `none`, that of a waiting thread `t` is `some t`. The
lists `called`, `appended` and `removed` record the items of the calls of
`Append`, and the items in the order of the changes of the list.

Key definitions: `SynchList`, `SynchList.run`, `SynchList.signalled`,
`SynchList.Inv`.

Key theorem: `synchList_fifo`, a queue without lost signals.
-/
import NachosNet.Basis.Run
import NachosNet.Threads.Synch

namespace Nachos

open Basis

namespace SynchList

/-- What a thread acquires the lock for: to append, to remove, or to return from `Wait`. -/
inductive Want (α : Type*)
  | append (item : α)
  | remove
  | again

/-- What a thread does after it has released the lock: it returns, or it sleeps in `Wait`. -/
inductive After (α : Type*)
  | appended
  | removed (item : α)
  | sleep

/-- The next statement of a thread. -/
inductive Pc (τ α : Type*)
  | idle
  /-- `P` on the semaphore of the lock. -/
  | acquire (w : Want α)
  /-- `lockHolder = kernel->currentThread` -/
  | hold (w : Want α)
  /-- `list->Append(item)` -/
  | append (item : α)
  /-- `Signal`, up to the waiter. -/
  | signal
  /-- `waiter->V()` -/
  | post (u : τ)
  /-- `lockHolder = NULL` -/
  | release (a : After α)
  /-- `V` on the semaphore of the lock. -/
  | unlock (a : After α)
  /-- The test of the loop in `RemoveFront`. -/
  | test
  /-- `Wait`, up to the release of the lock. -/
  | wait
  /-- `waiter->P()` -/
  | sleep
  /-- `delete waiter` -/
  | delete
  /-- `list->RemoveFront()` -/
  | take

inductive Event (τ α : Type*)
  /-- Thread `t` calls `Append(item)`. -/
  | append (t : τ) (item : α)
  /-- Thread `t` calls `RemoveFront`. -/
  | removeFront (t : τ)
  | run (t : τ)

namespace Pc

variable {τ α : Type*}

/-- Between `lock->Acquire` and `lock->Release`. -/
def inside : Pc τ α → Bool
  | .idle | .acquire _ | .sleep => false
  | _ => true

/-- `lockHolder` is the thread. -/
def holds : Pc τ α → Bool
  | .idle | .acquire _ | .hold _ | .unlock _ | .sleep => false
  | _ => true

/-- The item still to be appended. -/
def pending : Pc τ α → Option α
  | .acquire (.append x) => some x
  | .hold (.append x) => some x
  | .append x => some x
  | _ => none

/-- In `Wait`, before the return from `waiter->P()`. -/
def queued : Pc τ α → Bool
  | .release .sleep | .unlock .sleep | .sleep => true
  | _ => false

/-- In `Wait`, before the lock has been acquired again. -/
def waiting : Pc τ α → Bool
  | .release .sleep | .unlock .sleep | .sleep | .acquire .again => true
  | _ => false

/-- The semaphore of the thread in `Wait` exists. -/
def hasWaiter : Pc τ α → Bool
  | .release .sleep | .unlock .sleep | .sleep | .acquire .again | .hold .again | .delete => true
  | _ => false

/-- The lock's holder still makes up for one item: it will take it, or signal it. -/
def credit : Pc τ α → ℕ
  | .hold .again | .delete | .test | .take | .wait | .signal => 1
  | _ => 0

theorem inside_of_holds {p : Pc τ α} (h : p.holds = true) : p.inside = true := by
  cases p <;> simp_all [holds, inside]

theorem eq_sleep {p : Pc τ α} (hq : p.queued = true) (hout : ¬ p.inside = true) : p = .sleep := by
  cases p with
  | release a => simp [inside] at hout
  | unlock a => simp [inside] at hout
  | sleep => rfl
  | _ => simp [queued] at hq

end Pc

end SynchList

structure SynchList (τ α : Type*) where
  sleepers : Sleepers τ (Option τ)
  lockHolder : Option τ
  list : List α
  waitQueue : List τ
  pc : τ → SynchList.Pc τ α
  called : List α
  appended : List α
  removed : List α

namespace SynchList

variable {τ α : Type*} [DecidableEq τ]

/-- Thread `t` goes on to `p`. -/
def goto (s : SynchList τ α) (t : τ) (p : Pc τ α) : SynchList τ α := { s with pc := Function.update s.pc t p }

/-- A pass of thread `t` through the loop of `P`, and on to `p` when it returns. -/
def passP (s : SynchList τ α) (t : τ) (l : Option τ) (p : Pc τ α) : SynchList τ α :=
  { s with sleepers := (s.sleepers.pass t l s.pc p).1, pc := (s.sleepers.pass t l s.pc p).2 }

section Statements

variable [DecidableEq α]

/-- The next statement of thread `t`. `none` when the thread has none or is
asleep, when an assertion fails, or when a deleted semaphore is used. -/
def run (s : SynchList τ α) (t : τ) : Option (SynchList τ α) :=
  if s.sleepers.asleep t then none
  else match s.pc t with
  | .idle => none
  | .acquire w => some (s.passP t none (.hold w))
  | .hold w => some ({ s with lockHolder := some t }.goto t
      (match w with | .append x => .append x | .remove => .test | .again => .delete))
  | .append x =>
    if x ∈ s.list then none
    else some ({ s with list := s.list ++ [x], appended := s.appended ++ [x] }.goto t .signal)
  | .signal =>
    if s.lockHolder ≠ some t then none
    else match s.waitQueue with
      | [] => some (s.goto t (.release .appended))
      | u :: q => some ({ s with waitQueue := q }.goto t (.post u))
  | .post u =>
    if (s.pc u).hasWaiter then
      some ({ s with sleepers := s.sleepers.V (some u) }.goto t (.release .appended))
    else none
  | .release a => if s.lockHolder ≠ some t then none else some ({ s with lockHolder := none }.goto t (.unlock a))
  | .unlock a => some ({ s with sleepers := s.sleepers.V none }.goto t
      (match a with | .sleep => .sleep | _ => .idle))
  | .test => some (s.goto t (if s.list.isEmpty then .wait else .take))
  | .wait =>
    if s.lockHolder ≠ some t ∨ t ∈ s.waitQueue then none
    else some ({ s with
      sleepers := s.sleepers.fresh (some t) 0, waitQueue := s.waitQueue ++ [t] }.goto t (.release .sleep))
  | .sleep => some (s.passP t (some t) (.acquire .again))
  | .delete => some (s.goto t .test)
  | .take =>
    match s.list with
    | [] => none
    | x :: l => some ({ s with list := l, removed := s.removed ++ [x] }.goto t (.release (.removed x)))

/-- One step. No item is appended twice. -/
def step (s : SynchList τ α) : Event τ α → Option (SynchList τ α)
  | .append t x =>
    match s.pc t with
    | .idle => if x ∈ s.called then none else some ({ s with called := s.called ++ [x] }.goto t (.acquire (.append x)))
    | _ => none
  | .removeFront t =>
    match s.pc t with
    | .idle => some (s.goto t (.acquire .remove))
    | _ => none
  | .run t => s.run t

end Statements

def init : SynchList τ α where
  sleepers := ⟨fun l => .mk0 (if l = none then 1 else 0), fun _ => false⟩
  lockHolder := none
  list := []
  waitQueue := []
  pc _ := .idle
  called := []
  appended := []
  removed := []

/-- The waiters that have been signalled and have not got the lock again. -/
def signalled [Fintype τ] (s : SynchList τ α) : Finset τ :=
  Finset.univ.filter fun t => (s.pc t).waiting = true ∧ t ∉ s.waitQueue

structure Inv [Fintype τ] (s : SynchList τ α) : Prop where
  lock : Locked (fun t => (s.pc t).inside = true) (s.sleepers.sem none).value
  holder : ∀ t, (s.pc t).holds = true → s.lockHolder = some t
  fifo : s.removed ++ s.list = s.appended
  pending : ∀ t x, (s.pc t).pending = some x → x ∈ s.called ∧ x ∉ s.appended
  distinct : ∀ t u x, (s.pc t).pending = some x → (s.pc u).pending = some x → t = u
  called : ∀ x ∈ s.appended, x ∈ s.called
  queue : ∀ t ∈ s.waitQueue, (s.pc t).queued = true ∧ (s.sleepers.sem (some t)).value = 0
  nodup : s.waitQueue.Nodup
  post : ∀ t u, s.pc t = .post u → s.pc u = .sleep ∧ u ∉ s.waitQueue ∧ (s.sleepers.sem (some u)).value = 0
  empty : ∀ t, s.pc t = .wait → s.list = []
  nonempty : ∀ t, s.pc t = .take → s.list ≠ []
  count : (∀ t, (s.pc t).inside = false) → s.waitQueue ≠ [] → s.list.length ≤ s.signalled.card
  countHeld : ∀ t, (s.pc t).inside = true → s.waitQueue ≠ [] →
    s.list.length ≤ s.signalled.card + (s.pc t).credit

variable [Fintype τ] {s s' : SynchList τ α} {t : τ}

theorem inv_init : Inv (init : SynchList τ α) := by
  constructor <;> simp [init, Pc.inside, Pc.holds, Pc.pending, Semaphore.mk0]
  exact Or.inl ⟨rfl, by simp⟩

theorem mem_signalled {u : τ} : u ∈ s.signalled ↔ (s.pc u).waiting = true ∧ u ∉ s.waitQueue := by
  simp [signalled]

theorem signalled_congr (hw : ∀ u, (s'.pc u).waiting = (s.pc u).waiting) (hq : s'.waitQueue = s.waitQueue) :
    s'.signalled = s.signalled := by
  unfold signalled
  simp only [hw, hq]

theorem Inv.unique (h : Inv s) (ht : (s.pc t).inside = true) {u : τ} (hu : (s.pc u).inside = true) : u = t :=
  h.lock.unique ht hu

/-- A step of the thread inside that leaves it inside. It is alone there, so only
what it changes itself has to be looked at. -/
theorem Inv.inner {p : Pc τ α} (h : Inv s) (ht : (s.pc t).inside = true) (hpc : s'.pc = Function.update s.pc t p)
    (hp : p.inside = true) (hv : (s'.sleepers.sem none).value = (s.sleepers.sem none).value)
    (hholder : p.holds = true → s'.lockHolder = some t) (hfifo : s'.removed ++ s'.list = s'.appended)
    (hcalled : s'.called = s.called) (hpend : ∀ x, p.pending = some x → (s.pc t).pending = some x)
    (happ : ∀ x ∈ s'.appended, x ∈ s.appended ∨ (s.pc t).pending = some x ∧ p.pending = none)
    (hqueue : ∀ u ∈ s'.waitQueue, (s'.pc u).queued = true ∧ (s'.sleepers.sem (some u)).value = 0)
    (hnodup : s'.waitQueue.Nodup)
    (hpost : ∀ u, p = .post u → s'.pc u = .sleep ∧ u ∉ s'.waitQueue ∧ (s'.sleepers.sem (some u)).value = 0)
    (hempty : p = .wait → s'.list = []) (hnonempty : p = .take → s'.list ≠ [])
    (hcount : s'.waitQueue ≠ [] → s'.list.length ≤ s'.signalled.card + p.credit) : Inv s' := by
  have hself : s'.pc t = p := by rw [hpc, Function.update_self]
  have hother : ∀ u, u ≠ t → s'.pc u = s.pc u := fun u hu => by rw [hpc, Function.update_of_ne hu]
  have halone : ∀ u, (s'.pc u).inside = true → u = t := fun u hu =>
    h.lock.alone (f := fun _ p => Pc.inside p = true) ht (hpc ▸ hu)
  have hpend' : ∀ u x, (s'.pc u).pending = some x → (s.pc u).pending = some x := by
    intro u x hx
    rcases eq_or_ne u t with rfl | hu
    · exact hpend x (hself ▸ hx)
    · rwa [hother u hu] at hx
  constructor
  · rw [hv, hpc]
    exact h.lock.move (f := fun _ p => Pc.inside p = true) (iff_of_true hp ht)
  · intro u hu
    obtain rfl := halone u (Pc.inside_of_holds hu)
    exact hholder (hself ▸ hu)
  · exact hfifo
  · intro u x hx
    obtain ⟨hc, hn⟩ := h.pending u x (hpend' u x hx)
    refine ⟨hcalled ▸ hc, fun hm => ?_⟩
    -- the item just appended was this thread's
    rcases happ x hm with hm | ⟨hm, hno⟩
    · exact hn hm
    · obtain rfl := h.distinct u t x (hpend' u x hx) hm
      rw [hself, hno] at hx
      cases hx
  · exact fun u v x hu hv => h.distinct u v x (hpend' u x hu) (hpend' v x hv)
  · intro x hx
    rw [hcalled]
    rcases happ x hx with hx | ⟨hx, -⟩
    · exact h.called x hx
    · exact (h.pending t x hx).1
  · exact hqueue
  · exact hnodup
  · intro u v hu
    obtain rfl := halone u (by rw [hu]; rfl)
    exact hpost v (hself.symm.trans hu)
  · intro u hu
    obtain rfl := halone u (by rw [hu]; rfl)
    exact hempty (hself.symm.trans hu)
  · intro u hu
    obtain rfl := halone u (by rw [hu]; rfl)
    exact hnonempty (hself.symm.trans hu)
  · intro hno
    have := hno t
    rw [hself, hp] at this
    cases this
  · intro u hu
    obtain rfl := halone u hu
    rw [hself]
    exact hcount

theorem signalled_goto {p : Pc τ α} (hpc : s'.pc = Function.update s.pc t p) (hq : s'.waitQueue = s.waitQueue)
    (hw : p.waiting = (s.pc t).waiting) : s'.signalled = s.signalled := by
  refine signalled_congr (fun u => ?_) hq
  rw [hpc]
  rcases eq_or_ne u t with rfl | hu
  · rw [Function.update_self, hw]
  · rw [Function.update_of_ne hu]

theorem Inv.queue_goto {p : Pc τ α} (h : Inv s) (hq : s'.waitQueue = s.waitQueue)
    (hpc : s'.pc = Function.update s.pc t p) (hp : (s.pc t).queued = true → p.queued = true)
    (hv : ∀ u ∈ s.waitQueue, (s'.sleepers.sem (some u)).value = (s.sleepers.sem (some u)).value) :
    ∀ u ∈ s'.waitQueue, (s'.pc u).queued = true ∧ (s'.sleepers.sem (some u)).value = 0 := by
  intro u hu
  rw [hq] at hu
  obtain ⟨hqd, hval⟩ := h.queue u hu
  refine ⟨?_, (hv u hu).trans hval⟩
  rw [hpc]
  rcases eq_or_ne u t with rfl | hut
  · rw [Function.update_self]
    exact hp hqd
  · rwa [Function.update_of_ne hut]

theorem Inv.innerGoto {p : Pc τ α} {holder : Option τ} (h : Inv s) (ht : (s.pc t).inside = true)
    (hp : p.inside = true) (hholder : p.holds = true → holder = some t)
    (hpend : ∀ x, p.pending = some x → (s.pc t).pending = some x) (hq : (s.pc t).queued = true → p.queued = true)
    (hpost : ∀ u, p ≠ .post u) (hempty : p = .wait → s.list = []) (hnonempty : p = .take → s.list ≠ [])
    (hw : p.waiting = (s.pc t).waiting) (hcredit : s.waitQueue ≠ [] → (s.pc t).credit ≤ p.credit) :
    Inv ({ s with lockHolder := holder }.goto t p) := by
  refine h.inner ht rfl hp rfl hholder h.fifo rfl hpend (fun x hx => Or.inl hx) (h.queue_goto rfl rfl hq fun _ _ => rfl)
    h.nodup (fun u hu => absurd hu (hpost u)) hempty hnonempty fun hne => ?_
  have hcard : ({ s with lockHolder := holder }.goto t p).signalled = s.signalled := signalled_goto rfl rfl hw
  have := h.countHeld t ht hne
  have := hcredit hne
  rw [hcard]
  show s.list.length ≤ _
  omega

variable [DecidableEq α]

theorem run_hold (h : Inv s) (ha : s.sleepers.asleep t = false) {w : Want α} (hp : s.pc t = .hold w) :
    ∃ s', s.run t = some s' ∧ Inv s' := by
  simp only [run, ha, hp, Bool.false_eq_true, if_false]
  refine ⟨_, rfl, ?_⟩
  cases w <;> apply h.innerGoto <;> simp [hp, Pc.inside, Pc.holds, Pc.pending, Pc.queued, Pc.waiting, Pc.credit]

theorem run_release (h : Inv s) (ha : s.sleepers.asleep t = false) {a : After α} (hp : s.pc t = .release a) :
    ∃ s', s.run t = some s' ∧ Inv s' := by
  have hholder := h.holder t (by rw [hp]; rfl)
  simp only [run, ha, hp, Bool.false_eq_true, if_false, hholder, ne_eq, not_true]
  refine ⟨_, rfl, ?_⟩
  cases a <;> apply h.innerGoto <;> simp [hp, Pc.inside, Pc.holds, Pc.pending, Pc.queued, Pc.waiting, Pc.credit]

theorem run_test (h : Inv s) (ha : s.sleepers.asleep t = false) (hp : s.pc t = .test) :
    ∃ s', s.run t = some s' ∧ Inv s' := by
  have hholder := h.holder t (by rw [hp]; rfl)
  simp only [run, ha, hp, Bool.false_eq_true, if_false]
  refine ⟨_, rfl, ?_⟩
  cases hl : s.list <;> apply h.innerGoto <;>
    simp [hp, hl, hholder, Pc.inside, Pc.holds, Pc.pending, Pc.queued, Pc.waiting, Pc.credit]

theorem run_delete (h : Inv s) (ha : s.sleepers.asleep t = false) (hp : s.pc t = .delete) :
    ∃ s', s.run t = some s' ∧ Inv s' := by
  have hholder := h.holder t (by rw [hp]; rfl)
  simp only [run, ha, hp, Bool.false_eq_true, if_false]
  refine ⟨_, rfl, ?_⟩
  apply h.innerGoto <;> simp [hp, hholder, Pc.inside, Pc.holds, Pc.pending, Pc.queued, Pc.waiting, Pc.credit]

theorem run_append (h : Inv s) (ha : s.sleepers.asleep t = false) {x : α} (hp : s.pc t = .append x) :
    ∃ s', s.run t = some s' ∧ Inv s' := by
  have hpend : (s.pc t).pending = some x := by rw [hp]; rfl
  have hin : (s.pc t).inside = true := by rw [hp]; rfl
  have hholder := h.holder t (by rw [hp]; rfl)
  have hx : x ∉ s.list := by
    intro hm
    apply (h.pending t x hpend).2
    rw [← h.fifo]
    exact List.mem_append_right _ hm
  simp only [run, ha, hp, Bool.false_eq_true, if_false, hx]
  refine ⟨_, rfl, ?_⟩
  refine h.inner hin rfl rfl rfl (fun _ => hholder) ?_ rfl ?_ ?_ ?_ h.nodup ?_ ?_ ?_ ?_
  · show s.removed ++ (s.list ++ [x]) = s.appended ++ [x]
    rw [← List.append_assoc, h.fifo]
  · simp [Pc.pending]
  · intro y hy
    rcases List.mem_append.mp hy with hy | hy
    · exact Or.inl hy
    · rw [List.mem_singleton.mp hy]
      exact Or.inr ⟨hpend, rfl⟩
  · exact h.queue_goto rfl rfl (by simp [hp, Pc.queued]) fun _ _ => rfl
  · simp
  · simp
  · simp
  · intro hne
    have hcard : ({ s with list := s.list ++ [x], appended := s.appended ++ [x] }.goto t .signal).signalled =
        s.signalled := signalled_goto rfl rfl (by simp [hp, Pc.waiting])
    have hle := h.countHeld t hin hne
    rw [hp] at hle
    rw [hcard]
    show (s.list ++ [x]).length ≤ s.signalled.card + 1
    rw [List.length_append]
    exact Nat.succ_le_succ hle

omit [DecidableEq α] in
theorem card_signalled_dequeue {u : τ} {q : List τ} (hp : s.pc t = .signal) (hq : s.waitQueue = u :: q)
    (hu : s.pc u = .sleep) (hnot : u ∉ q) :
    s.signalled.card + 1 ≤ ({ s with waitQueue := q }.goto t (.post u)).signalled.card := by
  have hne : ∀ v, (s.pc v).waiting = true → v ≠ t := by
    rintro v hv rfl
    simp [hp, Pc.waiting] at hv
  have hut := hne u (by rw [hu]; rfl)
  have hsub : insert u s.signalled ⊆ ({ s with waitQueue := q }.goto t (.post u)).signalled := by
    intro v hv
    rw [mem_signalled]
    rcases Finset.mem_insert.mp hv with rfl | hv
    · simp [goto, hut, hu, Pc.waiting, hnot]
    · obtain ⟨hw, hvq⟩ := mem_signalled.mp hv
      rw [hq, List.mem_cons, not_or] at hvq
      simp [goto, hne v hw, hw, hvq.2]
  calc s.signalled.card + 1 = (insert u s.signalled).card := by
        rw [Finset.card_insert_of_notMem (by simp [mem_signalled, hq])]
    _ ≤ _ := Finset.card_le_card hsub

theorem run_signal (h : Inv s) (ha : s.sleepers.asleep t = false) (hp : s.pc t = .signal) :
    ∃ s', s.run t = some s' ∧ Inv s' := by
  have hin : (s.pc t).inside = true := by rw [hp]; rfl
  have hholder := h.holder t (by rw [hp]; rfl)
  simp only [run, ha, hp, Bool.false_eq_true, if_false]
  rw [if_neg (not_not_intro hholder)]
  cases hq : s.waitQueue with
  | nil =>
    refine ⟨_, rfl, ?_⟩
    apply h.innerGoto <;>
      simp [hp, hq, hholder, Pc.inside, Pc.holds, Pc.pending, Pc.queued, Pc.waiting, Pc.credit]
  | cons u q =>
    refine ⟨_, rfl, ?_⟩
    have hnd := h.nodup
    rw [hq, List.nodup_cons] at hnd
    obtain ⟨huq, huv⟩ := h.queue u (by simp [hq])
    have hne : ∀ v, (s.pc v).queued = true → v ≠ t := by
      rintro v hv rfl
      simp [hp, Pc.queued] at hv
    have hut := hne u huq
    -- the waiter has released the lock, which this thread holds
    have hsleep := Pc.eq_sleep huq fun hu => hut (h.unique hin hu)
    refine h.inner hin rfl rfl rfl (fun _ => hholder) h.fifo rfl (by simp [Pc.pending]) (fun x hx => Or.inl hx) ?_
      hnd.2 ?_ (by simp) (by simp) ?_
    · intro v hv
      have hv' := h.queue v (by rw [hq]; exact List.mem_cons_of_mem _ hv)
      simpa [goto, hne v hv'.1] using hv'
    · intro v hv
      cases hv
      exact ⟨by simp [goto, hut, hsleep], hnd.1, huv⟩
    · intro _
      have hle := h.countHeld t hin (by simp [hq])
      rw [hp] at hle
      exact hle.trans (card_signalled_dequeue hp hq hsleep hnd.1)

theorem run_post (h : Inv s) (ha : s.sleepers.asleep t = false) {u : τ} (hp : s.pc t = .post u) :
    ∃ s', s.run t = some s' ∧ Inv s' := by
  have hin : (s.pc t).inside = true := by rw [hp]; rfl
  have hholder := h.holder t (by rw [hp]; rfl)
  obtain ⟨hsleep, huq, -⟩ := h.post t u hp
  have hw : (s.pc u).hasWaiter = true := by rw [hsleep]; rfl
  simp only [run, ha, hp, Bool.false_eq_true, if_false, hw, if_true]
  refine ⟨_, rfl, ?_⟩
  have hval : ∀ v ∈ s.waitQueue, ((s.sleepers.V (some u)).sem (some v)).value = (s.sleepers.sem (some v)).value := by
    intro v hv
    have hvu : ¬ some v = some u := by
      rintro ⟨rfl⟩
      exact huq hv
    rw [Sleepers.value_V, if_neg hvu, Int.add_zero]
  refine h.inner hin rfl rfl ?_ (fun _ => hholder) h.fifo rfl (by simp [Pc.pending]) (fun x hx => Or.inl hx)
    (h.queue_goto rfl rfl (by simp [hp, Pc.queued]) hval) h.nodup (by simp) (by simp) (by simp) fun hne => ?_
  · show ((s.sleepers.V (some u)).sem none).value = _
    rw [Sleepers.value_V]
    simp
  · have hcard : ({ s with sleepers := s.sleepers.V (some u) }.goto t (.release .appended)).signalled = s.signalled :=
      signalled_goto rfl rfl (by simp [hp, Pc.waiting])
    have hle := h.countHeld t hin hne
    rw [hp] at hle
    rw [hcard]
    exact hle

theorem run_wait (h : Inv s) (ha : s.sleepers.asleep t = false) (hp : s.pc t = .wait) :
    ∃ s', s.run t = some s' ∧ Inv s' := by
  have hin : (s.pc t).inside = true := by rw [hp]; rfl
  have hholder := h.holder t (by rw [hp]; rfl)
  have hnot : t ∉ s.waitQueue := fun hm => by
    have := (h.queue t hm).1
    simp [hp, Pc.queued] at this
  simp only [run, ha, hp, Bool.false_eq_true, if_false]
  rw [if_neg (by simp [hholder, hnot])]
  refine ⟨_, rfl, ?_⟩
  refine h.inner hin rfl rfl ?_ (fun _ => hholder) h.fifo rfl (by simp [Pc.pending]) (fun x hx => Or.inl hx) ?_ ?_
    (by simp) (by simp) (by simp) fun _ => ?_
  · show ((s.sleepers.fresh (some t) 0).sem none).value = _
    simp [Sleepers.fresh]
  · intro u hu
    rcases List.mem_append.mp hu with hm | hm
    · have hut : u ≠ t := by
        rintro rfl
        exact hnot hm
      simpa [goto, Sleepers.fresh, hut] using h.queue u hm
    · rw [List.mem_singleton.mp hm]
      simp [goto, Sleepers.fresh, Semaphore.mk0, Pc.queued]
  · show (s.waitQueue ++ [t]).Nodup
    rw [List.nodup_append]
    refine ⟨h.nodup, List.nodup_singleton t, fun a ha b hb hab => hnot ?_⟩
    rw [List.mem_singleton.mp hb] at hab
    exact hab ▸ ha
  · show s.list.length ≤ _
    rw [h.empty t hp]
    exact Nat.zero_le _

theorem run_take (h : Inv s) (ha : s.sleepers.asleep t = false) (hp : s.pc t = .take) :
    ∃ s', s.run t = some s' ∧ Inv s' := by
  have hin : (s.pc t).inside = true := by rw [hp]; rfl
  have hholder := h.holder t (by rw [hp]; rfl)
  simp only [run, ha, hp, Bool.false_eq_true, if_false]
  cases hl : s.list with
  | nil => exact absurd hl (h.nonempty t hp)
  | cons x l =>
    refine ⟨_, rfl, ?_⟩
    have hfifo := h.fifo
    rw [hl] at hfifo
    refine h.inner hin rfl rfl rfl (fun _ => hholder) ?_ rfl (by simp [Pc.pending]) (fun x hx => Or.inl hx)
      (h.queue_goto rfl rfl (by simp [hp, Pc.queued]) fun _ _ => rfl) h.nodup (by simp) (by simp) (by simp)
      fun hne => ?_
    · show s.removed ++ [x] ++ l = s.appended
      rw [List.append_assoc, ← hfifo]
      rfl
    · have hcard : ({ s with list := l, removed := s.removed ++ [x] }.goto t (.release (.removed x))).signalled =
          s.signalled := signalled_goto rfl rfl (by simp [hp, Pc.waiting])
      have hle := h.countHeld t hin hne
      rw [hp, hl] at hle
      rw [hcard]
      exact Nat.le_of_succ_le_succ hle

omit [DecidableEq α] in
/-- A step outside of the lock, which leaves the list and the condition's queue
as they are. -/
theorem Inv.outer {p : Pc τ α} {sleepers : Sleepers τ (Option τ)} {called : List α} (h : Inv s)
    (ht : (s.pc t).inside = false) (hp : p.inside = false)
    (hv : (sleepers.sem none).value = (s.sleepers.sem none).value)
    (hvt : ∀ u, (s.sleepers.sem (some u)).value = 0 → (sleepers.sem (some u)).value = 0)
    (hcalled : ∀ x ∈ s.called, x ∈ called)
    (hpend : ∀ x, p.pending = some x → (s.pc t).pending = some x ∨ x ∉ s.called ∧ x ∈ called)
    (hq : (s.pc t).queued = true → (s.sleepers.sem (some t)).value = 0 → p = s.pc t)
    (hw : p.waiting = (s.pc t).waiting) :
    Inv ({ s with sleepers := sleepers, called := called }.goto t p) := by
  obtain ⟨s', hs'⟩ : ∃ s', s' = { s with sleepers := sleepers, called := called }.goto t p := ⟨_, rfl⟩
  have hpc : s'.pc = Function.update s.pc t p := by rw [hs']; rfl
  have hself : s'.pc t = p := by rw [hpc, Function.update_self]
  have hother : ∀ u, u ≠ t → s'.pc u = s.pc u := fun u hu => by rw [hpc, Function.update_of_ne hu]
  have hinside : ∀ u, (s'.pc u).inside = (s.pc u).inside := by
    intro u
    rcases eq_or_ne u t with rfl | hu
    · rw [hself, hp, ht]
    · rw [hother u hu]
  have hsame : ∀ u, (s.pc u).inside = true → s'.pc u = s.pc u := by
    intro u hu
    apply hother
    rintro rfl
    rw [ht] at hu
    cases hu
  have hsame' : ∀ u, (s'.pc u).inside = true → s'.pc u = s.pc u := fun u hu => hsame u (hinside u ▸ hu)
  have hkeep : ∀ u, (s.pc u).queued = true → (s.sleepers.sem (some u)).value = 0 → s'.pc u = s.pc u := by
    intro u hu hval
    rcases eq_or_ne u t with rfl | hut
    · rw [hself, hq hu hval]
    · exact hother u hut
  have hsig : s'.signalled = s.signalled := signalled_goto hpc (by rw [hs']; rfl) hw
  have hpend' : ∀ u x, (s'.pc u).pending = some x →
      (s.pc u).pending = some x ∨ u = t ∧ x ∉ s.called ∧ x ∈ called := by
    intro u x hx
    rcases eq_or_ne u t with rfl | hu
    · rcases hpend x (hself ▸ hx) with hx | hx
      · exact Or.inl hx
      · exact Or.inr ⟨rfl, hx⟩
    · exact Or.inl (hother u hu ▸ hx)
  rw [← hs']
  constructor
  · have hlock : Locked (fun u => (s'.pc u).inside = true) (s.sleepers.sem none).value :=
      h.lock.congr fun u => by rw [hinside]
    rw [hs'] at hlock ⊢
    rwa [← hv] at hlock
  · intro u hu
    rw [hsame' u (Pc.inside_of_holds hu)] at hu
    rw [hs']
    exact h.holder u hu
  · rw [hs']
    exact h.fifo
  · intro u x hx
    rw [hs']
    rcases hpend' u x hx with hx | ⟨-, hn, hc⟩
    · exact ⟨hcalled x (h.pending u x hx).1, (h.pending u x hx).2⟩
    · exact ⟨hc, fun hm => hn (h.called x hm)⟩
  · intro u v x hu hv
    rcases hpend' u x hu with hu | ⟨rfl, hn, -⟩ <;> rcases hpend' v x hv with hv | ⟨rfl, hn', -⟩
    · exact h.distinct u v x hu hv
    · exact absurd (h.pending u x hu).1 hn'
    · exact absurd (h.pending v x hv).1 hn
    · rfl
  · intro x hx
    rw [hs'] at hx ⊢
    exact hcalled x (h.called x hx)
  · intro u hu
    have hu' : u ∈ s.waitQueue := by rwa [hs'] at hu
    obtain ⟨hqd, hval⟩ := h.queue u hu'
    rw [hkeep u hqd hval, hs']
    exact ⟨hqd, hvt u hval⟩
  · rw [hs']
    exact h.nodup
  · intro u v hu
    have hu' : s.pc u = .post v := by
      rw [← hsame' u (by rw [hu]; rfl)]
      exact hu
    obtain ⟨hsl, hnq, hval⟩ := h.post u v hu'
    rw [hkeep v (by rw [hsl]; rfl) hval, hs']
    exact ⟨hsl, hnq, hvt v hval⟩
  · intro u hu
    rw [hs']
    exact h.empty u (by rw [← hsame' u (by rw [hu]; rfl)]; exact hu)
  · intro u hu
    rw [hs']
    exact h.nonempty u (by rw [← hsame' u (by rw [hu]; rfl)]; exact hu)
  · intro hno
    rw [hsig, hs']
    exact h.count fun u => by rw [← hinside]; exact hno u
  · intro u hu
    rw [hsame' u hu, hsig, hs']
    exact h.countHeld u (hinside u ▸ hu)

theorem step_append (h : Inv s) (ht : s.pc t = .idle) {x : α} (hx : x ∉ s.called) :
    ∃ s', s.step (.append t x) = some s' ∧ Inv s' := by
  simp only [step, ht, hx, if_false]
  refine ⟨_, rfl, h.outer (by rw [ht]; rfl) rfl rfl (fun _ hv => hv) (fun y hy => List.mem_append_left _ hy) ?_
    (by simp [ht, Pc.queued]) (by simp [ht, Pc.waiting])⟩
  intro y hy
  obtain rfl : x = y := Option.some.inj hy
  exact Or.inr ⟨hx, by simp⟩

theorem step_removeFront (h : Inv s) (ht : s.pc t = .idle) : ∃ s', s.step (.removeFront t) = some s' ∧ Inv s' := by
  simp only [step, ht]
  exact ⟨_, rfl, h.outer (by rw [ht]; rfl) rfl rfl (fun _ hv => hv) (fun _ hy => hy) (by simp [Pc.pending])
    (by simp [ht, Pc.queued]) (by simp [ht, Pc.waiting])⟩

omit [DecidableEq α] in
theorem inv_asleep (h : Inv s) (ht : (s.pc t).inside = false) {l : Option τ} (hv : (s.sleepers.sem l).value = 0) :
    Inv { s with sleepers := (s.sleepers.P t l).1 } := by
  have hgoto : ({ s with sleepers := (s.sleepers.P t l).1 }.goto t (s.pc t)) =
      { s with sleepers := (s.sleepers.P t l).1 } := by
    simp [goto]
  rw [← hgoto]
  refine h.outer ht ht ?_ (fun u hu => ?_) (fun _ hx => hx) (fun x hx => Or.inl hx) (fun _ _ => rfl) rfl
  · exact Sleepers.value_sleep hv none
  · rw [Sleepers.value_sleep hv]
    exact hu

omit [DecidableEq α] in
/-- A waiter that takes the lock is not counted any more, but makes up for one item
itself. -/
theorem card_signalled_enter {w : Want α} (hp : s.pc t = .acquire w) {sleepers : Sleepers τ (Option τ)} :
    s.signalled.card ≤
      ({ s with sleepers := sleepers }.goto t (.hold w)).signalled.card + (Pc.hold w : Pc τ α).credit := by
  have hsub : s.signalled.erase t ⊆ ({ s with sleepers := sleepers }.goto t (.hold w)).signalled := by
    intro v hv
    obtain ⟨hvt, hv⟩ := Finset.mem_erase.mp hv
    rw [mem_signalled] at hv ⊢
    simpa [goto, hvt] using hv
  have hcard := Finset.card_le_card hsub
  cases w with
  | again =>
    have hpred : s.signalled.card - 1 ≤ (s.signalled.erase t).card := Finset.pred_card_le_card_erase
    simp only [Pc.credit]
    omega
  | append y =>
    rwa [Finset.erase_eq_of_notMem (by simp [mem_signalled, hp, Pc.waiting])] at hcard
  | remove =>
    rwa [Finset.erase_eq_of_notMem (by simp [mem_signalled, hp, Pc.waiting])] at hcard

omit [DecidableEq α] in
theorem inv_enter (h : Inv s) {w : Want α} (hp : s.pc t = .acquire w) (hv : (s.sleepers.sem none).value ≠ 0) :
    Inv ({ s with sleepers := (s.sleepers.P t none).1 }.goto t (.hold w)) := by
  have hval := Sleepers.value_P (t := t) hv
  have hfree : ∀ u, (s.pc u).inside = false := fun u => by simpa using h.lock.outside hv u
  have hself : Function.update s.pc t (.hold w) t = .hold w := Function.update_self ..
  have hinside : ∀ u, (Function.update s.pc t (.hold w) u).inside = true → u = t := by
    intro u hu
    by_contra hut
    rw [Function.update_of_ne hut, hfree u] at hu
    cases hu
  have hpend : ∀ u x, (Function.update s.pc t (.hold w) u).pending = some x → (s.pc u).pending = some x := by
    intro u x hx
    rcases eq_or_ne u t with rfl | hut
    · rw [hself] at hx
      rw [hp]
      cases w with
      | append y => exact hx
      | _ => cases hx
    · rwa [Function.update_of_ne hut] at hx
  constructor
  · show Locked _ ((s.sleepers.P t none).1.sem none).value
    rw [hval none, if_pos rfl]
    exact h.lock.moveIn (f := fun _ p => Pc.inside p = true) hv rfl
  · intro u hu
    obtain rfl := hinside u (Pc.inside_of_holds hu)
    simp [goto, Pc.holds] at hu
  · exact h.fifo
  · exact fun u x hx => h.pending u x (hpend u x hx)
  · exact fun u v x hu hv => h.distinct u v x (hpend u x hu) (hpend v x hv)
  · exact h.called
  · refine h.queue_goto rfl rfl (by simp [hp, Pc.queued]) fun u _ => ?_
    show ((s.sleepers.P t none).1.sem (some u)).value = _
    simp [hval]
  · exact h.nodup
  · intro u v hu
    obtain rfl := hinside u (by rw [show Function.update s.pc t (.hold w) u = .post v from hu]; rfl)
    simp [goto] at hu
  · intro u hu
    obtain rfl := hinside u (by rw [show Function.update s.pc t (.hold w) u = .wait from hu]; rfl)
    simp [goto] at hu
  · intro u hu
    obtain rfl := hinside u (by rw [show Function.update s.pc t (.hold w) u = .take from hu]; rfl)
    simp [goto] at hu
  · intro hno
    have := hno t
    simp [goto, Pc.inside] at this
  · intro u hu hne
    obtain rfl := hinside u hu
    show s.list.length ≤ _ + (Function.update s.pc u (.hold w) u).credit
    rw [hself]
    exact (h.count hfree hne).trans (card_signalled_enter hp)

theorem run_acquire (h : Inv s) (ha : s.sleepers.asleep t = false) {w : Want α} (hp : s.pc t = .acquire w) :
    ∃ s', s.run t = some s' ∧ Inv s' := by
  have hout : (s.pc t).inside = false := by rw [hp]; rfl
  simp only [run, ha, hp, Bool.false_eq_true, if_false]
  refine ⟨_, rfl, ?_⟩
  rcases eq_or_ne (s.sleepers.sem none).value 0 with hv | hv
  · rw [passP, Sleepers.pass_sleep hv]
    exact inv_asleep h hout hv
  · rw [passP, Sleepers.pass_take hv]
    exact inv_enter h hp hv

omit [DecidableEq α] in
/-- The lock is free again, and the thread inside goes on outside. -/
theorem inv_leave {p : Pc τ α} (h : Inv s) (hin : (s.pc t).inside = true) (hout : p.inside = false)
    (hpend : p.pending = none) (hq : p.queued = (s.pc t).queued) (hw : p.waiting = (s.pc t).waiting)
    (hcredit : (s.pc t).credit = 0) : Inv ({ s with sleepers := s.sleepers.V none }.goto t p) := by
  have hval := Sleepers.value_V (s := s.sleepers) (l := none)
  have hfree : ∀ u, (Function.update s.pc t p u).inside = false := by
    intro u
    rcases eq_or_ne u t with rfl | hut
    · rw [Function.update_self, hout]
    · rw [Function.update_of_ne hut]
      by_contra hu
      exact hut (h.unique hin (by simpa using hu))
  have hnot : ∀ u {q : Pc τ α}, q.inside = true → Function.update s.pc t p u ≠ q := by
    rintro u q hq rfl
    rw [hfree u] at hq
    cases hq
  have hpend' : ∀ u x, (Function.update s.pc t p u).pending = some x → (s.pc u).pending = some x := by
    intro u x hx
    rcases eq_or_ne u t with rfl | hut
    · rw [Function.update_self, hpend] at hx
      cases hx
    · rwa [Function.update_of_ne hut] at hx
  constructor
  · show Locked _ ((s.sleepers.V none).sem none).value
    rw [hval none, if_pos rfl]
    exact h.lock.moveOut (f := fun _ p => Pc.inside p = true) hin (by simp [hout])
  · intro u hu
    exact absurd rfl (hnot u (Pc.inside_of_holds hu))
  · exact h.fifo
  · exact fun u x hx => h.pending u x (hpend' u x hx)
  · exact fun u v x hu hv => h.distinct u v x (hpend' u x hu) (hpend' v x hv)
  · exact h.called
  · refine h.queue_goto rfl rfl hq.trans fun u _ => ?_
    show ((s.sleepers.V none).sem (some u)).value = _
    simp [hval]
  · exact h.nodup
  · exact fun u v hu => absurd hu (hnot u rfl)
  · exact fun u hu => absurd hu (hnot u rfl)
  · exact fun u hu => absurd hu (hnot u rfl)
  · intro _ hne
    have hcard : ({ s with sleepers := s.sleepers.V none }.goto t p).signalled = s.signalled :=
      signalled_goto rfl rfl hw
    have hle := h.countHeld t hin hne
    rw [hcredit] at hle
    rw [hcard]
    exact hle
  · intro u hu
    exact absurd rfl (hnot u hu)

theorem run_unlock (h : Inv s) (ha : s.sleepers.asleep t = false) {a : After α} (hp : s.pc t = .unlock a) :
    ∃ s', s.run t = some s' ∧ Inv s' := by
  simp only [run, ha, hp, Bool.false_eq_true, if_false]
  refine ⟨_, rfl, ?_⟩
  cases a <;> apply inv_leave h <;> simp [hp, Pc.inside, Pc.pending, Pc.queued, Pc.waiting, Pc.credit]

theorem run_sleep (h : Inv s) (ha : s.sleepers.asleep t = false) (hp : s.pc t = .sleep) :
    ∃ s', s.run t = some s' ∧ Inv s' := by
  have hout : (s.pc t).inside = false := by rw [hp]; rfl
  simp only [run, ha, hp, Bool.false_eq_true, if_false]
  refine ⟨_, rfl, ?_⟩
  rcases eq_or_ne (s.sleepers.sem (some t)).value 0 with hv | hv
  · rw [passP, Sleepers.pass_sleep hv]
    exact inv_asleep h hout hv
  rw [passP, Sleepers.pass_take hv]
  have hval := Sleepers.value_P (t := t) hv
  refine h.outer hout rfl ?_ (fun u hu => ?_) (fun _ hx => hx) (by simp [Pc.pending]) (fun _ h0 => absurd h0 hv)
    (by simp [hp, Pc.waiting])
  · simp [hval]
  · have hut : ¬ some u = some t := by
      rintro ⟨rfl⟩
      exact hv hu
    rw [hval, if_neg hut, Int.sub_zero]
    exact hu

/-- A thread that is awake and has something to do meets no failing assertion. -/
theorem run_isSome (h : Inv s) (ha : s.sleepers.asleep t = false) (hp : s.pc t ≠ .idle) :
    ∃ s', s.run t = some s' ∧ Inv s' := by
  cases hpc : s.pc t with
  | idle => exact absurd hpc hp
  | acquire w => exact run_acquire h ha hpc
  | hold w => exact run_hold h ha hpc
  | append x => exact run_append h ha hpc
  | signal => exact run_signal h ha hpc
  | post u => exact run_post h ha hpc
  | release a => exact run_release h ha hpc
  | unlock a => exact run_unlock h ha hpc
  | test => exact run_test h ha hpc
  | wait => exact run_wait h ha hpc
  | sleep => exact run_sleep h ha hpc
  | delete => exact run_delete h ha hpc
  | take => exact run_take h ha hpc

theorem inv_step {e : Event τ α} (h : Inv s) (hs : s.step e = some s') : Inv s' := by
  have hdone : (∃ s', s.step e = some s' ∧ Inv s') → Inv s' := by
    rintro ⟨s'', hs'', hi⟩
    rw [hs''] at hs
    exact Option.some.inj hs ▸ hi
  apply hdone
  cases e with
  | append t x =>
    cases hpc : s.pc t with
    | idle =>
      apply step_append h hpc
      intro hx
      simp [step, hpc, hx] at hs
    | _ => simp [step, hpc] at hs
  | removeFront t =>
    cases hpc : s.pc t with
    | idle => exact step_removeFront h hpc
    | _ => simp [step, hpc] at hs
  | run t =>
    cases ha : s.sleepers.asleep t with
    | true => simp [step, run, ha] at hs
    | false =>
      apply run_isSome h ha
      intro hpc
      simp [step, run, ha, hpc] at hs

theorem inv_exec (es : List (Event τ α)) (s : SynchList τ α) (h : exec step init es = some s) : Inv s :=
  exec_induction (P := fun _ s => Inv s) inv_init (fun _ _ _ _ hi hs => inv_step hi hs) es s h

/-- In every run with distinct items: what has been removed, in order, followed
by what is in the list is what has been appended, in order; at most one thread
is between the acquiring and the releasing of the lock; and when the lock is
free while a `RemoveFront` waits unsignalled, the waiters that have been
signalled and are not back are at least as many as the items in the list. A
thread that is awake meets no failing assertion. -/
theorem synchList_fifo (es : List (Event τ α)) (s : SynchList τ α) (h : exec step init es = some s) :
    s.removed ++ s.list = s.appended ∧
    (∀ t u, (s.pc t).inside = true → (s.pc u).inside = true → t = u) ∧
    (∀ t ∈ s.waitQueue, (s.pc t).queued = true) ∧
    ((s.sleepers.sem none).value = 1 → s.waitQueue ≠ [] → s.list.length ≤ s.signalled.card) ∧
    ∀ t, s.sleepers.asleep t = false → s.pc t ≠ .idle → (s.run t).isSome = true := by
  have hi := inv_exec es s h
  refine ⟨hi.fifo, fun t u ht hu => hi.unique hu ht, fun t ht => (hi.queue t ht).1, fun hv hne => ?_, ?_⟩
  · apply hi.count _ hne
    intro t
    by_contra ht
    have h0 := hi.lock.value_eq_zero (t := t) (by simpa using ht)
    omega
  · intro t ha hp
    obtain ⟨s', hs', -⟩ := run_isSome hi ha hp
    rw [hs', Option.isSome_some]

/-- Two threads wait, and a third one appends an item and signals the first of them. -/
def waitWaitAppend : List (Event (Fin 3) ℕ) :=
  .removeFront 0 :: List.replicate 7 (.run 0) ++ .removeFront 1 :: List.replicate 7 (.run 1) ++
    .append 2 9 :: List.replicate 7 (.run 2)

theorem synchList_fifo_waitWaitAppend : ∃ s : SynchList (Fin 3) ℕ, exec step init waitWaitAppend = some s ∧
    s.waitQueue = [1] ∧ s.list = [9] ∧ s.signalled = {0} ∧ s.list.length ≤ s.signalled.card := by
  have h : ((exec step init waitWaitAppend).bind fun s : SynchList (Fin 3) ℕ =>
      some (s.waitQueue, s.list, s.signalled, (s.sleepers.sem none).value)) = some ([1], [9], {0}, 1) := by decide
  obtain ⟨s, hs, hd⟩ := Option.bind_eq_some_iff.mp h
  simp only [Option.some.injEq, Prod.mk.injEq] at hd
  obtain ⟨hq, hl, hsig, hv⟩ := hd
  obtain ⟨-, -, -, hcount, -⟩ := synchList_fifo waitWaitAppend s hs
  exact ⟨s, hs, hq, hl, hsig, hcount hv (by simp [hq])⟩

end SynchList

end Nachos
