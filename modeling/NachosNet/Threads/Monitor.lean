/-
# Monitors

`Lock` and `Condition` of `threads/synch.cc`, used as a monitor: a thread acquires the
lock, and while it holds it calls `Wait`, `Signal` and `Broadcast` as it likes. As in
`SynchList.lean` every statement is a step of its own, and each pass through the loop
of `P`; the semaphore of the lock is `none`, and that of a waiting thread `t` is `some t`.

A thread in `Wait` is in the queue of its condition until it is taken out, and the thread
that takes it out wakes it (`Inv.signalled`). So no assertion fails (`Inv.run_isSome`), and
a thread sleeps only when the lock is taken or nobody has signalled (`Inv.all_waiting`).

Key definitions: `Monitor`, `Monitor.run`, `Monitor.Ran`, `Monitor.Inv`.
-/
import NachosNet.Basis.Run
import NachosNet.Threads.Synch

namespace Nachos

open Basis

namespace Monitor

/-- The next statement of a thread. -/
inductive Pc (τ κ : Type*)
  | idle
  /-- `P` on the semaphore of the lock, in `Wait` when `again`. -/
  | acquire (again : Bool)
  /-- `lockHolder = kernel->currentThread` -/
  | hold (again : Bool)
  /-- `delete waiter` -/
  | delete
  /-- Code of its own, with the lock. -/
  | body
  /-- `Wait`, up to the release of the lock. -/
  | wait (c : κ)
  /-- The test of the loop in `Broadcast`. -/
  | broadcast (c : κ)
  /-- `Signal`, up to the waiter; called by `Broadcast` when `loop`. -/
  | signal (c : κ) (loop : Bool)
  /-- `waiter->V()` -/
  | post (u : τ) (c : κ) (loop : Bool)
  /-- `lockHolder = NULL`, in `Wait` for a condition. -/
  | release (c : Option κ)
  /-- `V` on the semaphore of the lock. -/
  | unlock (c : Option κ)
  /-- `waiter->P()` -/
  | sleep (c : κ)
  deriving DecidableEq

/-- What a thread calls while it holds the lock. -/
inductive Call (κ : Type*)
  | wait (c : κ)
  | signal (c : κ)
  | broadcast (c : κ)
  | release

inductive Event (τ κ : Type*)
  /-- Thread `t` calls `Acquire`. -/
  | acquire (t : τ)
  | call (t : τ) (k : Call κ)
  | run (t : τ)

namespace Pc

variable {τ κ : Type*}

/-- Between the `P` and the `V` on the semaphore of the lock. -/
def inside : Pc τ κ → Bool
  | .idle | .acquire _ | .sleep _ => false
  | _ => true

/-- `lockHolder` is the thread. -/
def holds : Pc τ κ → Bool
  | .idle | .acquire _ | .hold _ | .unlock _ | .sleep _ => false
  | _ => true

/-- The semaphore that the thread is at. -/
def waits (u : τ) : Pc τ κ → Option (Option τ)
  | .acquire _ => some none
  | .sleep _ => some (some u)
  | _ => none

/-- In `Wait`, with the lock. -/
def leaving : Pc τ κ → Option κ
  | .release c | .unlock c => c
  | _ => none

/-- In `Wait`, before the return from `waiter->P()`. -/
def queuedAt : Pc τ κ → Option κ
  | .release c | .unlock c => c
  | .sleep c => some c
  | _ => none

/-- The semaphore of the thread in `Wait` exists. -/
def hasWaiter : Pc τ κ → Bool
  | .release (some _) | .unlock (some _) | .sleep _ | .acquire true | .hold true | .delete => true
  | _ => false

/-- The thread that has been taken out of a queue and is to be woken. -/
def posts : Pc τ κ → Option τ
  | .post u _ _ => some u
  | _ => none

/-- Where the next statement of a call is. -/
def ofCall : Call κ → Pc τ κ
  | .wait c => .wait c
  | .signal c => .signal c false
  | .broadcast c => .broadcast c
  | .release => .release none

/-- After `Signal`. -/
def afterSignal (c : κ) : Bool → Pc τ κ
  | true => .broadcast c
  | false => .body

theorem inside_of_holds {p : Pc τ κ} (h : p.holds = true) : p.inside = true := by
  cases p <;> simp_all [holds, inside]

theorem waits_of_inside {p : Pc τ κ} (h : p.inside = true) (u : τ) : p.waits u = none := by
  cases p <;> simp_all [waits, inside]

theorem inside_of_posts {p : Pc τ κ} {u : τ} (h : p.posts = some u) : p.inside = true := by
  cases p <;> simp_all [posts, inside]

theorem inside_of_leaving {p : Pc τ κ} {c : κ} (h : p.leaving = some c) : p.inside = true := by
  cases p <;> simp_all [leaving, inside]

theorem leaving_eq {p : Pc τ κ} (h : p.inside = true) : p.leaving = p.queuedAt := by
  cases p <;> simp_all [leaving, inside, queuedAt]

theorem eq_sleep {p : Pc τ κ} {c : κ} (hq : p.queuedAt = some c) (hout : ¬ p.inside = true) : p = .sleep c := by
  cases p <;> simp_all [queuedAt, inside]

end Pc

end Monitor

structure Monitor (τ κ : Type*) where
  sleepers : Sleepers τ (Option τ)
  lockHolder : Option τ
  waitQueue : κ → List τ
  pc : τ → Monitor.Pc τ κ

namespace Monitor

variable {τ κ : Type*} [DecidableEq τ]

/-- Thread `t` goes on to `p`. -/
def goto (s : Monitor τ κ) (t : τ) (p : Pc τ κ) : Monitor τ κ := { s with pc := Function.update s.pc t p }

/-- A pass of thread `t` through the loop of `P`, and on to `p` when it returns. -/
def passP (s : Monitor τ κ) (t : τ) (l : Option τ) (p : Pc τ κ) : Monitor τ κ :=
  { s with sleepers := (s.sleepers.pass t l s.pc p).1, pc := (s.sleepers.pass t l s.pc p).2 }

section Statements

variable [DecidableEq κ]

/-- The next statement of thread `t`. `none` when the thread has none or is asleep, when an assertion fails, or
when a semaphore that has been deleted is used. -/
def run (s : Monitor τ κ) (t : τ) : Option (Monitor τ κ) :=
  if s.sleepers.asleep t then none
  else match s.pc t with
  | .idle | .body => none
  | .acquire again => some (s.passP t none (.hold again))
  | .hold again => some ({ s with lockHolder := some t }.goto t (if again then .delete else .body))
  | .delete => some (s.goto t .body)
  | .wait c =>
    if s.lockHolder ≠ some t ∨ t ∈ s.waitQueue c then none
    else some ({ s with
      sleepers := s.sleepers.fresh (some t) 0
      waitQueue := Function.update s.waitQueue c (s.waitQueue c ++ [t]) }.goto t (.release (some c)))
  | .broadcast c => some (s.goto t (if (s.waitQueue c).isEmpty then .body else .signal c true))
  | .signal c loop =>
    if s.lockHolder ≠ some t then none
    else match s.waitQueue c with
      | [] => some (s.goto t (.afterSignal c loop))
      | u :: q => some ({ s with waitQueue := Function.update s.waitQueue c q }.goto t (.post u c loop))
  | .post u c loop =>
    if (s.pc u).hasWaiter then
      some ({ s with sleepers := s.sleepers.V (some u) }.goto t (.afterSignal c loop))
    else none
  | .release c => if s.lockHolder ≠ some t then none else some ({ s with lockHolder := none }.goto t (.unlock c))
  | .unlock c => some ({ s with sleepers := s.sleepers.V none }.goto t (c.elim .idle .sleep))
  | .sleep _ => some (s.passP t (some t) (.acquire true))

def step (s : Monitor τ κ) : Event τ κ → Option (Monitor τ κ)
  | .acquire t => if s.pc t = .idle then some (s.goto t (.acquire false)) else none
  | .call t k => if s.pc t = .body then some (s.goto t (.ofCall k)) else none
  | .run t => s.run t

end Statements

def init : Monitor τ κ where
  sleepers := ⟨fun l => .mk0 (if l = none then 1 else 0), fun _ => false⟩
  lockHolder := none
  waitQueue _ := []
  pc _ := .idle

/-! ### What a statement does -/

section Runs

variable {s s' : Monitor τ κ} {t : τ}

variable [DecidableEq κ]

/-- What the next statement of thread `t` can be, and what it does. -/
inductive Ran (s : Monitor τ κ) (t : τ) : Monitor τ κ → Prop
  | blocked {l : Option τ} (hw : (s.pc t).waits t = some l) (hv : (s.sleepers.sem l).value = 0) :
      Ran s t { s with sleepers := (s.sleepers.P t l).1 }
  | enter {again : Bool} (hp : s.pc t = .acquire again) (hv : (s.sleepers.sem none).value ≠ 0) :
      Ran s t ({ s with sleepers := (s.sleepers.P t none).1 }.goto t (.hold again))
  | hold {again : Bool} (hp : s.pc t = .hold again) :
      Ran s t ({ s with lockHolder := some t }.goto t (if again then .delete else .body))
  | delete (hp : s.pc t = .delete) : Ran s t (s.goto t .body)
  | wait {c : κ} (hp : s.pc t = .wait c) : Ran s t ({ s with
      sleepers := s.sleepers.fresh (some t) 0
      waitQueue := Function.update s.waitQueue c (s.waitQueue c ++ [t]) }.goto t (.release (some c)))
  | broadcast {c : κ} (hp : s.pc t = .broadcast c) :
      Ran s t (s.goto t (if (s.waitQueue c).isEmpty then .body else .signal c true))
  | signalNone {c : κ} {loop : Bool} (hp : s.pc t = .signal c loop) (hq : s.waitQueue c = []) :
      Ran s t (s.goto t (.afterSignal c loop))
  | signal {c : κ} {loop : Bool} {u : τ} {q : List τ} (hp : s.pc t = .signal c loop) (hq : s.waitQueue c = u :: q) :
      Ran s t ({ s with waitQueue := Function.update s.waitQueue c q }.goto t (.post u c loop))
  | post {u : τ} {c : κ} {loop : Bool} (hp : s.pc t = .post u c loop) :
      Ran s t ({ s with sleepers := s.sleepers.V (some u) }.goto t (.afterSignal c loop))
  | release {c : Option κ} (hp : s.pc t = .release c) : Ran s t ({ s with lockHolder := none }.goto t (.unlock c))
  | unlock {c : Option κ} (hp : s.pc t = .unlock c) :
      Ran s t ({ s with sleepers := s.sleepers.V none }.goto t (c.elim .idle .sleep))
  | woken {c : κ} (hp : s.pc t = .sleep c) (hv : (s.sleepers.sem (some t)).value ≠ 0) :
      Ran s t ({ s with sleepers := (s.sleepers.P t (some t)).1 }.goto t (.acquire true))

theorem ran_of_run (h : s.run t = some s') : s.sleepers.asleep t = false ∧ Ran s t s' := by
  unfold run at h
  split at h
  · cases h
  rename_i ha
  refine ⟨Bool.eq_false_iff.mpr ha, ?_⟩
  split at h
  · cases h
  · cases h
  · rename_i again hp
    obtain rfl := Option.some.inj h
    by_cases hv : (s.sleepers.sem none).value = 0
    · rw [passP, Sleepers.pass_sleep hv]
      exact .blocked (by rw [hp]; rfl) hv
    · rw [passP, Sleepers.pass_take hv]
      exact .enter hp hv
  · rename_i again hp
    obtain rfl := Option.some.inj h
    exact .hold hp
  · rename_i hp
    obtain rfl := Option.some.inj h
    exact .delete hp
  · rename_i c hp
    split at h
    · cases h
    · obtain rfl := Option.some.inj h
      exact .wait hp
  · rename_i c hp
    obtain rfl := Option.some.inj h
    exact .broadcast hp
  · rename_i c loop hp
    split at h
    · cases h
    · split at h
      · rename_i hq
        obtain rfl := Option.some.inj h
        exact .signalNone hp hq
      · rename_i u q hq
        obtain rfl := Option.some.inj h
        exact .signal hp hq
  · rename_i u c loop hp
    split at h
    · obtain rfl := Option.some.inj h
      exact .post hp
    · cases h
  · rename_i c hp
    split at h
    · cases h
    · obtain rfl := Option.some.inj h
      exact .release hp
  · rename_i c hp
    obtain rfl := Option.some.inj h
    exact .unlock hp
  · rename_i c hp
    obtain rfl := Option.some.inj h
    by_cases hv : (s.sleepers.sem (some t)).value = 0
    · rw [passP, Sleepers.pass_sleep hv]
      exact .blocked (by rw [hp]; rfl) hv
    · rw [passP, Sleepers.pass_take hv]
      exact .woken hp hv

end Runs

/-! ### The invariant -/

theorem waits_update (pc : τ → Pc τ κ) (t : τ) (p : Pc τ κ) :
    (fun u => ((Function.update pc t p) u).waits u) = Function.update (fun u => (pc u).waits u) t (p.waits t) := by
  funext u
  obtain rfl | hut := eq_or_ne u t
  · rw [Function.update_self, Function.update_self]
  · rw [Function.update_of_ne hut, Function.update_of_ne hut]

structure Inv [Fintype τ] (s : Monitor τ κ) : Prop where
  lock : Locked (fun t => (s.pc t).inside = true) (s.sleepers.sem none).value
  holder : ∀ t, (s.pc t).holds = true → s.lockHolder = some t
  wellQueued : s.sleepers.WellQueued fun u => (s.pc u).waits u
  queue : ∀ c, ∀ u ∈ s.waitQueue c, (s.pc u).queuedAt = some c ∧ (s.sleepers.sem (some u)).value = 0
  nodup : ∀ c, (s.waitQueue c).Nodup
  last : ∀ t c, (s.pc t).leaving = some c → ∃ q, s.waitQueue c = q ++ [t]
  post : ∀ t u c b, s.pc t = .post u c b → s.pc u = .sleep c ∧ u ∉ s.waitQueue c ∧ (s.sleepers.sem (some u)).value = 0
  /-- No wake-up is lost. -/
  signalled : ∀ u c, s.pc u = .sleep c → u ∉ s.waitQueue c →
    (∃ t, (s.pc t).posts = some u) ∨ 0 < (s.sleepers.sem (some u)).value

variable [Fintype τ] {s s' : Monitor τ κ} {t : τ}

theorem inv_init : Inv (init : Monitor τ κ) where
  lock := .inl ⟨rfl, fun t => Bool.false_ne_true⟩
  holder t h := by cases h
  wellQueued := ⟨fun t l => by simp [init, Semaphore.mk0], fun l => List.nodup_nil, fun l h => absurd rfl h,
    fun t h => by cases h⟩
  queue c u h := by cases h
  nodup c := List.nodup_nil
  last t c h := by cases h
  post t u c b h := by cases h
  signalled u c h := by cases h

theorem Inv.unique (h : Inv s) (ht : (s.pc t).inside = true) {u : τ} (hu : (s.pc u).inside = true) : u = t :=
  h.lock.unique ht hu

/-- A step of the thread inside that leaves it inside. It is alone there, so only what it changes itself has to be
looked at. -/
theorem Inv.inner {p : Pc τ κ} (h : Inv s) (ht : (s.pc t).inside = true) (hpc : s'.pc = Function.update s.pc t p)
    (hp : p.inside = true) (hv : (s'.sleepers.sem none).value = (s.sleepers.sem none).value)
    (hholder : p.holds = true → s'.lockHolder = some t) (hwq : s'.sleepers.WellQueued fun u => (s.pc u).waits u)
    (hqueue : ∀ c, ∀ u ∈ s'.waitQueue c, (s'.pc u).queuedAt = some c ∧ (s'.sleepers.sem (some u)).value = 0)
    (hnodup : ∀ c, (s'.waitQueue c).Nodup) (hlast : ∀ c, p.leaving = some c → ∃ q, s'.waitQueue c = q ++ [t])
    (hpost : ∀ u c b, p = .post u c b →
      s'.pc u = .sleep c ∧ u ∉ s'.waitQueue c ∧ (s'.sleepers.sem (some u)).value = 0)
    (hsignalled : ∀ u c, s.pc u = .sleep c → u ∉ s'.waitQueue c →
      p.posts = some u ∨ 0 < (s'.sleepers.sem (some u)).value) : Inv s' := by
  have hself : s'.pc t = p := by rw [hpc, Function.update_self]
  have hother : ∀ u, u ≠ t → s'.pc u = s.pc u := fun u hu => by rw [hpc, Function.update_of_ne hu]
  have halone : ∀ u, (s'.pc u).inside = true → u = t := fun u hu =>
    h.lock.alone (f := fun _ p => Pc.inside p = true) ht (hpc ▸ hu)
  have hwaits : (fun u => (s'.pc u).waits u) = fun u => (s.pc u).waits u := by
    funext u
    obtain rfl | hu := eq_or_ne u t
    · rw [hself, Pc.waits_of_inside hp, Pc.waits_of_inside ht]
    · rw [hother u hu]
  refine ⟨?_, fun u hu => ?_, ?_, hqueue, hnodup, fun u c hu => ?_, fun u x c b hu => ?_, fun u c hu hq => ?_⟩
  · rw [hv, hpc]
    exact h.lock.move (f := fun _ p => Pc.inside p = true) (iff_of_true hp ht)
  · obtain rfl := halone u (Pc.inside_of_holds hu)
    exact hholder (hself ▸ hu)
  · rw [hwaits]
    exact hwq
  · obtain rfl := halone u (Pc.inside_of_leaving hu)
    exact hlast c (hself ▸ hu)
  · obtain rfl := halone u (by rw [hu]; rfl)
    exact hpost x c b (hself.symm.trans hu)
  · have hne : u ≠ t := by
      rintro rfl
      rw [hself] at hu
      rw [hu] at hp
      cases hp
    refine (hsignalled u c ((hother u hne).symm.trans hu) hq).imp_left fun hpost => ⟨t, ?_⟩
    rw [hself, hpost]

/-- A step inside that changes no queue and no semaphore. -/
theorem Inv.quiet {p : Pc τ κ} {holder : Option τ} (h : Inv s) (ht : (s.pc t).inside = true) (hp : p.inside = true)
    (hq : p.queuedAt = (s.pc t).queuedAt) (hposts : (s.pc t).posts = none) (hposts' : p.posts = none)
    (hholder : p.holds = true → holder = some t) : Inv ({ s with lockHolder := holder }.goto t p) := by
  refine h.inner ht rfl hp rfl hholder h.wellQueued (fun c u hu => ⟨?_, (h.queue c u hu).2⟩) h.nodup (fun c hc => ?_)
    (fun u c b hb => ?_) fun u c hu hn => ?_
  · have hu := (h.queue c u hu).1
    change ((Function.update s.pc t p) u).queuedAt = some c
    obtain rfl | hut := eq_or_ne u t
    · rwa [Function.update_self, hq]
    · rwa [Function.update_of_ne hut]
  · refine h.last t c ?_
    rwa [Pc.leaving_eq ht, ← hq, ← Pc.leaving_eq hp]
  · rw [hb] at hposts'
    cases hposts'
  · refine (h.signalled u c hu hn).imp_left fun ⟨x, hx⟩ => ?_
    obtain rfl := h.unique ht (Pc.inside_of_posts hx)
    rw [hposts] at hx
    cases hx

theorem Inv.notMem_of_queuedAt (h : Inv s) {u : τ} (hu : (s.pc u).queuedAt = none) (c : κ) : u ∉ s.waitQueue c := by
  intro hm
  rw [(h.queue c u hm).1] at hu
  cases hu

theorem Inv.eq_sleep (h : Inv s) (ht : (s.pc t).inside = true) {u : τ} {c : κ} (hu : u ∈ s.waitQueue c) (hne : u ≠ t) :
    s.pc u = .sleep c :=
  Pc.eq_sleep (h.queue c u hu).1 fun hin => hne (h.unique ht hin)

theorem Inv.post' (h : Inv s) {c : κ} {loop : Bool} {u : τ} (hp : s.pc t = .post u c loop) :
    Inv ({ s with sleepers := s.sleepers.V (some u) }.goto t (.afterSignal c loop)) := by
  have ht : (s.pc t).inside = true := by rw [hp]; rfl
  have hnot : ∀ c, t ∉ s.waitQueue c := h.notMem_of_queuedAt (by rw [hp]; rfl)
  obtain ⟨hsleep, hnu, hvu⟩ := h.post t u c loop hp
  have hvalue := fun x => Sleepers.value_V (s := s.sleepers) (l := some u) (some x)
  have hkeep : ∀ x, x ≠ u → ((s.sleepers.V (some u)).sem (some x)).value = (s.sleepers.sem (some x)).value := by
    intro x hx
    rw [hvalue, if_neg (by simpa using hx), Int.add_zero]
  have hafter : ∀ loop, (Pc.afterSignal c loop : Pc τ κ).inside = true ∧ (Pc.afterSignal c loop : Pc τ κ).leaving = none ∧
      (Pc.afterSignal c loop : Pc τ κ).posts = none := by
    intro loop
    cases loop <;> exact ⟨rfl, rfl, rfl⟩
  obtain ⟨hin, hleaving, hposts⟩ := hafter loop
  refine h.inner ht rfl hin ?_ (fun _ => h.holder t (by rw [hp]; rfl)) (h.wellQueued.V _) (fun c' x hx => ?_) h.nodup
    (fun c' hc => by rw [hleaving] at hc; cases hc) (fun x c' b hb => by rw [hb] at hposts; cases hposts)
    fun x c' hx hn => ?_
  · exact (Sleepers.value_V none).trans (by simp)
  · have hxt : x ≠ t := fun he => hnot c' (he ▸ hx)
    have hqx := h.queue c' x hx
    have hxu : x ≠ u := by
      rintro rfl
      rw [hsleep] at hqx
      obtain rfl : c = c' := Option.some.inj hqx.1
      exact hnu hx
    change ((Function.update s.pc t _) x).queuedAt = some c' ∧ ((s.sleepers.V (some u)).sem (some x)).value = 0
    rw [Function.update_of_ne hxt, hkeep x hxu]
    exact hqx
  · refine Or.inr ?_
    change 0 < ((s.sleepers.V (some u)).sem (some x)).value
    obtain rfl | hxu := eq_or_ne x u
    · rw [hvalue, if_pos rfl, hvu]
      exact Int.zero_lt_one
    · rw [hkeep x hxu]
      refine (h.signalled x c' hx hn).resolve_left fun ⟨y, hy⟩ => hxu ?_
      obtain rfl := h.unique ht (Pc.inside_of_posts hy)
      rw [hp] at hy
      exact (Option.some.inj hy).symm

/-- A step of a thread outside that changes no queue of a condition. The thread is in none of them, or leaves its place
in the code as it is. -/
theorem Inv.outer {p : Pc τ κ} {sleepers : Sleepers τ (Option τ)} (h : Inv s)
    (hlock : Locked (fun u => ((Function.update s.pc t p) u).inside = true) (sleepers.sem none).value)
    (hwq : sleepers.WellQueued fun u => ((Function.update s.pc t p) u).waits u)
    (hholds : p.holds = true → s.lockHolder = some t)
    (hvalue : ∀ u, u ≠ t → (sleepers.sem (some u)).value = (s.sleepers.sem (some u)).value)
    (hqueue : ∀ c, t ∈ s.waitQueue c → p.queuedAt = some c ∧ (sleepers.sem (some t)).value = 0)
    (hleaving : p.leaving = none) (hposts : p.posts = none) (hposts' : (s.pc t).posts = none)
    (hpost : ∀ u c b, s.pc u = .post t c b → p = .sleep c ∧ (sleepers.sem (some t)).value = 0)
    (hsleep : ∀ c, p = .sleep c → t ∉ s.waitQueue c →
      (∃ u, (s.pc u).posts = some t) ∨ 0 < (sleepers.sem (some t)).value) :
    Inv ({ s with sleepers := sleepers }.goto t p) := by
  have hself : (Function.update s.pc t p) t = p := Function.update_self t p s.pc
  have hother : ∀ u, u ≠ t → (Function.update s.pc t p) u = s.pc u := fun u hu => Function.update_of_ne hu p s.pc
  have hposting : ∀ u x, (s.pc u).posts = some x → ((Function.update s.pc t p) u).posts = some x := by
    intro u x hu
    obtain rfl | hut := eq_or_ne u t
    · rw [hposts'] at hu
      cases hu
    · rwa [hother u hut]
  refine ⟨hlock, fun u hu => ?_, hwq, fun c u hu => ?_, h.nodup, fun u c hu => ?_, fun u x c b hu => ?_,
    fun u c hu hn => ?_⟩
  · change ((Function.update s.pc t p) u).holds = true at hu
    obtain rfl | hut := eq_or_ne u t
    · exact hholds (hself ▸ hu)
    · exact h.holder u (hother u hut ▸ hu)
  · change ((Function.update s.pc t p) u).queuedAt = some c ∧ (sleepers.sem (some u)).value = 0
    obtain rfl | hut := eq_or_ne u t
    · rw [hself]
      exact hqueue c hu
    · rw [hother u hut, hvalue u hut]
      exact h.queue c u hu
  · change ((Function.update s.pc t p) u).leaving = some c at hu
    obtain rfl | hut := eq_or_ne u t
    · rw [hself, hleaving] at hu
      cases hu
    · exact h.last u c (hother u hut ▸ hu)
  · change (Function.update s.pc t p) u = .post x c b at hu
    change (Function.update s.pc t p) x = .sleep c ∧ x ∉ s.waitQueue c ∧ (sleepers.sem (some x)).value = 0
    have hut : u ≠ t := by
      rintro rfl
      rw [hself] at hu
      rw [hu] at hposts
      cases hposts
    rw [hother u hut] at hu
    obtain ⟨hx, hnx, hvx⟩ := h.post u x c b hu
    obtain rfl | hxt := eq_or_ne x t
    · obtain ⟨rfl, hv⟩ := hpost u c b hu
      exact ⟨hself, hnx, hv⟩
    · rw [hother x hxt, hvalue x hxt]
      exact ⟨hx, hnx, hvx⟩
  · change (Function.update s.pc t p) u = .sleep c at hu
    obtain rfl | hut := eq_or_ne u t
    · exact (hsleep c (hself ▸ hu) hn).imp_left fun ⟨x, hx⟩ => ⟨x, hposting x u hx⟩
    · rw [hother u hut] at hu
      refine (h.signalled u c hu hn).imp (fun ⟨x, hx⟩ => ⟨x, hposting x u hx⟩) fun hpos => ?_
      rwa [← hvalue u hut] at hpos

theorem Inv.not_posted (h : Inv s) (ht : ∀ c, s.pc t ≠ .sleep c) (u : τ) (c : κ) (b : Bool) : s.pc u ≠ .post t c b :=
  fun hu => ht c (h.post u t c b hu).1

theorem Inv.call_acquire (h : Inv s) (hp : s.pc t = .idle) : Inv (s.goto t (.acquire false)) := by
  have hwaits : (s.pc t).waits t = none := by rw [hp]; rfl
  have hnot : ∀ c, t ∉ s.waitQueue c := h.notMem_of_queuedAt (by rw [hp]; rfl)
  change Inv ({ s with sleepers := s.sleepers }.goto t (.acquire false))
  refine h.outer ?_ ?_ (fun hh => by cases hh) (fun _ _ => rfl) (fun c hc => absurd hc (hnot c))
    rfl rfl (by rw [hp]; rfl) (fun u c b hu => absurd hu (h.not_posted (by rw [hp]; simp) u c b)) fun c hc => by cases hc
  · exact h.lock.move (f := fun _ q => Pc.inside q = true) (by rw [hp]; rfl)
  · rw [waits_update]
    exact h.wellQueued.move hwaits _

theorem Inv.asleep (h : Inv s) {l : Option τ} (ha : s.sleepers.asleep t = false) (ht : (s.pc t).waits t = some l)
    (hv : (s.sleepers.sem l).value = 0) : Inv { s with sleepers := (s.sleepers.P t l).1 } := by
  have hvalue := Sleepers.value_sleep (t := t) hv
  refine ⟨?_, h.holder, h.wellQueued.sleep ht ha hv, fun c u hu => ?_, h.nodup, h.last, fun u x c b hu => ?_,
    fun u c hu hn => ?_⟩
  · change Locked _ ((s.sleepers.P t l).1.sem none).value
    rw [hvalue]
    exact h.lock
  · change _ ∧ ((s.sleepers.P t l).1.sem (some u)).value = 0
    rw [hvalue]
    exact h.queue c u hu
  · change _ ∧ _ ∧ ((s.sleepers.P t l).1.sem (some x)).value = 0
    rw [hvalue]
    exact h.post u x c b hu
  · change _ ∨ 0 < ((s.sleepers.P t l).1.sem (some u)).value
    rw [hvalue]
    exact h.signalled u c hu hn

/-- A pass of `P` that gets the lock. -/
theorem Inv.enter (h : Inv s) {again : Bool} (hp : s.pc t = .acquire again) (ha : s.sleepers.asleep t = false)
    (hv : (s.sleepers.sem none).value ≠ 0) :
    Inv ({ s with sleepers := (s.sleepers.P t none).1 }.goto t (.hold again)) := by
  have hvalue := Sleepers.value_P (t := t) hv
  have hnot : ∀ c, t ∉ s.waitQueue c := h.notMem_of_queuedAt (by rw [hp]; rfl)
  refine h.outer ?_ ?_ (fun hh => by cases hh) (fun u _ => ?_) (fun c hc => absurd hc (hnot c)) rfl rfl (by rw [hp]; rfl)
    (fun u c b hu => absurd hu (h.not_posted (by rw [hp]; simp) u c b)) fun c hc => by cases hc
  · rw [hvalue, if_pos rfl]
    exact h.lock.moveIn (f := fun _ q => Pc.inside q = true) hv rfl
  · rw [waits_update]
    exact h.wellQueued.take (by rw [hp]; rfl) ha hv _
  · rw [hvalue, if_neg (by simp), Int.sub_zero]

/-- A pass of `P` that has been signalled. -/
theorem Inv.woken (h : Inv s) {c : κ} (hp : s.pc t = .sleep c) (ha : s.sleepers.asleep t = false)
    (hv : (s.sleepers.sem (some t)).value ≠ 0) :
    Inv ({ s with sleepers := (s.sleepers.P t (some t)).1 }.goto t (.acquire true)) := by
  have hvalue := Sleepers.value_P (t := t) hv
  refine h.outer ?_ ?_ (fun hh => by cases hh) (fun u hu => ?_) (fun c hc => absurd (h.queue c t hc).2 hv) rfl rfl
    (by rw [hp]; rfl) (fun u c b hu => absurd (h.post u t c b hu).2.2 hv) fun c hc => by cases hc
  · rw [hvalue, if_neg (by simp), Int.sub_zero]
    exact h.lock.move (f := fun _ q => Pc.inside q = true) (by rw [hp]; rfl)
  · rw [waits_update]
    exact h.wellQueued.take (by rw [hp]; rfl) ha hv _
  · rw [hvalue, if_neg (by simpa using hu), Int.sub_zero]

theorem Inv.unlock (h : Inv s) {c : Option κ} (hp : s.pc t = .unlock c) :
    Inv ({ s with sleepers := s.sleepers.V none }.goto t (c.elim .idle .sleep)) := by
  have ht : (s.pc t).inside = true := by rw [hp]; rfl
  have hwaits : (s.pc t).waits t = none := by rw [hp]; rfl
  have hvalue := fun l => Sleepers.value_V (s := s.sleepers) (l := none) l
  have hsome : ∀ u, ((s.sleepers.V none).sem (some u)).value = (s.sleepers.sem (some u)).value := by
    intro u
    rw [hvalue, if_neg (by simp), Int.add_zero]
  have hafter : ∀ c : Option κ, (c.elim .idle .sleep : Pc τ κ).inside = false ∧
      (c.elim .idle .sleep : Pc τ κ).leaving = none ∧ (c.elim .idle .sleep : Pc τ κ).posts = none ∧
        (c.elim .idle .sleep : Pc τ κ).queuedAt = c ∧ (c.elim .idle .sleep : Pc τ κ).holds = false := by
    intro c
    cases c <;> exact ⟨rfl, rfl, rfl, rfl, rfl⟩
  obtain ⟨hout, hleaving, hposts, hqueued, hholds⟩ := hafter c
  refine h.outer ?_ ?_ (fun hh => by rw [hholds] at hh; cases hh) (fun u _ => hsome u) (fun c' hc => ?_) hleaving hposts
    (by rw [hp]; rfl) (fun u c b hu => absurd hu (h.not_posted (by rw [hp]; simp) u c b)) fun c' hc hn => ?_
  · rw [hvalue, if_pos rfl]
    exact h.lock.moveOut (f := fun _ q => Pc.inside q = true) ht (by rw [hout]; exact Bool.false_ne_true)
  · rw [waits_update]
    exact (h.wellQueued.V none).move hwaits _
  · have hq := h.queue c' t hc
    rw [hp] at hq
    rw [hqueued, hsome]
    exact hq
  · -- it is still in the queue
    have hc' : c = some c' := by
      rw [← hqueued, hc]
      rfl
    obtain ⟨q, hq⟩ := h.last t c' (by rw [hp]; exact hc')
    exact absurd (by rw [hq]; simp) hn

theorem Inv.call (h : Inv s) (hp : s.pc t = .body) (k : Call κ) : Inv (s.goto t (.ofCall k)) := by
  refine h.quiet (by rw [hp]; rfl) ?_ ?_ (by rw [hp]; rfl) ?_ fun _ => h.holder t (by rw [hp]; rfl)
  all_goals cases k <;> simp [hp, Pc.ofCall, Pc.inside, Pc.queuedAt, Pc.posts]

theorem Inv.all_waiting (h : Inv s) (hall : ∀ u, s.pc u ≠ .idle → s.sleepers.asleep u = true) (hidle : s.pc t ≠ .idle) :
    ∃ c, s.pc t = .sleep c ∧ t ∈ s.waitQueue c := by
  have hin : ∀ u, ¬ (s.pc u).inside = true := by
    intro u hu
    have ha := hall u fun he => by rw [he] at hu; cases hu
    exact h.wellQueued.waiting u ha (Pc.waits_of_inside hu u)
  have ha := hall t hidle
  cases hp : s.pc t with
  | acquire again =>
    -- somebody has the lock
    have hv := h.wellQueued.value_le (t := t) (l := none) (by rw [hp]; rfl) ha fun u hu => hall u fun he => by
      rw [he] at hu
      cases hu
    obtain ⟨u, hu⟩ := h.lock.exists_inside hv
    exact absurd hu (hin u)
  | sleep c =>
    refine ⟨c, rfl, ?_⟩
    by_contra hn
    have hv := h.wellQueued.value_le (t := t) (l := some t) (by rw [hp]; rfl) ha fun u hu => hall u fun he => by
      rw [he] at hu
      cases hu
    obtain ⟨u, hu⟩ | hpos := h.signalled t c hp hn
    · exact hin u (Pc.inside_of_posts hu)
    · omega
  | idle => exact absurd hp hidle
  | _ => exact absurd (by rw [hp]; rfl) (hin t)

variable [DecidableEq κ]

/-- `Wait`: a new semaphore at the end of the queue. -/
theorem Inv.wait (h : Inv s) {c : κ} (hp : s.pc t = .wait c) : Inv ({ s with
    sleepers := s.sleepers.fresh (some t) 0
    waitQueue := Function.update s.waitQueue c (s.waitQueue c ++ [t]) }.goto t (.release (some c))) := by
  have ht : (s.pc t).inside = true := by rw [hp]; rfl
  have hnot : ∀ c, t ∉ s.waitQueue c := h.notMem_of_queuedAt (by rw [hp]; rfl)
  have hfresh : ∀ u, u ≠ t → (s.sleepers.fresh (some t) 0).sem (some u) = s.sleepers.sem (some u) := fun u hu =>
    Function.update_of_ne (by simpa using hu) _ _
  have hzero : ((s.sleepers.fresh (some t) 0).sem (some t)).value = 0 := by
    simp [Sleepers.fresh, Semaphore.mk0]
  have hmem : ∀ c' u, u ∈ Function.update s.waitQueue c (s.waitQueue c ++ [t]) c' ↔
      u ∈ s.waitQueue c' ∨ u = t ∧ c' = c := by
    intro c' u
    obtain rfl | hc := eq_or_ne c' c
    · simp
    · simp [hc]
  refine h.inner ht rfl rfl rfl (fun _ => h.holder t (by rw [hp]; rfl)) ?_ (fun c' u hu => ?_) (fun c' => ?_)
    (fun c' hc => ⟨s.waitQueue c, ?_⟩) (fun u c b hb => by cases hb) fun u c' hu hn => ?_
  · refine h.wellQueued.fresh (fun u hu => ?_) 0
    cases hpu : s.pc u with
    | sleep c' =>
      rw [hpu] at hu
      obtain rfl : u = t := Option.some.inj (Option.some.inj hu)
      rw [hp] at hpu
      cases hpu
    | _ => simp [hpu, Pc.waits] at hu
  · change ((Function.update s.pc t _) u).queuedAt = some c' ∧ _
    obtain hu | ⟨rfl, rfl⟩ := (hmem c' u).mp hu
    · have hut : u ≠ t := fun he => hnot c' (he ▸ hu)
      rw [Function.update_of_ne hut]
      refine ⟨(h.queue c' u hu).1, ?_⟩
      change ((s.sleepers.fresh (some t) 0).sem (some u)).value = 0
      rw [hfresh u hut]
      exact (h.queue c' u hu).2
    · rw [Function.update_self]
      exact ⟨rfl, hzero⟩
  · change (Function.update s.waitQueue c (s.waitQueue c ++ [t]) c').Nodup
    obtain rfl | hc := eq_or_ne c' c
    · rw [Function.update_self]
      exact List.nodup_append.mpr ⟨h.nodup c', List.nodup_singleton t, fun a ha b hb hab =>
        hnot c' (List.mem_singleton.mp hb ▸ hab ▸ ha)⟩
    · rw [Function.update_of_ne hc]
      exact h.nodup c'
  · obtain rfl : c = c' := Option.some.inj hc
    exact Function.update_self c _ s.waitQueue
  · have hn' : u ∉ s.waitQueue c' := fun hm => hn ((hmem c' u).mpr (Or.inl hm))
    have hut : u ≠ t := by
      rintro rfl
      rw [hp] at hu
      cases hu
    refine Or.inr ?_
    change 0 < ((s.sleepers.fresh (some t) 0).sem (some u)).value
    rw [hfresh u hut]
    refine (h.signalled u c' hu hn').resolve_left fun hposted => ?_
    obtain ⟨x, hx⟩ := hposted
    obtain rfl := h.unique ht (Pc.inside_of_posts hx)
    rw [hp] at hx
    cases hx

/-- `Signal` takes the first thread out of the queue. -/
theorem Inv.signal (h : Inv s) {c : κ} {loop : Bool} (hp : s.pc t = .signal c loop) {u : τ} {q : List τ}
    (hq : s.waitQueue c = u :: q) :
    Inv ({ s with waitQueue := Function.update s.waitQueue c q }.goto t (.post u c loop)) := by
  have ht : (s.pc t).inside = true := by rw [hp]; rfl
  have hnot : ∀ c, t ∉ s.waitQueue c := h.notMem_of_queuedAt (by rw [hp]; rfl)
  have hu : u ∈ s.waitQueue c := by rw [hq]; exact List.mem_cons_self
  have hut : u ≠ t := fun he => hnot c (he ▸ hu)
  have hnodup := h.nodup c
  rw [hq, List.nodup_cons] at hnodup
  have hsub : ∀ c' x, x ∈ Function.update s.waitQueue c q c' → x ∈ s.waitQueue c' := by
    intro c' x hx
    obtain rfl | hc := eq_or_ne c' c
    · rw [Function.update_self] at hx
      rw [hq]
      exact List.mem_cons_of_mem u hx
    · rwa [Function.update_of_ne hc] at hx
  refine h.inner ht rfl rfl rfl (fun _ => h.holder t (by rw [hp]; rfl)) h.wellQueued (fun c' x hx => ?_) (fun c' => ?_)
    (fun c' hc => by cases hc) (fun x c' b hb => ?_) fun x c' hx hn => ?_
  · have hxt : x ≠ t := fun he => hnot c' (he ▸ hsub c' x hx)
    change ((Function.update s.pc t _) x).queuedAt = some c' ∧ _
    rw [Function.update_of_ne hxt]
    exact h.queue c' x (hsub c' x hx)
  · change (Function.update s.waitQueue c q c').Nodup
    obtain rfl | hc := eq_or_ne c' c
    · rw [Function.update_self]
      exact hnodup.2
    · rw [Function.update_of_ne hc]
      exact h.nodup c'
  · obtain ⟨rfl, rfl, rfl⟩ := Pc.post.inj hb
    refine ⟨?_, ?_, (h.queue c u hu).2⟩
    · change Function.update s.pc t _ u = _
      rw [Function.update_of_ne hut]
      exact h.eq_sleep ht hu hut
    · change u ∉ Function.update s.waitQueue c q c
      rw [Function.update_self]
      exact hnodup.1
  · obtain rfl | hxu := eq_or_ne x u
    · exact Or.inl rfl
    · have hn' : x ∉ s.waitQueue c' := by
        intro hm
        refine hn (?_ : x ∈ Function.update s.waitQueue c q c')
        obtain rfl | hc := eq_or_ne c' c
        · rw [Function.update_self]
          rw [hq] at hm
          exact (List.mem_cons.mp hm).resolve_left hxu
        · rwa [Function.update_of_ne hc]
      refine Or.inr ((h.signalled x c' hx hn').resolve_left fun ⟨y, hy⟩ => ?_)
      obtain rfl := h.unique ht (Pc.inside_of_posts hy)
      rw [hp] at hy
      cases hy

/-! ### Every step -/

theorem Inv.ran (h : Inv s) (ha : s.sleepers.asleep t = false) (hr : Ran s t s') : Inv s' := by
  cases hr with
  | blocked hw hv => exact h.asleep ha hw hv
  | enter hp hv => exact h.enter hp ha hv
  | @hold again hp =>
    refine h.quiet (by rw [hp]; rfl) ?_ ?_ (by rw [hp]; rfl) ?_ fun _ => rfl
    all_goals cases again <;> simp [hp, Pc.inside, Pc.queuedAt, Pc.posts]
  | delete hp =>
    exact h.quiet (by rw [hp]; rfl) rfl (by rw [hp]; rfl) (by rw [hp]; rfl) rfl fun _ => h.holder t (by rw [hp]; rfl)
  | wait hp => exact h.wait hp
  | @broadcast c hp =>
    refine h.quiet (by rw [hp]; rfl) ?_ ?_ (by rw [hp]; rfl) ?_ fun _ => h.holder t (by rw [hp]; rfl)
    all_goals split <;> simp [hp, Pc.inside, Pc.queuedAt, Pc.posts]
  | @signalNone c loop hp hq =>
    refine h.quiet (by rw [hp]; rfl) ?_ ?_ (by rw [hp]; rfl) ?_ fun _ => h.holder t (by rw [hp]; rfl)
    all_goals cases loop <;> simp [hp, Pc.afterSignal, Pc.inside, Pc.queuedAt, Pc.posts]
  | signal hp hq => exact h.signal hp hq
  | post hp => exact h.post' hp
  | release hp => exact h.quiet (by rw [hp]; rfl) rfl (by rw [hp]; rfl) (by rw [hp]; rfl) rfl fun hh => by cases hh
  | unlock hp => exact h.unlock hp
  | woken hp hv => exact h.woken hp ha hv

theorem Inv.step (h : Inv s) {e : Event τ κ} (hs : s.step e = some s') : Inv s' := by
  cases e with
  | acquire t =>
    obtain ⟨hp, he⟩ := Option.ite_none_right_eq_some.mp hs
    obtain rfl := Option.some.inj he
    exact h.call_acquire hp
  | call t k =>
    obtain ⟨hp, he⟩ := Option.ite_none_right_eq_some.mp hs
    obtain rfl := Option.some.inj he
    exact h.call hp k
  | run t =>
    obtain ⟨ha, hr⟩ := ran_of_run hs
    exact h.ran ha hr

theorem Inv.run_isSome (h : Inv s) (ha : s.sleepers.asleep t = false) (hidle : s.pc t ≠ .idle) (hbody : s.pc t ≠ .body) :
    (s.run t).isSome = true := by
  unfold run
  rw [if_neg (by rw [ha]; exact Bool.false_ne_true)]
  cases hp : s.pc t with
  | idle => exact absurd hp hidle
  | body => exact absurd hp hbody
  | wait c =>
    have hholder := h.holder t (by rw [hp]; rfl)
    have hnot := h.notMem_of_queuedAt (u := t) (by rw [hp]; rfl) c
    simp [hholder, hnot]
  | signal c loop =>
    have hholder := h.holder t (by rw [hp]; rfl)
    simp only [hholder, ne_eq, not_true_eq_false, if_false]
    split <;> rfl
  | post u c loop =>
    have hu := (h.post t u c loop hp).1
    simp [hu, Pc.hasWaiter]
  | release c =>
    have hholder := h.holder t (by rw [hp]; rfl)
    simp [hholder]
  | _ => rfl

end Monitor

end Nachos
