/-
# Semaphores

`threads/synch.cc`. Each stretch of `Semaphore::P` and `Semaphore::V` with
interrupts off is one step: a pass through the loop of `P`, which either puts
the thread to sleep or takes the value, and the whole of `V`, which wakes the
first sleeper and increments the value. A woken thread comes back to the head
of the loop and tests the value again.

`Sleepers` are the semaphores of a system with the threads that sleep in them.
Where the threads are is told by `waits`: the semaphore at whose `P` a thread
is. A queue holds exactly the threads that sleep there, and when one is not
empty as many threads as its semaphore has values are awake before their `P`
(`WellQueued`): no wake-up is lost. Each operation keeps this.

`SemRun` is one semaphore with the calls of any number of threads, and with its
value in an `int`. In every run in which no `V` finds the largest `int` the value
is what the completed calls have left of the initial one, and it is covered by
woken threads when there are sleepers (`semaphore_safe`). A `V` that finds it
makes the value negative (`V_overflows`).
-/
import NachosNet.Basis.Int32
import NachosNet.Basis.Run
import Mathlib.Data.Fintype.Card
import Mathlib.Data.Int.Basic
import Mathlib.Logic.Function.Basic

namespace Nachos

open Basis

/-- A semaphore; `τ` are the threads. `P` and `V` count in the integers, and `wrap` is
what the `int` of the source holds of the value. Where users choose the value (`SemRun`,
`SemUsers`) it is wrapped in every step. The kernel's own semaphores start at 0 or 1, and
leave an `int` only after 2 ^ 31 calls of `V` that no `P` has answered. -/
structure Semaphore (τ : Type*) where
  value : ℤ
  queue : List τ
  deriving DecidableEq

namespace Semaphore

variable {τ : Type*}

/-- `Semaphore(debugName, initialValue)`. -/
def mk0 (initialValue : ℤ) : Semaphore τ := ⟨initialValue, []⟩

/-- A pass of thread `t` through the loop of `P`: it sleeps (`false`), or it
takes the value and returns (`true`). -/
def P (s : Semaphore τ) (t : τ) : Semaphore τ × Bool :=
  if s.value = 0 then ({ s with queue := s.queue ++ [t] }, false)
  else ({ s with value := s.value - 1 }, true)

/-- `V`, with the thread it makes ready. -/
def V (s : Semaphore τ) : Semaphore τ × Option τ :=
  ({ value := s.value + 1, queue := s.queue.tail }, s.queue.head?)

def wrap (s : Semaphore τ) : Semaphore τ := { s with value := toInt s.value }

theorem wrap_eq {s : Semaphore τ} (h : 0 ≤ s.value) (h' : s.value ≤ maxInt) : s.wrap = s := by
  have hmin : minInt ≤ 0 := by decide
  rw [wrap, toInt_eq (hmin.trans h) h']

theorem P_zero {s : Semaphore τ} (h : s.value = 0) (t : τ) :
    s.P t = ({ s with queue := s.queue ++ [t] }, false) := if_pos h

theorem P_ne {s : Semaphore τ} (h : s.value ≠ 0) (t : τ) : s.P t = ({ s with value := s.value - 1 }, true) :=
  if_neg h

end Semaphore

/-- Semaphores `ℓ` and the threads `τ` asleep in one of them. -/
structure Sleepers (τ ℓ : Type*) where
  sem : ℓ → Semaphore τ
  asleep : τ → Bool

namespace Sleepers

variable {τ ℓ : Type*} [DecidableEq ℓ]

section Operations

variable [DecidableEq τ]

/-- A pass through the loop of `P` on semaphore `l`. -/
def P (s : Sleepers τ ℓ) (t : τ) (l : ℓ) : Sleepers τ ℓ × Bool :=
  (⟨Function.update s.sem l ((s.sem l).P t).1,
    if ((s.sem l).P t).2 then s.asleep else Function.update s.asleep t true⟩, ((s.sem l).P t).2)

/-- `V` on semaphore `l`. -/
def V (s : Sleepers τ ℓ) (l : ℓ) : Sleepers τ ℓ :=
  ⟨Function.update s.sem l (s.sem l).V.1,
    (s.sem l).V.2.elim s.asleep fun u => Function.update s.asleep u false⟩

/-- A thread at `P` goes on to `p`, unless it sleeps: the semaphores, and where the threads are. -/
def pass {π : Type*} (s : Sleepers τ ℓ) (t : τ) (l : ℓ) (pc : τ → π) (p : π) : Sleepers τ ℓ × (τ → π) :=
  ((s.P t l).1, if (s.P t l).2 then Function.update pc t p else pc)

end Operations

/-- A new semaphore at `l`. -/
def fresh (s : Sleepers τ ℓ) (l : ℓ) (initialValue : ℤ) : Sleepers τ ℓ :=
  { s with sem := Function.update s.sem l (.mk0 initialValue) }

/-- The threads that are not asleep. -/
def awake [Fintype τ] (s : Sleepers τ ℓ) : Finset τ := Finset.univ.filter fun u => s.asleep u = false

/-- The threads awake at the `P` of `l`. -/
def ready [Fintype τ] (asleep : τ → Bool) (waits : τ → Option ℓ) (l : ℓ) : Finset τ :=
  Finset.univ.filter fun u => asleep u = false ∧ waits u = some l

structure WellQueued [Fintype τ] (waits : τ → Option ℓ) (s : Sleepers τ ℓ) : Prop where
  queue : ∀ t l, t ∈ (s.sem l).queue ↔ s.asleep t = true ∧ waits t = some l
  nodup : ∀ l, (s.sem l).queue.Nodup
  woken : ∀ l, (s.sem l).queue ≠ [] → (s.sem l).value ≤ (ready s.asleep waits l).card
  waiting : ∀ t, s.asleep t = true → waits t ≠ none

section Steps

variable [DecidableEq τ] {s : Sleepers τ ℓ} {t : τ} {l : ℓ}

theorem P_sleep (hv : (s.sem l).value = 0) : s.P t l =
    (⟨Function.update s.sem l ⟨(s.sem l).value, (s.sem l).queue ++ [t]⟩,
      Function.update s.asleep t true⟩, false) := by
  unfold P
  rw [Semaphore.P_zero hv]
  rfl

theorem P_take (hv : (s.sem l).value ≠ 0) : s.P t l =
    (⟨Function.update s.sem l ⟨(s.sem l).value - 1, (s.sem l).queue⟩, s.asleep⟩, true) := by
  unfold P
  rw [Semaphore.P_ne hv]
  rfl

theorem pass_sleep {π : Type*} (hv : (s.sem l).value = 0) (pc : τ → π) (p : π) :
    s.pass t l pc p = ((s.P t l).1, pc) := by
  unfold pass
  rw [P_sleep hv]
  rfl

theorem pass_take {π : Type*} (hv : (s.sem l).value ≠ 0) (pc : τ → π) (p : π) :
    s.pass t l pc p = ((s.P t l).1, Function.update pc t p) := by
  unfold pass
  rw [P_take hv]
  rfl

theorem V_nil (hq : (s.sem l).queue = []) :
    s.V l = ⟨Function.update s.sem l ⟨(s.sem l).value + 1, []⟩, s.asleep⟩ := by
  simp [V, Semaphore.V, hq]

theorem V_cons {x : τ} {q : List τ} (hq : (s.sem l).queue = x :: q) : s.V l =
    ⟨Function.update s.sem l ⟨(s.sem l).value + 1, q⟩, Function.update s.asleep x false⟩ := by
  simp [V, Semaphore.V, hq]

theorem value_V (k : ℓ) : ((s.V l).sem k).value = (s.sem k).value + if k = l then 1 else 0 := by
  by_cases hkl : k = l
  · subst hkl
    simp [V, Semaphore.V]
  · simp [V, hkl]

theorem value_P (hv : (s.sem l).value ≠ 0) (k : ℓ) :
    ((s.P t l).1.sem k).value = (s.sem k).value - if k = l then 1 else 0 := by
  rw [P_take hv]
  by_cases hkl : k = l
  · subst hkl
    simp
  · simp [hkl]

theorem value_sleep (hv : (s.sem l).value = 0) (k : ℓ) : ((s.P t l).1.sem k).value = (s.sem k).value := by
  rw [P_sleep hv]
  by_cases hkl : k = l
  · subst hkl
    simp
  · simp [hkl]

end Steps

variable [Fintype τ] {waits : τ → Option ℓ} {s : Sleepers τ ℓ} {t : τ} {l : ℓ}

theorem mem_ready {asleep : τ → Bool} {u : τ} :
    u ∈ ready asleep waits l ↔ asleep u = false ∧ waits u = some l := by
  simp [ready]

theorem card_ready_mono {a b : τ → Bool} {w w' : τ → Option ℓ}
    (h : ∀ u, a u = false → w u = some l → b u = false ∧ w' u = some l) :
    (ready a w l).card ≤ (ready b w' l).card := by
  refine Finset.card_le_card fun u hu => ?_
  obtain ⟨h1, h2⟩ := mem_ready.mp hu
  exact mem_ready.mpr (h u h1 h2)

theorem WellQueued.fresh (h : WellQueued waits s) (hw : ∀ u, waits u ≠ some l) (v : ℤ) :
    WellQueued waits (s.fresh l v) := by
  unfold Sleepers.fresh Semaphore.mk0
  refine ⟨fun u k => ?_, fun k => ?_, fun k hk => ?_, h.waiting⟩
  · by_cases hkl : k = l
    · subst hkl
      simp [hw u]
    · simp [hkl, h.queue u k]
  · by_cases hkl : k = l
    · subst hkl
      simp
    · simpa [hkl] using h.nodup k
  · have hkl : k ≠ l := by
      rintro rfl
      simp at hk
    simp only [Function.update_of_ne hkl] at hk ⊢
    exact h.woken k hk

theorem WellQueued.value_le (h : WellQueued waits s) (ht : waits t = some l) (ha : s.asleep t = true)
    (hall : ∀ u, waits u = some l → s.asleep u = true) : (s.sem l).value ≤ 0 := by
  have hmem : t ∈ (s.sem l).queue := (h.queue t l).mpr ⟨ha, ht⟩
  have hw := h.woken l (List.ne_nil_of_mem hmem)
  have hempty : ready s.asleep waits l = ∅ := by
    refine Finset.eq_empty_of_forall_notMem fun u hu => ?_
    obtain ⟨h1, h2⟩ := mem_ready.mp hu
    simp [hall u h2] at h1
  simpa [hempty] using hw

variable [DecidableEq τ]

theorem WellQueued.sleep (h : WellQueued waits s) (ht : waits t = some l) (ha : s.asleep t = false)
    (hv : (s.sem l).value = 0) : WellQueued waits (s.P t l).1 := by
  rw [P_sleep hv]
  have hnot : t ∉ (s.sem l).queue := fun hm => by simp [((h.queue t l).mp hm).1] at ha
  refine ⟨fun u k => ?_, fun k => ?_, fun k hk => ?_, fun u hu => ?_⟩
  · have hu := h.queue u k
    by_cases hkl : k = l <;> by_cases hut : u = t
    · subst hkl hut
      simp [ht]
    · subst hkl
      simpa [hut] using hu
    · subst hut
      simp only [ht, Option.some.injEq, Ne.symm hkl, and_false] at hu
      simp [hkl, ht, Ne.symm hkl, hu]
    · simpa [hkl, hut] using hu
  · by_cases hkl : k = l
    · subst hkl
      simp only [Function.update_self]
      refine List.nodup_append.mpr ⟨h.nodup k, List.nodup_singleton _, fun a ha b hb hab => ?_⟩
      rw [List.mem_singleton.mp hb] at hab
      exact hnot (hab ▸ ha)
    · simpa [hkl] using h.nodup k
  · by_cases hkl : k = l
    · subst hkl
      simp only [Function.update_self, hv]
      exact Int.natCast_nonneg _
    · simp only [Function.update_of_ne hkl] at hk ⊢
      refine (h.woken k hk).trans (Int.ofNat_le.mpr (card_ready_mono fun u h1 h2 => ?_))
      -- the thread was not counted at another semaphore
      have hut : u ≠ t := by
        rintro rfl
        rw [ht] at h2
        exact hkl (Option.some.inj h2).symm
      exact ⟨by simpa [hut] using h1, h2⟩
  · by_cases hut : u = t
    · subst hut
      simp [ht]
    · exact h.waiting u (by simpa [hut] using hu)

/-- The thread takes the value and goes on to `w`. -/
theorem WellQueued.take (h : WellQueued waits s) (ht : waits t = some l) (ha : s.asleep t = false)
    (hv : (s.sem l).value ≠ 0) (w : Option ℓ) : WellQueued (Function.update waits t w) (s.P t l).1 := by
  have hval := value_P (t := t) hv
  rw [P_take hv] at hval ⊢
  have hq : ∀ k, (Function.update s.sem l ⟨(s.sem l).value - 1, (s.sem l).queue⟩ k).queue = (s.sem k).queue := by
    intro k
    by_cases hkl : k = l
    · subst hkl
      simp
    · simp [hkl]
  refine ⟨fun u k => ?_, fun k => ?_, fun k hk => ?_, fun u hu => ?_⟩
  · rw [hq, h.queue u k]
    by_cases hut : u = t
    · subst hut
      simp [ha]
    · simp [hut]
  · rw [hq]
    exact h.nodup k
  · rw [hq] at hk
    rw [hval]
    have hw := h.woken k hk
    have hsub : ((ready s.asleep waits k).erase t).card ≤ (ready s.asleep (Function.update waits t w) k).card := by
      refine Finset.card_le_card fun u hu => ?_
      obtain ⟨hut, hu⟩ := Finset.mem_erase.mp hu
      exact mem_ready.mpr (by simpa [hut] using mem_ready.mp hu)
    by_cases hkl : k = l
    · subst hkl
      have hone := Finset.card_erase_add_one (mem_ready.mpr ⟨ha, ht⟩ : t ∈ ready s.asleep waits k)
      simp only [if_true]
      omega
    · have hnot : t ∉ ready s.asleep waits k := by
        intro hm
        rw [(mem_ready.mp hm).2] at ht
        exact hkl (Option.some.inj ht)
      rw [Finset.erase_eq_of_notMem hnot] at hsub
      simp only [hkl, if_false]
      omega
  · have hut : u ≠ t := by
      rintro rfl
      simp [ha] at hu
    simpa [hut] using h.waiting u hu

theorem WellQueued.V_nil (h : WellQueued waits s) (hq : (s.sem l).queue = []) : WellQueued waits (s.V l) := by
  have hval := value_V (s := s) (l := l)
  rw [Sleepers.V_nil hq] at hval ⊢
  have hqs : ∀ k, (Function.update s.sem l ⟨(s.sem l).value + 1, []⟩ k).queue = (s.sem k).queue := by
    intro k
    by_cases hkl : k = l
    · subst hkl
      simp [hq]
    · simp [hkl]
  refine ⟨fun u k => ?_, fun k => ?_, fun k hk => ?_, h.waiting⟩
  · rw [hqs]
    exact h.queue u k
  · rw [hqs]
    exact h.nodup k
  · have hkl : k ≠ l := by
      rintro rfl
      simp at hk
    rw [hqs] at hk
    rw [hval, if_neg hkl, Int.add_zero]
    exact h.woken k hk

/-- A thread that wakes up is one more that is ready. -/
theorem card_ready_wake {asleep : τ → Bool} {x : τ} (hx : asleep x = true) (k : ℓ) :
    (ready asleep waits k).card + (if waits x = some k then 1 else 0) ≤
      (ready (Function.update asleep x false) waits k).card := by
  have hkeep : ready asleep waits k ⊆ ready (Function.update asleep x false) waits k := by
    intro u hu
    obtain ⟨ha, hw⟩ := mem_ready.mp hu
    have hux : u ≠ x := by
      rintro rfl
      simp [hx] at ha
    exact mem_ready.mpr ⟨by simpa [hux] using ha, hw⟩
  split_ifs with hk
  · have hnot : x ∉ ready asleep waits k := fun hm => by simp [(mem_ready.mp hm).1] at hx
    calc (ready asleep waits k).card + 1 = (insert x (ready asleep waits k)).card :=
          (Finset.card_insert_of_notMem hnot).symm
      _ ≤ _ := Finset.card_le_card (Finset.insert_subset (mem_ready.mpr ⟨by simp, hk⟩) hkeep)
  · exact Finset.card_le_card hkeep

/-- `V` wakes the first thread of the queue. -/
theorem WellQueued.V_cons (h : WellQueued waits s) {x : τ} {q : List τ} (hq : (s.sem l).queue = x :: q) :
    WellQueued waits (s.V l) := by
  have hval := value_V (s := s) (l := l)
  rw [Sleepers.V_cons hq] at hval ⊢
  have hx : s.asleep x = true ∧ waits x = some l := (h.queue x l).mp (by simp [hq])
  have hnd := h.nodup l
  rw [hq, List.nodup_cons] at hnd
  refine ⟨fun u k => ?_, fun k => ?_, fun k hk => ?_, fun u hu => ?_⟩
  · have hu := h.queue u k
    by_cases hkl : k = l <;> by_cases hux : u = x
    · subst hkl hux
      simp [hnd.1]
    · subst hkl
      simpa [hq, hux] using hu
    · subst hux
      simp only [hx.2, Option.some.injEq, Ne.symm hkl, and_false] at hu
      simp [hkl, hu]
    · simpa [hkl, hux] using hu
  · by_cases hkl : k = l
    · subst hkl
      simpa using hnd.2
    · simpa [hkl] using h.nodup k
  · have hcard : (ready s.asleep waits k).card + (if waits x = some k then 1 else 0) ≤ _ := card_ready_wake hx.1 k
    have hqk : (s.sem k).queue ≠ [] := by
      by_cases hkl : k = l
      · subst hkl
        simp [hq]
      · simpa [hkl] using hk
    have hw := h.woken k hqk
    rw [hval]
    simp only [hx.2, Option.some.injEq, eq_comm (a := l)] at hcard
    dsimp only
    split_ifs at hcard ⊢ <;> omega
  · have hux : u ≠ x := by
      rintro rfl
      simp at hu
    exact h.waiting u (by simpa [hux] using hu)

theorem WellQueued.V (h : WellQueued waits s) (l : ℓ) : WellQueued waits (s.V l) := by
  cases hq : (s.sem l).queue with
  | nil => exact h.V_nil hq
  | cons x q => exact h.V_cons hq

/-- A thread that is at no `P` goes on. -/
theorem WellQueued.move (h : WellQueued waits s) (ht : waits t = none) (w : Option ℓ) :
    WellQueued (Function.update waits t w) s := by
  have ha : s.asleep t = false := by
    by_contra hne
    exact h.waiting t (by simpa using hne) ht
  refine ⟨fun u k => ?_, h.nodup, fun k hk => ?_, fun u hu => ?_⟩
  · rw [h.queue u k]
    by_cases hut : u = t
    · subst hut
      simp [ha]
    · simp [hut]
  · refine (h.woken k hk).trans (Int.ofNat_le.mpr (card_ready_mono fun u h1 h2 => ?_))
    have hut : u ≠ t := by
      rintro rfl
      simp [ht] at h2
    exact ⟨h1, by simpa [hut] using h2⟩
  · have hut : u ≠ t := by
      rintro rfl
      simp [ha] at hu
    simpa [hut] using h.waiting u hu

theorem card_awake_sleep (ha : s.asleep t = false) (hv : (s.sem l).value = 0) :
    (s.P t l).1.awake.card + 1 = s.awake.card := by
  have heq : (s.P t l).1.awake = s.awake.erase t := by
    rw [P_sleep hv]
    ext u
    by_cases hu : u = t
    · subst hu
      simp [awake]
    · simp [awake, hu]
  rw [heq]
  exact Finset.card_erase_add_one (by simp [awake, ha])

theorem awake_take (hv : (s.sem l).value ≠ 0) : (s.P t l).1.awake = s.awake := by
  rw [P_take hv]
  rfl

theorem card_awake_V (l : ℓ) : (s.V l).awake.card ≤ s.awake.card + 1 := by
  cases hq : (s.sem l).queue with
  | nil =>
    rw [V_nil hq]
    exact Nat.le_succ _
  | cons x q =>
    rw [V_cons hq]
    refine (Finset.card_le_card fun u hu => ?_).trans (Finset.card_insert_le x s.awake)
    by_cases hux : u = x
    · simp [hux]
    · simpa [awake, hux] using hu

end Sleepers

/-- A semaphore of value `v` that starts at 1 and stands around a region:
free, or taken by the one thread inside. -/
def Locked {τ : Type*} (inside : τ → Prop) (v : ℤ) : Prop :=
  (v = 1 ∧ ∀ t, ¬ inside t) ∨ (v = 0 ∧ ∃ t, ∀ u, inside u ↔ u = t)

namespace Locked

variable {τ : Type*} {inside inside' : τ → Prop} {v : ℤ} {t u : τ}

theorem enter (h : Locked inside v) (hv : v ≠ 0) (ht : ∀ u, inside' u ↔ u = t ∨ inside u) :
    Locked inside' (v - 1) := by
  rcases h with ⟨h1, hno⟩ | ⟨h0, -⟩
  · exact .inr ⟨by omega, t, fun u => by simp [ht, hno]⟩
  · exact absurd h0 hv

theorem unique (h : Locked inside v) (ht : inside t) (hu : inside u) : u = t := by
  rcases h with ⟨-, hno⟩ | ⟨-, x, hx⟩
  · exact absurd ht (hno t)
  · rw [(hx t).mp ht, (hx u).mp hu]

theorem leave (h : Locked inside v) (ht : inside t) (hin : ∀ u, inside' u ↔ u ≠ t ∧ inside u) :
    Locked inside' (v + 1) := by
  rcases h with ⟨-, hno⟩ | ⟨h0, x, hx⟩
  · exact absurd ht (hno t)
  · refine .inl ⟨by omega, fun u hu => ?_⟩
    have hux := (hin u).mp hu
    exact hux.1 (((hx u).mp hux.2).trans ((hx t).mp ht).symm)

theorem congr (h : Locked inside v) (hin : ∀ u, inside' u ↔ inside u) : Locked inside' v := by
  have heq : inside' = inside := funext fun u => propext (hin u)
  exact heq ▸ h

theorem value_eq_zero (h : Locked inside v) (ht : inside t) : v = 0 := by
  rcases h with ⟨-, hno⟩ | ⟨h0, -⟩
  · exact absurd ht (hno t)
  · exact h0

theorem exists_inside (h : Locked inside v) (hv : v ≤ 0) : ∃ t, inside t := by
  rcases h with ⟨h1, -⟩ | ⟨-, t, ht⟩
  · omega
  · exact ⟨t, (ht t).mpr rfl⟩

theorem outside (h : Locked inside v) (hv : v ≠ 0) (u : τ) : ¬ inside u := fun hu => hv (h.value_eq_zero hu)

/-! One thread moves, and where the threads are decides who is inside. -/

section Moves

variable [DecidableEq τ] {π : Type*} {f : τ → π → Prop} {pc : τ → π} {p : π}

theorem moveIn (h : Locked (fun u => f u (pc u)) v) (hv : v ≠ 0) (hp : f t p) :
    Locked (fun u => f u (Function.update pc t p u)) (v - 1) := by
  refine h.enter hv fun u => (?_ : _ ↔ u = t ∨ _)
  rcases eq_or_ne u t with rfl | hu
  · simp [hp]
  · simp [hu]

theorem moveOut (h : Locked (fun u => f u (pc u)) v) (ht : f t (pc t)) (hp : ¬ f t p) :
    Locked (fun u => f u (Function.update pc t p u)) (v + 1) := by
  refine h.leave (t := t) ht fun u => ?_
  rcases eq_or_ne u t with rfl | hu
  · simp [hp]
  · simp [hu]

/-- The thread inside is the only one there, wherever it goes. -/
theorem alone (h : Locked (fun u => f u (pc u)) v) (ht : f t (pc t)) (hu : f u (Function.update pc t p u)) : u = t := by
  by_contra hne
  rw [Function.update_of_ne hne] at hu
  exact hne (h.unique ht hu)

theorem move (h : Locked (fun u => f u (pc u)) v) (hp : f t p ↔ f t (pc t)) :
    Locked (fun u => f u (Function.update pc t p u)) v := by
  refine h.congr fun u => ?_
  rcases eq_or_ne u t with rfl | hu
  · simp [hp]
  · simp [hu]

end Moves

end Locked

/-! ### The runs of one semaphore -/

/-- A semaphore, the threads that `V` has taken off its queue and that have not
yet resumed in `P`, and how many calls have been completed. -/
structure SemRun (τ : Type*) where
  sem : Semaphore τ
  woken : Finset τ
  completedP : ℕ
  completedV : ℕ

namespace SemRun

variable {τ : Type*} [DecidableEq τ]

inductive Event (τ : Type*)
  /-- Thread `t` calls `P` and makes the first pass through its loop. -/
  | P (t : τ)
  /-- Thread `t` comes back from `Sleep` and makes another pass. -/
  | resume (t : τ)
  /-- A thread or an interrupt handler calls `V`. -/
  | V

/-- A pass of thread `t` through the loop of `P`. -/
def pass (s : SemRun τ) (t : τ) : SemRun τ :=
  { s with sem := (s.sem.P t).1.wrap, completedP := s.completedP + if (s.sem.P t).2 then 1 else 0 }

def step (s : SemRun τ) : Event τ → Option (SemRun τ)
  | .P t => if t ∈ s.sem.queue ∨ t ∈ s.woken then none else some (s.pass t)
  | .resume t => if t ∈ s.woken then some ({ s with woken := s.woken.erase t }.pass t) else none
  | .V => some ⟨s.sem.V.1.wrap, s.sem.V.2.elim s.woken fun u => insert u s.woken, s.completedP, s.completedV + 1⟩

def init (initialValue : ℤ) : SemRun τ := ⟨.mk0 initialValue, ∅, 0, 0⟩

/-- `V` does not find the largest `int`. -/
def Fits (s : SemRun τ) : Event τ → Prop
  | .V => s.sem.value < maxInt
  | .P _ | .resume _ => True

instance (s : SemRun τ) : (e : Event τ) → Decidable (s.Fits e)
  | .V => inferInstanceAs (Decidable (s.sem.value < maxInt))
  | .P _ | .resume _ => isTrue trivial

structure Inv (initialValue : ℤ) (s : SemRun τ) : Prop where
  nonneg : 0 ≤ s.sem.value
  le_max : s.sem.value ≤ maxInt
  value : s.sem.value = initialValue + s.completedV - s.completedP
  nodup : s.sem.queue.Nodup
  apart : ∀ t ∈ s.woken, t ∉ s.sem.queue
  woken : s.sem.queue ≠ [] → s.sem.value ≤ s.woken.card

variable {initialValue : ℤ} {s s' : SemRun τ}

omit [DecidableEq τ] in
/-- The pass of a thread that finds 0. -/
theorem pass_zero (hv : s.sem.value = 0) (t : τ) :
    s.pass t = { s with sem := ⟨0, s.sem.queue ++ [t]⟩ } := by
  unfold pass
  rw [Semaphore.P_zero hv]
  simp only [Semaphore.wrap, hv]
  rfl

omit [DecidableEq τ] in
/-- The pass of a thread that finds more than 0. -/
theorem pass_pos (hpos : 0 < s.sem.value) (hmax : s.sem.value ≤ maxInt) (t : τ) :
    s.pass t = { s with sem := ⟨s.sem.value - 1, s.sem.queue⟩, completedP := s.completedP + 1 } := by
  have hlow : 0 ≤ s.sem.value - 1 := by omega
  have hhigh : s.sem.value - 1 ≤ maxInt := by omega
  unfold pass
  rw [Semaphore.P_ne hpos.ne', Semaphore.wrap_eq hlow hhigh]
  rfl

/-- A pass of a thread that is not in the queue. It may be one of the woken
threads that cover the value. -/
theorem inv_pass {t : τ} (hq : t ∉ s.sem.queue) (h : Inv initialValue s) :
    Inv initialValue ({ s with woken := s.woken.erase t }.pass t) := by
  have hcard : s.woken.card - 1 ≤ (s.woken.erase t).card := Finset.pred_card_le_card_erase
  have hvalue := h.value
  have hle := h.le_max
  rcases h.nonneg.eq_or_lt with hv | hv
  · rw [pass_zero (s := { s with woken := s.woken.erase t }) hv.symm]
    constructor
    · exact le_rfl
    · exact hv ▸ hle
    · exact hv.trans hvalue
    · rw [List.nodup_append]
      refine ⟨h.nodup, List.nodup_singleton t, fun a ha b hb hab => hq ?_⟩
      rw [List.mem_singleton.mp hb] at hab
      exact hab ▸ ha
    · intro u hu
      obtain ⟨hut, hu⟩ := Finset.mem_erase.mp hu
      simp [hut, h.apart u hu]
    · intro _
      exact Int.natCast_nonneg _
  · rw [pass_pos (s := { s with woken := s.woken.erase t }) hv hle]
    constructor
    · show 0 ≤ s.sem.value - 1
      omega
    · show s.sem.value - 1 ≤ maxInt
      omega
    · show s.sem.value - 1 = initialValue + s.completedV - (s.completedP + 1 : ℕ)
      omega
    · exact h.nodup
    · exact fun u hu => h.apart u (Finset.mem_of_mem_erase hu)
    · intro hne
      have hwoken := h.woken hne
      show s.sem.value - 1 ≤ ((s.woken.erase t).card : ℤ)
      omega

/-- `V` below the largest `int`. -/
theorem inv_V (h : Inv initialValue s) (hfit : s.sem.value < maxInt) :
    Inv initialValue ⟨s.sem.V.1.wrap, s.sem.V.2.elim s.woken fun u => insert u s.woken, s.completedP,
      s.completedV + 1⟩ := by
  have hvalue := h.value
  have hpos := h.nonneg
  have hwrap : s.sem.V.1.wrap = s.sem.V.1 := by
    apply Semaphore.wrap_eq
    · show 0 ≤ s.sem.value + 1
      omega
    · show s.sem.value + 1 ≤ maxInt
      omega
  rw [hwrap]
  constructor
  · show 0 ≤ s.sem.value + 1
    omega
  · show s.sem.value + 1 ≤ maxInt
    omega
  · show s.sem.value + 1 = initialValue + (s.completedV + 1 : ℕ) - s.completedP
    omega
  · exact h.nodup.tail
  · intro t ht htq
    cases hq : s.sem.queue with
    | nil => simp [Semaphore.V, hq] at htq
    | cons x q =>
      have hnd := h.nodup
      rw [hq, List.nodup_cons] at hnd
      simp only [Semaphore.V, hq, List.tail_cons, List.head?_cons, Option.elim_some, Finset.mem_insert] at ht htq
      rcases ht with rfl | ht
      · exact hnd.1 htq
      · exact h.apart t ht (by simp [hq, htq])
  · intro hne
    cases hq : s.sem.queue with
    | nil => simp [Semaphore.V, hq] at hne
    | cons x q =>
      -- the thread that was at the head of the queue covers the new value
      have hx : x ∉ s.woken := fun hx => h.apart x hx (by simp [hq])
      have := h.woken (by simp [hq])
      simp only [Semaphore.V, hq, List.head?_cons, Option.elim_some, Finset.card_insert_of_notMem hx]
      omega

theorem inv_step {e : Event τ} (h : Inv initialValue s) (hfit : s.Fits e) (hs : s.step e = some s') :
    Inv initialValue s' := by
  cases e with
  | P t =>
    simp only [step] at hs
    split at hs
    · cases hs
    · rename_i hno
      rw [not_or] at hno
      obtain rfl := Option.some.inj hs
      have := inv_pass hno.1 h
      rwa [Finset.erase_eq_of_notMem hno.2] at this
  | resume t =>
    simp only [step] at hs
    split at hs
    · rename_i ht
      obtain rfl := Option.some.inj hs
      exact inv_pass (h.apart t ht) h
    · cases hs
  | V =>
    obtain rfl := Option.some.inj hs
    exact inv_V h hfit

/-- In every run in which no `V` finds the largest `int`, the value is not negative and
is the initial value with the completed calls counted, no thread is twice in the queue,
and when there are sleepers at least as many threads have been woken and not resumed as
the value says. -/
theorem semaphore_safe (initialValue : ℤ) (h0 : 0 ≤ initialValue) (hmax : initialValue ≤ maxInt)
    (es : List (Event τ)) (s : SemRun τ) (h : exec step (init initialValue) es = some s)
    (hfit : Along step Fits (init initialValue) es) :
    0 ≤ s.sem.value ∧ s.sem.value = initialValue + s.completedV - s.completedP ∧ s.sem.queue.Nodup ∧
      (∀ t ∈ s.woken, t ∉ s.sem.queue) ∧ (s.sem.queue ≠ [] → s.sem.value ≤ s.woken.card) := by
  have hinit : Inv initialValue (init initialValue : SemRun τ) :=
    ⟨h0, hmax, by simp [init, Semaphore.mk0], by simp [init, Semaphore.mk0], by simp [init],
      by simp [init, Semaphore.mk0]⟩
  have hinv : Inv initialValue s := exec_induction_along (P := fun _ s => Inv initialValue s) hinit
    (fun _ _ _ _ hi hf hs => inv_step hi hf hs) es s hfit h
  exact ⟨hinv.nonneg, hinv.value, hinv.nodup, hinv.apart, hinv.woken⟩

/-- Two threads sleep, one is woken, and a third one takes the value before it resumes. -/
theorem semaphore_safe_barging : ∃ s : SemRun (Fin 3),
    exec step (init 0) [.P 0, .P 1, .V, .P 2, .resume 0] = some s ∧ s.sem.queue = [1, 0] ∧
      s.sem.queue.Nodup ∧ s.sem.value = 0 + s.completedV - s.completedP := by
  refine ⟨_, rfl, by decide, ?_⟩
  obtain ⟨-, hv, hn, -⟩ := semaphore_safe 0 (le_refl _) (by decide) [.P (0 : Fin 3), .P 1, .V, .P 2, .resume 0] _ rfl
    (by decide)
  exact ⟨hn, hv⟩

/-- One `V` on a semaphore that starts at the largest `int`. -/
theorem V_overflows : ∃ s : SemRun Unit, exec step (init maxInt) [.V] = some s ∧ s.sem.value = minInt ∧
    s.sem.value < 0 ∧ s.sem.value ≠ maxInt + s.completedV - s.completedP :=
  ⟨_, rfl, by decide, by decide, by decide⟩

end SemRun

end Nachos
