/-
# Components of a system

A system of components that do not interfere: each event is one of a component (`label`) or
internal, and the other components are after it what they were. If every component can take its
own events one after the other, the system can take them as they are interleaved, and each
component is then where it would be alone (`exec_components`); and if what the system does of a
component the component could do alone, every run of the system is a run of each (`exec_projects`).

Key definition: `eventsOf`.
-/
import NachosNet.Basis.Run
import Mathlib.Logic.Function.Basic

namespace Basis

variable {σ ε ι β α : Type*} [DecidableEq ι] (step : σ → ε → Option σ) (label : σ → ε → Option (ι × α))

/-- The events of component `i` in the run of `es` from `s`. -/
def eventsOf (i : ι) : σ → List ε → List α
  | _, [] => []
  | s, e :: es =>
    let rest := (step s e).elim [] fun s' => eventsOf i s' es
    match label s e with
    | some (j, a) => if j = i then a :: rest else rest
    | none => rest

variable {step label} {i j : ι} {a : α} {s s' : σ} {e : ε} {es : List ε}

theorem eventsOf_own (hl : label s e = some (i, a)) (hs : step s e = some s') :
    eventsOf step label i s (e :: es) = a :: eventsOf step label i s' es := by
  simp only [eventsOf, hl, hs, Option.elim_some, if_true]

theorem eventsOf_other (hl : label s e = some (j, a)) (hne : j ≠ i) (hs : step s e = some s') :
    eventsOf step label i s (e :: es) = eventsOf step label i s' es := by
  simp only [eventsOf, hl, hs, Option.elim_some, if_neg hne]

theorem eventsOf_internal (hl : label s e = none) (hs : step s e = some s') :
    eventsOf step label i s (e :: es) = eventsOf step label i s' es := by
  simp only [eventsOf, hl, hs, Option.elim_some]

theorem eventsOf_head (hl : label s e = some (i, a)) :
    ∃ rest, eventsOf step label i s (e :: es) = a :: rest := by
  refine ⟨(step s e).elim [] fun s' => eventsOf step label i s' es, ?_⟩
  simp only [eventsOf, hl, if_true]

/-- Where each event of a component is possible in the system and changes nothing for the others, and internal events
are always possible, a run of the system takes each component through its own events. -/
theorem exec_components {astep : ι → β → α → Option β} {C : ι → β → α → Prop} {R : σ → (ι → β) → Prop}
    (hown : ∀ s as e i a b, R s as → label s e = some (i, a) → C i (as i) a → astep i (as i) a = some b →
      ∃ s', step s e = some s' ∧ R s' (Function.update as i b))
    (hinternal : ∀ s as e, R s as → label s e = none → ∃ s', step s e = some s' ∧ R s' as) :
    ∀ es s as bs, R s as → (∀ i, Along (astep i) (C i) (as i) (eventsOf step label i s es)) →
      (∀ i, exec (astep i) (as i) (eventsOf step label i s es) = some (bs i)) →
      ∃ s', exec step s es = some s' ∧ R s' bs
  | [], s, as, bs, hR, _, hrun => by
    have hbs : bs = as := funext fun i => (Option.some.inj (hrun i)).symm
    exact ⟨s, rfl, hbs ▸ hR⟩
  | e :: es, s, as, bs, hR, hC, hrun => by
    cases hl : label s e with
    | none =>
      obtain ⟨t, ht, hRt⟩ := hinternal s as e hR hl
      obtain ⟨s', hs', hR'⟩ := exec_components hown hinternal es t as bs hRt
        (fun i => eventsOf_internal hl ht ▸ hC i) (fun i => eventsOf_internal hl ht ▸ hrun i)
      exact ⟨s', by rw [exec_cons, ht]; exact hs', hR'⟩
    | some p =>
      obtain ⟨i, a⟩ := p
      -- the component takes its event, which is its first
      have hhead : ∃ rest, eventsOf step label i s (e :: es) = a :: rest := eventsOf_head hl
      obtain ⟨rest, hrest⟩ := hhead
      have hCi := hC i
      have hruni := hrun i
      rw [hrest] at hCi hruni
      obtain ⟨b, hb, -⟩ := Option.bind_eq_some_iff.mp hruni
      obtain ⟨t, ht, hRt⟩ := hown s as e i a b hR hl hCi.1 hb
      have hnext : ∀ j, Along (astep j) (C j) (Function.update as i b j) (eventsOf step label j t es) ∧
          exec (astep j) (Function.update as i b j) (eventsOf step label j t es) = some (bs j) := by
        intro j
        by_cases hj : j = i
        · subst hj
          rw [eventsOf_own hl ht] at hrest
          obtain ⟨-, rfl⟩ := List.cons.inj hrest
          rw [exec_cons, hb] at hruni
          rw [Function.update_self]
          exact ⟨hCi.2 b hb, hruni⟩
        · rw [Function.update_of_ne hj, ← eventsOf_other hl (Ne.symm hj) ht]
          exact ⟨hC j, hrun j⟩
      obtain ⟨s', hs', hR'⟩ := exec_components hown hinternal es t _ bs hRt (fun j => (hnext j).1) fun j => (hnext j).2
      exact ⟨s', by rw [exec_cons, ht]; exact hs', hR'⟩

/-- Where each event of the system is one that its component can take alone and changes nothing for the others, a run of
the system is a run of each component. -/
theorem exec_projects {astep : ι → β → α → Option β} {C : σ → ε → Prop} {R : σ → (ι → β) → Prop}
    (hown : ∀ s as e s' i a, R s as → C s e → label s e = some (i, a) → step s e = some s' →
      ∃ b, astep i (as i) a = some b ∧ R s' (Function.update as i b))
    (hinternal : ∀ s as e s', R s as → C s e → label s e = none → step s e = some s' → R s' as) :
    ∀ es s as s', R s as → Along step C s es → exec step s es = some s' →
      ∃ bs, (∀ i, exec (astep i) (as i) (eventsOf step label i s es) = some (bs i)) ∧ R s' bs
  | [], s, as, s', hR, _, hrun => ⟨as, fun _ => rfl, Option.some.inj hrun ▸ hR⟩
  | e :: es, s, as, s', hR, hC, hrun => by
    obtain ⟨t, ht, hrun⟩ := Option.bind_eq_some_iff.mp hrun
    cases hl : label s e with
    | none =>
      obtain ⟨bs, hbs, hR'⟩ := exec_projects hown hinternal es t as s' (hinternal s as e t hR hC.1 hl ht) (hC.2 t ht) hrun
      exact ⟨bs, fun i => eventsOf_internal hl ht ▸ hbs i, hR'⟩
    | some p =>
      obtain ⟨i, a⟩ := p
      obtain ⟨b, hb, hRt⟩ := hown s as e t i a hR hC.1 hl ht
      obtain ⟨bs, hbs, hR'⟩ := exec_projects hown hinternal es t _ s' hRt (hC.2 t ht) hrun
      refine ⟨bs, fun j => ?_, hR'⟩
      have hj := hbs j
      by_cases hji : j = i
      · subst hji
        rw [Function.update_self] at hj
        rw [eventsOf_own hl ht, exec_cons, hb]
        exact hj
      · rw [Function.update_of_ne hji] at hj
        rw [eventsOf_other hl (Ne.symm hji) ht]
        exact hj

end Basis
