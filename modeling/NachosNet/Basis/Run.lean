/-
# Runs of a step function

A system is a partial step function on states and events: `step s e` is the
state after `e`, or `none` when `e` cannot happen in `s`. `exec` follows a
list of events, `Along C` says that every step of a run meets the condition
`C` in the state before it, and the two induction rules turn what one step
preserves into what holds after every run. The invariant may speak of the
events so far, so that a statement about a whole history is one induction.

Key definitions: `exec`, `Along`, `Since`.
Key theorems: `exec_induction`, `exec_induction_along`, `exec_total`, `exec_simulates`, `exec_refines`,
`exec_drain`, `exec_unless`.
-/
import Mathlib.Data.List.Induction

namespace Basis

variable {σ ε : Type*} (step : σ → ε → Option σ)

/-- The state after the events `es` from `s`, if each of them can happen. -/
def exec : σ → List ε → Option σ
  | s, [] => some s
  | s, e :: es => (step s e).bind fun s' => exec s' es

/-- Every step of the run of `es` from `s` meets `C` in the state before it. -/
def Along (C : σ → ε → Prop) : σ → List ε → Prop
  | _, [] => True
  | s, e :: es => C s e ∧ ∀ s', step s e = some s' → Along C s' es

@[simp] theorem exec_nil (s : σ) : exec step s [] = some s := rfl

@[simp] theorem exec_cons (s : σ) (e : ε) (es : List ε) :
    exec step s (e :: es) = (step s e).bind fun s' => exec step s' es := rfl

theorem exec_append : ∀ (es fs : List ε) (s : σ),
    exec step s (es ++ fs) = (exec step s es).bind fun s' => exec step s' fs
  | [], _, _ => rfl
  | e :: es, fs, s => by
    simp only [List.cons_append, exec_cons, Option.bind_assoc]
    exact congrArg _ (funext fun s' => exec_append es fs s')

theorem exec_concat {es : List ε} {e : ε} {s s' : σ} (h : exec step s (es ++ [e]) = some s') :
    ∃ t, exec step s es = some t ∧ step t e = some s' := by
  rw [exec_append, Option.bind_eq_some_iff] at h
  obtain ⟨t, ht, h⟩ := h
  refine ⟨t, ht, ?_⟩
  simpa using h

theorem along_append (C : σ → ε → Prop) : ∀ (es fs : List ε) (s : σ),
    Along step C s (es ++ fs) ↔
      Along step C s es ∧ ∀ t, exec step s es = some t → Along step C t fs
  | [], _, _ => by simp [Along]
  | e :: es, fs, s => by
    have ih := along_append C es fs
    simp only [List.cons_append, Along, exec_cons, Option.bind_eq_some_iff]
    constructor
    · rintro ⟨hc, h⟩
      exact ⟨⟨hc, fun s' hs' => ((ih s').mp (h s' hs')).1⟩,
        fun t ⟨s', hs', ht⟩ => ((ih s').mp (h s' hs')).2 t ht⟩
    · rintro ⟨⟨hc, h1⟩, h2⟩
      exact ⟨hc, fun s' hs' => (ih s').mpr ⟨h1 s' hs', fun t ht => h2 t ⟨s', hs', ht⟩⟩⟩

instance decidableAlong (C : σ → ε → Prop) [∀ s e, Decidable (C s e)] :
    ∀ (s : σ) (es : List ε), Decidable (Along step C s es)
  | _, [] => isTrue trivial
  | s, e :: es =>
    match h : step s e with
    | none => decidable_of_iff (C s e) (by simp [Along, h])
    | some s' =>
      have := decidableAlong C s' es
      decidable_of_iff (C s e ∧ Along step C s' es) (by simp [Along, h])

variable {step}

/-- What holds at the start and is kept by every step that meets `C` holds
after every run along `C`. -/
theorem exec_induction_along {C : σ → ε → Prop} {s₀ : σ} {P : List ε → σ → Prop} (h0 : P [] s₀)
    (hs : ∀ es e s s', P es s → C s e → step s e = some s' → P (es ++ [e]) s') :
    ∀ es s, Along step C s₀ es → exec step s₀ es = some s → P es s := by
  intro es
  induction es using List.reverseRecOn with
  | nil =>
    intro s _ h
    obtain rfl : s₀ = s := by simpa using h
    exact h0
  | append_singleton es e ih =>
    intro s hC h
    obtain ⟨hC1, hC2⟩ := (along_append step C es [e] s₀).mp hC
    obtain ⟨t, ht, hte⟩ := exec_concat step h
    exact hs es e t s (ih t hC1 ht) (hC2 t ht).1 hte

theorem exec_total {C : σ → ε → Prop} {I : σ → Prop} (hs : ∀ s e, I s → C s e → ∃ s', step s e = some s' ∧ I s') :
    ∀ es s, I s → Along step C s es → ∃ s', exec step s es = some s' ∧ I s'
  | [], s, hI, _ => ⟨s, rfl, hI⟩
  | e :: es, s, hI, hC => by
    obtain ⟨t, ht, hIt⟩ := hs s e hI hC.1
    obtain ⟨s', hrun, hI'⟩ := exec_total hs es t hIt (hC.2 t ht)
    exact ⟨s', by rw [exec_cons, ht]; exact hrun, hI'⟩

theorem along_congr {H C D : σ → ε → Prop} {I : σ → Prop} (hiff : ∀ s e, I s → H s e → (C s e ↔ D s e))
    (hkeep : ∀ s e s', I s → H s e → D s e → step s e = some s' → I s') :
    ∀ es s, I s → Along step H s es → (Along step C s es ↔ Along step D s es)
  | [], _, _, _ => Iff.rfl
  | e :: es, s, hI, hH => by
    rw [Along, Along, hiff s e hI hH.1]
    refine and_congr_right fun hD => forall_congr' fun s' => forall_congr' fun hs => ?_
    exact along_congr hiff hkeep es s' (hkeep s e s' hI hH.1 hD hs) (hH.2 s' hs)

theorem exec_simulates {β : Type*} {valid : ε → Prop} {R : σ → β → Prop} {f : β → ε → β}
    (hs : ∀ s a e, R s a → valid e → ∃ s', step s e = some s' ∧ R s' (f a e)) :
    ∀ es s a, R s a → (∀ e ∈ es, valid e) → ∃ s', exec step s es = some s' ∧ R s' (es.foldl f a)
  | [], s, _, hR, _ => ⟨s, rfl, hR⟩
  | e :: es, s, a, hR, hv => by
    obtain ⟨t, ht, hRt⟩ := hs s a e hR (hv e List.mem_cons_self)
    obtain ⟨s', hrun, hR'⟩ := exec_simulates hs es t (f a e) hRt fun e he => hv e (List.mem_cons_of_mem _ he)
    exact ⟨s', by rw [exec_cons, ht]; exact hrun, hR'⟩

theorem exec_refines {β : Type*} {astep : β → ε → Option β} {R : σ → β → Prop}
    (hs : ∀ s a e a', R s a → astep a e = some a' → ∃ s', step s e = some s' ∧ R s' a') :
    ∀ es s a a', R s a → exec astep a es = some a' → ∃ s', exec step s es = some s' ∧ R s' a'
  | [], s, a, a', hR, h => ⟨s, rfl, Option.some.inj h ▸ hR⟩
  | e :: es, s, a, a', hR, h => by
    rw [exec_cons, Option.bind_eq_some_iff] at h
    obtain ⟨b, hb, h⟩ := h
    obtain ⟨t, ht, hRt⟩ := hs s a e b hR hb
    obtain ⟨s', hrun, hR'⟩ := exec_refines hs es t b a' hRt h
    exact ⟨s', by rw [exec_cons, ht]; exact hrun, hR'⟩

theorem exec_induction {s₀ : σ} {P : List ε → σ → Prop} (h0 : P [] s₀)
    (hs : ∀ es e s s', P es s → step s e = some s' → P (es ++ [e]) s') :
    ∀ es s, exec step s₀ es = some s → P es s := by
  intro es
  induction es using List.reverseRecOn with
  | nil =>
    intro s h
    obtain rfl : s₀ = s := by simpa using h
    exact h0
  | append_singleton es e ih =>
    intro s h
    obtain ⟨t, ht, hte⟩ := exec_concat step h
    exact hs es e t s (ih t ht) hte

/-- A run to a state of `Q`, along `C` and with events of `A` only, when a
step towards it is possible everywhere else. -/
theorem exec_drain {C : σ → ε → Prop} {A : ε → Prop} {I Q : σ → Prop} (μ : σ → ℕ)
    (hp : ∀ s, I s → ¬ Q s → ∃ e s', A e ∧ C s e ∧ step s e = some s' ∧ I s' ∧ μ s' < μ s) :
    ∀ s, I s → ∃ es s', (∀ e ∈ es, A e) ∧ Along step C s es ∧ exec step s es = some s' ∧ Q s' := by
  intro s
  induction hn : μ s using Nat.strongRecOn generalizing s with
  | ind n ih =>
    intro hI
    by_cases hQ : Q s
    · exact ⟨[], s, by simp, trivial, rfl, hQ⟩
    · obtain ⟨e, s', hA, hC, hs, hI', hlt⟩ := hp s hI hQ
      obtain ⟨es, t, hAs, hCs, hrun, hQt⟩ := ih (μ s') (hn ▸ hlt) s' rfl hI'
      refine ⟨e :: es, t, List.forall_mem_cons.mpr ⟨hA, hAs⟩, ⟨hC, fun u hu => ?_⟩, ?_, hQt⟩
      · rw [hs] at hu
        rwa [← Option.some.inj hu]
      · rw [exec_cons, hs]
        exact hrun

/-- Where every step from a state of `Q` leads to one of `Q` or of `R`, a run from `Q` stays in `Q` or comes to `R`. -/
theorem exec_unless {C : σ → ε → Prop} {Q R : σ → Prop}
    (hs : ∀ s e s', Q s → C s e → step s e = some s' → Q s' ∨ R s') :
    ∀ es s s', Q s → Along step C s es → exec step s es = some s' →
      Q s' ∨ ∃ before after t, es = before ++ after ∧ exec step s before = some t ∧ R t
  | [], _, _, hQ, _, h => Or.inl (Option.some.inj h ▸ hQ)
  | e :: es, s, s', hQ, hC, h => by
    rw [exec_cons, Option.bind_eq_some_iff] at h
    obtain ⟨t, ht, h⟩ := h
    rcases hs s e t hQ hC.1 ht with hQt | hRt
    · rcases exec_unless hs es t s' hQt (hC.2 t ht) h with hQ' | ⟨before, after, u, rfl, hrun, hRu⟩
      · exact Or.inl hQ'
      · exact Or.inr ⟨e :: before, after, u, rfl, by rw [exec_cons, ht]; exact hrun, hRu⟩
    · exact Or.inr ⟨[e], es, t, rfl, by rw [exec_cons, ht]; rfl, hRt⟩

/-! ### Histories -/

/-- An event with `P` has happened, and none with `Q` after it. -/
def Since (P Q : ε → Prop) (es : List ε) : Prop :=
  ∃ before e after, es = before ++ e :: after ∧ P e ∧ ∀ f ∈ after, ¬ Q f

theorem not_since_nil (P Q : ε → Prop) : ¬ Since P Q [] := by
  rintro ⟨before, e, after, h, -⟩
  simp at h

/-- After one more event: it is the one, or it changes nothing. -/
theorem since_concat {P Q : ε → Prop} {es : List ε} {e : ε} : Since P Q (es ++ [e]) ↔ P e ∨ ¬ Q e ∧ Since P Q es := by
  constructor
  · rintro ⟨before, f, after, h, hP, hQ⟩
    rcases List.eq_nil_or_concat after with rfl | ⟨after, g, rfl⟩
    · obtain ⟨-, hlast⟩ := List.append_inj' h rfl
      exact .inl (List.singleton_inj.mp hlast ▸ hP)
    · rw [List.concat_eq_append] at h hQ
      rw [← List.cons_append, ← List.append_assoc] at h
      obtain ⟨rfl, hlast⟩ := List.append_inj' h rfl
      obtain rfl := List.singleton_inj.mp hlast
      exact .inr ⟨hQ e (by simp), before, f, after, rfl, hP, fun g hg => hQ g (List.mem_append_left _ hg)⟩
  · rintro (hP | ⟨hQ, before, f, after, rfl, hP, hafter⟩)
    · exact ⟨es, e, [], rfl, hP, by simp⟩
    · refine ⟨before, f, after ++ [e], by simp, hP, fun g hg => ?_⟩
      rcases List.mem_append.mp hg with hg | hg
      · exact hafter g hg
      · exact List.mem_singleton.mp hg ▸ hQ

end Basis
