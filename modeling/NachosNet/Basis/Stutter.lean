/-
# Runs that an abstract system follows

A system refines an abstract one along `abs` when each of its steps is a step of the
abstract one or changes nothing there. `lin s e` is the abstract event of a step, and
`trace` lists those of a run: the abstract system takes them one after the other
(`exec_trace`).

Key definitions: `trace`, `Follows`.
-/
import NachosNet.Basis.Run

namespace Basis

variable {σ ε β α : Type*} (step : σ → ε → Option σ) (lin : σ → ε → Option α)

/-- The abstract events of a run. -/
def trace : σ → List ε → List α
  | _, [] => []
  | s, e :: es => (lin s e).toList ++ (step s e).elim [] fun s' => trace s' es

variable {step lin} {astep : β → α → Option β} {abs : σ → β}

/-- A step from `a` to `b` with the abstract event, if it has one. -/
def Follows (astep : β → α → Option β) (a : β) (e : Option α) (b : β) : Prop :=
  e.elim (some a) (astep a) = some b

theorem exec_toList (a : β) (e : Option α) : exec astep a e.toList = e.elim (some a) (astep a) := by
  cases e with
  | none => rfl
  | some e =>
    rw [Option.toList_some, exec_cons]
    exact Option.bind_fun_some _

theorem exec_trace {I : σ → Prop} (hI : ∀ s e s', I s → step s e = some s' → I s')
    (h : ∀ s e s', I s → step s e = some s' → Follows astep (abs s) (lin s e) (abs s')) :
    ∀ es s s', I s → exec step s es = some s' → exec astep (abs s) (trace step lin s es) = some (abs s')
  | [], s, s', _, hrun => by
    obtain rfl := Option.some.inj hrun
    rfl
  | e :: es, s, s', hs, hrun => by
    obtain ⟨t, ht, hrun⟩ := Option.bind_eq_some_iff.mp hrun
    have hstep : exec astep (abs s) (lin s e).toList = some (abs t) := (exec_toList _ _).trans (h s e t hs ht)
    rw [trace, ht, Option.elim_some, exec_append, hstep, Option.bind_some]
    exact exec_trace hI h es t s' (hI s e t hs ht) hrun

end Basis
