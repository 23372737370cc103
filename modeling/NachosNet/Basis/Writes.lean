/-
# Blocks written to a memory

A memory is a function of the address. What a piece of code does to it is the
list of the blocks it writes, in order: `writes` applies them. An address that
no block covers keeps its value (`writes_of_none`); if the blocks that cover it
all have the same value there, it has that value afterwards (`writes_of_some`);
and a value that was written does not depend on the memory before
(`writes_congr`).

Key definitions: `Block`, `Block.at?`, `writes`.
-/
import Mathlib.Data.Int.Basic
import Mathlib.Data.List.Induction

namespace Basis

/-- Values written from the address `start` on. -/
structure Block (β : Type*) where
  start : ℤ
  data : List β

variable {β : Type*}

/-- The value the block writes at an address. -/
def Block.at? (w : Block β) (a : ℤ) : Option β := if w.start ≤ a then w.data[(a - w.start).toNat]? else none

theorem Block.at?_eq_some {w : Block β} {a : ℤ} {b : β} :
    w.at? a = some b ↔ ∃ j : ℕ, a = w.start + j ∧ w.data[j]? = some b := by
  unfold Block.at?
  constructor
  · intro h
    split at h
    · rename_i hle
      exact ⟨(a - w.start).toNat, by omega, h⟩
    · simp at h
  · rintro ⟨j, rfl, hj⟩
    have hj' : (w.start + j - w.start).toNat = j := by omega
    rw [if_pos (by omega), hj', hj]

def write (m : ℤ → β) (w : Block β) : ℤ → β := fun a => (w.at? a).getD (m a)

/-- The memory after the blocks `ws`. -/
def writes (m : ℤ → β) (ws : List (Block β)) : ℤ → β := ws.foldl write m

variable {m m' : ℤ → β} {ws : List (Block β)} {a : ℤ} {b : β}

theorem writes_append (m : ℤ → β) (ws vs : List (Block β)) : writes m (ws ++ vs) = writes (writes m ws) vs :=
  List.foldl_append

theorem writes_of_none (h : ∀ w ∈ ws, w.at? a = none) : writes m ws a = m a := by
  induction ws generalizing m with
  | nil => rfl
  | cons w ws ih =>
    obtain ⟨hw, hws⟩ := List.forall_mem_cons.mp h
    refine (ih hws).trans ?_
    simp [write, hw]

theorem writes_of_some (h : ∀ w ∈ ws, ∀ c, w.at? a = some c → c = b) (hex : ∃ w ∈ ws, w.at? a = some b) :
    writes m ws a = b := by
  induction ws using List.reverseRecOn with
  | nil => simp at hex
  | append_singleton ws w ih =>
    rw [writes_append]
    show (w.at? a).getD (writes m ws a) = b
    cases hw : w.at? a with
    | some c => exact h w (by simp) c hw
    | none =>
      refine ih (fun v hv => h v (List.mem_append_left _ hv)) ?_
      obtain ⟨v, hv, hvb⟩ := hex
      rcases List.mem_append.mp hv with hv | hv
      · exact ⟨v, hv, hvb⟩
      · rw [List.mem_singleton.mp hv, hw] at hvb
        simp at hvb

theorem writes_congr (hex : ∃ w ∈ ws, w.at? a ≠ none) : writes m ws a = writes m' ws a := by
  induction ws using List.reverseRecOn with
  | nil => simp at hex
  | append_singleton ws w ih =>
    rw [writes_append, writes_append]
    show (w.at? a).getD (writes m ws a) = (w.at? a).getD (writes m' ws a)
    cases hw : w.at? a with
    | some c => rfl
    | none =>
      refine ih ?_
      obtain ⟨v, hv, hvb⟩ := hex
      rcases List.mem_append.mp hv with hv | hv
      · exact ⟨v, hv, hvb⟩
      · rw [List.mem_singleton.mp hv] at hvb
        exact absurd hw hvb

end Basis
