/-
# The slots of a table

A table has the slots `0, …, n - 1`. `find?_range_unique` is a search of it where
only one slot can be found, and `countP_range_add_length` counts the slots with a
property after some of them have lost it.

Key theorems: `find?_range_unique`, `find?_range_congr`, `countP_range_add_length`.
-/
import Mathlib.Data.List.Nodup

namespace Basis

variable {n i : ℕ} {p q : ℕ → Bool}

theorem find?_range_unique (hi : i < n) (h : ∀ j < n, p j = true → j = i) :
    (List.range n).find? p = if p i = true then some i else none := by
  by_cases hp : p i = true
  · rw [if_pos hp, List.find?_range_eq_some]
    refine ⟨hp, List.mem_range.mpr hi, fun j hj => ?_⟩
    rw [Bool.not_eq_true', Bool.eq_false_iff]
    exact fun hpj => Nat.ne_of_lt hj (h j (Nat.lt_trans hj hi) hpj)
  · rw [if_neg hp, List.find?_eq_none]
    intro j hj hpj
    obtain rfl := h j (List.mem_range.mp hj) hpj
    exact hp hpj

theorem find?_range_congr (h : ∀ j < n, p j = q j) : (List.range n).find? p = (List.range n).find? q := by
  have hmem : ∀ j ∈ List.range n, p j = q j := fun j hj => h j (List.mem_range.mp hj)
  generalize List.range n = l at hmem
  induction l with
  | nil => rfl
  | cons j l ih =>
    rw [List.find?_cons, List.find?_cons, hmem j List.mem_cons_self, ih fun k hk => hmem k (List.mem_cons_of_mem _ hk)]

/-- The slots of `l` have `p` and not `q`, and no others. -/
theorem countP_range_add_length {l : List ℕ} (hn : l.Nodup) (hlt : ∀ x ∈ l, x < n)
    (hp : ∀ x < n, p x = true ↔ q x = true ∨ x ∈ l) (hq : ∀ x ∈ l, q x = false) :
    (List.range n).countP q + l.length = (List.range n).countP p := by
  have hperm : (List.range n).filter p |>.Perm ((List.range n).filter q ++ l) := by
    refine (List.perm_ext_iff_of_nodup (List.nodup_range.filter _) ?_).mpr fun x => ?_
    · refine (List.nodup_range.filter _).append hn fun x hx hl => ?_
      rw [List.mem_filter, hq x hl] at hx
      exact Bool.false_ne_true hx.2
    · rw [List.mem_append, List.mem_filter, List.mem_filter, List.mem_range]
      constructor
      · exact fun ⟨hx, hpx⟩ => ((hp x hx).mp hpx).imp_left fun h => ⟨hx, h⟩
      · rintro (⟨hx, hqx⟩ | hl)
        · exact ⟨hx, (hp x hx).mpr (Or.inl hqx)⟩
        · exact ⟨hlt x hl, (hp x (hlt x hl)).mpr (Or.inr hl)⟩
  rw [List.countP_eq_length_filter, List.countP_eq_length_filter, hperm.length_eq, List.length_append]

end Basis
