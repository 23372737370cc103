/-
# Arranging items by a key as they come

`insertBy k a l` puts `a` into a list arranged by the key `k`, after the items
with an equal key. The list stays arranged (`pairwise_insertBy`, and
`pairwise_orderedInsert` for any relation), and adding
to the numbers below `n` that satisfy a predicate one that does not gives
the numbers that satisfy the larger predicate (`insertBy_filter_range`): the
form in which a set of received pieces grows by one. `arrange k l` puts in
the items of `l` one after the other.
-/
import Mathlib.Data.List.Induction
import Mathlib.Data.List.Sort

namespace Basis

variable {α β : Type*}

/-- `a` goes before the first item of `l` with a larger key. -/
def insertBy (k : α → ℕ) (a : α) (l : List α) : List α :=
  l.orderedInsert (fun x y => k x < k y) a

variable {k : α → ℕ} {a : α} {l : List α}

theorem perm_insertBy : (insertBy k a l).Perm (a :: l) := List.perm_orderedInsert _ _ _

@[simp] theorem mem_insertBy {b : α} : b ∈ insertBy k a l ↔ b = a ∨ b ∈ l := by
  rw [perm_insertBy.mem_iff, List.mem_cons]

theorem insertBy_ne_nil : insertBy k a l ≠ [] := List.ne_nil_of_mem (mem_insertBy.mpr (.inl rfl))

@[simp] theorem insertBy_nil : insertBy k a [] = [a] := rfl

/-- Inserting keeps a relation that the new item has to those it comes before, and those it comes after to it. -/
theorem pairwise_orderedInsert {r R : α → α → Prop} [DecidableRel r] (hbefore : ∀ b ∈ l, r a b → R a b)
    (hafter : ∀ b ∈ l, ¬ r a b → R b a) (hmono : l.Pairwise fun b c => r a b → r a c) (h : l.Pairwise R) :
    (l.orderedInsert r a).Pairwise R := by
  induction l with
  | nil => simp
  | cons b l ih =>
    rw [List.pairwise_cons] at h hmono
    rw [List.orderedInsert_cons]
    split
    · rename_i hab
      rw [List.pairwise_cons, List.pairwise_cons]
      refine ⟨fun x hx => ?_, h⟩
      rcases List.mem_cons.mp hx with rfl | hx
      · exact hbefore x List.mem_cons_self hab
      · exact hbefore x (List.mem_cons_of_mem _ hx) (hmono.1 x hx hab)
    · rename_i hab
      rw [List.pairwise_cons]
      refine ⟨fun x hx => ?_, ?_⟩
      · rcases List.mem_cons.mp ((List.perm_orderedInsert r a l).mem_iff.mp hx) with rfl | hx
        · exact hafter b List.mem_cons_self hab
        · exact h.1 x hx
      · exact ih (fun x hx => hbefore x (List.mem_cons_of_mem _ hx)) (fun x hx => hafter x (List.mem_cons_of_mem _ hx))
          hmono.2 h.2

theorem pairwise_insertBy (h : l.Pairwise fun x y => k x ≤ k y) :
    (insertBy k a l).Pairwise fun x y => k x ≤ k y :=
  pairwise_orderedInsert (fun _ _ hab => hab.le) (fun _ _ hab => not_lt.mp hab)
    (h.imp fun hxy hab => hab.trans_le hxy) h

/-- Inserting commutes with a map that keeps the order of the keys. -/
theorem map_insertBy {k' : β → ℕ} (f : α → β)
    (hf : ∀ b ∈ l, (k b < k a ↔ k' (f b) < k' (f a)) ∧ (k a < k b ↔ k' (f a) < k' (f b))) :
    (insertBy k a l).map f = insertBy k' (f a) (l.map f) :=
  List.map_orderedInsert _ _ f l a (fun b hb => (hf b hb).1) (fun b hb => (hf b hb).2)

/-! ### Arranging a list -/

/-- The items of `l` put in one after the other. -/
def arrange (k : α → ℕ) (l : List α) : List α := l.foldl (fun l a => insertBy k a l) []

theorem arrange_concat (l : List α) (a : α) : arrange k (l ++ [a]) = insertBy k a (arrange k l) := by
  simp [arrange]

theorem perm_arrange (l : List α) : (arrange k l).Perm l := by
  induction l using List.reverseRecOn with
  | nil => exact List.Perm.refl _
  | append_singleton l a ih =>
    rw [arrange_concat]
    exact perm_insertBy.trans ((ih.cons a).trans (List.perm_append_singleton a l).symm)

theorem pairwise_arrange (l : List α) : (arrange k l).Pairwise fun x y => k x ≤ k y := by
  induction l using List.reverseRecOn with
  | nil => exact List.Pairwise.nil
  | append_singleton l a ih =>
    rw [arrange_concat]
    exact pairwise_insertBy ih

/-- Items with different keys are arranged in one way. -/
theorem arrange_eq_of_perm {m : List α} (hm : m.Pairwise fun x y => k x < k y) (h : l.Perm m) :
    arrange k l = m := by
  refine List.Perm.eq_of_pairwise ?_ (pairwise_arrange l) (hm.imp le_of_lt) ((perm_arrange l).trans h)
  intro x y hx hy hxy hyx
  have hxm : x ∈ m := ((perm_arrange l).trans h).mem_iff.mp hx
  have hinj : (m.map k).Nodup := List.pairwise_map.mpr (hm.imp ne_of_lt)
  exact List.inj_on_of_nodup_map hinj hxm hy (le_antisymm hxy hyx)

/-! ### Numbers below a bound -/

theorem pairwise_filter_range (p : ℕ → Bool) (n : ℕ) :
    ((List.range n).filter p).Pairwise (· ≤ ·) :=
  List.pairwise_le_range.sublist List.filter_sublist

theorem insertBy_filter_range {p q : ℕ → Bool} {n i : ℕ} (hi : i < n) (hp : p i = false)
    (hq : ∀ j < n, q j = (p j || j == i)) :
    insertBy id i ((List.range n).filter p) = (List.range n).filter q := by
  refine List.Perm.eq_of_pairwise' (r := (· ≤ ·))
    (pairwise_insertBy (k := id) (pairwise_filter_range p n)) (pairwise_filter_range q n) ?_
  refine perm_insertBy.trans ((List.perm_ext_iff_of_nodup ?_ ?_).mpr fun j => ?_)
  · exact List.nodup_cons.mpr ⟨by simp [hp], List.nodup_range.filter _⟩
  · exact List.nodup_range.filter _
  · simp only [List.mem_cons, List.mem_filter, List.mem_range]
    constructor
    · rintro (rfl | ⟨hj, hpj⟩)
      · exact ⟨hi, by simp [hq _ hi]⟩
      · exact ⟨hj, by simp [hq j hj, hpj]⟩
    · rintro ⟨hj, hqj⟩
      rw [hq j hj, Bool.or_eq_true, beq_iff_eq] at hqj
      rcases hqj with h | h
      · exact Or.inr ⟨hj, h⟩
      · exact Or.inl h

theorem filter_range_eq_range {p : ℕ → Bool} {n : ℕ} :
    (List.range n).filter p = List.range n ↔ ∀ i < n, p i = true := by
  rw [List.filter_eq_self]
  simp

end Basis
