/-
# Intervals that tile a range

An interval is its first number and its length. As many numbers as the lengths add
up to are covered only by intervals that are apart (`card_covered_iff`), so the
intervals of a list cover exactly a range of their total length when they are apart
and inside it (`tiles_iff`).
-/
import Mathlib.Data.Finset.Card
import Mathlib.Order.Interval.Finset.Nat

namespace Basis

/-- The numbers of an interval. -/
def interval (i : ℕ × ℕ) : Finset ℕ := Finset.Ico i.1 (i.1 + i.2)

/-- The numbers that the intervals cover. -/
def covered : List (ℕ × ℕ) → Finset ℕ
  | [] => ∅
  | i :: l => interval i ∪ covered l

def totalLength : List (ℕ × ℕ) → ℕ
  | [] => 0
  | i :: l => i.2 + totalLength l

theorem mem_interval {i : ℕ × ℕ} {a : ℕ} : a ∈ interval i ↔ i.1 ≤ a ∧ a < i.1 + i.2 := Finset.mem_Ico

theorem card_interval (i : ℕ × ℕ) : (interval i).card = i.2 := by
  rw [interval, Nat.card_Ico, Nat.add_sub_cancel_left]

theorem mem_covered {a : ℕ} : ∀ {l : List (ℕ × ℕ)}, a ∈ covered l ↔ ∃ i ∈ l, a ∈ interval i
  | [] => by simp [covered]
  | i :: l => by simp [covered, mem_covered (l := l)]

theorem totalLength_cons (i : ℕ × ℕ) (l : List (ℕ × ℕ)) : totalLength (i :: l) = i.2 + totalLength l := rfl

theorem card_covered_le : ∀ l : List (ℕ × ℕ), (covered l).card ≤ totalLength l
  | [] => Nat.le_refl _
  | i :: l => by
    rw [totalLength_cons, covered]
    refine (Finset.card_union_le _ _).trans ?_
    rw [card_interval]
    exact Nat.add_le_add_left (card_covered_le l) _

/-- Intervals that are not apart cover fewer numbers. -/
theorem card_covered_iff : ∀ {l : List (ℕ × ℕ)}, (covered l).card = totalLength l ↔
    l.Pairwise fun i j => Disjoint (interval i) (interval j)
  | [] => iff_of_true rfl .nil
  | i :: l => by
    have hle := card_covered_le l
    have hadd := Finset.card_union_add_card_inter (interval i) (covered l)
    rw [card_interval] at hadd
    have hapart : Disjoint (interval i) (covered l) ↔ ∀ j ∈ l, Disjoint (interval i) (interval j) := by
      simp only [Finset.disjoint_left, mem_covered]
      exact ⟨fun h j hj a hi hj' => h hi ⟨j, hj, hj'⟩, fun h a hi ⟨j, hj, hj'⟩ => h j hj hi hj'⟩
    rw [List.pairwise_cons, ← card_covered_iff, totalLength_cons, covered, ← hapart, Finset.disjoint_iff_inter_eq_empty,
      ← Finset.card_eq_zero]
    omega

/-- Nonempty intervals cover exactly the range of their total length from `b` on
if and only if they are apart and inside it. -/
theorem tiles_iff {l : List (ℕ × ℕ)} (hpos : ∀ i ∈ l, 0 < i.2) (b : ℕ) :
    (∀ a, b ≤ a ∧ a < b + totalLength l ↔ ∃ i ∈ l, a ∈ interval i) ↔
      (l.Pairwise fun i j => Disjoint (interval i) (interval j)) ∧
        ∀ i ∈ l, b ≤ i.1 ∧ i.1 + i.2 ≤ b + totalLength l := by
  have hset : (∀ a, b ≤ a ∧ a < b + totalLength l ↔ ∃ i ∈ l, a ∈ interval i) ↔
      covered l = interval (b, totalLength l) := by
    simp only [Finset.ext_iff, mem_covered, mem_interval, iff_comm]
  rw [hset, ← card_covered_iff]
  constructor
  · intro h
    refine ⟨by rw [h, card_interval], fun i hi => ?_⟩
    -- the first number of the interval, and its last
    have hmem : ∀ a, i.1 ≤ a ∧ a < i.1 + i.2 → b ≤ a ∧ a < b + totalLength l := fun a ha =>
      mem_interval.mp (h ▸ mem_covered.mpr ⟨i, hi, mem_interval.mpr ha⟩)
    have := hpos i hi
    have hfirst := hmem i.1 (by omega)
    have hlast := hmem (i.1 + i.2 - 1) (by omega)
    omega
  · rintro ⟨hcard, hinside⟩
    refine Finset.eq_of_subset_of_card_le (fun a ha => ?_) ?_
    · obtain ⟨i, hi, ha⟩ := mem_covered.mp ha
      have := hinside i hi
      rw [mem_interval] at ha ⊢
      simp only
      omega
    · rw [card_interval, hcard]

end Basis
