/-
# Cells and their owners

An allocator hands out cells: every owner has a list of them, no cell is had
twice, and a mark is kept for each cell that somebody has (`Shares`). Cells that
are not marked can be given to an owner that has none (`Shares.give`), and an
owner's cells can be taken back (`Shares.take`). Nobody has anything at first
(`Shares.empty`).
-/
import Mathlib.Data.List.Nodup
import Mathlib.Logic.Function.Basic

namespace Basis

variable {ι α : Type*}

structure Shares (own : ι → List α) (marked : α → Prop) : Prop where
  nodup : ∀ i, (own i).Nodup
  apart : ∀ i j x, x ∈ own i → x ∈ own j → i = j
  marked_iff : ∀ x, marked x ↔ ∃ i, x ∈ own i

namespace Shares

variable {own : ι → List α} {marked marked' : α → Prop} {i : ι}

theorem empty : Shares (fun _ : ι => ([] : List α)) fun _ => False :=
  ⟨fun _ => List.nodup_nil, fun _ _ _ h => absurd h List.not_mem_nil, fun _ => by simp⟩

theorem congr (h : Shares own marked) (hm : ∀ x, marked' x ↔ marked x) : Shares own marked' :=
  ⟨h.nodup, h.apart, fun x => (hm x).trans (h.marked_iff x)⟩

/-- The cells of several owners together. -/
theorem nodup_flatMap (h : Shares own marked) {l : List ι} (hl : l.Nodup) : (l.flatMap own).Nodup := by
  refine List.nodup_flatMap.mpr ⟨fun i _ => h.nodup i, hl.imp fun {i j} hij x hi hj => ?_⟩
  exact hij (h.apart i j x hi hj)

variable [DecidableEq ι]

theorem give (h : Shares own marked) (hi : own i = []) {l : List α} (hl : l.Nodup) (hfree : ∀ x ∈ l, ¬ marked x) :
    Shares (Function.update own i l) fun x => marked x ∨ x ∈ l := by
  have hnew : ∀ j x, j ≠ i → x ∈ own j → x ∉ l := fun j x _ hj hx => hfree x hx ((h.marked_iff x).mpr ⟨j, hj⟩)
  refine ⟨fun j => ?_, fun j k x hj hk => ?_, fun x => ?_⟩
  · obtain rfl | hji := eq_or_ne j i
    · rwa [Function.update_self]
    · rw [Function.update_of_ne hji]
      exact h.nodup j
  · obtain rfl | hji := eq_or_ne j i
    · obtain rfl | hki := eq_or_ne k j
      · rfl
      · rw [Function.update_self] at hj
        rw [Function.update_of_ne hki] at hk
        exact absurd hj (hnew k x hki hk)
    · rw [Function.update_of_ne hji] at hj
      obtain rfl | hki := eq_or_ne k i
      · rw [Function.update_self] at hk
        exact absurd hk (hnew j x hji hj)
      · rw [Function.update_of_ne hki] at hk
        exact h.apart j k x hj hk
  · rw [h.marked_iff]
    constructor
    · rintro (⟨j, hj⟩ | hx)
      · have hji : j ≠ i := by
          rintro rfl
          simp [hi] at hj
        exact ⟨j, by rwa [Function.update_of_ne hji]⟩
      · exact ⟨i, by rwa [Function.update_self]⟩
    · rintro ⟨j, hj⟩
      obtain rfl | hji := eq_or_ne j i
      · exact Or.inr (by rwa [Function.update_self] at hj)
      · exact Or.inl ⟨j, by rwa [Function.update_of_ne hji] at hj⟩

theorem take (h : Shares own marked) (i : ι) :
    Shares (Function.update own i []) fun x => marked x ∧ x ∉ own i := by
  have hmem : ∀ j x, x ∈ Function.update own i [] j ↔ j ≠ i ∧ x ∈ own j := by
    intro j x
    obtain rfl | hji := eq_or_ne j i
    · simp
    · simp [hji]
  refine ⟨fun j => ?_, fun j k x hj hk => ?_, fun x => ?_⟩
  · obtain rfl | hji := eq_or_ne j i
    · rw [Function.update_self]
      exact List.nodup_nil
    · rw [Function.update_of_ne hji]
      exact h.nodup j
  · exact h.apart j k x ((hmem j x).mp hj).2 ((hmem k x).mp hk).2
  · rw [h.marked_iff]
    constructor
    · rintro ⟨⟨j, hj⟩, hi⟩
      exact ⟨j, (hmem j x).mpr ⟨fun hji => hi (hji ▸ hj), hj⟩⟩
    · rintro ⟨j, hj⟩
      obtain ⟨hji, hj⟩ := (hmem j x).mp hj
      exact ⟨⟨j, hj⟩, fun hi => hji (h.apart j i x hj hi)⟩

end Shares

end Basis
