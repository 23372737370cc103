/-
# Buffers that are allocated and released

A heap is the set of the buffers that are live, and the operations so far. `new`
gives a buffer that is not live; `delete` is what the code says, so a buffer may be
deleted that is not live any more. A buffer can be handed out again after that, and
so its releases are counted since its own `new` (`releasedSince`).

Where each buffer that is handed out has one owner (`Owned`), taking a buffer and
giving it up keep it so (`Owned.take`, `Owned.release`).

Key definitions: `Heap`, `Heap.new`, `Heap.delete`, `Heap.releasedSince`, `Heap.Owned`.
-/
import Mathlib.Data.Finset.Basic
import Mathlib.Data.List.Count

namespace Basis

inductive HeapOp (β : Type*)
  | new (b : β)
  | delete (b : β)
  deriving DecidableEq

structure Heap (β : Type*) where
  live : Finset β
  log : List (HeapOp β)

namespace Heap

variable {β : Type*} [DecidableEq β]

/-- A buffer for `new`; `none` when it is live. -/
def new (h : Heap β) (b : β) : Option (Heap β) :=
  if b ∈ h.live then none else some ⟨insert b h.live, h.log ++ [.new b]⟩

def delete (h : Heap β) (b : β) : Heap β := ⟨h.live.erase b, h.log ++ [.delete b]⟩

/-- How often `b` was deleted after the first `start` operations. -/
def releasedSince (h : Heap β) (b : β) (start : ℕ) : ℕ := (h.log.drop start).count (.delete b)

theorem new_eq_some_iff {h h' : Heap β} {b : β} :
    h.new b = some h' ↔ b ∉ h.live ∧ h' = ⟨insert b h.live, h.log ++ [.new b]⟩ := by
  unfold new
  split
  · rename_i hb
    exact ⟨fun hn => (nomatch hn), fun hn => absurd hb hn.1⟩
  · rename_i hb
    rw [Option.some.injEq]
    exact ⟨fun he => ⟨hb, he.symm⟩, fun he => he.2.symm⟩

theorem releasedSince_append {h h' : Heap β} {ops : List (HeapOp β)} (hlog : h'.log = h.log ++ ops) (b : β)
    {start : ℕ} (hstart : start ≤ h.log.length) :
    h'.releasedSince b start = h.releasedSince b start + ops.count (.delete b) := by
  unfold releasedSince
  rw [hlog, List.drop_append_of_le_length hstart, List.count_append]

/-! ### Owners -/

/-- A buffer, and the number of operations before its `new`. -/
structure Held (β : Type*) where
  buffer : β
  start : ℕ
  deriving DecidableEq

/-- The live buffers are those of `live` and those of the owners, each its own and not deleted yet. -/
structure Owned {ι : Type*} (live : Finset β) (h : Heap β) (held : ι → Option (Held β)) : Prop where
  live_iff : ∀ b, b ∈ h.live ↔ b ∈ live ∨ ∃ i f, held i = some f ∧ f.buffer = b
  fresh : ∀ i f, held i = some f → f.buffer ∉ live
  apart : ∀ i j f g, held i = some f → held j = some g → f.buffer = g.buffer → i = j
  start_le : ∀ i f, held i = some f → f.start ≤ h.log.length
  kept : ∀ i f, held i = some f → h.releasedSince f.buffer f.start = 0

namespace Owned

variable {ι : Type*} {live : Finset β} {h h' : Heap β} {held : ι → Option (Held β)} {i : ι} {b : β} {f : Held β}

theorem init (live : Finset β) : Owned live ⟨live, []⟩ fun _ : ι => none where
  live_iff b := by simp
  fresh _ _ hf := nomatch hf
  apart _ _ _ _ hf := nomatch hf
  start_le _ _ hf := nomatch hf
  kept _ _ hf := nomatch hf

theorem mem_live (ho : Owned live h held) (hf : held i = some f) : f.buffer ∈ h.live :=
  (ho.live_iff _).mpr (Or.inr ⟨i, f, hf, rfl⟩)

variable [DecidableEq ι]

theorem take (ho : Owned live h held) (hi : held i = none) (hnew : h.new b = some h') :
    Owned live h' (Function.update held i (some ⟨b, h.log.length⟩)) := by
  obtain ⟨hb, rfl⟩ := new_eq_some_iff.mp hnew
  -- who holds something now held it before, or is `i` with the new buffer
  have hcases : ∀ j f, Function.update held i (some ⟨b, h.log.length⟩) j = some f →
      j = i ∧ f = ⟨b, h.log.length⟩ ∨ held j = some f ∧ f.buffer ≠ b := by
    intro j f hf
    by_cases hji : j = i
    · subst hji
      rw [Function.update_self, Option.some.injEq] at hf
      exact Or.inl ⟨rfl, hf.symm⟩
    · rw [Function.update_of_ne hji] at hf
      exact Or.inr ⟨hf, fun he => hb (he ▸ ho.mem_live hf)⟩
  refine ⟨fun x => ?_, fun j f hf => ?_, fun j k f g hf hg he => ?_, fun j f hf => ?_, fun j f hf => ?_⟩
  · rw [Finset.mem_insert, ho.live_iff]
    constructor
    · rintro (rfl | hx | ⟨j, f, hf, rfl⟩)
      · exact Or.inr ⟨i, _, Function.update_self .., rfl⟩
      · exact Or.inl hx
      · have hji : j ≠ i := fun he => by rw [he, hi] at hf; cases hf
        exact Or.inr ⟨j, f, (Function.update_of_ne hji ..).trans hf, rfl⟩
    · rintro (hx | ⟨j, f, hf, rfl⟩)
      · exact Or.inr (Or.inl hx)
      · obtain ⟨-, rfl⟩ | ⟨hf, -⟩ := hcases j f hf
        · exact Or.inl rfl
        · exact Or.inr (Or.inr ⟨j, f, hf, rfl⟩)
  · obtain ⟨-, rfl⟩ | ⟨hf, -⟩ := hcases j f hf
    · exact fun hl => hb ((ho.live_iff b).mpr (Or.inl hl))
    · exact ho.fresh j f hf
  · obtain ⟨rfl, rfl⟩ | ⟨hf, hne⟩ := hcases j f hf
    · obtain ⟨rfl, -⟩ | ⟨-, hne⟩ := hcases k g hg
      · rfl
      · exact absurd he.symm hne
    · obtain ⟨-, rfl⟩ | ⟨hg, -⟩ := hcases k g hg
      · exact absurd he hne
      · exact ho.apart j k f g hf hg he
  · rw [List.length_append]
    obtain ⟨-, rfl⟩ | ⟨hf, -⟩ := hcases j f hf
    · exact Nat.le_add_right _ _
    · exact (ho.start_le j f hf).trans (Nat.le_add_right _ _)
  · obtain ⟨-, rfl⟩ | ⟨hf, -⟩ := hcases j f hf
    · rw [releasedSince_append rfl b le_rfl]
      simp [releasedSince]
    · rw [releasedSince_append rfl _ (ho.start_le j f hf), ho.kept j f hf]
      simp

/-- An owner deletes its buffer `k` times and has it no longer. -/
theorem release (ho : Owned live h held) (hf : held i = some f) {k : ℕ} (hlive : h'.live = h.live.erase f.buffer)
    (hlog : h'.log = h.log ++ List.replicate k (.delete f.buffer)) :
    Owned live h' (Function.update held i none) ∧ h'.releasedSince f.buffer f.start = k := by
  have hcases : ∀ j g, Function.update held i none j = some g → held j = some g ∧ g.buffer ≠ f.buffer := by
    intro j g hg
    by_cases hji : j = i
    · rw [hji, Function.update_self] at hg
      cases hg
    · rw [Function.update_of_ne hji] at hg
      exact ⟨hg, fun he => hji (ho.apart j i g f hg hf he)⟩
  constructor
  · refine ⟨fun x => ?_, fun j g hg => ?_, fun j k g g' hg hg' he => ?_, fun j g hg => ?_, fun j g hg => ?_⟩
    · rw [hlive, Finset.mem_erase, ho.live_iff]
      constructor
      · rintro ⟨hx, hl | ⟨j, g, hg, rfl⟩⟩
        · exact Or.inl hl
        · have hji : j ≠ i := fun he => hx (by rw [he, hf, Option.some.injEq] at hg; rw [hg])
          exact Or.inr ⟨j, g, (Function.update_of_ne hji ..).trans hg, rfl⟩
      · rintro (hl | ⟨j, g, hg, rfl⟩)
        · exact ⟨fun he => ho.fresh i f hf (he ▸ hl), Or.inl hl⟩
        · obtain ⟨hg, hne⟩ := hcases j g hg
          exact ⟨hne, Or.inr ⟨j, g, hg, rfl⟩⟩
    · exact ho.fresh j g (hcases j g hg).1
    · exact ho.apart j k g g' (hcases j g hg).1 (hcases k g' hg').1 he
    · rw [hlog, List.length_append]
      exact (ho.start_le j g (hcases j g hg).1).trans (Nat.le_add_right _ _)
    · obtain ⟨hg, hne⟩ := hcases j g hg
      rw [releasedSince_append hlog _ (ho.start_le j g hg), ho.kept j g hg, Nat.zero_add, List.count_eq_zero]
      intro hmem
      exact hne (HeapOp.delete.inj (List.eq_of_mem_replicate hmem))
  · rw [releasedSince_append hlog _ (ho.start_le i f hf), ho.kept i f hf, Nat.zero_add, List.count_replicate_self]

end Owned

end Heap

end Basis
