/-
# Finite maps with ordered keys

A map is the list of its entries in the strict order of the keys, so a loop
over the map meets the entries in that order: `firstKey m p` is the first key
whose value satisfies `p`.

Key definitions: `OrdMap`, `find?`, `insert`, `erase`, `firstKey`.
Key theorems: `find?_insert`, `find?_erase`, `firstKey_some`, `firstKey_none`.
-/
import Mathlib.Order.Lattice
import Mathlib.Data.List.Nodup

namespace Basis

structure OrdMap (κ β : Type*) [LinearOrder κ] where
  entries : List (κ × β)
  sorted : entries.Pairwise fun x y => x.1 < y.1

namespace OrdMap

variable {κ β : Type*} [LinearOrder κ]

def empty : OrdMap κ β := ⟨[], List.Pairwise.nil⟩

/-- The value at `k`. -/
def find? (m : OrdMap κ β) (k : κ) : Option β := (m.entries.find? fun e => e.1 = k).map Prod.snd

/-- `m` with the value `v` at `k`. -/
def insert (m : OrdMap κ β) (k : κ) (v : β) : OrdMap κ β where
  entries := (m.entries.filter fun e => e.1 < k) ++ (k, v) :: m.entries.filter fun e => k < e.1
  sorted := by
    rw [List.pairwise_append, List.pairwise_cons]
    refine ⟨m.sorted.filter _, ⟨fun e he => ?_, m.sorted.filter _⟩, fun e he f hf => ?_⟩
    · exact of_decide_eq_true (List.mem_filter.mp he).2
    · have hek : e.1 < k := of_decide_eq_true (List.mem_filter.mp he).2
      rcases List.mem_cons.mp hf with rfl | hf
      · exact hek
      · exact hek.trans (of_decide_eq_true (List.mem_filter.mp hf).2)

/-- `m` without `k`. -/
def erase (m : OrdMap κ β) (k : κ) : OrdMap κ β where
  entries := m.entries.filter fun e => e.1 ≠ k
  sorted := m.sorted.filter _

/-- The first key whose value satisfies `p`. -/
def firstKey (m : OrdMap κ β) (p : β → Bool) : Option κ := (m.entries.find? fun e => p e.2).map Prod.fst

variable {m : OrdMap κ β} {k : κ} {v : β}

theorem eq_of_mem {e f : κ × β} (he : e ∈ m.entries) (hf : f ∈ m.entries) (h : e.1 = f.1) : e = f := by
  have hn : (m.entries.map Prod.fst).Nodup := List.pairwise_map.mpr (m.sorted.imp fun hxy => hxy.ne)
  exact List.inj_on_of_nodup_map hn he hf h

theorem find?_eq_some : m.find? k = some v ↔ (k, v) ∈ m.entries := by
  unfold find?
  rw [Option.map_eq_some_iff]
  constructor
  · rintro ⟨⟨k', v'⟩, h, rfl⟩
    have hk : k' = k := of_decide_eq_true (List.find?_some (p := fun e : κ × β => decide (e.1 = k)) h)
    subst hk
    exact List.mem_of_find?_eq_some h
  · intro h
    cases hf : m.entries.find? fun e => e.1 = k with
    | none => exact absurd (List.find?_eq_none.mp hf (k, v) h) (by simp)
    | some e =>
      have hk : e.1 = k := of_decide_eq_true (List.find?_some (p := fun e : κ × β => decide (e.1 = k)) hf)
      exact ⟨e, rfl, by rw [eq_of_mem (List.mem_of_find?_eq_some hf) h hk]⟩

@[simp] theorem find?_empty (k : κ) : (empty : OrdMap κ β).find? k = none := rfl

theorem find?_insert (m : OrdMap κ β) (k : κ) (v : β) (k' : κ) :
    (m.insert k v).find? k' = if k' = k then some v else m.find? k' := by
  apply Option.ext
  intro w
  rw [find?_eq_some]
  simp only [insert, List.mem_append, List.mem_cons, List.mem_filter, decide_eq_true_eq, Prod.mk.injEq]
  by_cases h : k' = k
  · subst h
    simp [eq_comm]
  · rw [if_neg h, find?_eq_some]
    have hne := lt_or_gt_of_ne h
    simp only [h, false_and, false_or, ← and_or_left]
    exact and_iff_left hne

theorem find?_erase (m : OrdMap κ β) (k k' : κ) :
    (m.erase k).find? k' = if k' = k then none else m.find? k' := by
  apply Option.ext
  intro w
  rw [find?_eq_some]
  simp only [erase, List.mem_filter, decide_eq_true_eq]
  by_cases h : k' = k
  · simp [h]
  · rw [if_neg h, find?_eq_some]
    exact and_iff_left h

theorem firstKey_some {p : β → Bool} (h : m.firstKey p = some k) : ∃ v, m.find? k = some v ∧ p v = true := by
  obtain ⟨e, he, rfl⟩ := Option.map_eq_some_iff.mp h
  exact ⟨e.2, find?_eq_some.mpr (List.mem_of_find?_eq_some he), List.find?_some (p := fun e : κ × β => p e.2) he⟩

theorem firstKey_none {p : β → Bool} (h : m.firstKey p = none) (hk : m.find? k = some v) : p v = false := by
  have hf := List.find?_eq_none.mp (Option.map_eq_none_iff.mp h) (k, v) (find?_eq_some.mp hk)
  simpa using hf

end OrdMap

end Basis
