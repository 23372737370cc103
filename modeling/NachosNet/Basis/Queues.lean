/-
# Families of queues

Queues indexed by `ι`. `gather L q` is all that stands in the queues of `L`;
writing one queue changes it by what that queue held and now holds
(`gather_update`). `multicast` appends an item to several queues in turn.
What is some of the images of items is the images of some of the items
(`exists_map_eq_of_subperm`).
-/
import Mathlib.Algebra.BigOperators.Group.Finset.Piecewise
import Mathlib.Data.List.Perm.Basic

namespace Basis

variable {ι α : Type*}

/-- What stands in the queues of `L`. -/
def gather (L : List ι) (q : ι → List α) : List α := L.flatMap q

theorem gather_congr {L : List ι} {q q' : ι → List α} (h : ∀ i ∈ L, q i = q' i) : gather L q = gather L q' :=
  List.flatMap_congr h

variable [DecidableEq ι]

theorem gather_update_of_notMem {L : List ι} {i : ι} (hi : i ∉ L) (q : ι → List α) (a : List α) :
    gather L (Function.update q i a) = gather L q :=
  gather_congr fun _ hj => Function.update_of_ne (ne_of_mem_of_not_mem hj hi) _ _

theorem gather_update {L : List ι} (hn : L.Nodup) {i : ι} (hi : i ∈ L) (q : ι → List α) (a : List α) :
    (gather L (Function.update q i a)).Perm (a ++ gather (L.erase i) q) := by
  have hperm := List.perm_cons_erase hi
  have hcons : gather (i :: L.erase i) (Function.update q i a) =
      a ++ gather (L.erase i) (Function.update q i a) := by simp [gather]
  rw [← gather_update_of_notMem hn.not_mem_erase q a, ← hcons]
  exact hperm.flatMap_right _

theorem gather_erase {L : List ι} (hn : L.Nodup) {i : ι} (hi : i ∈ L) (q : ι → List α) :
    (gather L q).Perm (q i ++ gather (L.erase i) q) := by
  have h := gather_update hn hi q (q i)
  rwa [Function.update_eq_self] at h

theorem gather_concat {L : List ι} (hn : L.Nodup) {i : ι} (hi : i ∈ L) (q : ι → List α) (x : α) :
    (gather L (Function.update q i (q i ++ [x]))).Perm (gather L q ++ [x]) := by
  refine (gather_update hn hi q _).trans ?_
  rw [List.append_assoc]
  refine ((@List.perm_append_comm _ [x] _).append_left (q i)).trans ?_
  rw [← List.append_assoc]
  exact ((gather_erase hn hi q).symm).append_right [x]

/-- One queue loses its first item. -/
theorem gather_tail {L : List ι} (hn : L.Nodup) {i : ι} (hi : i ∈ L) {q : ι → List α} {x : α} {a : List α}
    (h : q i = x :: a) : (gather L q).Perm (x :: gather L (Function.update q i a)) := by
  refine (gather_erase hn hi q).trans ?_
  rw [h, List.cons_append]
  exact ((gather_update hn hi q a).symm).cons x

/-- `x` is appended to the queues `ps`, one after the other. -/
def multicast (q : ι → List α) (ps : List ι) (x : α) : ι → List α :=
  ps.foldl (fun q p => Function.update q p (q p ++ [x])) q

theorem multicast_apply (ps : List ι) (x : α) (i : ι) : ∀ q : ι → List α,
    multicast q ps x i = q i ++ List.replicate (ps.count i) x := by
  induction ps with
  | nil => simp [multicast]
  | cons p ps ih =>
    intro q
    show multicast (Function.update q p (q p ++ [x])) ps x i = _
    rw [ih]
    by_cases h : p = i
    · subst h
      simp [List.replicate_succ]
    · simp [h, Function.update_of_ne (Ne.symm h)]

theorem length_gather_multicast {L : List ι} (hn : L.Nodup) (x : α) : ∀ {ps : List ι}, (∀ p ∈ ps, p ∈ L) →
    ∀ q : ι → List α, (gather L (multicast q ps x)).length = (gather L q).length + ps.length
  | [], _, q => rfl
  | p :: ps, h, q => by
    have ih := length_gather_multicast hn x (fun r hr => h r (List.mem_cons_of_mem _ hr))
      (Function.update q p (q p ++ [x]))
    have h1 := (gather_concat hn (h p List.mem_cons_self) q x).length_eq
    rw [List.length_append, List.length_singleton] at h1
    rw [List.length_cons]
    show (gather L (multicast (Function.update q p (q p ++ [x])) ps x)).length = _
    omega

/-- A sum of weights when one entry changes. -/
theorem sum_weight_update {β : Type*} [Fintype ι] (w : β → ℕ) (c : ι → β) (j : ι) (x : β) :
    (∑ i, w (Function.update c j x i)) + w (c j) = (∑ i, w (c i)) + w x := by
  have hupd : (fun i => w (Function.update c j x i)) = Function.update (fun i => w (c i)) j (w x) :=
    funext fun i => Function.apply_update (fun _ => w) c j x i
  rw [hupd, Finset.sum_update_of_mem (Finset.mem_univ j),
    Finset.sum_eq_add_sum_sdiff_singleton_of_mem (Finset.mem_univ j) fun i => w (c i)]
  omega

omit [DecidableEq ι] in
theorem exists_map_eq_of_subperm {f : ι → α} {l : List α} {as : List ι} (h : l.Subperm (as.map f)) :
    ∃ bs : List ι, bs.Subperm as ∧ bs.map f = l := by
  obtain ⟨l', hperm, hsub⟩ := h
  obtain ⟨cs, hcs, rfl⟩ := List.sublist_map_iff.mp hsub
  have hall : List.Forall₂ (fun x i => x = f i) (cs.map f) cs := by
    rw [List.forall₂_map_left_iff]
    exact List.forall₂_same.mpr fun _ _ => rfl
  obtain ⟨bs, hbs, hperm'⟩ := List.perm_comp_forall₂ hperm.symm hall
  refine ⟨bs, hperm'.subperm.trans hcs.subperm, ?_⟩
  rw [← List.forall₂_eq_eq_eq, List.forall₂_map_left_iff]
  exact hbs.flip.imp fun _ _ h => h.symm

end Basis
