/-
# What holds of `fragmentDict`

After any buffers at all have come to `IP_Layer::Receive`, each vector of `fragmentDict` has a fragment, is in the
order of the offsets and, where these are equal, of the arrivals, and is not complete (`Kept`). A call touches the
entry of its own key only.

`check` copies `fragmentDict[key]`, which would put an empty vector where there is none, and calls `back()` of it,
which an empty vector does not have: `checkBack` is `check` with both. After `insertToMap` neither happens, whatever
the map was before (`receiveBack_eq`).

Key definitions: `IPLayer.receiveBack`, `IPLayer.received`, `IPLayer.Kept`.
-/
import NachosNet.Network.Entry

namespace Nachos
namespace IPLayer

open Basis

/-- `check` with `operator[]` and `back()` of the source; `none` when `back()` has no meaning. -/
def checkBack (dict : FragmentDict) (key : Text) : Option (FragmentDict × Option (List Byte)) :=
  let v := (dict key).getD []
  let dict := Function.update dict key (some v)
  if inOrder 0 v then
    v.getLast?.map fun back =>
      if back.mf = false then (Function.update dict key none, some (v.map fun f => f.data.1).flatten) else (dict, none)
  else some (dict, none)

/-- `IP_Layer::Receive` with this `check`. -/
def receiveBack (dict : FragmentDict) (data : Bytes 1500) : Option (FragmentDict × Option (List Byte)) :=
  checkBack (insertToMap dict (keyOf data) (IPFragment.ofBytes data)) (keyOf data)

/-- `fragmentDict` after the arrivals `as` at a host. -/
def received (as : List (Bytes 1500)) : Option FragmentDict :=
  as.foldlM (fun dict b => (receiveBack dict b).map Prod.fst) emptyDict

theorem checkBack_eq {dict : FragmentDict} {key : Text} {v : List Fragment} (hv : dict key = some v) (hne : v ≠ []) :
    checkBack dict key = some (check dict key) := by
  have hself : Function.update dict key (some v) = dict := by rw [← hv, Function.update_eq_self]
  unfold checkBack check complete
  simp only [hv, Option.getD_some, hself, List.getLast?_eq_some_getLast hne, Option.map_some, Option.elim_some]
  by_cases hin : inOrder 0 v = true
  · by_cases hmf : (v.getLast hne).mf = false
    · simp [hin, hmf]
    · simp [hin, hmf]
  · simp [hin]

theorem receiveBack_eq (dict : FragmentDict) (b : Bytes 1500) : receiveBack dict b = some (receive dict b) := by
  refine checkBack_eq (v := insertBy Fragment.offset (fragOf b) ((dict (keyOf b)).getD [])) ?_ (insertBy_ne_nil)
  rw [insertToMap_eq, Function.update_self]
  rfl

theorem received_eq (as : List (Bytes 1500)) : received as = some (after emptyDict as) := by
  unfold received after
  generalize emptyDict = dict
  induction as generalizing dict with
  | nil => rfl
  | cons b as ih =>
    rw [List.foldlM_cons, receiveBack_eq, List.foldl_cons, ← ih]
    rfl

/-! ### The vectors -/

/-- The order of a vector, on fragments numbered as they arrived. -/
def Before (a b : Bytes 1500 × ℕ) : Prop :=
  (fragOf a.1).offset < (fragOf b.1).offset ∨ (fragOf a.1).offset = (fragOf b.1).offset ∧ a.2 < b.2

/-- `v` has fragments of the key among the arrivals `as`, in this order. -/
def Arranged (as : List (Bytes 1500)) (k : Text) (v : List Fragment) : Prop :=
  ∃ L : List (Bytes 1500 × ℕ), (∀ a ∈ L, a ∈ as.zipIdx ∧ keyOf a.1 = k) ∧ L.Pairwise Before ∧
    v = L.map fun a => fragOf a.1

/-- The representation of an entry. -/
structure Kept (as : List (Bytes 1500)) (k : Text) (v : List Fragment) : Prop where
  ne_nil : v ≠ []
  arranged : Arranged as k v
  incomplete : ¬ ((∀ i (hi : i < v.length), (v[i]).offset = i * 185) ∧ ∃ f, v.getLast? = some f ∧ f.mf = false)

theorem Arranged.concat {as : List (Bytes 1500)} {k : Text} {v : List Fragment} (h : Arranged as k v) (b : Bytes 1500) :
    Arranged (as ++ [b]) k v := by
  obtain ⟨L, hL, hord, hv⟩ := h
  refine ⟨L, fun a ha => ⟨?_, (hL a ha).2⟩, hord, hv⟩
  rw [List.zipIdx_append]
  exact List.mem_append_left _ (hL a ha).1

/-- The fragment of an arrival goes after those with its offset, which came before it. -/
theorem Arranged.insert {as : List (Bytes 1500)} {b : Bytes 1500} {v : List Fragment} (h : Arranged as (keyOf b) v) :
    Arranged (as ++ [b]) (keyOf b) (insertBy Fragment.offset (fragOf b) v) := by
  obtain ⟨L, hL, hord, rfl⟩ := h
  have hindex : ∀ a ∈ L, a.2 < as.length := fun a ha => by
    have hlt := List.snd_lt_add_of_mem_zipIdx (hL a ha).1
    omega
  refine ⟨insertBy (fun a => (fragOf a.1).offset) (b, as.length) L, fun a ha => ?_, ?_, ?_⟩
  · rw [List.zipIdx_append]
    rcases mem_insertBy.mp ha with rfl | ha
    · exact ⟨List.mem_append_right _ (by simp), rfl⟩
    · exact ⟨List.mem_append_left _ (hL a ha).1, (hL a ha).2⟩
  · refine pairwise_orderedInsert (fun a _ hlt => .inl hlt) (fun a ha hge => ?_) ?_ hord
    · rcases (not_lt.mp hge).lt_or_eq with hlt | heq
      · exact .inl hlt
      · exact .inr ⟨heq, hindex a ha⟩
    · refine hord.imp fun hac hba => ?_
      rcases hac with hlt | ⟨heq, -⟩
      · exact hba.trans hlt
      · exact hba.trans_eq heq
  · have hmap : (insertBy (fun a => (fragOf a.1).offset) (b, as.length) L).map (fun a => fragOf a.1) =
        insertBy Fragment.offset (fragOf b) (L.map fun a => fragOf a.1) :=
      map_insertBy _ fun _ _ => ⟨Iff.rfl, Iff.rfl⟩
    exact hmap.symm

theorem not_complete_iff (v : List Fragment) : complete v = false ↔
    ¬ ((∀ i (hi : i < v.length), (v[i]).offset = i * 185) ∧ ∃ f, v.getLast? = some f ∧ f.mf = false) := by
  rw [← Bool.not_eq_true, complete_iff, not_iff_not]
  refine and_congr_left fun _ => ?_
  rw [List.ext_getElem_iff]
  simp

theorem Kept.of_entryStep {as : List (Bytes 1500)} {b : Bytes 1500} {e : Option (List Fragment)} {v : List Fragment}
    (he : Arranged as (keyOf b) (e.getD [])) (h : (entryStep e (fragOf b)).1 = some v) :
    Kept (as ++ [b]) (keyOf b) v := by
  simp only [entryStep] at h
  split at h
  · simp at h
  · rename_i hc
    obtain rfl := Option.some.inj h
    exact ⟨insertBy_ne_nil, he.insert, (not_complete_iff _).mp (Bool.not_eq_true _ ▸ hc)⟩

theorem kept_after (as : List (Bytes 1500)) : ∀ k v, after emptyDict as k = some v → Kept as k v := by
  induction as using List.reverseRecOn with
  | nil => simp [after, emptyDict]
  | append_singleton as b ih =>
    intro k v h
    rw [after_concat] at h
    by_cases hk : k = keyOf b
    · subst hk
      rw [receive_fst_self] at h
      refine Kept.of_entryStep ?_ h
      cases he : after emptyDict as (keyOf b) with
      | none => exact ⟨[], by simp, .nil, rfl⟩
      | some w => exact (ih _ w he).arranged
    · rw [receive_fst_ne _ _ hk] at h
      obtain ⟨hne, harr, hinc⟩ := ih k v h
      exact ⟨hne, harr.concat b, hinc⟩

/-- **The representation of `fragmentDict`.** After any arrivals every vector is kept as `Kept` says, `back()` has
never been called on an empty vector, and the next call does not do so either and changes the entry of its key at
most. -/
theorem fragmentDict_kept (as : List (Bytes 1500)) : ∃ dict, received as = some dict ∧
    (∀ k v, dict k = some v → Kept as k v) ∧
    ∀ b, ∃ dict' up, receiveBack dict b = some (dict', up) ∧ ∀ k, k ≠ keyOf b → dict' k = dict k := by
  refine ⟨after emptyDict as, received_eq as, kept_after as, fun b => ?_⟩
  exact ⟨_, _, receiveBack_eq _ b, fun k hk => receive_fst_ne _ b hk⟩

end IPLayer
end Nachos
