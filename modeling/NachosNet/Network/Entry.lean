/-
# One entry of `fragmentDict`

An arrival changes the entry of its own key only, so the map follows one
automaton per key: `entryStep` takes the entry and a fragment to the entry
afterwards and the buffer handed up, if any (`receive_eq`), and the entry of
a key after any arrivals is what the fragments of that key made of it
(`after_key`).

Key definitions: `entryStep`, `entryAfter`.
Key theorems: `complete_iff`, `receive_fst_self`, `receive_fst_ne`, `receive_snd`, `after_key`.
-/
import NachosNet.Network.Post
import Mathlib.Data.List.Induction

namespace Nachos
namespace IPLayer

open Basis

theorem inOrder_iff : ∀ (v : List Fragment) (i : ℕ),
    inOrder i v = true ↔ v.map Fragment.offset = (List.range' i v.length).map (· * 185)
  | [], i => by simp [inOrder]
  | f :: v, i => by
    unfold inOrder
    by_cases h : f.offset = i * 185
    · simp [h, inOrder_iff v, List.range'_succ]
    · simp [h, List.range'_succ]

theorem complete_iff (v : List Fragment) : complete v = true ↔
    v.map Fragment.offset = (List.range v.length).map (· * 185) ∧
      ∃ f, v.getLast? = some f ∧ f.mf = false := by
  unfold complete
  rw [Bool.and_eq_true, inOrder_iff, ← List.range_eq_range']
  refine and_congr_right fun _ => ?_
  cases v.getLast? with
  | none => simp
  | some f => simp

/-- Numbered fragments are complete only when they are all there, each once
and in order. -/
theorem complete_numbered_iff {n : ℕ} {p : ℕ → Fragment} (hn : 0 < n)
    (hoff : ∀ i < n, (p i).offset = i * 185) (hmf : ∀ i < n, (p i).mf = decide (i < n - 1)) {L : List ℕ}
    (hL : ∀ i ∈ L, i < n) : complete (L.map p) = true ↔ L = List.range n := by
  rw [complete_iff]
  have hinj : Function.Injective fun i : ℕ => i * 185 := fun a b h => by
    simp only at h
    omega
  have hmap : (L.map p).map Fragment.offset = L.map (· * 185) := by
    rw [List.map_map]
    exact List.map_congr_left fun i hi => hoff i (hL i hi)
  rw [hmap, List.length_map, (List.map_injective_iff.mpr hinj).eq_iff]
  constructor
  · rintro ⟨hr, f, hf, hlast⟩
    have hne : L ≠ [] := by
      rintro rfl
      simp at hf
    have hlen : 0 < L.length := List.length_pos_iff.mpr hne
    have hback : L.getLast? = some (L.length - 1) := by
      rw [hr]
      simp [List.getLast?_range, hne]
    have hlt : L.length - 1 < n := hL _ (List.mem_of_getLast? hback)
    -- the last fragment has `MF = 0`, so it is the datagram's last
    have hge : n - 1 ≤ L.length - 1 := by
      rw [List.getLast?_map, hback, Option.map_some, Option.some.injEq] at hf
      rw [← hf, hmf _ hlt] at hlast
      simpa using hlast
    rw [hr]
    congr 1
    omega
  · rintro rfl
    refine ⟨by simp, p (n - 1), ?_, ?_⟩
    · rw [List.getLast?_map, List.getLast?_range, if_neg (by omega)]
      rfl
    · rw [hmf _ (by omega)]
      simp

theorem length_le_of_complete {v : List Fragment} (hc : complete v = true) (h : ∀ f ∈ v, f.offset < 8192) :
    0 < v.length ∧ v.length ≤ 45 := by
  obtain ⟨hoff, f, hf, -⟩ := (complete_iff v).mp hc
  have hpos : 0 < v.length := List.length_pos_iff.mpr (by rintro rfl; simp at hf)
  have hmem : (v.length - 1) * 185 ∈ v.map Fragment.offset := by
    rw [hoff]
    exact List.mem_map_of_mem (List.mem_range.mpr (by omega))
  obtain ⟨g, hg, hgo⟩ := List.mem_map.mp hmem
  have := h g hg
  omega

/-! ### Keys -/

theorem toNat_charOf (a : Byte) : (charOf a).toNat = a.toNat := by
  have hv : a.toNat.isValidChar := Or.inl (by have := a.isLt; omega)
  unfold charOf Char.ofNat
  rw [dif_pos hv]
  rfl

theorem charOf_inj : Function.Injective charOf := by
  intro a b h
  apply BitVec.eq_of_toNat_eq
  rw [← toNat_charOf, h, toNat_charOf]

/-- The sums of two addresses, byte by byte. -/
def sums (srcIP destIP : IP) : List Byte := List.zipWith (· + ·) srcIP.1 destIP.1

theorem computeHash_eq_iff {s d s' d' : IP} {m n : ℕ} :
    computeHash s d m = computeHash s' d' n ↔ sums s d = sums s' d' ∧ m = n := by
  have hsums : ∀ s d : IP, List.zipWith (fun x y => charOf (x + y)) s.1 d.1 = (sums s d).map charOf := by
    intro s d
    rw [sums, List.map_zipWith]
  have hlen : ∀ s d : IP, ((sums s d).map charOf).length = 4 := by
    intro s d
    rw [List.length_map, sums, List.length_zipWith, s.2, d.2]
    rfl
  unfold computeHash
  rw [hsums, hsums]
  constructor
  · intro h
    obtain ⟨h1, h2⟩ := List.append_inj h ((hlen s d).trans (hlen s' d').symm)
    exact ⟨List.map_injective_iff.mpr charOf_inj h1, toDigits_inj h2⟩
  · rintro ⟨h1, h2⟩
    rw [h1, h2]

theorem zipWith_add_right_cancel : ∀ {a b c : List Byte}, a.length = c.length → b.length = c.length →
    List.zipWith (· + ·) a c = List.zipWith (· + ·) b c → a = b
  | [], [], _, _, _, _ => rfl
  | [], _ :: _, [], _, hb, _ => by simp at hb
  | _ :: _, _, [], ha, _, _ => by simp at ha
  | x :: a, y :: b, z :: c, ha, hb, h => by
    simp only [List.zipWith_cons_cons, List.cons.injEq, BitVec.add_left_inj] at h
    rw [h.1, zipWith_add_right_cancel (by simpa using ha) (by simpa using hb) h.2]

/-- With one destination the sums determine the source. -/
theorem eq_of_sums_eq {s s' d : IP} (h : sums s d = sums s' d) : s = s' :=
  Subtype.ext (zipWith_add_right_cancel (s.2.trans d.2.symm) (s'.2.trans d.2.symm) h)

/-! ### The entry of a key -/

/-- A fragment comes to the entry of its key: the entry afterwards, and the
buffer handed up if it is now complete. -/
def entryStep (e : Option (List Fragment)) (f : Fragment) :
    Option (List Fragment) × Option (List Byte) :=
  let v := insertBy Fragment.offset f (e.getD [])
  if complete v then (none, some (v.map fun f => f.data.1).flatten) else (some v, none)

/-- The entry after the fragments `fs`. -/
def entryAfter (e : Option (List Fragment)) (fs : List Fragment) : Option (List Fragment) :=
  fs.foldl (fun e f => (entryStep e f).1) e

@[simp] theorem entryAfter_nil (e : Option (List Fragment)) : entryAfter e [] = e := rfl

theorem entryAfter_concat (e : Option (List Fragment)) (fs : List Fragment) (f : Fragment) :
    entryAfter e (fs ++ [f]) = (entryStep (entryAfter e fs) f).1 := by
  simp [entryAfter]

theorem insertToMap_eq (dict : FragmentDict) (key : Text) (f : IPFragment) :
    insertToMap dict key f =
      Function.update dict key (some (insertBy Fragment.offset (Fragment.of f) ((dict key).getD []))) := by
  unfold insertToMap
  cases dict key with
  | none => simp
  | some v => rfl

/-- The fragment a buffer carries. -/
def fragOf (b : Bytes 1500) : Fragment := Fragment.of (IPFragment.ofBytes b)

/-- What `receive` does, with `insertToMap` and `check` put together. -/
theorem receive_eq (dict : FragmentDict) (b : Bytes 1500) : receive dict b =
    (Function.update dict (keyOf b) (entryStep (dict (keyOf b)) (fragOf b)).1,
      (entryStep (dict (keyOf b)) (fragOf b)).2) := by
  unfold receive check entryStep
  rw [insertToMap_eq]
  simp only [Function.update_self, Option.getD_some, fragOf]
  by_cases h : complete (insertBy Fragment.offset (Fragment.of (IPFragment.ofBytes b))
      ((dict (keyOf b)).getD [])) = true
  · simp [h]
  · simp [h]

theorem receive_fst_self (dict : FragmentDict) (b : Bytes 1500) :
    (receive dict b).1 (keyOf b) = (entryStep (dict (keyOf b)) (fragOf b)).1 := by
  rw [receive_eq]
  exact Function.update_self ..

theorem receive_fst_ne (dict : FragmentDict) (b : Bytes 1500) {k : Text} (h : k ≠ keyOf b) :
    (receive dict b).1 k = dict k := by
  rw [receive_eq]
  exact Function.update_of_ne h ..

theorem receive_snd (dict : FragmentDict) (b : Bytes 1500) :
    (receive dict b).2 = (entryStep (dict (keyOf b)) (fragOf b)).2 := by
  rw [receive_eq]

theorem after_concat (dict : FragmentDict) (as : List (Bytes 1500)) (b : Bytes 1500) :
    after dict (as ++ [b]) = (receive (after dict as) b).1 := by
  simp [after]

/-- The entry of a key is made by the arrivals of that key alone. -/
theorem after_key (dict : FragmentDict) (k : Text) (as : List (Bytes 1500)) :
    after dict as k = entryAfter (dict k) ((as.filter fun b => keyOf b = k).map fragOf) := by
  induction as using List.reverseRecOn with
  | nil => rfl
  | append_singleton as b ih =>
    rw [after_concat, List.filter_append, List.map_append]
    by_cases h : keyOf b = k
    · subst h
      rw [receive_fst_self, ih, List.filter_singleton]
      simp [entryAfter_concat]
    · rw [receive_fst_ne _ _ (Ne.symm h), ih, List.filter_singleton]
      simp [h]

end IPLayer
end Nachos
