/-
# Lists are sequences

What `List` and `SortedList` of `lib/list.cc` are for: sequences into which items are put, at one
of the ends or where they belong, and from which they are taken. A kind of list is given by the
functions that put an item in; taking out is the same for both.

Every run on sequences is a run on the lists in memory (`run_refines`): the calls return, with the
same items, and following `next` from `first` visits the sequence. A sorted list stays sorted when
`compare` is a total preorder (`sorted_step`).

Key definitions: `Sequence.step`, `ListState.step`, `IsSequence`, `TotalPreorder`.
-/
import NachosNet.Basis.Arrange
import NachosNet.Basis.Run
import NachosNet.Lib.LinkedList

namespace Nachos

open Basis

/-- A call; `π` are the places for an item. -/
inductive ListEvent (π α : Type*)
  | put (place : π) (item : α)
  | removeFront
  | remove (item : α)

/-- A sequence, and what `RemoveFront` has returned. -/
structure Sequence (α : Type*) where
  items : List α
  out : List α
  deriving DecidableEq

/-- A list in memory, and what `RemoveFront` has returned. -/
structure ListState (α : Type*) where
  mem : Cells α
  list : LinkedList
  out : List α

variable {π α : Type*}

/-- The new list in some memory. -/
def ListState.init (m : Cells α) : ListState α := ⟨m, .init, []⟩

/-! ### What a list means -/

/-- Following `next` from `first` visits the items and ends at `last`, and the fields say so. -/
structure IsSequence (m : Cells α) (l : LinkedList) (items : List α) : Prop where
  visits : ∃ L : List (Ref × α), Seg m l.first L none ∧ L.map Prod.snd = items ∧
    ∀ r item, L.getLast? = some (r, item) → l.last = some r ∧ m.lookup r = some ⟨item, none⟩
  num : l.numInList = items.length
  null : l.first = none ∧ l.last = none ↔ items = []

/-- `compare` is the comparison of a total preorder. -/
structure TotalPreorder (compare : α → α → ℤ) : Prop where
  swap : ∀ x y, compare x y < 0 ↔ 0 < compare y x
  trans : ∀ x y z, compare x y ≤ 0 → compare y z ≤ 0 → compare x z ≤ 0

/-- The list in memory has the items of the sequence, each once. -/
structure Means (s : ListState α) (a : Sequence α) : Prop where
  legal : ∃ L, s.list.Legal s.mem L ∧ L.map Prod.snd = a.items
  nodup : a.items.Nodup
  out : s.out = a.out

variable {s : ListState α} {a a' : Sequence α}

theorem Means.isSequence (h : Means s a) : IsSequence s.mem s.list a.items := by
  obtain ⟨⟨L, hL, hitems⟩, -, -⟩ := h
  refine ⟨⟨L, hL.seg, hitems, fun r item hlast => ?_⟩, ?_, ?_⟩
  · have hne : L ≠ [] := fun hnil => by simp [hnil] at hlast
    obtain ⟨K, r', x', rfl, hl, hr, -⟩ := hL.exists_last hne
    rw [List.getLast?_append_of_ne_nil _ (List.cons_ne_nil _ _)] at hlast
    obtain ⟨rfl, rfl⟩ := Prod.mk.inj (Option.some.inj hlast)
    exact ⟨hl, hr⟩
  · rw [hL.num, ← hitems, List.length_map]
  · rw [← hitems, List.map_eq_nil_iff]
    constructor
    · rintro ⟨hfirst, -⟩
      cases L with
      | nil => rfl
      | cons b L =>
        have hsome := (seg_cons.mp hL.seg).1
        rw [hfirst] at hsome
        simp at hsome
    · rintro rfl
      exact ⟨seg_nil.mp hL.seg, hL.last⟩

/-! ### Where items are put -/

/-- Where `Append` and `Prepend` put an item. -/
inductive End
  | front
  | back
  deriving DecidableEq

def End.place : End → α → List α → List α
  | front, item, items => item :: items
  | back, item, items => items ++ [item]

/-- `Insert` puts an item before the first that is larger. -/
def SortedList.place (compare : α → α → ℤ) (_ : Unit) (item : α) (items : List α) : List α :=
  items.orderedInsert (fun x y => compare x y < 0) item

/-- No item is larger than one behind it. -/
def Sorted (compare : α → α → ℤ) (items : List α) : Prop := items.Pairwise fun x y => compare x y ≤ 0

section

variable {compare : α → α → ℤ} (hc : TotalPreorder compare)

include hc

theorem TotalPreorder.le_of_not_lt {x y : α} (h : ¬ compare x y < 0) : compare y x ≤ 0 :=
  not_lt.mp fun hlt => h ((hc.swap x y).mpr hlt)

theorem TotalPreorder.refl (x : α) : compare x x ≤ 0 :=
  hc.le_of_not_lt fun h => absurd ((hc.swap x x).mp h) (not_lt.mpr h.le)

theorem TotalPreorder.lt_of_lt_of_le {x y z : α} (h : compare x y < 0) (h' : compare y z ≤ 0) : compare x z < 0 := by
  by_contra hnot
  have hzy : compare y x ≤ 0 := hc.trans y z x h' (hc.le_of_not_lt hnot)
  exact absurd ((hc.swap x y).mp h) (not_lt.mpr hzy)

theorem sorted_place {items : List α} (h : Sorted compare items) (item : α) :
    Sorted compare (SortedList.place compare () item items) :=
  pairwise_orderedInsert (fun _ _ hlt => hlt.le) (fun _ _ hnot => hc.le_of_not_lt hnot)
    (h.imp fun hle hlt => hc.lt_of_lt_of_le hlt hle) h

theorem place_eq (item : α) : ∀ {items : List α}, Sorted compare items → ∃ before after, items = before ++ after ∧
    SortedList.place compare () item items = before ++ item :: after ∧ (∀ x ∈ before, compare x item ≤ 0) ∧
    ∀ x ∈ after, compare item x < 0
  | [], _ => ⟨[], [], rfl, rfl, by simp, by simp⟩
  | y :: items, h => by
    obtain ⟨hy, hsorted⟩ := List.pairwise_cons.mp h
    by_cases hlt : compare item y < 0
    · refine ⟨[], y :: items, rfl, List.orderedInsert_cons_of_le _ items hlt, by simp, fun x hx => ?_⟩
      rcases List.mem_cons.mp hx with rfl | hx
      · exact hlt
      · exact hc.lt_of_lt_of_le hlt (hy x hx)
    · obtain ⟨before, after, rfl, hplace, hbefore, hafter⟩ := place_eq item hsorted
      refine ⟨y :: before, after, rfl, ?_, fun x hx => ?_, hafter⟩
      · rw [List.cons_append, ← hplace]
        exact List.orderedInsert_of_not_le _ _ hlt
      · rcases List.mem_cons.mp hx with rfl | hx
        · exact hc.le_of_not_lt hlt
        · exact hbefore x hx

end

/-! ### Calls -/

variable [DecidableEq α]

/-- A call on a sequence: what is put in is new, what is taken out is there. -/
def Sequence.step (place : π → α → List α → List α) (a : Sequence α) : ListEvent π α → Option (Sequence α)
  | .put p item => if item ∈ a.items then none else some ⟨place p item a.items, a.out⟩
  | .removeFront =>
    match a.items with
    | [] => none
    | item :: items => some ⟨items, a.out ++ [item]⟩
  | .remove item => if item ∈ a.items then some ⟨a.items.erase item, a.out⟩ else none

/-- The call on a list; `put` are the functions that put in an item. -/
def ListState.step (put : π → Cells α → LinkedList → α → Option (Cells α × LinkedList)) (s : ListState α) :
    ListEvent π α → Option (ListState α)
  | .put p item => (put p s.mem s.list item).map fun r => ⟨r.1, r.2, s.out⟩
  | .removeFront => (s.list.removeFront s.mem).map fun r => ⟨r.2.1, r.2.2, s.out ++ [r.1]⟩
  | .remove item => (s.list.remove s.mem item).map fun r => ⟨r.1, r.2, s.out⟩

def End.put (A : Allocator) : End → Cells α → LinkedList → α → Option (Cells α × LinkedList)
  | front => LinkedList.prepend A
  | back => LinkedList.append A

def SortedList.put (A : Allocator) (compare : α → α → ℤ) (_ : Unit) :
    Cells α → LinkedList → α → Option (Cells α × LinkedList) := SortedList.insert A compare

/-! ### Runs -/

/-- The functions `put` put an item of a legal list where `place` does. -/
def Puts (put : π → Cells α → LinkedList → α → Option (Cells α × LinkedList))
    (place : π → α → List α → List α) : Prop :=
  ∀ p m l L item, LinkedList.Legal m l L → item ∉ L.map Prod.snd →
    ∃ m' l' L', put p m l item = some (m', l') ∧ l'.Legal m' L' ∧
      L'.map Prod.snd = place p item (L.map Prod.snd) ∧ (place p item (L.map Prod.snd)).Perm (item :: L.map Prod.snd)

theorem puts_ends (A : Allocator) : Puts (α := α) (End.put A) End.place := by
  intro p m l L item h hnew
  cases p with
  | front =>
    obtain ⟨m', l', hput, hl', -⟩ := LinkedList.prepend_legal A h hnew
    exact ⟨m', l', _, hput, hl', rfl, .refl _⟩
  | back =>
    obtain ⟨m', l', hput, hl', -⟩ := LinkedList.append_legal A h hnew
    exact ⟨m', l', _, hput, hl', by simp [End.place], List.perm_append_singleton ..⟩

theorem puts_sorted (A : Allocator) (compare : α → α → ℤ) :
    Puts (SortedList.put A compare) (SortedList.place compare) := by
  intro p m l L item h hnew
  obtain ⟨m', l', hput, hl', -⟩ := SortedList.insert_legal A compare h hnew
  exact ⟨m', l', _, hput, hl', SortedList.map_inserted .., List.perm_orderedInsert ..⟩

variable {put : π → Cells α → LinkedList → α → Option (Cells α × LinkedList)} {place : π → α → List α → List α}

theorem step_means (hp : Puts put place) (e : ListEvent π α) (h : Means s a) (ha : a.step place e = some a') :
    ∃ s', s.step put e = some s' ∧ Means s' a' := by
  obtain ⟨⟨L, hL, hitems⟩, hnd, hout⟩ := h
  cases e with
  | put p item =>
    simp only [Sequence.step] at ha
    split at ha
    · simp at ha
    · rename_i hnew
      obtain rfl := Option.some.inj ha
      obtain ⟨m', l', L', hput, hl', hL', hperm⟩ := hp p s.mem s.list L item hL (hitems ▸ hnew)
      rw [hitems] at hL' hperm
      refine ⟨⟨m', l', s.out⟩, by rw [ListState.step, hput, Option.map_some], ⟨L', hl', hL'⟩, ?_, hout⟩
      exact hperm.nodup_iff.mpr (List.nodup_cons.mpr ⟨hnew, hnd⟩)
  | removeFront =>
    cases L with
    | nil =>
      rw [List.map_nil] at hitems
      simp [Sequence.step, ← hitems] at ha
    | cons b L =>
      obtain ⟨r, item⟩ := b
      rw [List.map_cons] at hitems
      simp only [Sequence.step, ← hitems] at ha
      obtain rfl := Option.some.inj ha
      obtain ⟨m', l', hf, hl', -⟩ := LinkedList.removeFront_legal hL
      refine ⟨⟨m', l', s.out ++ [item]⟩, by rw [ListState.step, hf, Option.map_some], ⟨L, hl', rfl⟩, ?_, ?_⟩
      · exact (List.nodup_cons.mp (hitems ▸ hnd)).2
      · rw [hout]
  | remove item =>
    simp only [Sequence.step] at ha
    split at ha
    · rename_i hmem
      obtain rfl := Option.some.inj ha
      obtain ⟨m', l', hf, hl', -⟩ := LinkedList.remove_legal hL (hitems ▸ hmem) (hitems ▸ hnd)
      refine ⟨⟨m', l', s.out⟩, by rw [ListState.step, hf, Option.map_some], ⟨_, hl', ?_⟩, hnd.erase item, hout⟩
      rw [LinkedList.map_without, hitems]
    · simp at ha

theorem run_refines (hp : Puts put place) (m : Cells α) {es : List (ListEvent π α)}
    (h : exec (Sequence.step place) ⟨[], []⟩ es = some a) :
    ∃ s, exec (ListState.step put) (.init m) es = some s ∧ Means s a := by
  refine exec_refines (fun s a e a' => step_means hp e) es _ _ a ?_ h
  exact ⟨⟨[], LinkedList.legal_init m, rfl⟩, List.nodup_nil, rfl⟩

/-! ### Sorted lists -/

theorem sorted_step {compare : α → α → ℤ} (hc : TotalPreorder compare) {e : ListEvent Unit α}
    (h : Sorted compare a.items) (ha : a.step (SortedList.place compare) e = some a') : Sorted compare a'.items := by
  cases e with
  | put p item =>
    simp only [Sequence.step] at ha
    split at ha
    · simp at ha
    · obtain rfl := Option.some.inj ha
      exact sorted_place hc h item
  | removeFront =>
    simp only [Sequence.step] at ha
    split at ha
    · simp at ha
    · rename_i hitems
      obtain rfl := Option.some.inj ha
      rw [hitems] at h
      exact (List.pairwise_cons.mp h).2
  | remove item =>
    simp only [Sequence.step] at ha
    split at ha
    · obtain rfl := Option.some.inj ha
      exact h.sublist List.erase_sublist
    · simp at ha

theorem sorted_run {compare : α → α → ℤ} (hc : TotalPreorder compare) {es : List (ListEvent Unit α)}
    (h : exec (Sequence.step (SortedList.place compare)) ⟨[], []⟩ es = some a) : Sorted compare a.items := by
  have hinit : Sorted compare (⟨[], []⟩ : Sequence α).items := List.Pairwise.nil
  exact exec_induction (P := fun _ a => Sorted compare a.items) hinit
    (fun _ _ _ _ ih hstep => sorted_step hc ih hstep) es a h

/-- **Lists are sequences.** Every sequence of `Append`, `Prepend`, `RemoveFront` and `Remove` on a list in any memory
returns and does what it does on a sequence. The same holds of a sorted list; when `compare` is a total preorder, its
items stay sorted, `Insert` puts an item after those that are equal, and `RemoveFront` returns a least one. -/
theorem lists_are_sequences (A : Allocator) (m : Cells α) :
    (∀ es a, exec (Sequence.step End.place) ⟨[], []⟩ es = some a →
      ∃ s, exec (ListState.step (End.put A)) (.init m) es = some s ∧ IsSequence s.mem s.list a.items ∧ s.out = a.out) ∧
    ∀ compare : α → α → ℤ, TotalPreorder compare →
      ∀ es a, exec (Sequence.step (SortedList.place compare)) ⟨[], []⟩ es = some a →
        ∃ s, exec (ListState.step (SortedList.put A compare)) (.init m) es = some s ∧
          IsSequence s.mem s.list a.items ∧ s.out = a.out ∧ Sorted compare a.items ∧
          (∀ item, item ∉ a.items → ∃ m' l' before after,
            SortedList.insert A compare s.mem s.list item = some (m', l') ∧
            a.items = before ++ after ∧ IsSequence m' l' (before ++ item :: after) ∧
            (∀ x ∈ before, compare x item ≤ 0) ∧ ∀ x ∈ after, compare item x < 0) ∧
          ∀ item m' l', s.list.removeFront s.mem = some (item, m', l') →
            item ∈ a.items ∧ ∀ x ∈ a.items, compare item x ≤ 0 := by
  refine ⟨fun es a h => ?_, fun compare hc es a h => ?_⟩
  · obtain ⟨s, hs, hmeans⟩ := run_refines (puts_ends A) m h
    exact ⟨s, hs, hmeans.isSequence, hmeans.out⟩
  · obtain ⟨s, hs, hmeans⟩ := run_refines (puts_sorted A compare) m h
    have hsorted := sorted_run hc h
    refine ⟨s, hs, hmeans.isSequence, hmeans.out, hsorted, fun item hnew => ?_, fun item m' l' hf => ?_⟩
    · have hstep : a.step (SortedList.place compare) (.put () item) =
          some ⟨SortedList.place compare () item a.items, a.out⟩ := if_neg hnew
      obtain ⟨s', hs', hmeans'⟩ := step_means (puts_sorted A compare) _ hmeans hstep
      obtain ⟨⟨m', l'⟩, hput, rfl⟩ := Option.map_eq_some_iff.mp hs'
      obtain ⟨before, after, hitems, hplace, hbefore, hafter⟩ := place_eq hc item hsorted
      have hseq := hmeans'.isSequence
      simp only [hplace] at hseq
      exact ⟨m', l', before, after, hput, hitems, hseq, hbefore, hafter⟩
    · obtain ⟨L, hL, hitems⟩ := hmeans.legal
      cases L with
      | nil =>
        rw [LinkedList.removeFront_nil hL] at hf
        simp at hf
      | cons b L =>
        obtain ⟨r, x⟩ := b
        obtain ⟨m'', l'', hf', -⟩ := LinkedList.removeFront_legal hL
        rw [hf'] at hf
        obtain ⟨rfl, -⟩ := Prod.mk.inj (Option.some.inj hf)
        rw [← hitems] at hsorted ⊢
        refine ⟨List.mem_cons_self, fun y hy => ?_⟩
        rcases List.mem_cons.mp hy with rfl | hy
        · exact hc.refl y
        · exact (List.pairwise_cons.mp hsorted).1 y hy

/-- Three items by their tens: 13 comes out first, and 25 stays behind its equal 21. -/
theorem lists_are_sequences_tens : ∃ s : ListState ℤ,
    exec (ListState.step (SortedList.put .above fun x y => x / 10 - y / 10)) (.init ⟨∅, 0⟩)
      [.put () 21, .put () 13, .put () 25, .removeFront] = some s ∧
    IsSequence s.mem s.list [21, 25] ∧ s.out = [13] := by
  have hc : TotalPreorder fun x y : ℤ => x / 10 - y / 10 := ⟨fun x y => by omega, fun x y z => by omega⟩
  obtain ⟨s, hs, hseq, hout, -⟩ := (lists_are_sequences .above ⟨∅, 0⟩).2 _ hc
    [.put () 21, .put () 13, .put () 25, .removeFront] ⟨[21, 25], [13]⟩ (by decide +kernel)
  exact ⟨s, hs, hseq, hout⟩

end Nachos
