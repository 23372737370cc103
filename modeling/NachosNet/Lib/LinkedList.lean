/-
# Lists

`List` and `SortedList` of `lib/list.cc`: elements in memory with `first`, `last` and
`numInList` beside them. A call ends without a result when an assertion fails, when a pointer is
followed that is NULL or not allocated, and when a loop does not come to its end.

`Legal m l L` is that the list runs through the cells `L`, and that the three fields are right.
Every operation has one lemma that says what becomes of `L` and that no other cell changes
(`append_legal`, `prepend_legal`, `removeFront_legal`, `remove_legal`, `SortedList.insert_legal`),
and the assertions of `SanityCheck` hold for every legal list (`sanityCheck_legal`).

Key definitions: `LinkedList`, `LinkedList.append`, `LinkedList.remove`, `SortedList.insert`,
`LinkedList.Legal`.
-/
import Mathlib.Data.List.Sort
import NachosNet.Basis.Linked

namespace Nachos

open Basis

/-- The fields of a `List`. -/
structure LinkedList where
  first : Option Ref
  last : Option Ref
  numInList : ℤ

namespace LinkedList

variable {α : Type*} [DecidableEq α]

def assert (p : Prop) [Decidable p] : Option Unit := if p then some () else none

theorem assert_eq {p : Prop} [Decidable p] (h : p) : assert p = some () := if_pos h

/-- `List()`. -/
def init : LinkedList := ⟨none, none, 0⟩

def isEmpty (l : LinkedList) : Bool := l.numInList = 0

def isInList (m : Cells α) (l : LinkedList) (item : α) : Option Bool :=
  (m.find (fun x => item = x) m.rounds l.first).map Option.isSome

/-- `numInList++` and the assertion that the item is in the list. -/
def counted (m : Cells α) (l : LinkedList) (item : α) : Option (Cells α × LinkedList) :=
  let l := { l with numInList := l.numInList + 1 }
  (isInList m l item).bind fun found => (assert (found = true)).map fun _ => (m, l)

variable (A : Allocator)

def append (m : Cells α) (l : LinkedList) (item : α) : Option (Cells α × LinkedList) :=
  let element := m.newRef A
  let m := m.new A ⟨item, none⟩
  (isInList m l item).bind fun found =>
  (assert (found = false)).bind fun _ =>
  if l.isEmpty then counted m { l with first := some element, last := some element } item
  else (m.setNext l.last (some element)).bind fun m => counted m { l with last := some element } item

def prepend (m : Cells α) (l : LinkedList) (item : α) : Option (Cells α × LinkedList) :=
  let element := m.newRef A
  let m := m.new A ⟨item, none⟩
  (isInList m l item).bind fun found =>
  (assert (found = false)).bind fun _ =>
  if l.isEmpty then counted m { l with first := some element, last := some element } item
  else (m.setNext (some element) l.first).bind fun m => counted m { l with first := some element } item

def removeFront (m : Cells α) (l : LinkedList) : Option (α × Cells α × LinkedList) :=
  (assert (l.isEmpty = false)).bind fun _ =>
  (m.get l.first).bind fun c =>
  (m.delete l.first).map fun m =>
    (c.item, m, if l.first = l.last then ⟨none, none, l.numInList - 1⟩
      else ⟨c.next, l.last, l.numInList - 1⟩)

/-- The loop of `Remove`, with the assertion after it. -/
def removeAfter (m : Cells α) (l : LinkedList) (item : α) :
    ℕ → Option Ref → Option Ref → Option (Cells α × LinkedList)
  | 0, _, _ => none
  | _ + 1, _, none => none
  | k + 1, prev, some ptr => (m.lookup ptr).bind fun c =>
    if item = c.item then
      (m.setNext prev c.next).bind fun m =>
      (m.delete (some ptr)).map fun m =>
        (m, ⟨l.first, if c.next = none then prev else l.last, l.numInList - 1⟩)
    else removeAfter m l item k (some ptr) c.next

def remove (m : Cells α) (l : LinkedList) (item : α) : Option (Cells α × LinkedList) :=
  (isInList m l item).bind fun found =>
  (assert (found = true)).bind fun _ =>
  (m.get l.first).bind fun c =>
  (if item = c.item then
    (removeFront m l).bind fun r => (assert (item = r.1)).map fun _ => r.2
  else removeAfter m l item m.rounds l.first c.next).bind fun r =>
  (isInList r.1 r.2 item).bind fun found =>
  (assert (found = false)).map fun _ => r

/-- The loop of `SanityCheck` from `ptr` to `last`; `numFound` at its end. -/
def countTo (m : Cells α) (l : LinkedList) : ℕ → ℤ → Option Ref → Option ℤ
  | 0, _, _ => none
  | k + 1, numFound, ptr =>
    if ptr = l.last then some numFound
    else (assert (numFound + 1 ≤ l.numInList)).bind fun _ =>
      (m.get ptr).bind fun c => countTo m l k (numFound + 1) c.next

def sanityCheck (m : Cells α) (l : LinkedList) : Option Unit :=
  if l.first = none then assert (l.numInList = 0 ∧ l.last = none)
  else if l.first = l.last then
    (m.get l.last).bind fun c => assert (l.numInList = 1 ∧ c.next = none)
  else
    (countTo m l m.rounds 1 l.first).bind fun numFound =>
    (assert (numFound = l.numInList)).bind fun _ =>
    (m.get l.last).bind fun c => assert (c.next = none)

end LinkedList

namespace SortedList

open LinkedList

variable {α : Type*} [DecidableEq α] (A : Allocator) (compare : α → α → ℤ)

/-- The loop of `Insert`, and what follows it at the end of the list. -/
def insertAfter (m : Cells α) (l : LinkedList) (element : Ref) (item : α) :
    ℕ → Option Ref → Option (Cells α × LinkedList)
  | 0, _ => none
  | k + 1, ptr => (m.get ptr).bind fun c =>
    match c.next with
    | none =>
      (m.setNext l.last (some element)).bind fun m => counted m { l with last := some element } item
    | some next => (m.lookup next).bind fun d =>
      if compare item d.item < 0 then
        (m.setNext (some element) (some next)).bind fun m =>
        (m.setNext ptr (some element)).map fun m => (m, { l with numInList := l.numInList + 1 })
      else insertAfter m l element item k (some next)

def insert (m : Cells α) (l : LinkedList) (item : α) : Option (Cells α × LinkedList) :=
  let element := m.newRef A
  let m := m.new A ⟨item, none⟩
  (isInList m l item).bind fun found =>
  (assert (found = false)).bind fun _ =>
  if l.isEmpty then counted m { l with first := some element, last := some element } item
  else (m.get l.first).bind fun c =>
    if compare item c.item < 0 then
      (m.setNext (some element) l.first).bind fun m => counted m { l with first := some element } item
    else insertAfter compare m l element item m.rounds l.first

end SortedList

namespace LinkedList

variable {α : Type*} {A : Allocator} {m : Cells α} {l : LinkedList} {L : List (Ref × α)} {item : α}

/-! ### Legal lists -/

/-- The list runs through the cells `L`. -/
structure Legal (m : Cells α) (l : LinkedList) (L : List (Ref × α)) : Prop where
  seg : Seg m l.first L none
  last : l.last = L.getLast?.map Prod.fst
  num : l.numInList = L.length

theorem legal_init (m : Cells α) : Legal m init [] := ⟨rfl, rfl, rfl⟩

theorem Legal.isEmpty_iff (h : Legal m l L) : l.isEmpty = true ↔ L = [] := by
  unfold isEmpty
  rw [h.num, decide_eq_true_iff, Int.natCast_eq_zero, List.length_eq_zero_iff]

theorem Legal.exists_last (h : Legal m l L) (hne : L ≠ []) : ∃ K r x, L = K ++ [(r, x)] ∧ l.last = some r ∧
    m.lookup r = some ⟨x, none⟩ ∧ r ∉ K.map Prod.fst := by
  obtain ⟨K, ⟨r, x⟩, rfl⟩ := (List.eq_nil_or_concat' L).resolve_left hne
  obtain ⟨s, -, hs⟩ := seg_append.mp h.seg
  exact ⟨K, r, x, rfl, by rw [h.last]; simp, (seg_singleton.mp hs).2, h.seg.notMem_split.1⟩

theorem Legal.new (A : Allocator) (h : Legal m l L) (c : Cell α) : Legal (m.new A c) l L :=
  ⟨h.seg.new A c, h.last, h.num⟩

theorem removeFront_legal {r : Ref} {x : α} (h : Legal m l ((r, x) :: L)) :
    ∃ m' l', removeFront m l = some (x, m', l') ∧ Legal m' l' L ∧ Keeps m m' ((r, x) :: L) L := by
  obtain ⟨hfirst, next, hr, hL⟩ := seg_cons.mp h.seg
  have hnd : r ∉ L.map Prod.fst := (List.nodup_cons.mp h.seg.nodup).1
  have hempty : l.isEmpty = false := Bool.not_eq_true _ ▸ mt h.isEmpty_iff.mp (List.cons_ne_nil _ _)
  have hseg : Seg (⟨m.map.erase r, m.count⟩ : Cells α) next L none := hL.erase_of_notMem hnd
  have hkeep : Keeps m (⟨m.map.erase r, m.count⟩ : Cells α) ((r, x) :: L) L :=
    ((Untouched.refl m _).erase List.mem_cons_self).keeps_of_subset fun _ => List.mem_cons_of_mem _
  have hnum : l.numInList - 1 = L.length := by
    rw [h.num, List.length_cons]
    omega
  refine ⟨⟨m.map.erase r, m.count⟩, if l.first = l.last then ⟨none, none, l.numInList - 1⟩
    else ⟨next, l.last, l.numInList - 1⟩, ?_, ?_, hkeep⟩
  · unfold removeFront
    rw [assert_eq hempty, hfirst, Option.bind_some, Cells.get_some, hr, Option.bind_some, Cells.delete_some hr,
      Option.map_some]
  · by_cases hL' : L = []
    · subst hL'
      have heq : l.first = l.last := by rw [hfirst, h.last]; rfl
      rw [if_pos heq]
      exact ⟨rfl, rfl, hnum⟩
    · have hlast : l.last = L.getLast?.map Prod.fst := by rw [h.last, List.getLast?_cons_of_ne_nil hL']
      -- the last cell is another one
      have hne : l.first ≠ l.last := by
        rw [hfirst, hlast, List.getLast?_eq_some_getLast hL', Option.map_some, ne_eq, Option.some.injEq]
        exact fun he => hnd (he ▸ List.mem_map_of_mem (List.getLast_mem hL'))
      rw [if_neg hne]
      exact ⟨hseg, hlast, hnum⟩

theorem removeFront_nil (h : Legal m l []) : removeFront m l = none := by
  unfold removeFront assert
  rw [h.isEmpty_iff.mpr rfl, if_neg (by decide), Option.bind_none]

theorem unlink_legal {K : List (Ref × α)} {r r' : Ref} {y x : α} {next : Option Ref}
    (h : Legal m l (K ++ (r, y) :: (r', x) :: L)) (hr' : m.lookup r' = some ⟨x, next⟩) :
    ∃ m', ((m.setNext (some r) next).bind fun m => m.delete (some r')) = some m' ∧
      Legal m' ⟨l.first, if next = none then some r else l.last, l.numInList - 1⟩ (K ++ (r, y) :: L) ∧
      Keeps m m' (K ++ (r, y) :: (r', x) :: L) (K ++ (r, y) :: L) := by
  have hr := h.seg.lookup_of_cons
  obtain ⟨hrK, hrL⟩ := h.seg.notMem_split
  have hseg : Seg m l.first ((K ++ [(r, y)]) ++ (r', x) :: L) none := List.append_cons _ _ _ ▸ h.seg
  obtain ⟨hr'K, hr'L⟩ := hseg.notMem_split
  obtain ⟨s, hK, hs⟩ := seg_append.mp hseg
  obtain ⟨rfl, next', hnext, hL⟩ := seg_cons.mp hs
  obtain ⟨-, rfl⟩ := Cell.mk.inj (Option.some.inj (hr'.symm.trans hnext))
  have hput : (m.put r ⟨y, next⟩).lookup r' = some ⟨x, next⟩ := by
    rw [Cells.lookup_put, if_neg fun he => hrL (by simp [he]), hr']
  rw [Cells.setNext_some hr, Option.bind_some, Cells.delete_some hput]
  refine ⟨_, rfl, ⟨?_, ?_, ?_⟩, ?_⟩
  · rw [List.append_cons]
    have hrL' : r ∉ L.map Prod.fst := fun hm => hrL (List.mem_cons_of_mem _ hm)
    exact seg_append.mpr ⟨next, (hK.redirect hrK).erase_of_notMem hr'K,
      (hL.put_of_notMem hrL' _).erase_of_notMem hr'L⟩
  · cases L with
    | nil =>
      rw [seg_nil.mp hL]
      simp
    | cons b L =>
      rw [(seg_cons.mp hL).1, if_neg (by simp), h.last]
      simp
  · have hnum := h.num
    simp only [List.length_append, List.length_cons] at hnum ⊢
    omega
  · refine Untouched.keeps_of_subset (((Untouched.refl m _).put (.inl (by simp)) _).erase (by simp)) ?_
    intro q hq
    simp only [List.map_append, List.map_cons, List.mem_append, List.mem_cons] at hq ⊢
    tauto

/-! ### `SanityCheck` -/

theorem countTo_legal : ∀ {M K : List (Ref × α)} {r : Ref} {x : α} {k : ℕ}, Legal m l (K ++ (r, x) :: M) →
    M.length < k → countTo m l k (K.length + 1) (some r) = some l.numInList
  | [], K, r, x, k + 1, h, _ => by
    have hlast : l.last = some r := by rw [h.last]; simp
    rw [countTo, if_pos hlast.symm, h.num]
    simp
  | (r', x') :: M, K, r, x, k + 1, h, hk => by
    have hr := h.seg.lookup_of_cons
    have hne : some r ≠ l.last := by
      rw [h.last, List.getLast?_append_of_ne_nil _ (List.cons_ne_nil _ _),
        List.getLast?_cons_of_ne_nil (List.cons_ne_nil _ _), List.getLast?_eq_some_getLast (List.cons_ne_nil _ _)]
      intro he
      have hmem := List.mem_map_of_mem (f := Prod.fst) (List.getLast_mem (List.cons_ne_nil (r', x') M))
      exact h.seg.notMem_split.2 (Option.some.inj he ▸ hmem)
    have hbound : (K.length : ℤ) + 1 + 1 ≤ l.numInList := by
      rw [h.num]
      simp only [List.length_append, List.length_cons]
      omega
    rw [countTo, if_neg hne, assert_eq hbound, Option.bind_some, Cells.get_some, hr, Option.bind_some]
    rw [List.append_cons] at h
    have hrest := countTo_legal (k := k) h (Nat.lt_of_succ_lt_succ hk)
    rw [List.length_append] at hrest
    exact_mod_cast hrest

theorem sanityCheck_legal (h : Legal m l L) : sanityCheck m l = some () := by
  unfold sanityCheck
  cases L with
  | nil =>
    have hfirst : l.first = none := seg_nil.mp h.seg
    rw [if_pos hfirst]
    exact assert_eq ⟨h.num, h.last⟩
  | cons a L =>
    obtain ⟨r, x⟩ := a
    obtain ⟨K, r', x', hL, hlast, hr', -⟩ := h.exists_last (List.cons_ne_nil _ _)
    obtain ⟨hfirst, -⟩ := seg_cons.mp h.seg
    rw [if_neg (by simp [hfirst])]
    by_cases heq : l.first = l.last
    · -- the first cell is the last one, so there is no other
      have hone : L = [] := by
        by_contra hne
        have hnd := h.seg.nodup
        obtain rfl : r = r' := Option.some.inj (hfirst.symm.trans (heq.trans hlast))
        cases K with
        | nil => exact hne (List.cons.inj hL).2
        | cons b K =>
          rw [hL] at hnd
          obtain rfl : (r, x) = b := (List.cons.inj hL).1
          simp at hnd
      subst hone
      rw [if_pos heq, hlast, Cells.get_some, hr', Option.bind_some]
      exact assert_eq ⟨h.num, rfl⟩
    · have hcount : countTo m l m.rounds 1 (some r) = some l.numInList := by
        simpa using countTo_legal (K := []) h (Nat.lt_of_succ_lt h.seg.length_lt_rounds)
      rw [if_neg heq, hfirst, hcount, Option.bind_some, assert_eq rfl, Option.bind_some, hlast, Cells.get_some, hr',
        Option.bind_some]
      exact assert_eq rfl

/-! ### `IsInList` and the assertions -/

variable [DecidableEq α]

theorem isInList_eq (h : Seg m l.first L none) (item : α) :
    isInList m l item = some (decide (item ∈ L.map Prod.snd)) := by
  unfold isInList
  rw [find_seg _ h h.length_lt_rounds, Option.map_some, Option.some.injEq, Bool.eq_iff_iff, List.find?_isSome]
  simp

theorem counted_legal (hseg : Seg m l.first L none) (hlast : l.last = L.getLast?.map Prod.fst)
    (hnum : l.numInList + 1 = L.length) (hmem : item ∈ L.map Prod.snd) :
    ∃ l', counted m l item = some (m, l') ∧ Legal m l' L := by
  have hin : isInList m { l with numInList := l.numInList + 1 } item = some (decide (item ∈ L.map Prod.snd)) :=
    isInList_eq hseg item
  refine ⟨{ l with numInList := l.numInList + 1 }, ?_, hseg, hlast, hnum⟩
  unfold counted
  simp only [hin, Option.bind_some, assert_eq (decide_eq_true hmem), Option.map_some]

/-! ### Putting in an item

The new cell `element` is in memory, and not in the list. -/

section

variable {element : Ref} (he : m.lookup element = some ⟨item, none⟩) (hfresh : element ∉ L.map Prod.fst)

include he

theorem only_legal (h : Legal m l []) : ∃ l',
    counted m { l with first := some element, last := some element } item = some (m, l') ∧
      Legal m l' [(element, item)] := by
  refine counted_legal (seg_singleton.mpr ⟨rfl, he⟩) rfl ?_ (by simp)
  rw [h.num]
  rfl

include hfresh

theorem front_legal (h : Legal m l L) (hL : L ≠ []) : ∃ m' l',
    ((m.setNext (some element) l.first).bind fun m => counted m { l with first := some element } item) =
        some (m', l') ∧
      Legal m' l' ((element, item) :: L) ∧
      ∀ m₀, element ∉ m₀.live → Untouched m₀ m L → Untouched m₀ m' L := by
  have hall : Seg (m.put element ⟨item, l.first⟩) (some element) ((element, item) :: L) none := by
    refine seg_cons.mpr ⟨rfl, l.first, by rw [Cells.lookup_put, if_pos rfl], ?_⟩
    exact h.seg.put_of_notMem hfresh _
  have hlast : l.last = ((element, item) :: L).getLast?.map Prod.fst := by
    rw [List.getLast?_cons_of_ne_nil hL]
    exact h.last
  have hnum : l.numInList + 1 = ((element, item) :: L).length := by rw [h.num]; rfl
  have hmem : item ∈ ((element, item) :: L).map Prod.snd := List.mem_cons_self
  obtain ⟨l', hc, hl'⟩ := counted_legal (l := { l with first := some element }) hall hlast hnum hmem
  rw [Cells.setNext_some he, Option.bind_some]
  exact ⟨_, l', hc, hl', fun m₀ hm₀ hu => hu.put (.inr hm₀) _⟩

theorem back_legal (h : Legal m l L) (hL : L ≠ []) : ∃ m' l',
    ((m.setNext l.last (some element)).bind fun m => counted m { l with last := some element } item) =
        some (m', l') ∧
      Legal m' l' (L ++ [(element, item)]) ∧ ∀ m₀, Untouched m₀ m L → Untouched m₀ m' L := by
  obtain ⟨K, r, x, rfl, hlast, hr, hrK⟩ := h.exists_last hL
  have hne : element ≠ r := fun heq => hfresh (by simp [heq])
  have hall : Seg (m.put r ⟨x, some element⟩) l.first ((K ++ [(r, x)]) ++ [(element, item)]) none := by
    refine seg_append.mpr ⟨_, h.seg.redirect hrK, seg_singleton.mpr ⟨rfl, ?_⟩⟩
    rw [Cells.lookup_put, if_neg hne, he]
  have hnum : l.numInList + 1 = ((K ++ [(r, x)]) ++ [(element, item)]).length := by
    simp only [h.num, List.length_append, List.length_singleton]
    omega
  have hmem : item ∈ ((K ++ [(r, x)]) ++ [(element, item)]).map Prod.snd := by simp
  obtain ⟨l', hc, hl'⟩ := counted_legal (l := { l with last := some element }) hall (by simp) hnum hmem
  rw [hlast, Cells.setNext_some hr, Option.bind_some]
  exact ⟨_, l', hc, hl', fun m₀ hu => hu.put (.inl (by simp)) _⟩

end

/-- What the three ways to put in an item share: a new cell, which is the whole of an empty list and goes
into another one by `rest`. -/
theorem put_legal (A : Allocator) {L' : List (Ref × α)} {rest : Option (Cells α × LinkedList)} (h : Legal m l L)
    (hnew : item ∉ L.map Prod.snd) (hnil : L = [] → L' = [(m.newRef A, item)])
    (hperm : L'.Perm ((m.newRef A, item) :: L))
    (hrest : L ≠ [] → ∃ m' l', rest = some (m', l') ∧ Legal m' l' L' ∧ Untouched m m' L) :
    ∃ m' l', ((isInList (m.new A ⟨item, none⟩) l item).bind fun found =>
        (assert (found = false)).bind fun _ =>
        if l.isEmpty then
          counted (m.new A ⟨item, none⟩) { l with first := some (m.newRef A), last := some (m.newRef A) } item
        else rest) = some (m', l') ∧
      Legal m' l' L' ∧ Keeps m m' L L' := by
  have hnew' := h.new A ⟨item, none⟩
  have hsub : ∀ r ∈ L'.map Prod.fst, r = m.newRef A ∨ r ∈ L.map Prod.fst := fun r hr =>
    List.mem_cons.mp ((hperm.map Prod.fst).mem_iff.mp hr)
  simp only [isInList_eq hnew'.seg item, Option.bind_some, assert_eq (decide_eq_false hnew)]
  by_cases hL : L = []
  · subst hL
    obtain ⟨l', hc, hl'⟩ := only_legal (m.lookup_new_self A ⟨item, none⟩) hnew'
    rw [if_pos (h.isEmpty_iff.mpr rfl), hc]
    rw [← hnil rfl] at hl'
    exact ⟨_, l', rfl, hl', (Untouched.new A m _ _).keeps_new hsub⟩
  · obtain ⟨m', l', hc, hl', hu⟩ := hrest hL
    rw [if_neg (mt h.isEmpty_iff.mp hL)]
    exact ⟨m', l', hc, hl', hu.keeps_new hsub⟩

theorem append_legal (A : Allocator) (h : Legal m l L) (hnew : item ∉ L.map Prod.snd) :
    ∃ m' l', append A m l item = some (m', l') ∧ Legal m' l' (L ++ [(m.newRef A, item)]) ∧
      Keeps m m' L (L ++ [(m.newRef A, item)]) := by
  apply put_legal A h hnew
  · rintro rfl
    rfl
  · exact List.perm_append_singleton _ _
  · intro hL
    obtain ⟨m', l', hc, hl', hu⟩ :=
      back_legal (m.lookup_new_self A ⟨item, none⟩) (h.seg.newRef_notMem A) (h.new A _) hL
    exact ⟨m', l', hc, hl', hu m (Untouched.new A m _ L)⟩

theorem prepend_legal (A : Allocator) (h : Legal m l L) (hnew : item ∉ L.map Prod.snd) :
    ∃ m' l', prepend A m l item = some (m', l') ∧ Legal m' l' ((m.newRef A, item) :: L) ∧
      Keeps m m' L ((m.newRef A, item) :: L) := by
  apply put_legal A h hnew
  · rintro rfl
    rfl
  · exact List.Perm.refl _
  · intro hL
    obtain ⟨m', l', hc, hl', hu⟩ :=
      front_legal (m.lookup_new_self A ⟨item, none⟩) (h.seg.newRef_notMem A) (h.new A _) hL
    exact ⟨m', l', hc, hl', hu m (newRef_notMem_live A m) (Untouched.new A m _ L)⟩

/-! ### Taking out an item -/

/-- The cells without the first one that has the item. -/
def without (item : α) (L : List (Ref × α)) : List (Ref × α) := L.eraseP fun a => item = a.2

theorem without_cons_of_eq {r : Ref} {x : α} (h : item = x) (L : List (Ref × α)) : without item ((r, x) :: L) = L :=
  List.eraseP_cons_of_pos (decide_eq_true h)

theorem without_cons_of_ne {r : Ref} {x : α} (h : item ≠ x) (L : List (Ref × α)) :
    without item ((r, x) :: L) = (r, x) :: without item L :=
  List.eraseP_cons_of_neg (by simpa using h)

theorem map_without (item : α) : ∀ L : List (Ref × α), (without item L).map Prod.snd = (L.map Prod.snd).erase item
  | [] => rfl
  | (r, x) :: L => by
    by_cases h : item = x
    · rw [without_cons_of_eq h, List.map_cons, h, List.erase_cons_head]
    · have hx : ¬(x == item) = true := by simpa using Ne.symm h
      rw [without_cons_of_ne h, List.map_cons, List.map_cons, List.erase_cons_tail hx, map_without item L]

theorem removeAfter_legal : ∀ {L K : List (Ref × α)} {r : Ref} {y : α} {next : Option Ref} {k : ℕ},
    Legal m l (K ++ (r, y) :: L) → m.lookup r = some ⟨y, next⟩ → item ∈ L.map Prod.snd → L.length < k →
    ∃ m' l', removeAfter m l item k (some r) next = some (m', l') ∧
      Legal m' l' (K ++ (r, y) :: without item L) ∧
      Keeps m m' (K ++ (r, y) :: L) (K ++ (r, y) :: without item L)
  | [], _, _, _, _, _, _, _, hmem, _ => absurd hmem (by simp)
  | (r', x) :: L, K, r, y, next, k + 1, h, hr, hmem, hk => by
    obtain rfl : next = some r' := by
      rw [h.seg.lookup_of_cons] at hr
      exact (Cell.mk.inj (Option.some.inj hr)).2.symm
    have hseg := List.append_cons _ _ _ ▸ h.seg
    obtain ⟨s, -, -, next, hr', -⟩ := seg_append.mp hseg
    rw [removeAfter, hr', Option.bind_some]
    by_cases hx : item = x
    · obtain ⟨m', hm', hl', hkeep⟩ := unlink_legal h hr'
      obtain ⟨m₁, hset, hdel⟩ := Option.bind_eq_some_iff.mp hm'
      rw [if_pos hx, hset, Option.bind_some, hdel, Option.map_some, without_cons_of_eq hx]
      exact ⟨m', _, rfl, hl', hkeep⟩
    · have hmem' : item ∈ L.map Prod.snd := (List.mem_cons.mp hmem).resolve_left hx
      rw [if_neg hx, without_cons_of_ne hx, List.append_cons K, List.append_cons K _ (_ :: L)]
      rw [List.append_cons] at h
      exact removeAfter_legal h hr' hmem' (Nat.lt_of_succ_lt_succ hk)

theorem remove_legal (h : Legal m l L) (hmem : item ∈ L.map Prod.snd) (hnd : (L.map Prod.snd).Nodup) :
    ∃ m' l', remove m l item = some (m', l') ∧ Legal m' l' (without item L) ∧ Keeps m m' L (without item L) := by
  -- the assertion at the end
  have hend : ∀ {m' l'}, Legal m' l' (without item L) →
      ((isInList m' l' item).bind fun found => (assert (found = false)).map fun _ => (m', l')) = some (m', l') := by
    intro m' l' h'
    have hnot : item ∉ (without item L).map Prod.snd := by
      rw [map_without]
      exact hnd.not_mem_erase
    rw [isInList_eq h'.seg, Option.bind_some, assert_eq (decide_eq_false hnot), Option.map_some]
  unfold remove
  simp only [isInList_eq h.seg, Option.bind_some, assert_eq (decide_eq_true hmem)]
  cases L with
  | nil => simp at hmem
  | cons a L =>
    obtain ⟨r, x⟩ := a
    obtain ⟨hfirst, next, hr, hL⟩ := seg_cons.mp h.seg
    rw [hfirst, Cells.get_some, hr, Option.bind_some]
    by_cases hx : item = x
    · rw [without_cons_of_eq hx] at hend ⊢
      obtain ⟨m', l', hf, hl', hk⟩ := removeFront_legal h
      rw [if_pos hx, hf, Option.bind_some, assert_eq hx, Option.map_some, Option.bind_some, hend hl']
      exact ⟨m', l', rfl, hl', hk⟩
    · have hlen : L.length < m.rounds := Nat.lt_of_succ_lt h.seg.length_lt_rounds
      obtain ⟨m', l', hf, hl', hk⟩ := removeAfter_legal (K := []) h hr ((List.mem_cons.mp hmem).resolve_left hx) hlen
      rw [without_cons_of_ne hx] at hend ⊢
      rw [if_neg hx, hf, Option.bind_some, hend hl']
      exact ⟨m', l', rfl, hl', hk⟩

end LinkedList

/-! ### Sorted lists -/

namespace SortedList

open LinkedList

variable {α : Type*} {m : Cells α} {l : LinkedList} {L : List (Ref × α)} {item : α}

/-- The new item goes before the first larger one. -/
def inserted (compare : α → α → ℤ) (a : Ref × α) (L : List (Ref × α)) : List (Ref × α) :=
  L.orderedInsert (fun a b => compare a.2 b.2 < 0) a

theorem map_inserted (compare : α → α → ℤ) (a : Ref × α) (L : List (Ref × α)) :
    (inserted compare a L).map Prod.snd = (L.map Prod.snd).orderedInsert (fun x y => compare x y < 0) a.2 :=
  List.map_orderedInsert _ _ _ _ _ (fun _ _ => Iff.rfl) fun _ _ => Iff.rfl

theorem inserted_cons_of_lt {compare : α → α → ℤ} {r q : Ref} {x : α} (h : compare item x < 0) (L : List (Ref × α)) :
    inserted compare (r, item) ((q, x) :: L) = (r, item) :: (q, x) :: L :=
  List.orderedInsert_cons_of_le _ L h

theorem inserted_cons_of_not_lt {compare : α → α → ℤ} {r q : Ref} {x : α} (h : ¬compare item x < 0)
    (L : List (Ref × α)) : inserted compare (r, item) ((q, x) :: L) = (q, x) :: inserted compare (r, item) L :=
  List.orderedInsert_of_not_le _ L h

theorem link_legal {K M : List (Ref × α)} {r q element : Ref} {x z : α} (he : m.lookup element = some ⟨item, none⟩)
    (h : Legal m l (K ++ (r, x) :: (q, z) :: M)) (hfresh : element ∉ (K ++ (r, x) :: (q, z) :: M).map Prod.fst) :
    ∃ m', ((m.setNext (some element) (some q)).bind fun m => m.setNext (some r) (some element)) = some m' ∧
      Legal m' { l with numInList := l.numInList + 1 } (K ++ (r, x) :: (element, item) :: (q, z) :: M) ∧
      ∀ m₀, element ∉ m₀.live → Untouched m₀ m (K ++ (r, x) :: (q, z) :: M) →
        Untouched m₀ m' (K ++ (r, x) :: (q, z) :: M) := by
  have hr := h.seg.lookup_of_cons
  obtain ⟨hrK, hrM⟩ := h.seg.notMem_split
  have hre : r ≠ element := fun heq => hfresh (by simp [heq])
  obtain ⟨heK, heM⟩ : element ∉ (K ++ [(r, x)]).map Prod.fst ∧ element ∉ ((q, z) :: M).map Prod.fst := by
    rw [List.append_cons, List.map_append, List.mem_append, not_or] at hfresh
    exact hfresh
  obtain ⟨s, hK, hs⟩ := seg_append.mp (List.append_cons _ _ _ ▸ h.seg)
  obtain ⟨rfl, -⟩ := seg_cons.mp hs
  have hput : (m.put element ⟨item, some q⟩).lookup r = some ⟨x, some q⟩ := by
    rw [Cells.lookup_put, if_neg hre, hr]
  rw [Cells.setNext_some he, Option.bind_some, Cells.setNext_some hput]
  refine ⟨_, rfl, ⟨?_, ?_, ?_⟩, fun m₀ hm₀ hu => (hu.put (.inr hm₀) _).put (.inl (by simp)) _⟩
  · rw [List.append_cons]
    refine seg_append.mpr ⟨some element, (hK.put_of_notMem heK _).redirect hrK, ?_⟩
    refine seg_cons.mpr ⟨rfl, some q, ?_, (hs.put_of_notMem heM _).put_of_notMem hrM _⟩
    rw [Cells.lookup_put, if_neg hre.symm, Cells.lookup_put, if_pos rfl]
  · rw [h.last]
    simp
  · rw [h.num]
    simp only [List.length_append, List.length_cons]
    omega

variable [DecidableEq α]

theorem insertAfter_legal (compare : α → α → ℤ) {element : Ref} (he : m.lookup element = some ⟨item, none⟩) :
    ∀ {M K : List (Ref × α)} {r : Ref} {x : α} {k : ℕ}, Legal m l (K ++ (r, x) :: M) →
      element ∉ (K ++ (r, x) :: M).map Prod.fst → M.length < k →
      ∃ m' l', insertAfter compare m l element item k (some r) = some (m', l') ∧
        Legal m' l' (K ++ (r, x) :: inserted compare (element, item) M) ∧
        ∀ m₀, element ∉ m₀.live → Untouched m₀ m (K ++ (r, x) :: M) → Untouched m₀ m' (K ++ (r, x) :: M)
  | [], K, r, x, k + 1, h, hfresh, _ => by
    obtain ⟨K', r', x', hK, -, hr, -⟩ := h.exists_last (by simp)
    obtain ⟨rfl, ha⟩ := List.append_inj' hK rfl
    obtain ⟨rfl, rfl⟩ := Prod.mk.inj (List.singleton_inj.mp ha)
    obtain ⟨m', l', hc, hl', hu⟩ := back_legal he hfresh h (by simp)
    rw [insertAfter, Cells.get_some, hr, Option.bind_some]
    refine ⟨m', l', hc, ?_, fun m₀ _ => hu m₀⟩
    simpa [inserted] using hl'
  | (q, z) :: M, K, r, x, k + 1, h, hfresh, hk => by
    have hr := h.seg.lookup_of_cons
    obtain ⟨s, -, -, next, hq, -⟩ := seg_append.mp (List.append_cons _ _ _ ▸ h.seg)
    rw [insertAfter, Cells.get_some, hr, Option.bind_some]
    simp only [hq, Option.bind_some]
    by_cases hlt : compare item z < 0
    · obtain ⟨m', hm', hl', hu⟩ := link_legal he h hfresh
      obtain ⟨m₁, hfirst, hsecond⟩ := Option.bind_eq_some_iff.mp hm'
      rw [if_pos hlt, hfirst, Option.bind_some, hsecond, Option.map_some, inserted_cons_of_lt hlt]
      exact ⟨m', _, rfl, hl', hu⟩
    · rw [if_neg hlt, inserted_cons_of_not_lt hlt, List.append_cons K, List.append_cons K _ (_ :: M)]
      rw [List.append_cons] at h hfresh
      exact insertAfter_legal compare he h hfresh (Nat.lt_of_succ_lt_succ hk)

theorem insert_legal (A : Allocator) (compare : α → α → ℤ) (h : Legal m l L) (hnew : item ∉ L.map Prod.snd) :
    ∃ m' l', insert A compare m l item = some (m', l') ∧
      Legal m' l' (inserted compare (m.newRef A, item) L) ∧
      Keeps m m' L (inserted compare (m.newRef A, item) L) := by
  apply put_legal A h hnew
  · rintro rfl
    rfl
  · exact List.perm_orderedInsert _ _ _
  intro hL
  have hnew' := h.new A ⟨item, none⟩
  have he := m.lookup_new_self A ⟨item, none⟩
  have hfresh := h.seg.newRef_notMem A
  have hu := Untouched.new A m ⟨item, none⟩ L
  have hlive := newRef_notMem_live A m
  cases L with
  | nil => exact absurd rfl hL
  | cons a L =>
    obtain ⟨r, x⟩ := a
    obtain ⟨hfirst, next, hr, -⟩ := seg_cons.mp hnew'.seg
    by_cases hlt : compare item x < 0
    · obtain ⟨m', l', hc, hl', hu'⟩ := front_legal he hfresh hnew' hL
      rw [inserted_cons_of_lt hlt]
      refine ⟨m', l', ?_, hl', hu' m hlive hu⟩
      rw [hfirst, Cells.get_some, hr, Option.bind_some, if_pos hlt, ← hfirst, hc]
    · obtain ⟨m', l', hc, hl', hu'⟩ := insertAfter_legal compare (K := []) he hnew' hfresh
        (Nat.lt_of_succ_lt hnew'.seg.length_lt_rounds)
      rw [inserted_cons_of_not_lt hlt]
      refine ⟨m', l', ?_, hl', hu' m hlive hu⟩
      rw [hfirst, Cells.get_some, hr, Option.bind_some, if_neg hlt, hc]

end SortedList

end Nachos
