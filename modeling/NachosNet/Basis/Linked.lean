/-
# Singly linked cells

Memory holds cells with an item and a pointer to the next cell, `none` for NULL. Reading or
writing through NULL or through a pointer to a cell that is not allocated has no result. `new`
gives any address that is not in use: an `Allocator` is a choice of one for every allocation.

`Seg m p L q` is that following `next` from `p` visits the cells of `L`, in order, and comes to
`q`. Segments can be cut and joined (`seg_append`), do not depend on other cells (`Seg.congr`),
and one that ends at NULL visits no cell twice (`Seg.nodup`), so that a loop over it makes at
most as many rounds as there are cells (`Seg.length_lt_rounds`). `find` is such a loop.

`Keeps m m' L L'` is that a list of the cells `L` became one of `L'` with no effect on the other
cells; segments apart from `L` are as before, and apart from `L'` (`Keeps.seg`, `Keeps.disjoint`).

Key definitions: `Cells`, `Allocator`, `Seg`, `Cells.find`, `Keeps`.
-/
import Mathlib.Data.Finmap
import Mathlib.Order.Lattice.Nat

namespace Basis

abbrev Ref := ℕ

structure Cell (α : Type*) where
  item : α
  next : Option Ref

/-- The address for the `k`-th allocation, by the addresses in use. -/
structure Allocator where
  addr : ℕ → Finset Ref → Ref
  fresh : ∀ k live, addr k live ∉ live

/-- The address above all that are in use. -/
def Allocator.above : Allocator :=
  ⟨fun _ live => live.sup id + 1, fun _ _ h => Nat.not_succ_le_self _ (Finset.le_sup (f := id) h)⟩

/-- The allocated cells, and the number of allocations so far. -/
structure Cells (α : Type*) where
  map : Finmap fun _ : Ref => Cell α
  count : ℕ

variable {α : Type*}

namespace Cells

/-- The cell at an address. -/
def lookup (m : Cells α) (r : Ref) : Option (Cell α) := m.map.lookup r

/-- The cell that `p` points to. -/
def get (m : Cells α) (p : Option Ref) : Option (Cell α) := p.bind m.lookup

def live (m : Cells α) : Finset Ref := m.map.keys

def put (m : Cells α) (r : Ref) (c : Cell α) : Cells α := ⟨m.map.insert r c, m.count⟩

/-- The address that `new` gives next. -/
def newRef (A : Allocator) (m : Cells α) : Ref := A.addr m.count m.live

/-- The memory after `new`. -/
def new (A : Allocator) (m : Cells α) (c : Cell α) : Cells α := ⟨m.map.insert (m.newRef A) c, m.count + 1⟩

/-- `p->next = q`. -/
def setNext (m : Cells α) (p q : Option Ref) : Option (Cells α) :=
  p.bind fun r => (m.lookup r).map fun c => m.put r { c with next := q }

/-- `delete p`. -/
def delete (m : Cells α) (p : Option Ref) : Option (Cells α) :=
  p.bind fun r => (m.lookup r).map fun _ => ⟨m.map.erase r, m.count⟩

@[simp] theorem get_none (m : Cells α) : m.get none = none := rfl

@[simp] theorem get_some (m : Cells α) (r : Ref) : m.get (some r) = m.lookup r := rfl

theorem mem_live {m : Cells α} {r : Ref} : r ∈ m.live ↔ ∃ c, m.lookup r = some c := by
  unfold live lookup
  rw [Finmap.mem_keys, ← Finmap.lookup_isSome, Option.isSome_iff_exists]

theorem lookup_put (m : Cells α) (r : Ref) (c : Cell α) (q : Ref) :
    (m.put r c).lookup q = if q = r then some c else m.lookup q := by
  unfold put lookup
  by_cases h : q = r
  · subst h
    rw [if_pos rfl, Finmap.lookup_insert]
  · rw [if_neg h, Finmap.lookup_insert_of_ne _ h]

theorem lookup_new (A : Allocator) (m : Cells α) (c : Cell α) (q : Ref) :
    (m.new A c).lookup q = if q = m.newRef A then some c else m.lookup q :=
  lookup_put m (m.newRef A) c q

theorem lookup_new_self (A : Allocator) (m : Cells α) (c : Cell α) : (m.new A c).lookup (m.newRef A) = some c := by
  rw [lookup_new, if_pos rfl]

theorem lookup_newRef (A : Allocator) (m : Cells α) : m.lookup (m.newRef A) = none := by
  by_contra h
  exact A.fresh _ _ (mem_live.mpr (Option.ne_none_iff_exists'.mp h))

theorem lookup_erase (m : Cells α) (r q : Ref) :
    (⟨m.map.erase r, m.count⟩ : Cells α).lookup q = if q = r then none else m.lookup q := by
  unfold lookup
  by_cases h : q = r
  · subst h
    rw [if_pos rfl, Finmap.lookup_erase]
  · rw [if_neg h, Finmap.lookup_erase_ne h]

theorem setNext_some {m : Cells α} {r : Ref} {x : α} {next : Option Ref} (h : m.lookup r = some ⟨x, next⟩)
    (q : Option Ref) : m.setNext (some r) q = some (m.put r ⟨x, q⟩) := by
  simp [setNext, h]

theorem delete_some {m : Cells α} {r : Ref} {c : Cell α} (h : m.lookup r = some c) :
    m.delete (some r) = some ⟨m.map.erase r, m.count⟩ := by
  simp [delete, h]

end Cells

/-! ### Segments -/

/-- From `p` along `next` through the cells of `L` to `q`. -/
def Seg (m : Cells α) : Option Ref → List (Ref × α) → Option Ref → Prop
  | p, [], q => p = q
  | p, (r, x) :: L, q => p = some r ∧ ∃ next, m.lookup r = some ⟨x, next⟩ ∧ Seg m next L q

variable {m m' : Cells α} {p q : Option Ref} {L L' : List (Ref × α)} {r : Ref} {x : α}

@[simp] theorem seg_nil : Seg m p [] q ↔ p = q := Iff.rfl

theorem seg_cons : Seg m p ((r, x) :: L) q ↔ p = some r ∧ ∃ next, m.lookup r = some ⟨x, next⟩ ∧ Seg m next L q :=
  Iff.rfl

theorem seg_append : ∀ {L : List (Ref × α)} {p : Option Ref},
    Seg m p (L ++ L') q ↔ ∃ s, Seg m p L s ∧ Seg m s L' q
  | [], p => by simp
  | (r, x) :: L, p => by
    simp only [List.cons_append, seg_cons, seg_append (L := L)]
    constructor
    · rintro ⟨hp, next, hr, s, hL, hL'⟩
      exact ⟨s, ⟨hp, next, hr, hL⟩, hL'⟩
    · rintro ⟨s, ⟨hp, next, hr, hL⟩, hL'⟩
      exact ⟨hp, next, hr, s, hL, hL'⟩

theorem seg_singleton : Seg m p [(r, x)] q ↔ p = some r ∧ m.lookup r = some ⟨x, q⟩ := by
  rw [seg_cons]
  simp

/-- A cell on the way points to the one after it. -/
theorem Seg.lookup_of_cons {K : List (Ref × α)} {r' : Ref} {x' : α} (h : Seg m p (K ++ (r, x) :: (r', x') :: L) q) :
    m.lookup r = some ⟨x, some r'⟩ := by
  obtain ⟨s, -, -, next, hr, hL⟩ := seg_append.mp h
  obtain ⟨rfl, -⟩ := seg_cons.mp hL
  exact hr

/-- A segment depends on its own cells only. -/
theorem Seg.congr : ∀ {L : List (Ref × α)} {p : Option Ref}, Seg m p L q →
    (∀ r ∈ L.map Prod.fst, m'.lookup r = m.lookup r) → Seg m' p L q
  | [], _, h, _ => h
  | (r, _) :: _, _, ⟨hp, next, hr, hL⟩, hsame =>
    ⟨hp, next, (hsame r List.mem_cons_self).trans hr, hL.congr fun r' hr' => hsame r' (List.mem_cons_of_mem _ hr')⟩

theorem Seg.put_of_notMem (h : Seg m p L q) (hr : r ∉ L.map Prod.fst) (c : Cell α) : Seg (m.put r c) p L q :=
  h.congr fun r' hr' => by rw [Cells.lookup_put, if_neg (ne_of_mem_of_not_mem hr' hr)]

theorem Seg.erase_of_notMem (h : Seg m p L q) (hr : r ∉ L.map Prod.fst) :
    Seg (⟨m.map.erase r, m.count⟩ : Cells α) p L q :=
  h.congr fun r' hr' => by rw [Cells.lookup_erase, if_neg (ne_of_mem_of_not_mem hr' hr)]

/-- A write to `next` of the last cell of a segment leads it to another end. -/
theorem Seg.redirect {q' : Option Ref} (h : Seg m p (L ++ [(r, x)]) q) (hr : r ∉ L.map Prod.fst) :
    Seg (m.put r ⟨x, q'⟩) p (L ++ [(r, x)]) q' := by
  obtain ⟨s, hL, hs⟩ := seg_append.mp h
  refine seg_append.mpr ⟨s, hL.put_of_notMem hr _, seg_singleton.mpr ⟨(seg_singleton.mp hs).1, ?_⟩⟩
  rw [Cells.lookup_put, if_pos rfl]

/-- There is one segment from a pointer to NULL. -/
theorem Seg.unique : ∀ {L L' : List (Ref × α)} {p : Option Ref}, Seg m p L none → Seg m p L' none → L = L'
  | [], [], _, _, _ => rfl
  | [], _ :: _, p, h, h' => by
    rw [seg_nil.mp h] at h'
    exact absurd h'.1 (by simp)
  | _ :: _, [], p, h, h' => by
    rw [seg_nil.mp h'] at h
    exact absurd h.1 (by simp)
  | (r, x) :: L, (r', x') :: L', p, ⟨hp, next, hr, hL⟩, ⟨hp', next', hr', hL'⟩ => by
    obtain rfl : r = r' := Option.some.inj (hp.symm.trans hp')
    obtain ⟨rfl, rfl⟩ := Cell.mk.inj (Option.some.inj (hr.symm.trans hr'))
    rw [Seg.unique hL hL']

theorem Seg.live (h : Seg m p L q) (hr : r ∈ L.map Prod.fst) : r ∈ m.live := by
  obtain ⟨⟨_, x⟩, hx, rfl⟩ := List.mem_map.mp hr
  obtain ⟨L₁, L₂, rfl⟩ := List.append_of_mem hx
  obtain ⟨s, -, -, next, hr, -⟩ := seg_append.mp h
  exact Cells.mem_live.mpr ⟨_, hr⟩

theorem Seg.newRef_notMem (A : Allocator) (h : Seg m p L q) : m.newRef A ∉ L.map Prod.fst := fun hr => by
  obtain ⟨c, hc⟩ := Cells.mem_live.mp (h.live hr)
  rw [Cells.lookup_newRef] at hc
  simp at hc

theorem Seg.new (A : Allocator) (h : Seg m p L q) (c : Cell α) : Seg (m.new A c) p L q :=
  h.congr fun r hr => by rw [Cells.lookup_new, if_neg (ne_of_mem_of_not_mem hr (h.newRef_notMem A))]

/-- No cell stands twice on the way to NULL: what follows it would follow it in itself. -/
theorem Seg.nodup : ∀ {L : List (Ref × α)} {p : Option Ref}, Seg m p L none → (L.map Prod.fst).Nodup
  | [], _, _ => List.nodup_nil
  | (r, x) :: L, p, h => by
    obtain ⟨hp, next, -, hL⟩ := seg_cons.mp h
    rw [List.map_cons, List.nodup_cons]
    refine ⟨fun hmem => ?_, hL.nodup⟩
    obtain ⟨⟨r', x'⟩, hx', hr'⟩ := List.mem_map.mp hmem
    obtain rfl : r' = r := hr'
    obtain ⟨L₁, L₂, rfl⟩ := List.append_of_mem hx'
    obtain ⟨s, -, -, hL₂⟩ := seg_append.mp hL
    have hagain : Seg m p ((r', x') :: L₂) none := ⟨hp, hL₂⟩
    have hlen := congrArg List.length (Seg.unique h hagain)
    simp only [List.length_cons, List.length_append] at hlen
    omega

/-- The other cells on the way are others. -/
theorem Seg.notMem_split {K : List (Ref × α)} (h : Seg m p (K ++ (r, x) :: L) none) :
    r ∉ K.map Prod.fst ∧ r ∉ L.map Prod.fst := by
  have hnd := h.nodup
  rw [List.map_append, List.nodup_append] at hnd
  exact ⟨fun hr => hnd.2.2 r hr r List.mem_cons_self rfl, (List.nodup_cons.mp hnd.2.1).1⟩

/-- How many rounds a loop over cells gets. -/
def Cells.rounds (m : Cells α) : ℕ := m.live.card + 1

theorem Seg.length_lt_rounds (h : Seg m p L none) : L.length < m.rounds := by
  have hsub : (L.map Prod.fst).toFinset ⊆ m.live := fun r hr => h.live (List.mem_toFinset.mp hr)
  have hcard := Finset.card_le_card hsub
  rw [List.toFinset_card_of_nodup h.nodup, List.length_map] at hcard
  exact Nat.lt_succ_of_le hcard

/-! ### Loops -/

/-- The loop along `next` for an item with `P`; `none` if it does not come to an end. -/
def Cells.find (m : Cells α) (P : α → Bool) : ℕ → Option Ref → Option (Option α)
  | 0, _ => none
  | _ + 1, none => some none
  | k + 1, some r => (m.lookup r).bind fun c => if P c.item then some (some c.item) else find m P k c.next

theorem find_seg (P : α → Bool) : ∀ {L : List (Ref × α)} {p : Option Ref} {k : ℕ}, Seg m p L none → L.length < k →
    m.find P k p = some ((L.map Prod.snd).find? P)
  | [], p, k + 1, h, _ => by
    rw [seg_nil.mp h]
    rfl
  | (r, x) :: L, p, k + 1, ⟨hp, next, hr, hL⟩, hk => by
    rw [hp, Cells.find, hr, Option.bind_some, List.map_cons, List.find?_cons]
    cases hx : P x with
    | true => rfl
    | false => exact find_seg P hL (Nat.lt_of_succ_lt_succ hk)

/-! ### The other cells -/

/-- Of the cells in use only those of `L` can have changed. -/
def Untouched (m m' : Cells α) (L : List (Ref × α)) : Prop :=
  ∀ r ∈ m.live, r ∉ L.map Prod.fst → m'.lookup r = m.lookup r

theorem Untouched.refl (m : Cells α) (L : List (Ref × α)) : Untouched m m L := fun _ _ _ => rfl

theorem Untouched.put (h : Untouched m m' L) (hr : r ∈ L.map Prod.fst ∨ r ∉ m.live) (c : Cell α) :
    Untouched m (m'.put r c) L := by
  intro q hq hL
  have hne : q ≠ r := by
    rintro rfl
    exact hr.elim hL fun hnot => hnot hq
  rw [Cells.lookup_put, if_neg hne]
  exact h q hq hL

theorem Untouched.erase (h : Untouched m m' L) (hr : r ∈ L.map Prod.fst) :
    Untouched m ⟨m'.map.erase r, m'.count⟩ L := by
  intro q hq hL
  rw [Cells.lookup_erase, if_neg (ne_of_mem_of_not_mem hr hL).symm]
  exact h q hq hL

theorem newRef_notMem_live (A : Allocator) (m : Cells α) : m.newRef A ∉ m.live := A.fresh _ _

theorem Untouched.new (A : Allocator) (m : Cells α) (c : Cell α) (L : List (Ref × α)) : Untouched m (m.new A c) L :=
  (Untouched.refl m L).put (.inr (newRef_notMem_live A m)) c

/-- The cells of a list change from `L` to `L'`, and no other cell that is in use. -/
structure Keeps (m m' : Cells α) (L L' : List (Ref × α)) : Prop where
  same : Untouched m m' L
  fresh : ∀ r ∈ L'.map Prod.fst, r ∈ L.map Prod.fst ∨ r ∉ m.live

theorem Untouched.keeps_of_subset (h : Untouched m m' L) (hsub : ∀ r ∈ L'.map Prod.fst, r ∈ L.map Prod.fst) :
    Keeps m m' L L' := ⟨h, fun r hr => .inl (hsub r hr)⟩

theorem Untouched.keeps_new {A : Allocator} (h : Untouched m m' L)
    (hsub : ∀ r ∈ L'.map Prod.fst, r = m.newRef A ∨ r ∈ L.map Prod.fst) : Keeps m m' L L' := by
  refine ⟨h, fun r hr => ?_⟩
  rcases hsub r hr with rfl | hr
  · exact .inr (newRef_notMem_live A m)
  · exact .inl hr

theorem Keeps.seg {K : List (Ref × α)} (h : Keeps m m' L L') (hK : Seg m p K q)
    (hd : (L.map Prod.fst).Disjoint (K.map Prod.fst)) : Seg m' p K q :=
  hK.congr fun r hr => h.same r (hK.live hr) fun hL => hd hL hr

theorem Keeps.disjoint {K : List (Ref × α)} (h : Keeps m m' L L') (hK : Seg m p K q)
    (hd : (L.map Prod.fst).Disjoint (K.map Prod.fst)) : (L'.map Prod.fst).Disjoint (K.map Prod.fst) := by
  intro r hr hrK
  rcases h.fresh r hr with hL | hnot
  · exact hd hL hrK
  · exact hnot (hK.live hrK)

end Basis
