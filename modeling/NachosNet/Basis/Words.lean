/-
# Words in a memory of bytes

A memory has a byte at each address of 32 bits, and a word takes four of them, the low one first,
at any address. Addresses go around at the end of the memory, so a range is the set of the addresses
that come less than so many bytes after its start (`span`).

What is written at one place does not change what is read at another one that is apart from it
(`wordAt_setWord_of_apart`), and places in disjoint parts of the memory are apart
(`apart_of_disjoint`). The words of a record at fixed distances from its start are its fields: after
some have been set, each has its new value or the old one (`wordAt_setFields`).

Key definitions: `wordAt`, `setWord`, `span`, `Apart`, `setFields`.
-/
import NachosNet.Basis.WordBytes
import Mathlib.Data.Set.Lattice
import Mathlib.Order.CompletePartialOrder

namespace Basis

/-- The word at an address. -/
def wordAt (mem : BitVec 32 → Byte) (a : BitVec 32) : BitVec 32 := mem (a + 3) ++ mem (a + 2) ++ mem (a + 1) ++ mem a

/-- The word of the bytes `b 0`, …, `b 3`. -/
def ofBytes (b : ℕ → Byte) : BitVec 32 := b 3 ++ b 2 ++ b 1 ++ b 0

/-- The memory with a word written at an address. -/
def setWord (mem : BitVec 32 → Byte) (a value : BitVec 32) : BitVec 32 → Byte :=
  fun b => if (b - a).toNat < 4 then byteOf value (b - a).toNat else mem b

theorem byteOf_ofBytes (b : ℕ → Byte) {k : ℕ} (hk : k < 4) : byteOf (ofBytes b) k = b k := by
  obtain rfl | rfl | rfl | rfl : k = 0 ∨ k = 1 ∨ k = 2 ∨ k = 3 := by omega
  · exact byteOf_append_byte_zero _ _
  · exact (byteOf_append_byte_succ _ _ 0).trans (byteOf_append_byte_zero _ _)
  · exact (byteOf_append_byte_succ _ _ 1).trans ((byteOf_append_byte_succ _ _ 0).trans (byteOf_append_byte_zero _ _))
  · exact (byteOf_append_byte_succ _ _ 2).trans
      ((byteOf_append_byte_succ _ _ 1).trans BitVec.extractLsb'_append_eq_left)

theorem eq_ofBytes {b : ℕ → Byte} {x : BitVec 32} (h : ∀ k < 4, byteOf x k = b k) : x = ofBytes b :=
  eq_of_byteOf rfl fun k hk => (h k hk).trans (byteOf_ofBytes b hk).symm

theorem wordAt_eq (mem : BitVec 32 → Byte) (a : BitVec 32) : wordAt mem a = ofBytes fun k => mem (a + BitVec.ofNat 32 k) := by
  have hzero : a + BitVec.ofNat 32 0 = a := BitVec.add_zero a
  simp only [ofBytes, hzero]
  rfl

theorem byteOf_wordAt (mem : BitVec 32 → Byte) (a : BitVec 32) {k : ℕ} (hk : k < 4) :
    byteOf (wordAt mem a) k = mem (a + BitVec.ofNat 32 k) := by
  rw [wordAt_eq, byteOf_ofBytes _ hk]

theorem wordAt_congr {mem mem' : BitVec 32 → Byte} {a : BitVec 32}
    (h : ∀ k < 4, mem' (a + BitVec.ofNat 32 k) = mem (a + BitVec.ofNat 32 k)) : wordAt mem' a = wordAt mem a := by
  rw [wordAt_eq, wordAt_eq]
  refine (eq_ofBytes fun k hk => ?_).symm
  rw [byteOf_ofBytes _ hk, h k hk]

/-! ### Parts of the memory -/

/-- The `n` addresses from `a` on. -/
def span (a : BitVec 32) (n : ℕ) : Set (BitVec 32) := { b | (b - a).toNat < n }

/-- The words at two addresses have no byte in common. -/
def Apart (a b : BitVec 32) : Prop := 4 ≤ (a - b).toNat ∧ 4 ≤ (b - a).toNat

theorem Apart.symm {a b : BitVec 32} (h : Apart a b) : Apart b a := ⟨h.2, h.1⟩

theorem mem_span_self (a : BitVec 32) {n : ℕ} (hn : 0 < n) : a ∈ span a n := by
  change (a - a).toNat < n
  rwa [BitVec.sub_self]

theorem add_mem_span (a : BitVec 32) {k n : ℕ} (hk : k < n) : a + BitVec.ofNat 32 k ∈ span a n := by
  change (a + BitVec.ofNat 32 k - a).toNat < n
  rw [BitVec.add_comm, BitVec.add_sub_cancel, BitVec.toNat_ofNat]
  exact Nat.lt_of_le_of_lt (Nat.mod_le _ _) hk

theorem apart_of_disjoint {a b : BitVec 32} {A B : Set (BitVec 32)} (ha : span a 4 ⊆ A) (hb : span b 4 ⊆ B)
    (h : Disjoint A B) : Apart a b := by
  have hnot : ∀ c, c ∈ span a 4 → c ∉ span b 4 := fun c hc hc' => Set.disjoint_left.mp h (ha hc) (hb hc')
  constructor
  · by_contra hlt
    exact hnot a (mem_span_self a (by decide)) (Nat.lt_of_not_le hlt)
  · by_contra hlt
    exact hnot b (Nat.lt_of_not_le hlt) (mem_span_self b (by decide))

/-- Part of a range. -/
theorem span_subset {a : BitVec 32} {k m n : ℕ} (h : k + m ≤ n) :
    span (a + BitVec.ofNat 32 k) m ⊆ span a n := by
  intro b hb
  change (b - (a + BitVec.ofNat 32 k)).toNat < m at hb
  change (b - a).toNat < n
  have hsum : b - a = (b - (a + BitVec.ofNat 32 k)) + BitVec.ofNat 32 k := by bv_omega
  rw [hsum, BitVec.toNat_add, BitVec.toNat_ofNat]
  have hk : k % 2 ^ 32 ≤ k := Nat.mod_le _ _
  exact Nat.lt_of_le_of_lt (Nat.mod_le _ _) (by omega)

theorem disjoint_span {a b : BitVec 32} {m n : ℕ} (hab : a.toNat + m ≤ b.toNat) (hb : b.toNat + n ≤ 2 ^ 32) :
    Disjoint (span a m) (span b n) := by
  refine Set.disjoint_left.mpr fun c hc hc' => ?_
  change (c - a).toNat < m at hc
  change (c - b).toNat < n at hc'
  rw [BitVec.toNat_sub] at hc hc'
  omega

/-- A byte of the word at an address. -/
theorem byte_of_mem_span {mem : BitVec 32 → Byte} {a b : BitVec 32} (h : b ∈ span a 4) :
    mem b = byteOf (wordAt mem a) (b - a).toNat := by
  have hb : a + BitVec.ofNat 32 (b - a).toNat = b := by
    rw [BitVec.ofNat_toNat, BitVec.setWidth_eq, BitVec.add_comm, BitVec.sub_add_cancel]
  rw [byteOf_wordAt mem a h, hb]

/-! ### Writing and reading -/

variable (mem : BitVec 32 → Byte) {a b : BitVec 32} (value : BitVec 32)

theorem setWord_of_notMem (h : b ∉ span a 4) : setWord mem a value b = mem b := if_neg h

@[simp] theorem wordAt_setWord_self : wordAt (setWord mem a value) a = value := by
  rw [wordAt_eq]
  refine (eq_ofBytes fun k hk => ?_).symm
  have hsub : (a + BitVec.ofNat 32 k - a).toNat = k := by
    rw [BitVec.add_comm, BitVec.add_sub_cancel, BitVec.toNat_ofNat, Nat.mod_eq_of_lt (by omega)]
  rw [setWord, hsub, if_pos hk]

theorem wordAt_setWord_of_apart (h : Apart a b) : wordAt (setWord mem a value) b = wordAt mem b := by
  refine wordAt_congr fun k hk => setWord_of_notMem mem value fun hc => ?_
  obtain ⟨hab, hba⟩ := h
  have hsum : b + BitVec.ofNat 32 k - a = (b - a) + BitVec.ofNat 32 k := by bv_omega
  have hneg : (a - b).toNat = 2 ^ 32 - (b - a).toNat := by bv_omega
  change (b + BitVec.ofNat 32 k - a).toNat < 4 at hc
  rw [hsum, BitVec.toNat_add, BitVec.toNat_ofNat, Nat.mod_eq_of_lt (by omega : k < 2 ^ 32)] at hc
  omega

/-! ### Records -/

/-- Word `i` of the record at `a`. -/
def field (a : BitVec 32) (i : ℕ) : BitVec 32 := a + BitVec.ofNat 32 (4 * i)

/-- The memory with words of the record at `a` written, one after the other. -/
def setFields (a : BitVec 32) : List (ℕ × BitVec 32) → (BitVec 32 → Byte) → BitVec 32 → Byte
  | [], mem => mem
  | f :: fs, mem => setFields a fs (setWord mem (field a f.1) f.2)

variable {mem} {value}

theorem apart_field (a : BitVec 32) {n i j : ℕ} (hn : 4 * n < 2 ^ 32) (hij : i ≠ j) (hi : i < n) (hj : j < n) :
    Apart (field a i) (field a j) := by
  have hsub : ∀ {i j : ℕ}, i ≠ j → i < n → j < n → 4 ≤ (field a i - field a j).toNat := by
    intro i j hij hi hj
    have hdiff : field a i - field a j = BitVec.ofNat 32 (4 * i) - BitVec.ofNat 32 (4 * j) := by
      unfold field
      bv_omega
    rw [hdiff, BitVec.toNat_sub, BitVec.toNat_ofNat, BitVec.toNat_ofNat, Nat.mod_eq_of_lt (by omega : 4 * i < 2 ^ 32),
      Nat.mod_eq_of_lt (by omega : 4 * j < 2 ^ 32)]
    omega
  exact ⟨hsub hij hi hj, hsub hij.symm hj hi⟩

theorem span_field_subset (a : BitVec 32) {n i : ℕ} (hi : i < n) : span (field a i) 4 ⊆ span a (4 * n) :=
  span_subset (by omega)

variable {n : ℕ}

/-- After fields have been written, each of the record has its new value or the old one. -/
theorem wordAt_setFields (hn : 4 * n < 2 ^ 32) {i : ℕ} (hi : i < n) : ∀ (fs : List (ℕ × BitVec 32))
    {mem : BitVec 32 → Byte}, (fs.map Prod.fst).Nodup → (∀ f ∈ fs, f.1 < n) →
    wordAt (setFields a fs mem) (field a i) = (fs.lookup i).getD (wordAt mem (field a i))
  | [], _, _, _ => rfl
  | f :: fs, mem, hnodup, hlt => by
    rw [List.map_cons, List.nodup_cons] at hnodup
    rw [setFields, wordAt_setFields hn hi fs hnodup.2 fun g hg => hlt g (List.mem_cons_of_mem f hg), List.lookup_cons]
    by_cases hif : i = f.1
    · subst hif
      have hnone : fs.lookup f.1 = none := by
        refine List.lookup_eq_none_iff.mpr fun g hg => ?_
        rw [bne_iff_ne]
        exact fun he => hnodup.1 (he ▸ List.mem_map_of_mem hg)
      rw [hnone, beq_self_eq_true, Option.getD_none, wordAt_setWord_self]
      rfl
    · rw [beq_false_of_ne hif, wordAt_setWord_of_apart]
      exact apart_field a hn (Ne.symm hif) (hlt f List.mem_cons_self) hi

theorem setFields_of_notMem (hb : b ∉ span a (4 * n)) : ∀ (fs : List (ℕ × BitVec 32)) {mem : BitVec 32 → Byte},
    (∀ f ∈ fs, f.1 < n) → setFields a fs mem b = mem b
  | [], _, _ => rfl
  | f :: fs, mem, hlt => by
    rw [setFields, setFields_of_notMem hb fs fun g hg => hlt g (List.mem_cons_of_mem f hg)]
    refine setWord_of_notMem mem f.2 fun hc => hb ?_
    exact span_field_subset a (hlt f List.mem_cons_self) hc

end Basis
