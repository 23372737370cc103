/-
# Bitmaps

`lib/bitmap.cc`: bits in an array of 32-bit words. `Mark` and `Clear` change
one bit and no other, in whatever word it is (`test_mark`, `test_clear`), so a
bitmap is the set of the marked indices; `FindAndSet` marks the least clear
index (`findAndSet_some`), and finds none only when `NumClear` is 0
(`findAndSet_none`).
-/
import Mathlib.Data.Finset.Card
import Mathlib.Data.Finset.Range

namespace Nachos

/-- The mask of one bit. -/
def bitMask (k : ℕ) : BitVec 32 := 1#32 <<< k

theorem and_bitMask_ne_zero (w : BitVec 32) {k : ℕ} (hk : k < 32) :
    (w &&& bitMask k != 0) = w.getLsbD k := by
  unfold bitMask
  rw [← BitVec.twoPow_eq, BitVec.and_twoPow]
  by_cases h : w.getLsbD k = true
  · have hbit : (BitVec.twoPow 32 k).getLsbD k = true := by simp [hk]
    have hne : BitVec.twoPow 32 k ≠ 0#32 := by
      intro h0
      rw [h0] at hbit
      simp at hbit
    simp [h, hne]
  · simp [h]

/-- `numBits` bits in words of 32. -/
structure Bitmap (numBits : ℕ) where
  map : List (BitVec 32)
  length_map : map.length = numBits / 32 + if 0 < numBits % 32 then 1 else 0

namespace Bitmap

variable {n : ℕ}

/-- `Bitmap(numItems)`. -/
def init (n : ℕ) : Bitmap n := ⟨List.replicate _ 0, List.length_replicate⟩

/-- The word of bit `i`. -/
def word (m : Bitmap n) (i : ℕ) : BitVec 32 := m.map.getD (i / 32) 0

def mark (m : Bitmap n) (which : ℕ) : Bitmap n :=
  ⟨m.map.set (which / 32) (m.word which ||| bitMask (which % 32)), by rw [List.length_set, m.length_map]⟩

def clear (m : Bitmap n) (which : ℕ) : Bitmap n :=
  ⟨m.map.set (which / 32) (m.word which &&& ~~~bitMask (which % 32)), by rw [List.length_set, m.length_map]⟩

def test (m : Bitmap n) (which : ℕ) : Bool := m.word which &&& bitMask (which % 32) != 0

def findAndSet (m : Bitmap n) : ℤ × Bitmap n :=
  match (List.range n).find? fun i => !m.test i with
  | some i => (i, m.mark i)
  | none => (-1, m)

def numClear (m : Bitmap n) : ℕ := (List.range n).countP fun i => !m.test i

/-- The clear bits, in order. -/
def free (m : Bitmap n) : List ℕ := (List.range n).filter fun i => !m.test i

/-! ### One bit -/

theorem test_eq (m : Bitmap n) (i : ℕ) : m.test i = (m.word i).getLsbD (i % 32) :=
  and_bitMask_ne_zero _ (Nat.mod_lt _ (by decide))

theorem word_lt (m : Bitmap n) {i : ℕ} (hi : i < n) : i / 32 < m.map.length := by
  rw [m.length_map]
  split <;> omega

theorem getLsbD_set (m : Bitmap n) {i j : ℕ} (hi : i < n) (w : BitVec 32) :
    ((m.map.set (i / 32) w).getD (j / 32) 0).getLsbD (j % 32) =
      if i / 32 = j / 32 then w.getLsbD (j % 32) else (m.word j).getLsbD (j % 32) := by
  have hlt := m.word_lt hi
  unfold word
  rw [List.getD_eq_getElem?_getD, List.getD_eq_getElem?_getD, List.getElem?_set]
  by_cases h : i / 32 = j / 32
  · simp [← h, hlt]
  · simp [h]

theorem test_mark (m : Bitmap n) {i : ℕ} (hi : i < n) (j : ℕ) : (m.mark i).test j = (decide (j = i) || m.test j) := by
  rw [test_eq, test_eq]
  refine (getLsbD_set m hi _).trans ?_
  by_cases hw : i / 32 = j / 32
  · have hword : m.word i = m.word j := by simp [word, hw]
    have hmask : (bitMask (i % 32)).getLsbD (j % 32) = decide (j = i) := by
      have hb : bitMask (i % 32) = BitVec.twoPow 32 (i % 32) := (BitVec.twoPow_eq _ _).symm
      rw [hb, BitVec.getLsbD_twoPow, Bool.eq_iff_iff]
      simp
      omega
    rw [if_pos hw, BitVec.getLsbD_or, hword, hmask, Bool.or_comm]
  · have hne : j ≠ i := fun h => hw (by rw [h])
    simp [hw, hne]

theorem test_clear (m : Bitmap n) {i : ℕ} (hi : i < n) (j : ℕ) : (m.clear i).test j = (!decide (j = i) && m.test j) := by
  rw [test_eq, test_eq]
  refine (getLsbD_set m hi _).trans ?_
  by_cases hw : i / 32 = j / 32
  · have hword : m.word i = m.word j := by simp [word, hw]
    have hmask : (~~~bitMask (i % 32)).getLsbD (j % 32) = !decide (j = i) := by
      have hb : bitMask (i % 32) = BitVec.twoPow 32 (i % 32) := (BitVec.twoPow_eq _ _).symm
      rw [hb, BitVec.getLsbD_not, BitVec.getLsbD_twoPow, Bool.eq_iff_iff]
      simp
      omega
    rw [if_pos hw, BitVec.getLsbD_and, hword, hmask, Bool.and_comm]
  · have hne : j ≠ i := fun h => hw (by rw [h])
    simp [hw, hne]

theorem test_init (i : ℕ) : (init n).test i = false := by
  rw [test_eq]
  unfold word init
  by_cases h : i / 32 < n / 32 + if 0 < n % 32 then 1 else 0
  · simp [List.getD_eq_getElem?_getD, h]
  · simp [List.getD_eq_getElem?_getD, h]

/-! ### All bits -/

theorem numClear_eq (m : Bitmap n) : m.numClear = ((Finset.range n).filter fun i => m.test i = false).card := by
  unfold numClear
  rw [List.countP_eq_length_filter]
  have hp : (fun i => !m.test i) = fun i => decide (m.test i = false) := by
    funext i
    cases m.test i <;> rfl
  rw [hp]
  rfl

theorem numClear_mark (m : Bitmap n) {i : ℕ} (hi : i < n) (h : m.test i = false) :
    (m.mark i).numClear + 1 = m.numClear := by
  rw [numClear_eq, numClear_eq]
  have hset : ((Finset.range n).filter fun j => (m.mark i).test j = false) =
      ((Finset.range n).filter fun j => m.test j = false).erase i := by
    ext j
    simp only [Finset.mem_filter, Finset.mem_erase, test_mark m hi, Bool.or_eq_false_iff,
      decide_eq_false_iff_not]
    exact ⟨fun ⟨h1, h2, h3⟩ => ⟨h2, h1, h3⟩, fun ⟨h2, h1, h3⟩ => ⟨h1, h2, h3⟩⟩
  rw [hset]
  exact Finset.card_erase_add_one (Finset.mem_filter.mpr ⟨Finset.mem_range.mpr hi, h⟩)

/-- With a clear bit, `FindAndSet` marks the least one. -/
theorem findAndSet_some (m : Bitmap n) (h : 0 < m.numClear) : ∃ i < n, m.test i = false ∧
    (∀ j < i, m.test j = true) ∧ m.findAndSet = ((i : ℤ), m.mark i) := by
  unfold findAndSet
  cases hf : (List.range n).find? fun i => !m.test i with
  | none =>
    rw [numClear, List.countP_pos_iff] at h
    obtain ⟨i, hi, hc⟩ := h
    exact absurd hc (List.find?_eq_none.mp hf i hi)
  | some i =>
    obtain ⟨hi, hc, hj⟩ := List.find?_range_eq_some.mp hf
    exact ⟨i, List.mem_range.mp hc, by simpa using hi, fun j hji => by simpa using hj j hji, rfl⟩

theorem length_free (m : Bitmap n) : m.free.length = m.numClear := List.countP_eq_length_filter.symm

theorem mem_free {m : Bitmap n} {i : ℕ} : i ∈ m.free ↔ i < n ∧ m.test i = false := by
  simp [free, List.mem_filter]

theorem nodup_free (m : Bitmap n) : m.free.Nodup := List.nodup_range.filter _

/-- `FindAndSet` takes the first clear bit. -/
theorem findAndSet_free {m : Bitmap n} {i : ℕ} {rest : List ℕ} (h : m.free = i :: rest) :
    m.findAndSet = ((i : ℤ), m.mark i) ∧ (m.mark i).free = rest := by
  have hi : i < n := (mem_free.mp (h ▸ List.mem_cons_self)).1
  have hfind : ((List.range n).find? fun j => !m.test j) = some i := by
    rw [← List.head?_filter]
    exact congrArg List.head? h
  refine ⟨by rw [findAndSet, hfind], ?_⟩
  have hmark : (m.mark i).free = m.free.filter fun j => j != i := by
    unfold free
    rw [List.filter_filter]
    refine List.filter_congr fun j _ => ?_
    rw [test_mark m hi]
    by_cases hj : j = i <;> simp [hj]
  have hnd := m.nodup_free
  rw [h, List.nodup_cons] at hnd
  rw [hmark, h, List.filter_cons_of_neg (by simp), List.filter_eq_self]
  rintro j hj
  have hne : j ≠ i := fun he => hnd.1 (he ▸ hj)
  simpa using hne

/-- `FindAndSet` fails only when every bit is set. -/
theorem findAndSet_none (m : Bitmap n) (h : m.numClear = 0) : m.findAndSet = (-1, m) := by
  unfold findAndSet
  rw [List.find?_eq_none.mpr]
  intro i hi hc
  have hpos : 0 < m.numClear := List.countP_pos_iff.mpr ⟨i, hi, hc⟩
  omega

end Bitmap

end Nachos
