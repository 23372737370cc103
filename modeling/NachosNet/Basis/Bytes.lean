/-
# Byte arrays, words and chunks

Arrays of a fixed number of bytes, the little-endian bytes of a 16- and a
32-bit word, and the pieces of a packed record: a slice of an array, and a
record's bytes as the concatenation of its fields, each at its offset
(`take_drop_append`). A list cut into chunks of `k` bytes, the last padded with
zeros, is the list again followed by zeros (`flatten_chunks`).

Key definitions: `Bytes`, `Bytes.slice`, `Bytes.pad`, `le16`, `chunk`.
Key theorems: `ofLe16_le16`, `take_drop_append`, `flatten_chunks`.
-/
import Mathlib.Data.List.Basic
import Mathlib.Tactic.Ring

namespace Basis

abbrev Byte := BitVec 8

/-- An array of `n` bytes. -/
abbrev Bytes (n : ℕ) := {l : List Byte // l.length = n}

namespace Bytes

variable {n : ℕ}

/-- The `len` bytes from `off` on. -/
def slice (b : Bytes n) (off len : ℕ) (h : off + len ≤ n) : Bytes len :=
  ⟨(b.1.drop off).take len, by
    rw [List.length_take, List.length_drop, b.2]
    omega⟩

/-- An array of `n` zeros whose first bytes are overwritten with `l`. -/
def pad (n : ℕ) (l : List Byte) : Bytes n :=
  ⟨(l ++ List.replicate n 0).take n, by simp⟩

/-- Byte `i`. -/
def get (b : Bytes n) (i : Fin n) : Byte := b.1.get (i.cast b.2.symm)

theorem pad_of_le {l : List Byte} (h : l.length ≤ n) :
    (pad n l).1 = l ++ List.replicate (n - l.length) 0 := by
  simp [pad, List.take_append, List.take_of_length_le h]

theorem pad_of_length (b : Bytes n) : pad n b.1 = b := by
  apply Subtype.ext
  rw [pad_of_le b.2.le, b.2, Nat.sub_self, List.replicate_zero, List.append_nil]

end Bytes

/-- The bytes of a 16-bit word, low byte first. -/
def le16 (w : BitVec 16) : List Byte := [w.extractLsb' 0 8, w.extractLsb' 8 8]

/-- The 16-bit word with these two bytes, low byte first. -/
def ofLe16 (l : List Byte) : BitVec 16 := l.getD 1 0 ++ l.getD 0 0

/-- The bytes of a 32-bit word, low byte first. -/
def le32 (w : BitVec 32) : List Byte :=
  [w.extractLsb' 0 8, w.extractLsb' 8 8, w.extractLsb' 16 8, w.extractLsb' 24 8]

@[simp] theorem length_le16 (w : BitVec 16) : (le16 w).length = 2 := rfl

@[simp] theorem length_le32 (w : BitVec 32) : (le32 w).length = 4 := rfl

theorem ofLe16_le16 (w : BitVec 16) (l : List Byte) : ofLe16 (le16 w ++ l) = w := by
  apply BitVec.eq_of_getLsbD_eq
  intro i hi
  simp only [ofLe16, le16, List.cons_append, List.getD_cons_zero, List.getD_cons_succ,
    BitVec.getLsbD_append, BitVec.getLsbD_extractLsb']
  by_cases h : i < 8
  · simp [h]
  · have h8 : 8 + (i - 8) = i := by omega
    simp [h, h8, show i - 8 < 8 by omega]

theorem extractLsb'_bytes (w : BitVec 32) :
    w.extractLsb' 24 8 ++ w.extractLsb' 16 8 ++ w.extractLsb' 8 8 ++ w.extractLsb' 0 8 = w := by
  rw [BitVec.extractLsb'_append_extractLsb'_eq_extractLsb' (show 24 = 16 + 8 from rfl),
    BitVec.extractLsb'_append_extractLsb'_eq_extractLsb' (show 16 = 8 + 8 from rfl),
    BitVec.extractLsb'_append_extractLsb'_eq_extractLsb' (show 8 = 0 + 8 from rfl)]
  exact BitVec.extractLsb'_eq_self

theorem take_drop_append {α : Type*} (a b c : List α) {off len : ℕ} (ha : a.length = off)
    (hb : b.length = len) : ((a ++ (b ++ c)).drop off).take len = b := by
  subst ha hb
  simp

/-! ### Chunks -/

variable {α : Type*}

/-- Chunk `i` of `l`, in chunks of `k`. -/
def chunk (k i : ℕ) (l : List α) : List α := (l.drop (k * i)).take k

theorem chunk_zero (k : ℕ) (l : List α) : chunk k 0 l = l.take k := by simp [chunk]

theorem chunk_succ (k i : ℕ) (l : List α) : chunk k (i + 1) l = chunk k i (l.drop k) := by
  simp only [chunk, List.drop_drop]
  congr 2
  ring

theorem length_chunk_le (k i : ℕ) (l : List α) : (chunk k i l).length ≤ k := by
  simp [chunk]

theorem flatten_chunks (k : ℕ) : ∀ (n : ℕ) (l : List Byte), l.length ≤ k * n →
    ((List.range n).map fun i => (Bytes.pad k (chunk k i l)).1).flatten =
      l ++ List.replicate (k * n - l.length) 0
  | 0, l, h => by
    obtain rfl : l = [] := List.length_eq_zero_iff.mp (by omega)
    simp
  | n + 1, l, h => by
    rw [List.range_succ_eq_map, List.map_cons, List.map_map, List.flatten_cons]
    have hmul : k * (n + 1) = k + k * n := by ring
    have ih := flatten_chunks k n (l.drop k) (by rw [List.length_drop]; omega)
    have hmap : ((fun i => (Bytes.pad k (chunk k i l)).1) ∘ Nat.succ) =
        fun i => (Bytes.pad k (chunk k i (l.drop k))).1 := by
      funext i
      simp only [Function.comp, Nat.succ_eq_add_one, chunk_succ]
    rw [hmap, ih, chunk_zero]
    by_cases hk : k ≤ l.length
    · -- a full chunk: no padding here
      have hlen : (l.take k).length = k := by simp [hk]
      rw [Bytes.pad_of_le hlen.le, hlen, Nat.sub_self, List.replicate_zero, List.append_nil,
        ← List.append_assoc, List.take_append_drop, List.length_drop]
      congr 2
      omega
    · have hl : l.length ≤ k := by omega
      rw [List.take_of_length_le hl, List.drop_eq_nil_of_le hl, Bytes.pad_of_le hl]
      simp only [List.nil_append, List.length_nil, Nat.sub_zero, List.append_assoc,
        List.replicate_append_replicate]
      congr 2
      omega

end Basis
