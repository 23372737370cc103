/-
# The bytes of a word

Byte `k` of a word, from the low end, and what the operations on words do to it:
masks and unions byte by byte, shifts by whole bytes. A shift to the right with
the sign is only looked at below the bytes that come in from above.

Key definitions: `byteOf`.
-/
import NachosNet.Basis.Bytes

namespace Basis

variable {w : ℕ}

/-- Byte `k` of a word. -/
def byteOf (x : BitVec w) (k : ℕ) : Byte := x.extractLsb' (8 * k) 8

theorem getLsbD_byteOf (x : BitVec w) (k : ℕ) {i : ℕ} (hi : i < 8) :
    (byteOf x k).getLsbD i = x.getLsbD (8 * k + i) := by
  rw [byteOf, BitVec.getLsbD_extractLsb']
  simp [hi]

theorem byteOf_ext {x : BitVec w} {k : ℕ} {b : Byte} (h : ∀ i < 8, x.getLsbD (8 * k + i) = b.getLsbD i) :
    byteOf x k = b := by
  apply BitVec.eq_of_getLsbD_eq
  intro i hi
  rw [getLsbD_byteOf x k hi, h i hi]

/-- A word of whole bytes is known by them. -/
theorem eq_of_byteOf {n : ℕ} (hw : w = 8 * n) {x y : BitVec w} (h : ∀ k < n, byteOf x k = byteOf y k) : x = y := by
  apply BitVec.eq_of_getLsbD_eq
  intro i hi
  have hbyte := congrArg (fun b : Byte => b.getLsbD (i % 8)) (h (i / 8) (by omega))
  rwa [getLsbD_byteOf _ _ (Nat.mod_lt _ (by decide)), getLsbD_byteOf _ _ (Nat.mod_lt _ (by decide)),
    Nat.div_add_mod] at hbyte

@[simp] theorem byteOf_and (x y : BitVec w) (k : ℕ) : byteOf (x &&& y) k = byteOf x k &&& byteOf y k := by
  apply byteOf_ext
  intro i hi
  rw [BitVec.getLsbD_and, BitVec.getLsbD_and, getLsbD_byteOf x k hi, getLsbD_byteOf y k hi]

@[simp] theorem byteOf_or (x y : BitVec w) (k : ℕ) : byteOf (x ||| y) k = byteOf x k ||| byteOf y k := by
  apply byteOf_ext
  intro i hi
  rw [BitVec.getLsbD_or, BitVec.getLsbD_or, getLsbD_byteOf x k hi, getLsbD_byteOf y k hi]

/-- A shift to the left by `n` bytes. -/
theorem byteOf_shiftLeft (x : BitVec w) (n : ℕ) {k : ℕ} (hk : 8 * (k + 1) ≤ w) :
    byteOf (x <<< (8 * n)) k = if n ≤ k then byteOf x (k - n) else 0 := by
  apply byteOf_ext
  intro i hi
  rw [BitVec.getLsbD_shiftLeft, decide_eq_true (by omega : 8 * k + i < w), Bool.true_and]
  by_cases h : n ≤ k
  · rw [if_pos h, getLsbD_byteOf x _ hi, decide_eq_false (by omega), Bool.not_false, Bool.true_and]
    congr 1
    omega
  · rw [if_neg h, decide_eq_true (by omega)]
    simp

/-- An arithmetic shift to the right by `n` bytes, below the bytes that come in. -/
theorem byteOf_sshiftRight (x : BitVec w) (n : ℕ) {k : ℕ} (hk : 8 * (n + k + 1) ≤ w) :
    byteOf (x.sshiftRight (8 * n)) k = byteOf x (n + k) := by
  apply byteOf_ext
  intro i hi
  rw [BitVec.getLsbD_sshiftRight, getLsbD_byteOf x _ hi, if_pos (by omega), decide_eq_false (by omega),
    Bool.not_false, Bool.true_and]
  congr 1
  omega

@[simp] theorem byteOf_append_byte_zero (x : BitVec w) (b : Byte) : byteOf (x ++ b) 0 = b := by
  apply byteOf_ext
  intro i hi
  rw [BitVec.getLsbD_append, if_pos (by omega)]
  congr 1
  omega

@[simp] theorem byteOf_append_byte_succ (x : BitVec w) (b : Byte) (k : ℕ) : byteOf (x ++ b) (k + 1) = byteOf x k := by
  apply byteOf_ext
  intro i hi
  rw [BitVec.getLsbD_append, if_neg (by omega), getLsbD_byteOf x k hi]
  congr 1
  omega

end Basis
