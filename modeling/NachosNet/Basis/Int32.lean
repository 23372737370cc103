/-
# Numbers in 32 bits

An `int` holds the sum, the product and the negative of numbers modulo `2 ^ 32`,
in two's complement. What is within `minInt` and `maxInt` is held as it is
(`toInt_eq`), a sum that is too large wraps to a negative number (`toInt_beyond`).
-/
import Mathlib.Tactic.Ring

namespace Basis

/-- What an `int` holds of `x`. -/
def toInt (x : ℤ) : ℤ := x.bmod (2 ^ 32)

def maxInt : ℤ := 2 ^ 31 - 1

def minInt : ℤ := -2 ^ 31

theorem toInt_mem (x : ℤ) : minInt ≤ toInt x ∧ toInt x ≤ maxInt := by
  have hle := Int.le_bmod (x := x) (m := 2 ^ 32) (by decide)
  have hlt := Int.bmod_lt (x := x) (m := 2 ^ 32) (by decide)
  unfold toInt minInt maxInt
  omega

theorem toInt_eq {x : ℤ} (h : minInt ≤ x) (h' : x ≤ maxInt) : toInt x = x := by
  unfold minInt at h
  unfold maxInt at h'
  exact Int.bmod_eq_of_le (by omega) (by omega)

theorem toInt_le {x : ℤ} (h : minInt ≤ x) : toInt x ≤ x := by
  by_cases hle : x ≤ maxInt
  · rw [toInt_eq h hle]
  · have := (toInt_mem x).2
    omega

theorem toInt_beyond {x : ℤ} (h : maxInt < x) (h' : x ≤ 2 * maxInt) : toInt x = x - 2 ^ 32 := by
  have hmax : maxInt = 2 ^ 31 - 1 := rfl
  have hmin : minInt = -2 ^ 31 := rfl
  rw [← toInt_eq (x := x - 2 ^ 32) (by omega) (by omega)]
  exact (Int.sub_bmod_right x (2 ^ 32)).symm

/-- A number gets no larger when it wraps. -/
theorem natAbs_toInt_le (x : ℤ) : (toInt x).natAbs ≤ x.natAbs := by
  by_cases h : minInt ≤ x ∧ x ≤ maxInt
  · rw [toInt_eq h.1 h.2]
  · have hmem := toInt_mem x
    unfold minInt maxInt at h hmem
    omega

end Basis
