/-
# Numbers of two words

A high and a low word, put together by `++`, as one number of both widths: how
the sum, the double and the negative of such numbers are computed on the words,
with the carry out of the low word found by a comparison. And the sum of a
product bit by bit: what an arithmetic shift to the right leaves of the bits
that have not been counted.
-/
import Mathlib.Data.BitVec
import Mathlib.Tactic.Ring

namespace Basis

variable {v w : ℕ}

theorem toNat_append (hi : BitVec v) (lo : BitVec w) : (hi ++ lo).toNat = hi.toNat * 2 ^ w + lo.toNat := by
  rw [BitVec.toNat_append, ← Nat.shiftLeft_add_eq_or_of_lt lo.isLt, Nat.shiftLeft_eq]

theorem add_lt_iff_carry (x y : BitVec w) : x + y < y ↔ 2 ^ w ≤ x.toNat + y.toNat := by
  rw [BitVec.lt_def, BitVec.toNat_add]
  have hx := x.isLt
  have hy := y.isLt
  by_cases h : 2 ^ w ≤ x.toNat + y.toNat
  · rw [Nat.mod_eq_sub_mod h, Nat.mod_eq_of_lt (by omega)]
    omega
  · rw [Nat.mod_eq_of_lt (by omega)]
    omega

theorem append_add_append (hi hi' : BitVec v) (lo lo' : BitVec w) :
    (hi ++ lo) + (hi' ++ lo') = ((if lo + lo' < lo' then hi + 1 else hi) + hi') ++ (lo + lo') := by
  have hlo := lo.isLt
  have hlo' := lo'.isLt
  have hcarry : ((if lo + lo' < lo' then hi + 1 else hi) + hi').toNat =
      (hi.toNat + hi'.toNat + (lo.toNat + lo'.toNat) / 2 ^ w) % 2 ^ v := by
    by_cases h : 2 ^ w ≤ lo.toNat + lo'.toNat
    · have hdiv : (lo.toNat + lo'.toNat) / 2 ^ w = 1 := Nat.div_eq_of_lt_le (by omega) (by omega)
      rw [if_pos ((add_lt_iff_carry lo lo').mpr h), hdiv, add_right_comm, BitVec.toNat_add, BitVec.toNat_add]
      simp
    · rw [if_neg (mt (add_lt_iff_carry lo lo').mp h), Nat.div_eq_of_lt (by omega), BitVec.toNat_add, Nat.add_zero]
  apply BitVec.eq_of_toNat_eq
  calc ((hi ++ lo) + (hi' ++ lo')).toNat
      = (lo.toNat + lo'.toNat + 2 ^ w * (hi.toNat + hi'.toNat)) % (2 ^ w * 2 ^ v) := by
        rw [BitVec.toNat_add, toNat_append, toNat_append, ← pow_add, Nat.add_comm w v]
        congr 1
        ring
    _ = (lo.toNat + lo'.toNat) % 2 ^ w
          + 2 ^ w * ((hi.toNat + hi'.toNat + (lo.toNat + lo'.toNat) / 2 ^ w) % 2 ^ v) := by
        rw [Nat.mod_mul, Nat.add_mul_mod_self_left, Nat.add_mul_div_left _ _ (Nat.two_pow_pos w),
          Nat.add_comm (_ / _)]
    _ = _ := by rw [toNat_append, hcarry, BitVec.toNat_add, Nat.mul_comm, Nat.add_comm]

/-- The negative, with a carry if the low word has become zero. -/
theorem neg_append (hw : 0 < w) (hi : BitVec v) (lo : BitVec w) :
    -(hi ++ lo) = (if ~~~lo + 1 = 0 then ~~~hi + 1 else ~~~hi) ++ (~~~lo + 1) := by
  have hone : (1#(v + w) : BitVec (v + w)) = (0 : BitVec v) ++ (1#w : BitVec w) := by
    apply BitVec.eq_of_toNat_eq
    rw [toNat_append, BitVec.toNat_ofNat, BitVec.toNat_ofNat]
    rw [Nat.mod_eq_of_lt (Nat.one_lt_two_pow (by omega)), Nat.mod_eq_of_lt (Nat.one_lt_two_pow (by omega))]
    simp
  have hzero : ~~~lo + 1 < 1 ↔ ~~~lo + 1 = 0 := by
    rw [BitVec.lt_def, ← BitVec.toNat_inj]
    have h1 : (1 : BitVec w).toNat = 1 := by
      simpa using Nat.mod_eq_of_lt (Nat.one_lt_two_pow (by omega : w ≠ 0))
    rw [h1]
    simp
  rw [BitVec.neg_eq_not_add, BitVec.not_append, hone, append_add_append]
  simp only [BitVec.ofNat_eq_ofNat] at hzero ⊢
  simp only [hzero, BitVec.add_zero]

/-- The bits of `a` below `n + 1`: the lowest, and those below `n` of `a` shifted, whatever
comes in from above. -/
theorem toNat_mod_two_pow_succ (a : BitVec w) {n : ℕ} (hn : n < w) :
    a.toNat % 2 ^ (n + 1) = a.toNat % 2 + 2 * ((a.sshiftRight 1).toNat % 2 ^ n) := by
  have hshift : (a.sshiftRight 1).toNat % 2 ^ n = a.toNat / 2 % 2 ^ n := by
    cases hm : a.msb
    · rw [BitVec.sshiftRight_eq_of_msb_false hm, BitVec.toNat_ushiftRight, Nat.shiftRight_one]
    · obtain ⟨k, rfl⟩ := Nat.exists_eq_add_of_lt hn
      have ha := a.isLt
      have hsum : (a.sshiftRight 1).toNat = a.toNat / 2 + 2 ^ n * 2 ^ k := by
        rw [BitVec.toNat_sshiftRight_of_msb_true hm, Nat.shiftRight_one, ← pow_add]
        rw [pow_succ] at ha ⊢
        omega
      rw [hsum, Nat.add_mul_mod_self_left]
  rw [hshift, pow_succ', Nat.mod_mul]

end Basis
