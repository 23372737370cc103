/-
# The product of two registers

`Mult` of `machine/mipssim.cc` multiplies by shifting and adding: the bits of
`a`, from the lowest up, say which doubles of `b` are added. It works on the
words of a double word, with the carry found by a comparison, shifts `a` with
its sign, and stops when no bit of `a` is left. Signed numbers are made positive
first, which `INT_MIN` is not by that; as an unsigned number it is its absolute
value all the same.

Key theorems: `multLoop_append`, `mult_exact`.
-/
import NachosNet.Basis.DoubleWord
import NachosNet.Machine.Mipssim

namespace Nachos

/-! ### One round -/

theorem toNat_and_one (a : Word) : (a &&& 1).toNat = a.toNat % 2 :=
  (BitVec.toNat_and a 1).trans (Nat.and_one_is_mod _)

theorem and_one_ne_zero (a : Word) : a &&& 1 ≠ 0 ↔ a.toNat % 2 = 1 := by
  rw [Ne, ← BitVec.toNat_inj, toNat_and_one]
  have : (0 : Word).toNat = 0 := rfl
  omega

theorem toNat_lt_two_of_and_eq_zero {a : Word} (h : a &&& 0xfffffffe = 0) : a.toNat < 2 := by
  have hone : a = a &&& 1 := by
    calc a = a &&& (0xfffffffe ||| 1) := (BitVec.and_allOnes).symm
      _ = (a &&& 0xfffffffe) ||| (a &&& 1) := BitVec.and_or_distrib_left
      _ = a &&& 1 := by rw [h]; exact BitVec.zero_or
  have hnat := congrArg BitVec.toNat hone
  rw [toNat_and_one] at hnat
  omega

theorem append_double (bHi bLo : Word) :
    ((bHi <<< 1) ||| if bLo &&& 0x80000000 ≠ 0 then (1 : Word) else 0) ++ (bLo <<< 1) =
      (bHi ++ bLo) + (bHi ++ bLo) := by
  have hshift : ∀ x : Word, x <<< 1 = x + x := fun x => by bv_omega
  have hbit : bLo &&& 0x80000000 ≠ 0 ↔ bLo + bLo < bLo := by
    have hmask : bLo &&& 0x80000000 = if bLo.getLsbD 31 then BitVec.twoPow 32 31 else 0 := BitVec.and_twoPow bLo 31
    have hmsb : bLo.getLsbD 31 = true ↔ 2 ^ 31 ≤ bLo.toNat := by
      rw [show bLo.getLsbD 31 = bLo.msb from rfl, BitVec.msb_eq_decide, decide_eq_true_eq]
    rw [Basis.add_lt_iff_carry, hmask]
    split_ifs with h
    · have := hmsb.mp h
      exact iff_of_true (by decide) (by omega)
    · have := mt hmsb.mpr h
      exact iff_of_false (by simp) (by omega)
  have hor : bHi <<< 1 ||| 1 = bHi + bHi + 1 := by
    rw [← BitVec.add_eq_or_of_and_eq_zero, hshift]
    apply BitVec.eq_of_toNat_eq
    rw [BitVec.toNat_and, BitVec.toNat_shiftLeft]
    exact (Nat.and_one_is_mod _).trans (by simp only [Nat.shiftLeft_eq, BitVec.toNat_ofNat]; omega)
  rw [Basis.append_add_append, hshift bLo]
  congr 1
  by_cases h : bLo + bLo < bLo
  · rw [if_pos (hbit.mpr h), if_pos h, hor]
    ring
  · rw [if_neg (mt hbit.mp h), if_neg h, hshift]
    exact BitVec.or_zero

/-! ### The loop -/

theorem multLoop_append : ∀ (n : ℕ) (a bHi bLo hi lo : Word), n ≤ 32 →
    (multLoop n a bHi bLo hi lo).1 ++ (multLoop n a bHi bLo hi lo).2 =
      (hi ++ lo) + ((a.toNat % 2 ^ n : ℕ) : BitVec 64) * (bHi ++ bLo)
  | 0, a, bHi, bLo, hi, lo, _ => by
    simp [multLoop, Nat.mod_one]
  | n + 1, a, bHi, bLo, hi, lo, hn => by
    have hbits : ((a.toNat % 2 ^ (n + 1) : ℕ) : BitVec 64) =
        ((a.toNat % 2 : ℕ) : BitVec 64) + 2 * (((a.sshiftRight 1).toNat % 2 ^ n : ℕ) : BitVec 64) := by
      rw [Basis.toNat_mod_two_pow_succ a (by omega), Nat.cast_add, Nat.cast_mul, Nat.cast_ofNat]
    have ih := fun hi lo => multLoop_append n (a.sshiftRight 1)
      ((bHi <<< 1) ||| if bLo &&& 0x80000000 ≠ 0 then 1 else 0) (bLo <<< 1) hi lo (by omega)
    unfold multLoop
    dsimp only
    by_cases hodd : a &&& 1 ≠ 0
    · have hlow := (and_one_ne_zero a).mp hodd
      rw [if_pos hodd]
      by_cases hend : a &&& 0xfffffffe = 0
      · -- no bit is left, so the rounds that are not made add nothing
        have ha : a.toNat = 1 := by
          have := toNat_lt_two_of_and_eq_zero hend
          omega
        rw [if_pos hend, ← Basis.append_add_append, ha, Nat.mod_eq_of_lt (Nat.one_lt_two_pow (by omega))]
        simp
      · rw [if_neg hend, ih, ← Basis.append_add_append, append_double, hbits, hlow, Nat.cast_one]
        ring
    · have hlow : a.toNat % 2 = 0 := by
        have := mt (and_one_ne_zero a).mpr hodd
        omega
      rw [if_neg hodd, ih, append_double, hbits, hlow, Nat.cast_zero]
      ring

/-- All rounds: the product of the unsigned numbers. -/
theorem multLoop_product (a b : Word) :
    (multLoop 32 a 0 b 0 0).1 ++ (multLoop 32 a 0 b 0 0).2 = BitVec.ofNat 64 (a.toNat * b.toNat) := by
  have hzero : ∀ x : Word, (0 : Word) ++ x = BitVec.ofNat 64 x.toNat := fun x => by
    apply BitVec.eq_of_toNat_eq
    have := x.isLt
    rw [Basis.toNat_append, BitVec.toNat_ofNat, Nat.mod_eq_of_lt (by omega)]
    exact (congrArg (· + x.toNat) (Nat.zero_mul _)).trans (Nat.zero_add _)
  rw [multLoop_append 32 a 0 b 0 0 le_rfl, Nat.mod_eq_of_lt a.isLt, hzero, hzero, BitVec.natCast_eq_ofNat,
    ← BitVec.ofNat_mul]
  exact BitVec.zero_add _

/-! ### The signs -/

/-- A negative number is negated. Also of `INT_MIN` this leaves the absolute value, as an
unsigned number. -/
theorem toNat_magnitude (a : Word) : (if a.toInt < 0 then -a else a).toNat = a.toInt.natAbs := by
  have ha := a.isLt
  have hint := a.toInt_eq_toNat_cond
  split_ifs at hint ⊢ with h1 h2
  · omega
  · rw [BitVec.toNat_neg, Nat.mod_eq_of_lt (by omega)]
    omega
  · omega
  · omega

/-- The product of the absolute values, negated if just one of the signs is negative. -/
theorem mul_eq_natAbs_mul (a b : ℤ) :
    a * b = if (decide (a < 0) != decide (b < 0)) = true then -((a.natAbs * b.natAbs : ℕ) : ℤ)
      else (a.natAbs * b.natAbs : ℕ) := by
  rw [Nat.cast_mul]
  by_cases ha : a < 0 <;> by_cases hb : b < 0
  · rw [if_neg (by simp [ha, hb]), Int.ofNat_natAbs_of_nonpos ha.le, Int.ofNat_natAbs_of_nonpos hb.le, neg_mul_neg]
  · rw [if_pos (by simp [ha, hb]), Int.ofNat_natAbs_of_nonpos ha.le, Int.natAbs_of_nonneg (not_lt.mp hb),
      neg_mul, neg_neg]
  · rw [if_pos (by simp [ha, hb]), Int.natAbs_of_nonneg (not_lt.mp ha), Int.ofNat_natAbs_of_nonpos hb.le,
      mul_neg, neg_neg]
  · rw [if_neg (by simp [ha, hb]), Int.natAbs_of_nonneg (not_lt.mp ha), Int.natAbs_of_nonneg (not_lt.mp hb)]

theorem mult_of_eq_zero {a b : Word} (h : a = 0 ∨ b = 0) (signedArith : Bool) :
    (mult a b signedArith).1 ++ (mult a b signedArith).2 = (0 : BitVec 64) := by
  rw [mult, if_pos h]
  rfl

theorem mult_unsigned (a b : Word) :
    (mult a b false).1 ++ (mult a b false).2 = BitVec.ofNat 64 (a.toNat * b.toNat) := by
  by_cases hz : a = 0 ∨ b = 0
  · rw [mult_of_eq_zero hz]
    rcases hz with rfl | rfl
    · rw [show (0 : Word).toNat = 0 from rfl, Nat.zero_mul]
      rfl
    · rw [show (0 : Word).toNat = 0 from rfl, Nat.mul_zero]
      rfl
  · rw [mult, if_neg hz]
    exact multLoop_product a b

theorem mult_signed (a b : Word) :
    (mult a b true).1 ++ (mult a b true).2 = BitVec.ofInt 64 (a.toInt * b.toInt) := by
  by_cases hz : a = 0 ∨ b = 0
  · rw [mult_of_eq_zero hz]
    rcases hz with rfl | rfl
    · rw [show (0 : Word).toInt = 0 from rfl, Int.zero_mul]
      rfl
    · rw [show (0 : Word).toInt = 0 from rfl, Int.mul_zero]
      rfl
  · have hloop := multLoop_product (if a.toInt < 0 then -a else a) (if b.toInt < 0 then -b else b)
    rw [toNat_magnitude, toNat_magnitude] at hloop
    rw [mult, if_neg hz, mul_eq_natAbs_mul]
    simp only [Bool.true_and, decide_eq_true_eq]
    by_cases hneg : (decide (a.toInt < 0) != decide (b.toInt < 0)) = true
    · rw [if_pos hneg, if_pos hneg, BitVec.ofInt_neg, BitVec.ofInt_natCast, ← hloop]
      exact (Basis.neg_append (by decide) _ _).symm
    · rw [if_neg hneg, if_neg hneg, BitVec.ofInt_natCast]
      exact hloop

/-- The high and the low word are those of the product, which has room in them. -/
theorem mult_exact (a b : Word) :
    ((mult a b true).1 ++ (mult a b true).2).toInt = a.toInt * b.toInt ∧
      ((mult a b false).1 ++ (mult a b false).2).toNat = a.toNat * b.toNat := by
  constructor
  · have hle : (a.toInt * b.toInt).natAbs ≤ 2 ^ 31 * 2 ^ 31 := by
      rw [Int.natAbs_mul]
      have ha := a.toInt_lt
      have ha' := a.le_toInt
      have hb := b.toInt_lt
      have hb' := b.le_toInt
      exact Nat.mul_le_mul (by omega) (by omega)
    rw [mult_signed, BitVec.toInt_ofInt_eq_self (by decide) (by omega) (by omega)]
  · have hlt : a.toNat * b.toNat < 2 ^ 32 * 2 ^ 32 := Nat.mul_lt_mul'' a.isLt b.isLt
    rw [mult_unsigned, BitVec.toNat_ofNat, pow_add, Nat.mod_eq_of_lt hlt]

end Nachos
