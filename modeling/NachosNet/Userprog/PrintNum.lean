/-
# `PrintNum` and `ReadNum` are inverse

`SysPrintNum` with every access to `_numberBuffer` checked (`sysPrintNum`), from any
content of the array: it stores the digits of the number from the last one on and
prints them from the end, and treats 0 and `INT32_MIN` apart.

`readNum_printNum`: the characters that are printed for a number of 32 bits are its
decimal form, and reading them and a blank gives the number and leaves what comes
after the blank.

Key definitions: `sysPrintNum`.
-/
import NachosNet.Userprog.ReadNum

namespace Nachos

open Basis

open Checked

/-! ### `SysPrintNum` -/

/-- The first loop of `SysPrintNum`: the digits of `num` are stored from `n` on. -/
def checkedStoreDigits (num n : ℕ) (b : List Byte) : Checked (List Byte × ℕ) :=
  if num = 0 then .done (b, n)
  else (put b n (BitVec.ofNat 8 (num % 10))).bind fun b => checkedStoreDigits (num / 10) (n + 1) b
termination_by num
decreasing_by omega

/-- The second loop: the characters for the digits below `i`, from the end on. -/
def checkedPrintDigits (b : List Byte) : ℕ → Checked (List Byte)
  | 0 => .done []
  | i + 1 => (get b i).bind fun c => (checkedPrintDigits b i).map fun cs => (c + 48) :: cs

/-- The two loops on a positive number: the characters, and the array afterwards. -/
def checkedDigits (num : ℕ) (b : List Byte) : Checked (List Byte × List Byte) :=
  (checkedStoreDigits num 0 b).bind fun r => (checkedPrintDigits r.1 r.2).map fun cs => (cs, r.1)

def sysPrintNum (b : List Byte) (num : BitVec 32) : Checked (List Byte × List Byte) :=
  if num = 0 then .done ([48], b)
  else if num.toInt = minInt then .done (minIntChars, b)
  else if num.toInt < 0 then (checkedDigits (-num).toNat b).map fun r => (45 :: r.1, r.2)
  else checkedDigits num.toNat b

theorem checkedStoreDigits_eq (num n : ℕ) (b : NumberBuffer) (h : n + (Nat.digits 10 num).length ≤ 13) :
    checkedStoreDigits num n b.1 = .done ((b.storeDigits num n).1.1, (b.storeDigits num n).2) := by
  induction num using Nat.strongRecOn generalizing n b with
  | ind num ih =>
    rw [checkedStoreDigits, NumberBuffer.storeDigits]
    by_cases h0 : num = 0
    · rw [if_pos h0, if_pos h0]
    · rw [Nat.digits_def' (by decide) (Nat.pos_of_ne_zero h0), List.length_cons] at h
      have hn : n < b.1.length := by
        rw [b.2]
        unfold maxNumLength
        omega
      rw [if_neg h0, if_neg h0, put_eq hn, bind_done]
      exact ih (num / 10) (by omega) (n + 1) (b.store n _) (by omega)

theorem checkedPrintDigits_eq (b : List Byte) : ∀ i ≤ b.length,
    checkedPrintDigits b i = .done ((b.take i).map (· + 48)).reverse
  | 0, _ => rfl
  | i + 1, hi => by
    rw [checkedPrintDigits, get_eq hi, bind_done, checkedPrintDigits_eq b i (Nat.le_of_succ_le hi), map_done,
      List.take_succ_eq_append_getElem hi, List.map_append, List.reverse_append, List.getD_eq_getElem?_getD,
      List.getElem?_eq_getElem hi]
    rfl

theorem checkedDigits_eq {num : ℕ} (h : num < 10 ^ 10) (b : NumberBuffer) :
    ∃ b', checkedDigits num b.1 = .done (digitChars num, b') := by
  have hlen := NumberCalls.length_digits_le h
  obtain ⟨hb, hn⟩ := b.storeDigits_spec num 0 (by omega)
  have htake : (b.storeDigits num 0).1.1.take (b.storeDigits num 0).2 =
      (Nat.digits 10 num).map (BitVec.ofNat 8) := by
    rw [hb, hn]
    simp
  have hle : (b.storeDigits num 0).2 ≤ (b.storeDigits num 0).1.1.length := by
    rw [hn, (b.storeDigits num 0).1.2]
    unfold maxNumLength
    omega
  refine ⟨(b.storeDigits num 0).1.1, ?_⟩
  unfold checkedDigits
  rw [checkedStoreDigits_eq num 0 b (by omega), bind_done, checkedPrintDigits_eq _ _ hle, map_done, htake,
    List.map_map]
  rfl

theorem sysPrintNum_eq (b : NumberBuffer) (num : BitVec 32) :
    ∃ b', sysPrintNum b.1 num = .done (decimal num.toInt, b') := by
  have hlt : num.toNat < 2 ^ 32 := num.isLt
  have hcond := BitVec.toInt_eq_toNat_cond num
  have hneg : (-num).toNat = (2 ^ 32 - num.toNat) % 2 ^ 32 := BitVec.toNat_neg num
  unfold sysPrintNum
  by_cases h0 : num = 0
  · subst h0
    exact ⟨b.1, rfl⟩
  rw [if_neg h0]
  by_cases hmin : num.toInt = minInt
  · exact ⟨b.1, by rw [if_pos hmin, hmin, decimal_minInt]⟩
  rw [if_neg hmin]
  have hne : num.toNat ≠ 0 := fun h => h0 (BitVec.eq_of_toNat_eq h)
  by_cases hv : num.toInt < 0
  · have habs : num.toInt.natAbs = (-num).toNat := by split at hcond <;> omega
    obtain ⟨b', hdigits⟩ := @checkedDigits_eq (-num).toNat (by omega) b
    exact ⟨b', by rw [if_pos hv, hdigits, map_done, decimal_of_neg hv, habs]⟩
  · have habs : num.toInt.natAbs = num.toNat := by split at hcond <;> omega
    obtain ⟨b', hdigits⟩ := @checkedDigits_eq num.toNat (by omega) b
    exact ⟨b', by rw [if_neg hv, hdigits, decimal_of_pos (by split at hcond <;> omega), habs]⟩

/-! ### What `SysReadNum` leaves -/

/-- A token that has room in the array is taken with the blank after it. -/
theorem checkedReadUntilBlank_token {c : Byte} (hc : isBlank c = true) (left : List Byte) : ∀ (t b : List Byte) (n : ℕ),
    (∀ x ∈ t, (isBlank x || x == eof) = false) → n + t.length ≤ maxNumLength → maxNumLength < b.length →
      ∃ b', checkedReadUntilBlank b n (t ++ c :: left) = .done (b', left)
  | [], b, n, _, _, _ => ⟨b, if_pos (by rw [hc, Bool.true_or])⟩
  | x :: t, b, n, ht, hlen, hb => by
    obtain ⟨hx, ht⟩ := List.forall_mem_cons.mp ht
    rw [List.length_cons] at hlen
    obtain ⟨b', hrest⟩ := checkedReadUntilBlank_token hc left t (b.set n x) (n + 1) ht (by omega)
      (by rwa [List.length_set])
    refine ⟨b', ?_⟩
    rw [List.cons_append, checkedReadUntilBlank, if_neg (by rw [hx]; exact Bool.false_ne_true), put_eq (by omega),
      bind_done, if_neg (by omega)]
    exact hrest

/-! ### The characters of a decimal form -/

theorem mem_decimal {v : ℤ} {c : Byte} (h : c ∈ decimal v) : IsDigit c ∨ c = 45 := by
  rcases lt_trichotomy v 0 with hv | hv | hv
  · rw [decimal_of_neg hv] at h
    rcases List.mem_cons.mp h with rfl | h
    · exact Or.inr rfl
    · exact Or.inl (isDigit_of_mem_digitChars h)
  · subst hv
    obtain rfl : c = 48 := by simpa [decimal] using h
    exact Or.inl (by decide)
  · rw [decimal_of_pos hv] at h
    exact Or.inl (isDigit_of_mem_digitChars h)

theorem toNat_of_mem_decimal {v : ℤ} {c : Byte} (h : c ∈ decimal v) : 45 ≤ c.toNat ∧ c.toNat ≤ 57 := by
  rcases mem_decimal h with hd | rfl
  · exact ⟨by have := hd.1; omega, hd.2⟩
  · decide

theorem not_blank_of_mem_decimal {v : ℤ} {c : Byte} (h : c ∈ decimal v) : (isBlank c || c == eof) = false := by
  have hc := toNat_of_mem_decimal h
  have hne : ∀ x : Byte, x.toNat < 45 ∨ 57 < x.toNat → (c == x) = false := by
    intro x hx
    apply beq_false_of_ne
    rintro rfl
    omega
  unfold isBlank eof
  rw [hne 10 (by decide), hne 13 (by decide), hne 9 (by decide), hne 32 (by decide), hne 255 (by decide)]
  rfl

theorem token_decimal (v : ℤ) {c : Byte} (hc : isBlank c = true) (left : List Byte) :
    token (decimal v ++ c :: left) = decimal v := by
  unfold token
  rw [List.takeWhile_append_of_pos fun x hx => by rw [not_blank_of_mem_decimal hx]; rfl,
    List.takeWhile_cons_of_neg (by rw [hc, Bool.true_or]; decide), List.append_nil]

/-- Reading the decimal form of a number of 32 bits and a blank. -/
theorem sysReadNumLeft_decimal {v : ℤ} (hv : minInt ≤ v) (hv' : v ≤ maxInt) {c : Byte} (hc : isBlank c = true)
    (left : List Byte) : sysReadNumLeft (decimal v ++ c :: left) = .done (v, left) := by
  have htoken := token_decimal v hc left
  have hzero : 0 ∉ token (decimal v ++ c :: left) := by
    rw [htoken]
    intro h
    exact absurd (toNat_of_mem_decimal h).1 (by decide)
  obtain ⟨r, left', hread, hright⟩ := sysReadNum_right hzero
  obtain rfl : v = r := by
    rw [htoken] at hright
    rcases hright with hcan | ⟨-, hnone⟩
    · exact canonical_unique ⟨hv, hv', rfl⟩ hcan
    · exact absurd ⟨hv, hv', rfl⟩ (hnone v)
  obtain ⟨b, hleft⟩ := checkedReadUntilBlank_token hc left (decimal v) NumberBuffer.zero.1 0
    (fun x hx => not_blank_of_mem_decimal hx) (by rw [Nat.zero_add]; exact length_decimal_le hv hv') (by decide)
  -- the rest is the same for every number
  unfold sysReadNumLeft at hread ⊢
  rw [hleft, bind_done] at hread ⊢
  obtain ⟨num, hnum, heq⟩ := map_eq_done.mp hread
  rw [hnum, map_done, (Prod.mk.inj heq).1]

/-- `PrintNum` and `ReadNum` are inverse: for every number of 32 bits and whatever the array held before, the
characters that are printed are its decimal form, and reading them and a blank gives it and leaves the rest. -/
theorem readNum_printNum (num : BitVec 32) (b : NumberBuffer) : ∃ emitted b',
    sysPrintNum b.1 num = .done (emitted, b') ∧ emitted = decimal num.toInt ∧
      ∀ c, isBlank c = true → ∀ left, sysReadNumLeft (emitted ++ c :: left) = .done (num.toInt, left) := by
  obtain ⟨b', hprint⟩ := sysPrintNum_eq b num
  refine ⟨decimal num.toInt, b', hprint, rfl, fun c hc left => ?_⟩
  have hmin : minInt ≤ num.toInt := BitVec.le_toInt num
  have hmax : num.toInt < 2 ^ 31 := BitVec.toInt_lt
  exact sysReadNumLeft_decimal hmin (by unfold maxInt; omega) hc left

end Nachos
