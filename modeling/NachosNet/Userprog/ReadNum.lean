/-
# `ReadNum` reads canonical decimals

`SysReadNum` on the characters of a console, with every access to `_numberBuffer`
checked (`sysReadNum`). `readUntilBlank` stores at most twelve characters of the
first token. The number is computed modulo `2 ^ 32` and, if the token is long enough
for it to have wrapped, compared with the token again: `compareNumAndString` is true
exactly for the decimal form of its number (`compareNumAndString_eq`).

`readNum_canonical`: the result is the value of the token if this is the decimal form
of a number in 32 bits, and 0 otherwise.

Key definitions: `valueOf`, `Canonical`, `sysReadNum`.
-/
import NachosNet.Userprog.Bounds
import NachosNet.Userprog.Numbers

namespace Nachos

open Basis

/-! ### Digits -/

def IsDigit (c : Byte) : Prop := 48 ≤ c.toNat ∧ c.toNat ≤ 57

instance (c : Byte) : Decidable (IsDigit c) := inferInstanceAs (Decidable (_ ∧ _))

def digitOf (c : Byte) : ℕ := c.toNat - 48

/-- The number that a string of digits stands for. -/
def valueOf (ds : List Byte) : ℕ := Nat.ofDigits 10 (ds.reverse.map digitOf)

theorem isDigit_iff (c : Byte) : ¬ (c.toInt < 48 ∨ 57 < c.toInt) ↔ IsDigit c := by
  have hlt := c.isLt
  have hcond := BitVec.toInt_eq_toNat_cond c
  unfold IsDigit
  split at hcond <;> omega

theorem toInt_of_isDigit {c : Byte} (h : IsDigit c) : c.toInt - 48 = digitOf c := by
  have hcond := BitVec.toInt_eq_toNat_cond c
  unfold IsDigit at h
  unfold digitOf
  rw [if_pos (by omega)] at hcond
  omega

theorem toNat_digit {d : ℕ} (h : d < 10) : (BitVec.ofNat 8 d + 48 : Byte).toNat = d + 48 := by
  rw [BitVec.toNat_add, BitVec.toNat_ofNat]
  have h48 : (48 : Byte).toNat = 48 := rfl
  omega

theorem isDigit_digit {d : ℕ} (h : d < 10) : IsDigit (BitVec.ofNat 8 d + 48) := by
  unfold IsDigit
  rw [toNat_digit h]
  omega

theorem digitOf_digit {d : ℕ} (h : d < 10) : digitOf (BitVec.ofNat 8 d + 48) = d := by
  unfold digitOf
  rw [toNat_digit h, Nat.add_sub_cancel]

theorem digitOf_lt {c : Byte} (h : IsDigit c) : digitOf c < 10 := by
  unfold IsDigit at h
  unfold digitOf
  omega

theorem digit_digitOf {c : Byte} (h : IsDigit c) : BitVec.ofNat 8 (digitOf c) + 48 = c := by
  apply BitVec.eq_of_toNat_eq
  rw [toNat_digit (digitOf_lt h)]
  unfold IsDigit at h
  unfold digitOf
  omega

theorem valueOf_cons (c : Byte) (ds : List Byte) :
    valueOf (c :: ds) = digitOf c * 10 ^ ds.length + valueOf ds := by
  unfold valueOf
  rw [List.reverse_cons, List.map_append, Nat.ofDigits_append, List.length_map, List.length_reverse, List.map_singleton,
    Nat.ofDigits_singleton]
  ring

theorem valueOf_lt {ds : List Byte} (h : ∀ c ∈ ds, IsDigit c) : valueOf ds < 10 ^ ds.length := by
  have hlt := @Nat.ofDigits_lt_base_pow_length 10 (ds.reverse.map digitOf) (by decide) fun d hd => by
    obtain ⟨c, hc, rfl⟩ := List.mem_map.mp hd
    exact digitOf_lt (h c (List.mem_reverse.mp hc))
  rwa [List.length_map, List.length_reverse] at hlt

theorem isDigit_of_mem_digitChars {m : ℕ} {c : Byte} (h : c ∈ digitChars m) : IsDigit c := by
  obtain ⟨d, hd, rfl⟩ := List.mem_map.mp (List.mem_reverse.mp h)
  exact isDigit_digit (Nat.digits_lt_base (by decide) hd)

theorem valueOf_digitChars (m : ℕ) : valueOf (digitChars m) = m := by
  unfold valueOf digitChars
  rw [List.reverse_reverse, List.map_map]
  calc Nat.ofDigits 10 ((Nat.digits 10 m).map (digitOf ∘ fun d => BitVec.ofNat 8 d + 48))
      = Nat.ofDigits 10 ((Nat.digits 10 m).map id) := by
        congr 1
        exact List.map_congr_left fun d hd => digitOf_digit (Nat.digits_lt_base (by decide) hd)
    _ = m := by rw [List.map_id, Nat.ofDigits_digits]

/-- A string of digits that does not begin with a zero is the decimal form of its
value. -/
theorem digitChars_valueOf {ds : List Byte} (h : ∀ c ∈ ds, IsDigit c) (hhead : ds.head? ≠ some 48) :
    digitChars (valueOf ds) = ds := by
  have hdigits : Nat.digits 10 (valueOf ds) = ds.reverse.map digitOf := by
    refine Nat.digits_ofDigits 10 (by decide) _ (fun d hd => ?_) fun hne => ?_
    · obtain ⟨c, hc, rfl⟩ := List.mem_map.mp hd
      exact digitOf_lt (h c (List.mem_reverse.mp hc))
    · cases ds with
      | nil => exact absurd rfl hne
      | cons c ds =>
        have hc : IsDigit c := h c List.mem_cons_self
        rw [List.getLast_map, List.getLast_reverse]
        intro h0
        apply hhead
        rw [List.head?_cons, ← digit_digitOf hc]
        exact congrArg (fun d => some (BitVec.ofNat 8 d + 48)) h0
  unfold digitChars
  rw [hdigits, List.map_map, ← List.map_reverse, List.reverse_reverse]
  exact (List.map_congr_left fun c hc => digit_digitOf (h c hc)).trans (List.map_id ds)

theorem head_digitChars (m : ℕ) : (digitChars m).head? ≠ some 48 := by
  unfold digitChars
  rw [List.head?_reverse, List.getLast?_map]
  intro h
  obtain ⟨d, hd, h48⟩ := Option.map_eq_some_iff.mp h
  have hlt : d < 10 := Nat.digits_lt_base (by decide) (List.mem_of_getLast? hd)
  have h0 : d = 0 := by
    have := congrArg BitVec.toNat h48
    rw [toNat_digit hlt] at this
    have h48 : (48 : Byte).toNat = 48 := rfl
    omega
  have hm : m ≠ 0 := by
    rintro rfl
    simp at hd
  have hlast := Nat.getLast_digit_ne_zero 10 hm
  rw [List.getLast?_eq_some_getLast (Nat.digits_ne_nil_iff_ne_zero.mpr hm), Option.some.injEq] at hd
  exact hlast (hd.trans h0)

theorem length_digitChars_le {m : ℕ} (h : m < 10 ^ 10) : (digitChars m).length ≤ 10 := by
  unfold digitChars
  rw [List.length_reverse, List.length_map]
  exact NumberCalls.length_digits_le h

/-! ### Decimal forms -/

theorem digitChars_ne_nil {m : ℕ} (h : m ≠ 0) : digitChars m ≠ [] := by
  intro hnil
  have hv := valueOf_digitChars m
  rw [hnil] at hv
  exact h hv.symm

theorem decimal_of_pos {v : ℤ} (h : 0 < v) : decimal v = digitChars v.natAbs := by
  unfold decimal
  rw [if_neg (by omega), if_neg (by omega)]

theorem decimal_of_neg {v : ℤ} (h : v < 0) : decimal v = 45 :: digitChars v.natAbs := by
  unfold decimal
  rw [if_neg (by omega), if_pos h]

theorem head_digitChars_ne_minus (m : ℕ) : (digitChars m).head? ≠ some 45 := by
  intro h
  exact absurd (isDigit_of_mem_digitChars (List.mem_of_head? h)) (by decide)

theorem head_decimal (v : ℤ) : (decimal v).head? = some 45 ↔ v < 0 := by
  rcases lt_trichotomy v 0 with h | h | h
  · rw [decimal_of_neg h]
    exact ⟨fun _ => h, fun _ => rfl⟩
  · subst h
    decide
  · rw [decimal_of_pos h]
    exact ⟨fun hd => absurd hd (head_digitChars_ne_minus _), fun hv => by omega⟩

/-- `s` is the decimal form of the number `v` of 32 bits. -/
def Canonical (s : List Byte) (v : ℤ) : Prop := minInt ≤ v ∧ v ≤ maxInt ∧ s = decimal v

theorem natAbs_lt {v : ℤ} (h : minInt ≤ v) (h' : v ≤ maxInt) : v.natAbs < 10 ^ 10 := by
  unfold minInt at h
  unfold maxInt at h'
  omega

theorem length_decimal_le {v : ℤ} (h : minInt ≤ v) (h' : v ≤ maxInt) : (decimal v).length ≤ 11 := by
  have hlen := length_digitChars_le (natAbs_lt h h')
  unfold decimal
  split
  · decide
  · split
    · rw [List.length_cons]
      omega
    · omega

/-- The digits of a negative number in its decimal form. -/
theorem canonical_minus {ds : List Byte} {v : ℤ} (h : Canonical (45 :: ds) v) :
    v < 0 ∧ ds = digitChars v.natAbs ∧ v = -(valueOf ds : ℤ) := by
  have hneg : v < 0 := (head_decimal v).mp (by rw [← h.2.2]; rfl)
  have hds : ds = digitChars v.natAbs := by
    have := h.2.2
    rw [decimal_of_neg hneg] at this
    exact List.tail_eq_of_cons_eq this
  refine ⟨hneg, hds, ?_⟩
  rw [hds, valueOf_digitChars]
  omega

theorem canonical_plain {s : List Byte} {v : ℤ} (hhead : s.head? ≠ some 45) (h : Canonical s v) :
    s = [48] ∧ v = 0 ∨ 0 < v ∧ s = digitChars v.natAbs ∧ v = valueOf s := by
  have hnonneg : ¬ v < 0 := fun hneg => hhead (by rw [h.2.2]; exact (head_decimal v).mpr hneg)
  rcases (not_lt.mp hnonneg).eq_or_lt with h0 | hpos
  · subst h0
    exact Or.inl ⟨h.2.2, rfl⟩
  · have hs : s = digitChars v.natAbs := h.2.2.trans (decimal_of_pos hpos)
    refine Or.inr ⟨hpos, hs, ?_⟩
    rw [hs, valueOf_digitChars]
    omega

theorem canonical_unique {s : List Byte} {v w : ℤ} (hv : Canonical s v) (hw : Canonical s w) : v = w := by
  by_cases hhead : s.head? = some 45
  · obtain ⟨ds, rfl⟩ := List.head?_eq_some_iff.mp hhead
    rw [(canonical_minus hv).2.2, (canonical_minus hw).2.2]
  · have hzero : digitChars w.natAbs ≠ [48] := fun h => head_digitChars w.natAbs (by rw [h]; rfl)
    rcases canonical_plain hhead hv with ⟨hs, rfl⟩ | ⟨-, hs, hval⟩
    · rcases canonical_plain hhead hw with ⟨-, rfl⟩ | ⟨-, hs', -⟩
      · rfl
      · exact absurd (hs'.symm.trans hs) hzero
    · rcases canonical_plain hhead hw with ⟨hs', -⟩ | ⟨-, -, hval'⟩
      · exact absurd (by rw [← hs, hs']; rfl) (head_digitChars v.natAbs)
      · rw [hval, hval']

/-! ### The number of a string -/

/-- The zeros at the beginning. -/
def leadingZeros (ds : List Byte) : ℕ := (ds.takeWhile (· == 48)).length

theorem leadingZeros_cons_zero (ds : List Byte) : leadingZeros (48 :: ds) = leadingZeros ds + 1 := by
  unfold leadingZeros
  rw [List.takeWhile_cons_of_pos (by rfl), List.length_cons]

theorem leadingZeros_eq_zero {ds : List Byte} : leadingZeros ds = 0 ↔ ds.head? ≠ some 48 := by
  cases ds with
  | nil => simp [leadingZeros]
  | cons c ds =>
    rw [List.head?_cons, ne_eq, Option.some.injEq]
    constructor
    · rintro h rfl
      rw [leadingZeros_cons_zero] at h
      exact absurd h (Nat.succ_ne_zero _)
    · intro hc
      unfold leadingZeros
      rw [List.takeWhile_cons_of_neg (by simpa using hc), List.length_nil]

theorem toInt_step (x d : ℤ) : toInt (toInt (toInt x * 10) + d) = toInt (x * 10 + d) := by
  unfold toInt
  rw [Int.bmod_add_bmod, ← Int.bmod_add_bmod, Int.bmod_mul_bmod, Int.bmod_add_bmod]

theorem toInt_neg (x : ℤ) : toInt (-toInt x) = toInt (-x) := Int.bmod_neg_bmod

/-- The loop of `SysReadNum` over digits counts the zeros at the beginning and
computes the number modulo `2 ^ 32`. -/
theorem readDigits_eq {ds : List Byte} : ∀ {zeros : ℕ} {isLeading : Bool} {x : ℤ}, (∀ c ∈ ds, IsDigit c) →
    readDigits ds zeros isLeading (toInt x) =
      some (zeros + (if isLeading then leadingZeros ds else 0), toInt (x * 10 ^ ds.length + valueOf ds)) := by
  induction ds with
  | nil =>
    intro zeros isLeading x _
    have hv : ((valueOf [] : ℕ) : ℤ) = 0 := rfl
    simp [readDigits, leadingZeros, hv]
  | cons c ds ih =>
    intro zeros isLeading x h
    obtain ⟨hc, hds⟩ := List.forall_mem_cons.mp h
    rw [readDigits, if_neg ((isDigit_iff c).mpr hc), toInt_of_isDigit hc, toInt_step]
    dsimp only
    rw [ih hds, valueOf_cons, List.length_cons]
    congr 2
    · unfold leadingZeros
      by_cases h48 : c = 48
      · subst h48
        cases isLeading with
        | false => simp
        | true =>
          rw [List.takeWhile_cons_of_pos (by rfl)]
          simp
          omega
      · rw [List.takeWhile_cons_of_neg (by simpa using h48), beq_false_of_ne h48, Bool.false_and]
        simp
    · push_cast
      ring_nf

theorem readDigits_none {ds : List Byte} : ∀ {zeros : ℕ} {isLeading : Bool} {x : ℤ}, ¬ (∀ c ∈ ds, IsDigit c) →
    readDigits ds zeros isLeading x = none := by
  induction ds with
  | nil => exact fun h => absurd (by simp) h
  | cons c ds ih =>
    intro zeros isLeading x h
    rw [readDigits]
    split
    · rfl
    · rename_i hc
      refine ih fun hds => h ?_
      exact List.forall_mem_cons.mpr ⟨(isDigit_iff c).mp hc, hds⟩

theorem toInt_sub_eq_iff {c : Byte} {d : ℕ} (hd : d < 10) : c.toInt - 48 = d ↔ c = BitVec.ofNat 8 d + 48 := by
  constructor
  · intro h
    have hc : IsDigit c := (isDigit_iff c).mp (by omega)
    rw [toInt_of_isDigit hc] at h
    rw [← Int.ofNat.inj h, digit_digitOf hc]
  · rintro rfl
    rw [toInt_of_isDigit (isDigit_digit hd), digitOf_digit hd]

theorem compareDigits_eq (sign : ℕ) (l : List Byte) : ∀ n : ℕ, (Nat.digits 10 n).length ≤ l.length →
    ∃ b, compareDigits sign l n = some b ∧ (b = true ↔ l.length = (Nat.digits 10 n).length + sign ∧
      l.take (Nat.digits 10 n).length = (Nat.digits 10 n).map fun d => BitVec.ofNat 8 d + 48) := by
  induction l with
  | nil =>
    intro n hn
    obtain rfl : n = 0 := Nat.digits_eq_nil_iff_eq_zero.mp (List.length_eq_zero_iff.mp (Nat.le_zero.mp hn))
    refine ⟨sign == 0, rfl, ?_⟩
    rw [beq_iff_eq, Nat.digits_zero]
    simp [eq_comm]
  | cons c s ih =>
    intro n hn
    rw [compareDigits]
    by_cases h0 : n = 0
    · subst h0
      refine ⟨s.length + 1 == sign, rfl, ?_⟩
      rw [beq_iff_eq, Nat.digits_zero]
      simp
    · have hd := Nat.digits_def' (b := 10) (by decide) (Nat.pos_of_ne_zero h0)
      have hlt : n % 10 < 10 := Nat.mod_lt n (by decide)
      rw [hd, List.length_cons, List.length_cons] at hn
      rw [if_neg h0, hd, List.length_cons, List.length_cons, List.take_succ_cons, List.map_cons]
      by_cases hc : c = BitVec.ofNat 8 (n % 10) + 48
      · rw [if_neg (not_not.mpr ((toInt_sub_eq_iff hlt).mpr hc)), hc]
        obtain ⟨b, hb, hiff⟩ := ih (n / 10) (by omega)
        refine ⟨b, hb, hiff.trans (and_congr (by omega) ?_)⟩
        exact ⟨fun h => congrArg _ h, List.tail_eq_of_cons_eq⟩
      · rw [if_pos fun h => hc ((toInt_sub_eq_iff hlt).mp h)]
        exact ⟨false, rfl, fun h => absurd h (by decide), fun h => absurd (List.head_eq_of_cons_eq h.2) hc⟩

theorem compareDigits_reverse (front ds : List Byte) {m : ℕ} (h : (Nat.digits 10 m).length ≤ (front ++ ds).length) :
    ∃ b, compareDigits front.length (front ++ ds).reverse m = some b ∧ (b = true ↔ ds = digitChars m) := by
  have hlength : (digitChars m).length = (Nat.digits 10 m).length := by simp [digitChars]
  obtain ⟨b, hb, hiff⟩ := compareDigits_eq front.length (front ++ ds).reverse m (by rwa [List.length_reverse])
  refine ⟨b, hb, hiff.trans ?_⟩
  rw [← hlength, List.length_reverse, List.length_append, List.reverse_append]
  constructor
  · rintro ⟨hl, ht⟩
    rw [List.take_left' (by rw [List.length_reverse]; omega)] at ht
    exact List.reverse_eq_iff.mp ht
  · rintro rfl
    refine ⟨Nat.add_comm _ _, ?_⟩
    rw [List.take_left' List.length_reverse, digitChars, List.reverse_reverse]

/-- `compareNumAndString` on a string of ten characters or more is true exactly for
the decimal form of the number. -/
theorem compareNumAndString_eq {v : ℤ} {s : List Byte} (h : minInt ≤ v) (h' : v ≤ maxInt) (hlen : 10 ≤ s.length)
    (hmin : s ≠ minIntChars) : ∃ b, compareNumAndString v s = some b ∧ (b = true ↔ s = decimal v) := by
  have hdigits := NumberCalls.length_digits_le (natAbs_lt h h')
  unfold compareNumAndString
  rcases lt_trichotomy v 0 with hv | hv | hv
  · rw [if_neg (by omega)]
    by_cases hhead : s.head? = some 45
    · rw [if_neg (fun hn => hn.2 hhead), if_pos hv]
      obtain ⟨ds, rfl⟩ := List.head?_eq_some_iff.mp hhead
      by_cases hmv : v = minInt
      · -- `-integer` wraps to itself, and the loop does not run
        obtain ⟨b, hb, hiff⟩ := @compareDigits_reverse [45] ds 0 (by simp)
        refine ⟨b, by rw [hmv]; exact hb, hiff.trans ⟨?_, ?_⟩⟩
        · rintro rfl
          exact absurd hlen (by decide)
        · rw [hmv, decimal_minInt]
          exact fun hs => absurd hs hmin
      · have hneg : toInt (-v) = (v.natAbs : ℤ) := by
          unfold minInt at h hmv
          rw [toInt_eq (by unfold minInt; omega) (by unfold maxInt; omega)]
          omega
        obtain ⟨b, hb, hiff⟩ := @compareDigits_reverse [45] ds v.natAbs (hdigits.trans hlen)
        refine ⟨b, by rw [hneg]; exact hb, hiff.trans ?_⟩
        rw [decimal_of_neg hv]
        exact ⟨fun hs => congrArg _ hs, List.tail_eq_of_cons_eq⟩
    · rw [if_pos ⟨hv, hhead⟩]
      refine ⟨false, rfl, fun h => absurd h (by decide), fun h => absurd ?_ hhead⟩
      rw [h]
      exact (head_decimal v).mpr hv
  · subst hv
    rw [if_pos rfl]
    exact ⟨s == [48], rfl, beq_iff_eq⟩
  · rw [if_neg (by omega), if_neg (by omega), if_neg (by omega), decimal_of_pos hv,
      show v.toNat = v.natAbs by omega]
    exact compareDigits_reverse [] s (hdigits.trans hlen)

/-- The value of `s` if it is a decimal form, and 0 otherwise. -/
def Right (s : List Byte) (r : ℤ) : Prop := Canonical s r ∨ r = 0 ∧ ∀ v, ¬ Canonical s v

/-- The end of `SysReadNum`, on a string for which the wrapped number is the value of
a decimal form if it is one. -/
theorem compared_right {s : List Byte} {num : ℤ} (h : minInt ≤ num) (h' : num ≤ maxInt) (hlen : 10 ≤ s.length)
    (hmin : s ≠ minIntChars) (hnum : ∀ v, Canonical s v → v = num) :
    ∃ r, ((compareNumAndString num s).map fun equal => if equal then num else 0) = some r ∧ Right s r := by
  obtain ⟨b, hb, hiff⟩ := compareNumAndString_eq h h' hlen hmin
  rw [hb]
  refine ⟨_, rfl, ?_⟩
  cases b with
  | true => exact Or.inl ⟨h, h', hiff.mp rfl⟩
  | false =>
    refine Or.inr ⟨rfl, fun v hv => absurd (hiff.mpr ?_) Bool.false_ne_true⟩
    rw [← hnum v hv]
    exact hv.2.2

theorem readDigits_all {ds : List Byte} (h : ∀ c ∈ ds, IsDigit c) :
    readDigits ds 0 true 0 = some (leadingZeros ds, toInt (valueOf ds)) := by
  have hread := @readDigits_eq ds 0 true 0 h
  rw [toInt_eq (by decide) (by decide)] at hread
  rw [hread]
  simp

theorem toInt_valueOf {ds : List Byte} (h : ∀ c ∈ ds, IsDigit c) (hlen : ds.length ≤ 9) :
    (valueOf ds : ℤ) ≤ maxInt ∧ toInt (valueOf ds) = valueOf ds ∧ toInt (-valueOf ds) = -valueOf ds := by
  have hlt : valueOf ds < 10 ^ 9 := (valueOf_lt h).trans_le (Nat.pow_le_pow_right (by decide) hlen)
  refine ⟨by unfold maxInt; omega, ?_, ?_⟩
  · exact toInt_eq (by unfold minInt; omega) (by unfold maxInt; omega)
  · exact toInt_eq (by unfold minInt; omega) (by unfold maxInt; omega)

theorem numberOf_minus {ds : List Byte} (hmin : 45 :: ds ≠ minIntChars) :
    ∃ r, numberOf (45 :: ds) = some r ∧ Right (45 :: ds) r := by
  unfold numberOf
  rw [if_neg (List.cons_ne_nil _ _), if_neg hmin]
  simp only [List.head?_cons, BEq.rfl, if_true, List.tail_cons]
  by_cases hd : ∀ c ∈ ds, IsDigit c
  · rw [readDigits_all hd]
    dsimp only
    by_cases hz : leadingZeros ds = 0
    · -- no zero in front: the digits are the decimal form of their value
      have hds := digitChars_valueOf hd (leadingZeros_eq_zero.mp hz)
      rw [hz, if_neg (by simp), toInt_neg]
      by_cases hlen : (45 :: ds).length ≤ maxNumLength - 2
      · have h9 : ds.length ≤ 9 := by
          unfold maxNumLength at hlen
          rw [List.length_cons] at hlen
          omega
        obtain ⟨hle, -, hneg⟩ := toInt_valueOf hd h9
        rw [if_pos hlen, hneg]
        refine ⟨_, rfl, ?_⟩
        by_cases h0 : valueOf ds = 0
        · refine Or.inr ⟨by rw [h0]; rfl, fun v hv => ?_⟩
          obtain ⟨hneg, -, hval⟩ := canonical_minus hv
          rw [h0] at hval
          omega
        · refine Or.inl ⟨by unfold minInt; unfold maxInt at hle; omega, by unfold maxInt; omega, ?_⟩
          rw [decimal_of_neg (by omega), Int.natAbs_neg, Int.natAbs_natCast, hds]
      · rw [if_neg hlen]
        have hlen' : 10 ≤ (45 :: ds).length := by
          unfold maxNumLength at hlen
          omega
        refine compared_right (toInt_mem _).1 (toInt_mem _).2 hlen' hmin fun v hv => ?_
        rw [← (canonical_minus hv).2.2, toInt_eq hv.1 hv.2.1]
    · rw [if_pos (Or.inr ⟨hz, Or.inr trivial⟩)]
      refine ⟨0, rfl, Or.inr ⟨rfl, fun v hv => hz ?_⟩⟩
      rw [(canonical_minus hv).2.1, leadingZeros_eq_zero]
      exact head_digitChars _
  · rw [readDigits_none hd]
    refine ⟨0, rfl, Or.inr ⟨rfl, fun v hv => hd ?_⟩⟩
    rw [(canonical_minus hv).2.1]
    exact fun c => isDigit_of_mem_digitChars

/-- Digits without a zero in front, or a single zero, are the decimal form of their
value. -/
theorem canonical_valueOf {s : List Byte} (hne : s ≠ []) (hd : ∀ c ∈ s, IsDigit c) (hle : (valueOf s : ℤ) ≤ maxInt)
    (hz : leadingZeros s = 0 ∨ leadingZeros s = 1 ∧ valueOf s = 0) : Canonical s (valueOf s) := by
  refine ⟨by unfold minInt; omega, hle, ?_⟩
  rcases hz with hz | ⟨hz, h0⟩
  · have hs := digitChars_valueOf hd (leadingZeros_eq_zero.mp hz)
    have hpos : valueOf s ≠ 0 := by
      intro h0
      rw [h0] at hs
      exact hne hs.symm
    rw [decimal_of_pos (by omega), Int.natAbs_natCast, hs]
  · -- the rest has no zero in front and the value 0
    obtain ⟨c, ds, rfl⟩ := List.exists_cons_of_ne_nil hne
    obtain rfl : c = 48 := by
      by_contra hc
      rw [leadingZeros_eq_zero.mpr (by simpa using hc)] at hz
      exact absurd hz (by decide)
    obtain ⟨-, hds⟩ := List.forall_mem_cons.mp hd
    rw [leadingZeros_cons_zero] at hz
    have hrest := digitChars_valueOf hds (leadingZeros_eq_zero.mp (Nat.succ.inj hz))
    rw [h0]
    rw [valueOf_cons] at h0
    rw [show valueOf ds = 0 by omega] at hrest
    rw [← hrest]
    rfl

theorem numberOf_plain {s : List Byte} (hne : s ≠ []) (hhead : s.head? ≠ some 45) :
    ∃ r, numberOf s = some r ∧ Right s r := by
  have hmin : s ≠ minIntChars := by
    rintro rfl
    exact hhead rfl
  have hnega : (s.head? == some 45) = false := beq_false_of_ne hhead
  unfold numberOf
  rw [if_neg hne, if_neg hmin]
  simp only [hnega, Bool.false_eq_true, if_false, or_false]
  by_cases hd : ∀ c ∈ s, IsDigit c
  · rw [readDigits_all hd]
    dsimp only
    by_cases hc : 1 < leadingZeros s ∨ leadingZeros s ≠ 0 ∧ toInt (valueOf s) ≠ 0
    · rw [if_pos hc]
      refine ⟨0, rfl, Or.inr ⟨rfl, fun v hv => ?_⟩⟩
      rcases canonical_plain hhead hv with ⟨rfl, -⟩ | ⟨-, hs, -⟩
      · exact absurd hc (by decide)
      · have hz := leadingZeros_eq_zero.mpr (head_digitChars v.natAbs)
        rw [← hs] at hz
        omega
    · rw [if_neg hc]
      by_cases hlen : s.length ≤ maxNumLength - 2
      · obtain ⟨hle, hval, -⟩ := toInt_valueOf hd hlen
        rw [if_pos hlen]
        rw [hval] at hc ⊢
        exact ⟨_, rfl, Or.inl (canonical_valueOf hne hd hle (by omega))⟩
      · rw [if_neg hlen]
        have hlen' : 10 ≤ s.length := by
          unfold maxNumLength at hlen
          omega
        refine compared_right (toInt_mem _).1 (toInt_mem _).2 hlen' hmin fun v hv => ?_
        rcases canonical_plain hhead hv with ⟨rfl, -⟩ | ⟨-, -, hval⟩
        · exact absurd hlen' (by decide)
        · rw [← hval, toInt_eq hv.1 hv.2.1]
  · rw [readDigits_none hd]
    refine ⟨0, rfl, Or.inr ⟨rfl, fun v hv => hd ?_⟩⟩
    rcases canonical_plain hhead hv with ⟨rfl, -⟩ | ⟨-, hs, -⟩
    · decide
    · rw [hs]
      exact fun c => isDigit_of_mem_digitChars

/-- `numberOf` never reads before the string, and gives the value of a decimal form
and 0 for everything else. -/
theorem numberOf_right (s : List Byte) : ∃ r, numberOf s = some r ∧ Right s r := by
  by_cases hmin : s = minIntChars
  · subst hmin
    exact ⟨minInt, by decide, Or.inl ⟨le_refl _, by decide, decimal_minInt.symm⟩⟩
  · by_cases hhead : s.head? = some 45
    · obtain ⟨ds, rfl⟩ := List.head?_eq_some_iff.mp hhead
      exact numberOf_minus hmin
    · by_cases hne : s = []
      · subst hne
        refine ⟨0, rfl, Or.inr ⟨rfl, fun v hv => ?_⟩⟩
        rcases canonical_plain hhead hv with ⟨hs, -⟩ | ⟨hpos, hs, -⟩
        · exact absurd hs (by simp)
        · exact digitChars_ne_nil (by omega) hs.symm
      · exact numberOf_plain hne hhead

/-! ### The call, with a checked array -/

open Checked

/-- `readUntilBlank` with `n` characters stored, on the characters that are still to
come, after which comes the end of the file: the array, and the characters it has not taken. -/
def checkedReadUntilBlank (b : List Byte) (n : ℕ) : List Byte → Checked (List Byte × List Byte)
  | [] => .done (b, [])
  | c :: input =>
    if isBlank c || c == eof then .done (b, input)
    else (put b n c).bind fun b =>
      if n + 1 > maxNumLength then .done (b, input) else checkedReadUntilBlank b (n + 1) input

/-- The loop of `SysReadNum` from `i` on, for the characters that are left. -/
def checkedReadDigits (b : List Byte) : ℕ → ℕ → ℕ → Bool → ℤ → Checked (Option (ℕ × ℤ))
  | 0, _, zeros, _, num => .done (some (zeros, num))
  | k + 1, i, zeros, isLeading, num => (get b i).bind fun c =>
    if c.toInt < 48 ∨ 57 < c.toInt then .done none
    else
      let leading := c == 48 && isLeading
      checkedReadDigits b k (i + 1) (if leading then zeros + 1 else zeros) leading
        (toInt (toInt (num * 10) + (c.toInt - 48)))

/-- The loop of `compareNumAndString` on the string at `b + sign`, `len` characters
of which are left. An access before this string is a fault, also where it would
still be inside the array. -/
def checkedCompareDigits (b : List Byte) (sign : ℕ) (len : ℤ) (integer : ℕ) : Checked Bool :=
  if integer = 0 then .done (len == 0)
  else (get (b.drop sign) (len - 1)).bind fun c =>
    if c.toInt - 48 ≠ (integer % 10 : ℕ) then .done false
    else checkedCompareDigits b sign (len - 1) (integer / 10)
termination_by integer
decreasing_by omega

def checkedCompareNumAndString (integer : ℤ) (b : List Byte) : Checked Bool :=
  (checkedStrlen b).bind fun len =>
    if integer = 0 then .done (b.take len == [48])
    else (get b 0).bind fun c =>
      if integer < 0 ∧ c ≠ 45 then .done false
      else if integer < 0 then checkedCompareDigits b 1 (len - 1) (toInt (-integer)).toNat
      else checkedCompareDigits b 0 len integer.toNat

/-- `SysReadNum` after `readUntilBlank`. -/
def checkedNumberOf (b : List Byte) : Checked ℤ :=
  (checkedStrlen b).bind fun len =>
    if len = 0 then .done 0
    else if b.take len = minIntChars then .done minInt
    else (get b 0).bind fun c =>
      let nega := c == 45
      let first := if nega then 1 else 0
      (checkedReadDigits b (len - first) first 0 true 0).bind fun
        | none => .done 0
        | some (zeros, num) =>
          if 1 < zeros ∨ zeros ≠ 0 ∧ (num ≠ 0 ∨ nega = true) then .done 0
          else
            let num := if nega then toInt (-num) else num
            if len ≤ maxNumLength - 2 then .done num
            else (checkedCompareNumAndString num b).map fun equal => if equal then num else 0

/-- `SysReadNum` on the characters of the console: the number, and the characters that are left. -/
def sysReadNumLeft (input : List Byte) : Checked (ℤ × List Byte) :=
  (checkedReadUntilBlank NumberBuffer.zero.1 0 input).bind fun r => (checkedNumberOf r.1).map fun num => (num, r.2)

/-- What `SysReadNum` returns. -/
def sysReadNum (input : List Byte) : Checked ℤ := (sysReadNumLeft input).map Prod.fst

/-- The first token of the characters. -/
def token (input : List Byte) : List Byte := input.takeWhile fun c => !(isBlank c || c == eof)

/-- `readUntilBlank` stores the first twelve characters of the token. -/
theorem checkedReadUntilBlank_eq (input : List Byte) : ∀ (cs : List Byte), cs.length ≤ maxNumLength →
    ∃ left, checkedReadUntilBlank (cs ++ List.replicate (13 - cs.length) 0) cs.length input = .done
      ((cs ++ token input).take 12 ++ List.replicate (13 - ((cs ++ token input).take 12).length) 0, left) := by
  induction input with
  | nil =>
    intro cs hcs
    unfold maxNumLength at hcs
    have htoken : token [] = [] := rfl
    exact ⟨[], by rw [checkedReadUntilBlank, htoken, List.append_nil, List.take_of_length_le (by omega)]⟩
  | cons c input ih =>
    intro cs hcs
    rw [checkedReadUntilBlank]
    unfold maxNumLength at hcs ih ⊢
    by_cases hc : (isBlank c || c == eof) = true
    · have htoken : token (c :: input) = [] := List.takeWhile_cons_of_neg (by simp [hc])
      exact ⟨input, by rw [if_pos hc, htoken, List.append_nil, List.take_of_length_le (by omega)]⟩
    · have htoken : token (c :: input) = c :: token input := List.takeWhile_cons_of_pos (by simpa using hc)
      have hput : put (cs ++ List.replicate (13 - cs.length) 0) cs.length c =
          .done ((cs ++ [c]) ++ List.replicate (13 - (cs ++ [c]).length) 0) := by
        rw [put_eq (by simp; omega), List.set_append_right _ _ le_rfl, Nat.sub_self,
          show 13 - cs.length = 13 - (cs ++ [c]).length + 1 by simp; omega, List.replicate_succ, List.set_cons_zero,
          List.append_assoc, List.singleton_append]
      have happ : cs ++ c :: token input = (cs ++ [c]) ++ token input := by simp
      have hlen : (cs ++ [c]).length = cs.length + 1 := by simp
      rw [if_neg hc, hput, bind_done, htoken, happ]
      by_cases hfull : cs.length + 1 > 11
      · exact ⟨input, by
          rw [if_pos hfull, List.take_append_of_le_length (by omega), List.take_of_length_le (by omega)]⟩
      · rw [if_neg hfull, ← hlen]
        exact ih (cs ++ [c]) (by omega)

section

variable {s rest : List Byte}

theorem get_string {i : ℕ} (h : i < s.length) (rest : List Byte) : get (s ++ rest) i = .done s[i] := by
  rw [get_eq (by rw [List.length_append]; omega), List.getD_eq_getElem?_getD, List.getElem?_append_left h,
    List.getElem?_eq_getElem h, Option.getD_some]

theorem checkedReadDigits_eq (rest : List Byte) : ∀ (k i zeros : ℕ) (isLeading : Bool) (num : ℤ), i + k = s.length →
    checkedReadDigits (s ++ rest) k i zeros isLeading num = .done (readDigits (s.drop i) zeros isLeading num) := by
  intro k
  induction k with
  | zero =>
    intro i zeros isLeading num hi
    rw [checkedReadDigits, List.drop_of_length_le (by omega), readDigits]
  | succ k ih =>
    intro i zeros isLeading num hi
    have hlt : i < s.length := by omega
    rw [checkedReadDigits, get_string hlt, bind_done, List.drop_eq_getElem_cons hlt, readDigits]
    split
    · rfl
    · exact ih _ _ _ _ (by omega)

theorem compareDigits_zero (sign : ℕ) (l : List Byte) : compareDigits sign l 0 = some (l.length == sign) := by
  cases l with
  | nil => rw [compareDigits, if_pos rfl, List.length_nil, Bool.beq_comm]
  | cons c l => rw [compareDigits, if_pos rfl, List.length_cons]

/-- A number with as many digits as there are characters is compared without an
access before the string. -/
theorem checkedCompareDigits_eq {b : List Byte} {sign : ℕ} {v : Bool} : ∀ {m integer : ℕ}, sign + m ≤ b.length →
    integer < 10 ^ m → compareDigits sign (b.take (sign + m)).reverse integer = some v →
      checkedCompareDigits b sign m integer = .done v := by
  intro m
  induction m with
  | zero =>
    intro integer hm hlt h
    obtain rfl : integer = 0 := by omega
    rw [compareDigits_zero, List.length_reverse, List.length_take_of_le hm] at h
    rw [checkedCompareDigits, if_pos rfl, ← Option.some.inj h]
    simp
  | succ m ih =>
    intro integer hm hlt h
    rw [checkedCompareDigits]
    by_cases h0 : integer = 0
    · subst h0
      rw [compareDigits_zero, List.length_reverse, List.length_take_of_le hm] at h
      rw [if_pos rfl, ← Option.some.inj h]
      congr 1
      rw [Bool.eq_iff_iff, beq_iff_eq, beq_iff_eq]
      omega
    · have hidx : sign + m < b.length := hm
      have hpred : ((m + 1 : ℕ) : ℤ) - 1 = m := by omega
      have hget : get (b.drop sign) m = .done (b[sign + m]) := by
        rw [get_eq (by rw [List.length_drop]; omega), List.getD_eq_getElem?_getD, List.getElem?_drop,
          List.getElem?_eq_getElem hidx, Option.getD_some]
      rw [if_neg h0, hpred, hget, bind_done]
      rw [← Nat.add_assoc, List.take_succ_eq_append_getElem hidx, List.reverse_append, List.reverse_singleton,
        List.singleton_append, compareDigits, if_neg h0] at h
      split at h
      · rename_i hc
        rw [if_pos hc, ← Option.some.inj h]
      · rename_i hc
        rw [if_neg hc]
        exact ih hidx.le (by rw [Nat.pow_succ] at hlt; omega) h

theorem checkedStrlen_string (hz : 0 ∉ s) (rest : List Byte) : checkedStrlen (s ++ 0 :: rest) = .done s.length := by
  rw [checkedStrlen_eq (by simp), strlen_append hz]

theorem checkedCompareNumAndString_eq (hz : 0 ∉ s) (hne : s ≠ []) {v : ℤ} {equal : Bool}
    (hv : v.natAbs < 10 ^ (if s.head? = some 45 then s.tail else s).length)
    (h : compareNumAndString v s = some equal) :
    checkedCompareNumAndString v (s ++ 0 :: rest) = .done equal := by
  obtain ⟨c, t, rfl⟩ := List.exists_cons_of_ne_nil hne
  have htake : ((c :: t) ++ 0 :: rest).take (c :: t).length = c :: t := List.take_left
  have hle : (c :: t).length ≤ ((c :: t) ++ 0 :: rest).length := by
    rw [List.length_append]
    omega
  have hget : get ((c :: t) ++ 0 :: rest) 0 = .done c := get_string (by simp) _
  unfold compareNumAndString at h
  unfold checkedCompareNumAndString
  simp only [List.head?_cons, Option.some.injEq, ne_eq, List.tail_cons] at h hv
  rw [checkedStrlen_string hz, bind_done, htake, hget, bind_done]
  by_cases h0 : v = 0
  · rw [if_pos h0] at h ⊢
    rw [← Option.some.inj h]
  rw [if_neg h0] at h ⊢
  by_cases hneg : v < 0 ∧ ¬ c = 45
  · rw [if_pos hneg] at h
    rw [if_pos hneg, ← Option.some.inj h]
  rw [if_neg hneg] at h
  rw [if_neg hneg]
  by_cases hv0 : v < 0
  · obtain rfl : c = 45 := by
      by_contra hc
      exact hneg ⟨hv0, hc⟩
    rw [if_pos hv0] at h ⊢
    rw [if_pos rfl] at hv
    have hlen : (((45 :: t : List Byte).length : ℕ) : ℤ) - 1 = t.length := by simp
    have hpos : (toInt (-v)).toNat ≤ v.natAbs := by
      have := natAbs_toInt_le (-v)
      omega
    rw [hlen]
    refine checkedCompareDigits_eq (by rw [Nat.add_comm]; exact hle) (by omega) ?_
    rwa [Nat.add_comm, ← List.length_cons, htake]
  · rw [if_neg hv0] at h ⊢
    have hlt : v.toNat < 10 ^ (c :: t).length := by
      have hmono : 10 ^ t.length ≤ 10 ^ (c :: t).length := Nat.pow_le_pow_right (by decide) (Nat.le_succ _)
      split at hv <;> omega
    refine checkedCompareDigits_eq (by rwa [Nat.zero_add]) hlt ?_
    rwa [Nat.zero_add, htake]

/-- The number that has been read has no more digits than were read. -/
theorem natAbs_of_readDigits {ds : List Byte} {zeros : ℕ} {num : ℤ}
    (h : readDigits ds 0 true 0 = some (zeros, num)) : num.natAbs < 10 ^ ds.length := by
  have hd : ∀ c ∈ ds, IsDigit c := by
    by_contra hd
    rw [readDigits_none hd] at h
    exact absurd h (by simp)
  rw [readDigits_all hd, Option.some.injEq, Prod.mk.injEq] at h
  have hle := natAbs_toInt_le (valueOf ds)
  have hlt := valueOf_lt hd
  rw [h.2] at hle
  omega

/-- The digits are read behind the sign. -/
theorem checkedReadDigits_sign (c : Byte) (t rest : List Byte) :
    checkedReadDigits ((c :: t) ++ 0 :: rest) ((c :: t).length - if (c == 45) = true then 1 else 0)
      (if (c == 45) = true then 1 else 0) 0 true 0 =
        .done (readDigits (if (c == 45) = true then t else c :: t) 0 true 0) := by
  by_cases hc : (c == 45) = true
  · rw [if_pos hc, if_pos hc]
    exact checkedReadDigits_eq _ _ 1 _ _ _ (by simp; omega)
  · rw [if_neg hc, if_neg hc]
    exact checkedReadDigits_eq _ _ 0 _ _ _ (by simp)

/-- The number has no more digits than have been read. -/
theorem natAbs_lt_of_readDigits {c : Byte} {t : List Byte} {zeros : ℕ} {num : ℤ}
    (hds : readDigits (if (c == 45) = true then t else c :: t) 0 true 0 = some (zeros, num)) :
    (if (c == 45) = true then toInt (-num) else num).natAbs <
      10 ^ (if (c :: t).head? = some 45 then (c :: t).tail else c :: t).length := by
  have hnum := natAbs_of_readDigits hds
  have hle := natAbs_toInt_le (-num)
  simp only [beq_iff_eq, List.head?_cons, Option.some.injEq, List.tail_cons] at hnum ⊢
  by_cases hc : c = 45
  · rw [if_pos hc] at hnum ⊢
    rw [if_pos hc]
    omega
  · rw [if_neg hc] at hnum ⊢
    rwa [if_neg hc]

/-- The accesses of `SysReadNum` are inside the array, and its result is `numberOf`. -/
theorem checkedNumberOf_eq (hz : 0 ∉ s) {r : ℤ} (h : numberOf s = some r) :
    checkedNumberOf (s ++ 0 :: rest) = .done r := by
  unfold checkedNumberOf
  rw [checkedStrlen_string hz, bind_done, List.take_left]
  unfold numberOf at h
  by_cases hne : s = []
  · subst hne
    rw [if_pos rfl] at h
    rw [if_pos List.length_nil, ← Option.some.inj h]
  rw [if_neg hne] at h
  rw [if_neg fun h0 => hne (List.length_eq_zero_iff.mp h0)]
  by_cases hmin : s = minIntChars
  · rw [if_pos hmin] at h ⊢
    rw [← Option.some.inj h]
  rw [if_neg hmin] at h ⊢
  obtain ⟨c, t, rfl⟩ := List.exists_cons_of_ne_nil hne
  have hget : get ((c :: t) ++ 0 :: rest) 0 = .done c := get_string (by simp) _
  have hhead : ((c :: t).head? == some 45) = (c == 45) := rfl
  rw [hget, bind_done]
  dsimp only at h ⊢
  rw [checkedReadDigits_sign, bind_done]
  rw [hhead, List.tail_cons] at h
  cases hds : readDigits (if (c == 45) = true then t else c :: t) 0 true 0 with
  | none =>
    rw [hds] at h
    exact congrArg done (Option.some.inj h)
  | some p =>
    obtain ⟨zeros, num⟩ := p
    rw [hds] at h
    dsimp only at h ⊢
    by_cases hz' : 1 < zeros ∨ zeros ≠ 0 ∧ (num ≠ 0 ∨ (c == 45) = true)
    · rw [if_pos hz'] at h ⊢
      rw [← Option.some.inj h]
    rw [if_neg hz'] at h ⊢
    by_cases hlen : (c :: t).length ≤ maxNumLength - 2
    · rw [if_pos hlen] at h ⊢
      rw [← Option.some.inj h]
    rw [if_neg hlen] at h ⊢
    obtain ⟨equal, hcmp, rfl⟩ := Option.map_eq_some_iff.mp h
    rw [checkedCompareNumAndString_eq hz hne (natAbs_lt_of_readDigits hds) hcmp, map_done]

end

/-- The first twelve characters of a long token are no decimal form. -/
theorem right_take {s : List Byte} {r : ℤ} (h : Right (s.take 12) r) : Right s r := by
  by_cases hlen : s.length ≤ 12
  · rwa [List.take_of_length_le hlen] at h
  · have hnot : ∀ {w : List Byte}, w.length = 12 ∨ 12 < w.length → ∀ v, ¬ Canonical w v := by
      rintro w hw v ⟨hv, hv', rfl⟩
      have := length_decimal_le hv hv'
      omega
    have htake : (s.take 12).length = 12 := List.length_take_of_le (by omega)
    rcases h with hc | ⟨hr, -⟩
    · exact absurd hc (hnot (Or.inl htake) r)
    · exact Or.inr ⟨hr, hnot (Or.inr (by omega))⟩

/-- The call returns, with all its accesses inside the array. -/
theorem sysReadNum_right {input : List Byte} (hz : 0 ∉ token input) :
    ∃ r left, sysReadNumLeft input = .done (r, left) ∧ Right (token input) r := by
  obtain ⟨r, hr, hright⟩ := numberOf_right ((token input).take 12)
  obtain ⟨left, hread⟩ := checkedReadUntilBlank_eq input [] (by decide)
  change checkedReadUntilBlank NumberBuffer.zero.1 0 input = .done ((token input).take 12 ++ _, left) at hread
  have hlen : ((token input).take 12).length ≤ 12 := List.length_take_le _ _
  have hrest : 13 - ((token input).take 12).length = 12 - ((token input).take 12).length + 1 := by omega
  have hnum := @checkedNumberOf_eq _ (List.replicate (12 - ((token input).take 12).length) 0)
    (fun h => hz (List.mem_of_mem_take h)) r hr
  refine ⟨r, left, ?_, right_take hright⟩
  unfold sysReadNumLeft
  rw [hread, bind_done, List.nil_append, hrest, List.replicate_succ, hnum]
  rfl

/-- `ReadNum` gives the value of a token that is the decimal form of a number in 32
bits, and 0 for every other token; no access is outside `_numberBuffer`, or before
the string of `compareNumAndString`. -/
theorem readNum_canonical (input : List Byte) (hz : 0 ∉ token input) :
    (∀ v, minInt ≤ v → v ≤ maxInt → token input = decimal v → sysReadNum input = .done v) ∧
      ((∀ v, minInt ≤ v → v ≤ maxInt → token input ≠ decimal v) → sysReadNum input = .done 0) := by
  obtain ⟨r, left, hr, hright⟩ := sysReadNum_right hz
  unfold sysReadNum
  rw [hr, map_done]
  refine ⟨fun v hv hv' htoken => ?_, fun hnone => ?_⟩
  · rcases hright with hc | ⟨-, hnone⟩
    · rw [canonical_unique hc ⟨hv, hv', htoken⟩]
    · exact absurd ⟨hv, hv', htoken⟩ (hnone v)
  · rcases hright with ⟨h, h', htoken⟩ | ⟨rfl, -⟩
    · exact absurd htoken (hnone r h h')
    · rfl

/-- On `-2147483647` and a line feed. -/
theorem readNum_canonical_minus :
    sysReadNum [45, 50, 49, 52, 55, 52, 56, 51, 54, 52, 55, 10] = .done (-2147483647) :=
  (readNum_canonical [45, 50, 49, 52, 55, 52, 56, 51, 54, 52, 55, 10] (by decide)).1 (-2147483647) (by decide)
    (by decide) (by decide)

end Nachos
