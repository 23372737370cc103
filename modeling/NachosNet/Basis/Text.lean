/-
# Texts made of decimal numbers

A text is a list of characters. Decimal numerals are injective
(`toDigits_inj`) and contain only digits, so numerals joined by a character
that is not a digit can be read back (`joinNums_inj`).
-/
import Mathlib.Data.List.Basic

namespace Basis

abbrev Text := List Char

theorem toDigits_inj {a b : ℕ} (h : Nat.toDigits 10 a = Nat.toDigits 10 b) : a = b := by
  rw [← Nat.ofDigitChars_ten_toDigits (n := a), h, Nat.ofDigitChars_ten_toDigits]

theorem notMem_toDigits {c : Char} (hc : c.isDigit = false) (n : ℕ) : c ∉ Nat.toDigits 10 n := by
  intro h
  rw [Nat.isDigit_of_mem_toDigits (by decide) (by decide) h] at hc
  exact absurd hc (by decide)

/-- Two texts up to their first `sep`. -/
theorem append_sep_inj {sep : Char} : ∀ {a b x y : Text}, sep ∉ a → sep ∉ b →
    a ++ sep :: x = b ++ sep :: y → a = b ∧ x = y
  | [], [], x, y, _, _, h => ⟨rfl, by simpa using h⟩
  | [], d :: b, x, y, _, hb, h => by
    simp only [List.nil_append, List.cons_append, List.cons.injEq] at h
    exact absurd (h.1 ▸ List.mem_cons_self) hb
  | c :: a, [], x, y, ha, _, h => by
    simp only [List.nil_append, List.cons_append, List.cons.injEq] at h
    exact absurd (h.1 ▸ List.mem_cons_self) ha
  | c :: a, d :: b, x, y, ha, hb, h => by
    simp only [List.cons_append, List.cons.injEq] at h
    obtain ⟨rfl, h⟩ := h
    obtain ⟨rfl, rfl⟩ := append_sep_inj (fun m => ha (List.mem_cons_of_mem _ m))
      (fun m => hb (List.mem_cons_of_mem _ m)) h
    exact ⟨rfl, rfl⟩

/-- The numerals of `ns`, joined by `sep`. -/
def joinNums (sep : Char) : List ℕ → Text
  | [] => []
  | [n] => Nat.toDigits 10 n
  | n :: m :: ns => Nat.toDigits 10 n ++ sep :: joinNums sep (m :: ns)

theorem joinNums_inj {sep : Char} (hs : sep.isDigit = false) : ∀ {ns ms : List ℕ},
    ns.length = ms.length → joinNums sep ns = joinNums sep ms → ns = ms
  | [], [], _, _ => rfl
  | [n], [m], _, h => by rw [toDigits_inj h]
  | n :: n' :: ns, m :: m' :: ms, hl, h => by
    simp only [joinNums] at h
    obtain ⟨h1, h2⟩ := append_sep_inj (notMem_toDigits hs n) (notMem_toDigits hs m) h
    rw [toDigits_inj h1, joinNums_inj hs (by simpa using hl) h2]

end Basis
