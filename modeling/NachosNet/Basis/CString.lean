/-
# Strings of C

A string is the bytes of an array before its first zero. `strcpy` copies one
with its terminator; it has a result only when the array is large enough, and
the array then holds the string (`cstr_strcpy`).
-/
import Mathlib.Data.List.TakeWhile
import NachosNet.Basis.Bytes

namespace Basis

/-- A string without its terminator. -/
abbrev CString := {s : List Byte // 0 ∉ s}

/-- The string in an array. -/
def cstr (a : List Byte) : List Byte := a.takeWhile (· ≠ 0)

/-- The string in an array, as a string. -/
def CString.ofArray (a : List Byte) : CString :=
  ⟨cstr a, fun h => by simpa using List.mem_takeWhile_imp h⟩

/-- `strcpy`; `none` when it writes beyond the array. -/
def strcpy {n : ℕ} (dst : Bytes n) (src : List Byte) : Option (Bytes n) :=
  if h : src.length < n then
    some ⟨src ++ 0 :: dst.1.drop (src.length + 1), by
      rw [List.length_append, List.length_cons, List.length_drop, dst.2]
      omega⟩
  else none

variable {n : ℕ} {dst : Bytes n}

theorem strcpy_eq_none {src : List Byte} : strcpy dst src = none ↔ n ≤ src.length := by
  unfold strcpy
  split
  · simpa using ‹src.length < n›
  · simpa using ‹¬ src.length < n›

theorem cstr_strcpy {src : CString} {a : Bytes n} (h : strcpy dst src.1 = some a) : cstr a.1 = src.1 := by
  unfold strcpy at h
  split at h
  · obtain rfl := Option.some.inj h
    unfold cstr
    rw [List.takeWhile_append_of_pos]
    · simp
    · intro c hc
      exact decide_eq_true fun (h0 : c = 0) => src.2 (h0 ▸ hc)
  · cases h

theorem take_cstr : ∀ {n : ℕ} {s a : List Byte}, 0 ∉ s → (∀ k < n, a[k]? = some (s.getD k 0)) →
    (cstr a).take n = s.take n
  | 0, _, _, _, _ => rfl
  | n + 1, s, [], _, ha => by simpa using ha 0 (Nat.succ_pos n)
  | n + 1, [], c :: a, _, ha => by
    obtain rfl : c = 0 := by simpa using ha 0 (Nat.succ_pos n)
    simp [cstr]
  | n + 1, x :: s, c :: a, hs, ha => by
    obtain rfl : c = x := by simpa using ha 0 (Nat.succ_pos n)
    obtain ⟨hx, hs⟩ := not_or.mp (fun h => hs (List.mem_cons.mpr h))
    have hc : cstr (c :: a) = c :: cstr a := List.takeWhile_cons_of_pos (decide_eq_true (Ne.symm hx))
    rw [hc, List.take_succ_cons, List.take_succ_cons, take_cstr hs fun k hk => ha (k + 1) (Nat.succ_lt_succ hk)]

end Basis
