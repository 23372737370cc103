/-
# Ranges of a file

A file or a buffer is a list of bytes. A range is read as far as the file goes
(`slice`), and written over what is there (`patch`), with zeros between the end
of the file and the range when it starts beyond. What is written is read back
(`slice_patch_self`) and a range before or after it keeps its bytes
(`slice_patch_before`, `slice_patch_after`).

Where the length is fixed, a request may reach behind the end and `transferred`
elements of it are inside; these are replaced (`splice`). An array that is given by
what stands at each index is read and written index by index (`slice_map_range`,
`splice_map_range`).
-/
import NachosNet.Basis.Bytes

namespace Basis

variable {α : Type*}

/-- The `len` elements from `off` on, or those there are. -/
def slice (l : List α) (off len : ℕ) : List α := (l.drop off).take len

theorem length_slice (l : List α) (off len : ℕ) : (slice l off len).length = min len (l.length - off) := by
  simp [slice]

theorem length_slice_eq {l : List α} {off len : ℕ} (h : off + len ≤ l.length) : (slice l off len).length = len := by
  rw [length_slice]
  omega

theorem slice_append_left {l m : List α} {off len : ℕ} (h : off + len ≤ l.length) :
    slice (l ++ m) off len = slice l off len := by
  unfold slice
  rw [List.drop_append_of_le_length (by omega), List.take_append_of_le_length]
  rw [List.length_drop]
  omega

/-- `b` written over the file from `pos` on. -/
def patch (l : List Byte) (pos : ℕ) (b : List Byte) : List Byte :=
  l.take pos ++ List.replicate (pos - l.length) 0 ++ b ++ l.drop (pos + b.length)

/-- What stands before the written range. -/
theorem length_patch_front (l : List Byte) (pos : ℕ) :
    (l.take pos ++ List.replicate (pos - l.length) 0).length = pos := by
  rw [List.length_append, List.length_take, List.length_replicate]
  omega

theorem length_patch (l : List Byte) (pos : ℕ) (b : List Byte) :
    (patch l pos b).length = max l.length (pos + b.length) := by
  unfold patch
  rw [List.length_append, List.length_append, length_patch_front, List.length_drop]
  omega

theorem slice_patch_self (l : List Byte) (pos : ℕ) (b : List Byte) : slice (patch l pos b) pos b.length = b := by
  unfold patch
  rw [List.append_assoc]
  exact take_drop_append _ _ _ (length_patch_front l pos) rfl

theorem slice_patch_before {l : List Byte} {pos off len : ℕ} (b : List Byte) (h : off + len ≤ pos)
    (hl : off + len ≤ l.length) : slice (patch l pos b) off len = slice l off len := by
  have hfront : off + len ≤ (l.take pos).length := by
    rw [List.length_take]
    omega
  unfold patch
  rw [List.append_assoc, List.append_assoc, slice_append_left hfront]
  calc slice (l.take pos) off len
      = slice (l.take pos ++ l.drop pos) off len := (slice_append_left hfront).symm
    _ = slice l off len := by rw [List.take_append_drop]

theorem slice_patch_after {l : List Byte} {pos off : ℕ} {b : List Byte} (len : ℕ) (h : pos + b.length ≤ off) :
    slice (patch l pos b) off len = slice l off len := by
  have hfront : (l.take pos ++ List.replicate (pos - l.length) 0 ++ b).length = pos + b.length := by
    rw [List.length_append, length_patch_front]
  unfold slice patch
  rw [List.drop_append, List.drop_eq_nil_of_le (by omega), List.nil_append, hfront, List.drop_drop,
    Nat.add_sub_cancel' h]

/-! ### An array of fixed length -/

/-- The elements of a request for `n` elements from `p` on that an array of `length` elements has. -/
def transferred (length n p : ℤ) : ℤ := max 0 (min n (length - p))

/-- The array with the `n` elements from `p` on replaced by those of `source`. -/
def splice (a : List α) (source : ℕ → α) (n p : ℤ) : List α :=
  a.mapIdx fun i b => if p ≤ i ∧ i < p + n then source (i - p).toNat else b

theorem slice_map_range (f : ℕ → α) (l : ℕ) {n p : ℤ} (hp : 0 ≤ p) : slice ((List.range l).map f) p.toNat n.toNat =
    (List.range (transferred l n p).toNat).map fun x => f (p.toNat + x) := by
  unfold slice transferred
  apply List.ext_getElem
  · simp only [List.length_take, List.length_drop, List.length_map, List.length_range]
    omega
  · intro i h1 h2
    simp only [List.getElem_take, List.getElem_drop, List.getElem_map, List.getElem_range]

theorem splice_map_range (f source : ℕ → α) (l : ℕ) (n p : ℤ) : splice ((List.range l).map f) source n p =
    (List.range l).map fun i : ℕ => if p ≤ i ∧ i < p + n then source (i - p).toNat else f i := by
  unfold splice
  apply List.ext_getElem
  · simp only [List.length_mapIdx, List.length_map, List.length_range]
  · intro i h1 h2
    simp only [List.getElem_mapIdx, List.getElem_map, List.getElem_range]

/-- The elements behind `a` are replaced. -/
theorem splice_append (a b : List α) (source : ℕ → α) {n : ℕ} (hn : n ≤ b.length) :
    splice (a ++ b) source n a.length = a ++ ((List.range n).map source ++ b.drop n) := by
  unfold splice
  apply List.ext_getElem
  · simp only [List.length_mapIdx, List.length_append, List.length_map, List.length_range, List.length_drop]
    omega
  · intro i h1 h2
    rw [List.getElem_mapIdx]
    by_cases ha : i < a.length
    · rw [if_neg (by omega), List.getElem_append_left ha, List.getElem_append_left ha]
    · rw [List.getElem_append_right (by omega), List.getElem_append_right (by omega)]
      by_cases hi : i < a.length + n
      · have hlen : i - a.length < ((List.range n).map source).length := by
          rw [List.length_map, List.length_range]
          omega
        rw [if_pos (by omega), List.getElem_append_left hlen, List.getElem_map, List.getElem_range]
        congr 1
        omega
      · have hlen : ((List.range n).map source).length ≤ i - a.length := by
          rw [List.length_map, List.length_range]
          omega
        rw [if_neg (by omega), List.getElem_append_right hlen, List.getElem_drop]
        congr 1
        rw [List.length_map, List.length_range]
        omega

theorem slice_append_drop (l : List α) (off len : ℕ) : slice l off len ++ l.drop (off + len) = l.drop off := by
  unfold slice
  rw [← List.drop_drop, List.take_append_drop]

end Basis
