/-
# Packed records

The layout of a packed record is the list of its fields with their sizes. A
field is where the fields before it end. A buffer is read as a record by
cutting the field out of it, whatever wrote the buffer; if the record's own
fields were written there one after the other, the field is read back
(`field_encode`).

Key definitions: `Layout.size`, `Layout.offset`, `Layout.field`, `Layout.encode`.
-/
import NachosNet.Basis.Bytes

namespace Basis

/-- The fields of a record in order, with their sizes in bytes. -/
abbrev Layout (ι : Type*) := List (ι × ℕ)

namespace Layout

variable {ι : Type*}

def size (l : Layout ι) : ℕ := (l.map Prod.snd).sum

/-- The record's bytes, where `v` are the bytes of each field. -/
def encode (l : Layout ι) (v : ι → List Byte) : List Byte := l.flatMap fun p => v p.1

variable [DecidableEq ι]

/-- Where the field starts. -/
def offset : Layout ι → ι → ℕ
  | [], _ => 0
  | (g, n) :: l, f => if g = f then 0 else n + offset l f

/-- How many bytes the field has. -/
def width : Layout ι → ι → ℕ
  | [], _ => 0
  | (g, n) :: l, f => if g = f then n else width l f

/-- The field of the record at the start of a buffer. -/
def field (l : Layout ι) (buffer : List Byte) (f : ι) : List Byte := (buffer.drop (l.offset f)).take (l.width f)

theorem field_encode {v : ι → List Byte} {f : ι} (rest : List Byte) : ∀ l : Layout ι,
    (∀ p ∈ l, (v p.1).length = p.2) → f ∈ l.map Prod.fst → l.field (l.encode v ++ rest) f = v f
  | [], _, hf => by simp at hf
  | (g, n) :: l, hv, hf => by
    have hg : (v g).length = n := hv (g, n) List.mem_cons_self
    have henc : encode ((g, n) :: l) v ++ rest = v g ++ (encode l v ++ rest) := by simp [encode]
    unfold field
    rw [henc]
    by_cases h : g = f
    · subst h
      simp [offset, width, ← hg]
    · have ih := field_encode rest l (fun p hp => hv p (List.mem_cons_of_mem _ hp)) (by simpa [Ne.symm h] using hf)
      simp only [offset, width, h, if_false]
      rw [← List.drop_drop, ← hg, List.drop_left]
      exact ih

end Layout

end Basis
