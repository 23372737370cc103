/-
# Copying in a counted buffer

`SC_Read` and `SC_Write` call `stringUser2System` of `userprog/exception.cc` with
a count. Its first loop then stops when the length is the count; it compares
after it has read and counted a byte, so that a count of zero is never met: it
reads the byte at the address, and goes on until `ReadMem` raises an exception.

The addresses that are read are recorded beside the result (`tracedUser2System`).

Key definitions: `tracedUser2System`, `CopiesExactly`.
Key theorems: `tracedUser2System_fst`, `copiesExactly_iff`.
-/
import NachosNet.Userprog.UserString

namespace Nachos

open Basis

namespace Machine

/-! ### The addresses that are read -/

/-- `lengthLoop`, with the addresses it reads. -/
def tracedLength (addr : BitVec 32) (convertLength : ℤ) :
    ℕ → ℕ → Machine → Except Stop (ℕ × Machine) × List (BitVec 32)
  | 0, _, _ => (.error .fuel, [])
  | fuel + 1, length, m =>
    match m.readMem (addr + BitVec.ofNat 32 length) .byte with
    | .error e => (.error (.exception e), [addr + BitVec.ofNat 32 length])
    | .ok (oneChar, m) =>
      if (oneChar = 0 ∧ convertLength = -1) ∨ (length + 1 : ℕ) = convertLength then
        (.ok (length + 1, m), [addr + BitVec.ofNat 32 length])
      else
        let r := tracedLength addr convertLength fuel (length + 1) m
        (r.1, (addr + BitVec.ofNat 32 length) :: r.2)

/-- `copyLoop`, with the addresses it reads. -/
def tracedCopy (addr : BitVec 32) : ℕ → ℕ → Machine → Except Stop (List Byte × Machine) × List (BitVec 32)
  | 0, _, m => (.ok ([], m), [])
  | n + 1, i, m =>
    match m.readMem (addr + BitVec.ofNat 32 i) .byte with
    | .error e => (.error (.exception e), [addr + BitVec.ofNat 32 i])
    | .ok (oneChar, m) =>
      let r := tracedCopy addr n (i + 1) m
      (r.1.map fun r => (oneChar.extractLsb' 0 8 :: r.1, r.2), (addr + BitVec.ofNat 32 i) :: r.2)

/-- `stringUser2System`, with the addresses it reads. -/
def tracedUser2System (fuel : ℕ) (m : Machine) (addr : BitVec 32) (convertLength : ℤ) :
    Except Stop (List Byte × Machine) × List (BitVec 32) :=
  match tracedLength addr convertLength fuel 0 m with
  | (.error e, reads) => (.error e, reads)
  | (.ok (length, m), reads) =>
    let r := tracedCopy addr length 0 m
    (r.1, reads ++ r.2)

theorem tracedLength_fst (addr : BitVec 32) (c : ℤ) : ∀ (fuel length : ℕ) (m : Machine),
    (tracedLength addr c fuel length m).1 = lengthLoop addr c fuel length m
  | 0, _, _ => rfl
  | fuel + 1, length, m => by
    unfold tracedLength lengthLoop
    cases m.readMem (addr + BitVec.ofNat 32 length) .byte with
    | error e => rfl
    | ok r =>
      dsimp only
      split_ifs
      · rfl
      · exact tracedLength_fst addr c fuel (length + 1) r.2

theorem tracedCopy_fst (addr : BitVec 32) : ∀ (n i : ℕ) (m : Machine),
    (tracedCopy addr n i m).1 = copyLoop addr n i m
  | 0, _, _ => rfl
  | n + 1, i, m => by
    unfold tracedCopy copyLoop
    cases m.readMem (addr + BitVec.ofNat 32 i) .byte with
    | error e => rfl
    | ok r =>
      dsimp only
      rw [tracedCopy_fst addr n (i + 1) r.2]

/-- The record changes nothing. -/
theorem tracedUser2System_fst (fuel : ℕ) (m : Machine) (addr : BitVec 32) (c : ℤ) :
    (tracedUser2System fuel m addr c).1 = stringUser2System fuel m addr c := by
  have hlength := tracedLength_fst addr c fuel 0 m
  unfold tracedUser2System stringUser2System
  rw [← hlength]
  obtain ⟨r, reads⟩ := tracedLength addr c fuel 0 m
  cases r with
  | error e => rfl
  | ok r => exact tracedCopy_fst addr r.1 0 r.2

/-! ### A count -/

variable {m : Machine} {addr : BitVec 32}

theorem exists_of_mem_tracedLength {n : ℕ} {v : BitVec 32} : ∀ (fuel i : ℕ) (m : Machine), i < n →
    v ∈ (tracedLength addr n fuel i m).2 → ∃ j < n, v = addr + BitVec.ofNat 32 j
  | 0, _, _, _, hv => by simp [tracedLength] at hv
  | fuel + 1, i, m, hi, hv => by
    unfold tracedLength at hv
    cases hread : m.readMem (addr + BitVec.ofNat 32 i) .byte with
    | error e =>
      rw [hread] at hv
      exact ⟨i, hi, List.mem_singleton.mp hv⟩
    | ok r =>
      rw [hread] at hv
      by_cases hstop : (r.1 = 0 ∧ (n : ℤ) = -1) ∨ ((i + 1 : ℕ) : ℤ) = n
      · simp only [if_pos hstop] at hv
        exact ⟨i, hi, List.mem_singleton.mp hv⟩
      · simp only [if_neg hstop] at hv
        rcases List.mem_cons.mp hv with rfl | hv
        · exact ⟨i, hi, rfl⟩
        · -- the loop goes on only if the count is not reached
          exact exists_of_mem_tracedLength fuel (i + 1) r.2 (by omega) hv

theorem exists_of_mem_tracedCopy {v : BitVec 32} : ∀ (n i : ℕ) (m : Machine),
    v ∈ (tracedCopy addr n i m).2 → ∃ j < i + n, v = addr + BitVec.ofNat 32 j
  | 0, _, _, hv => by simp [tracedCopy] at hv
  | n + 1, i, m, hv => by
    unfold tracedCopy at hv
    cases hread : m.readMem (addr + BitVec.ofNat 32 i) .byte with
    | error e =>
      rw [hread] at hv
      exact ⟨i, by omega, List.mem_singleton.mp hv⟩
    | ok r =>
      rw [hread] at hv
      rcases List.mem_cons.mp hv with rfl | hv
      · exact ⟨i, by omega, rfl⟩
      · obtain ⟨j, hj, rfl⟩ := exists_of_mem_tracedCopy n (i + 1) r.2 hv
        exact ⟨j, by omega, rfl⟩

theorem lengthLoop_counts {n : ℕ} : ∀ (bs : List Byte) (fuel i : ℕ) (m : Machine), bs ≠ [] → i + bs.length = n →
    bs.length ≤ fuel → m.Holds (addr + BitVec.ofNat 32 i) bs →
    ∃ m', lengthLoop addr n fuel i m = .ok (n, m') ∧ SameView m m'
  | [], _, _, _, hne, _, _, _ => absurd rfl hne
  | b :: bs, 0, _, _, _, _, hf, _ => by simp at hf
  | b :: bs, fuel + 1, i, m, _, hn, hf, h => by
    obtain ⟨h0, h1⟩ := holds_cons.mp h
    obtain ⟨m₁, hread, hsame⟩ := readMem_byte h0
    rw [List.length_cons] at hn hf
    unfold lengthLoop
    rw [hread]
    dsimp only
    cases bs with
    | nil =>
      rw [List.length_nil, Nat.zero_add] at hn
      refine ⟨m₁, ?_, hsame⟩
      rw [if_pos (Or.inr (by rw [hn])), hn]
    | cons c bs =>
      obtain ⟨m₂, hm₂, hsame₂⟩ := lengthLoop_counts (n := n) (c :: bs) fuel (i + 1) m₁ (List.cons_ne_nil c bs)
        (by omega) (by omega) (h1.same hsame)
      rw [List.length_cons] at hn
      refine ⟨m₂, ?_, hsame.trans hsame₂⟩
      rw [if_neg (by omega), hm₂]

/-- The copy of `n` bytes from `addr` on comes to an end, reads no other address, and returns
these bytes. -/
def CopiesExactly (m : Machine) (addr : BitVec 32) (n : ℕ) : Prop :=
  ∃ rounds, ∀ fuel ≥ rounds, ∃ bs m', (tracedUser2System fuel m addr n).1 = .ok (bs, m') ∧ SameView m m' ∧
    bs.length = n ∧ m.Holds addr bs ∧ ∀ v ∈ (tracedUser2System fuel m addr n).2, ∃ i < n, v = addr + BitVec.ofNat 32 i

theorem exists_holds {n : ℕ} (h : ∀ i < n, (m.byteAt (addr + BitVec.ofNat 32 i)).isSome) :
    ∃ bs : List Byte, bs.length = n ∧ m.Holds addr bs := by
  refine ⟨(List.range n).map fun i => (m.byteAt (addr + BitVec.ofNat 32 i)).getD 0, by simp, fun i b hi => ?_⟩
  rw [List.getElem?_map, Option.map_eq_some_iff] at hi
  obtain ⟨j, hj, rfl⟩ := hi
  obtain ⟨hlt, rfl⟩ := List.getElem?_eq_some_iff.mp hj
  rw [List.length_range] at hlt
  rw [List.getElem_range]
  obtain ⟨b, hb⟩ := Option.isSome_iff_exists.mp (h i hlt)
  rw [hb, Option.getD_some]

theorem mem_tracedUser2System (fuel : ℕ) (m : Machine) (addr : BitVec 32) (c : ℤ) :
    addr ∈ (tracedUser2System (fuel + 1) m addr c).2 := by
  have hfirst : addr ∈ (tracedLength addr c (fuel + 1) 0 m).2 := by
    unfold tracedLength
    rw [BitVec.add_zero]
    cases m.readMem addr .byte with
    | error e => exact List.mem_singleton_self addr
    | ok r =>
      dsimp only
      split_ifs
      · exact List.mem_singleton_self addr
      · exact List.mem_cons_self
  unfold tracedUser2System
  generalize tracedLength addr c (fuel + 1) 0 m = t at hfirst ⊢
  obtain ⟨r, reads⟩ := t
  cases r with
  | error e => exact hfirst
  | ok r => exact List.mem_append_left _ hfirst

theorem not_copiesExactly_zero (m : Machine) (addr : BitVec 32) : ¬ CopiesExactly m addr 0 := by
  rintro ⟨rounds, hcopy⟩
  obtain ⟨-, -, -, -, -, -, hreads⟩ := hcopy (rounds + 1) (Nat.le_succ rounds)
  obtain ⟨i, hi, -⟩ := hreads addr (mem_tracedUser2System rounds m addr 0)
  exact Nat.not_lt_zero i hi

/-- A buffer that can be read is copied exactly, unless the count is zero. -/
theorem copiesExactly_iff {n : ℕ} (h : ∀ i < n, (m.byteAt (addr + BitVec.ofNat 32 i)).isSome) :
    CopiesExactly m addr n ↔ n ≠ 0 := by
  constructor
  · rintro hcopy rfl
    exact not_copiesExactly_zero m addr hcopy
  · intro hn
    obtain ⟨bs, hlen, hbs⟩ := exists_holds h
    have h0 : m.Holds (addr + BitVec.ofNat 32 0) bs := by simpa using hbs
    refine ⟨n, fun fuel hf => ?_⟩
    obtain ⟨m₁, hm₁, hsame₁⟩ := lengthLoop_counts (n := n) bs fuel 0 m (by rintro rfl; exact hn hlen.symm)
      (by omega) (by omega) h0
    obtain ⟨m₂, hm₂, hsame₂⟩ := copyLoop_holds addr bs 0 m₁ (h0.same hsame₁)
    rw [hlen] at hm₂
    refine ⟨bs, m₂, ?_, hsame₁.trans hsame₂, hlen, hbs, fun v hv => ?_⟩
    · rw [tracedUser2System_fst, stringUser2System, hm₁]
      exact hm₂
    · have hlength := tracedLength_fst addr n fuel 0 m
      have hin := @exists_of_mem_tracedLength addr n v fuel 0 m (Nat.pos_of_ne_zero hn)
      unfold tracedUser2System at hv
      rw [hm₁] at hlength
      generalize tracedLength addr n fuel 0 m = t at hlength hin hv
      obtain ⟨r, reads⟩ := t
      obtain rfl : r = .ok (n, m₁) := hlength
      rcases List.mem_append.mp hv with hv | hv
      · exact hin hv
      · simpa using exists_of_mem_tracedCopy n 0 m₁ hv

theorem copiesExactly_two : (∀ i < 2, (twoPages.byteAt (127 + BitVec.ofNat 32 i)).isSome) ∧
    CopiesExactly twoPages 127 2 := by
  have h : ∀ i < 2, (twoPages.byteAt (127 + BitVec.ofNat 32 i)).isSome := by decide
  exact ⟨h, (copiesExactly_iff h).mpr (by decide)⟩

/-- With a count of zero the copy reads through both pages of the process, and the address behind
them. -/
theorem copy_of_zero_bytes : ¬ CopiesExactly twoPages 0 0 ∧
    (tracedUser2System 300 twoPages 0 0).2.length = 257 ∧
    (tracedUser2System 300 twoPages 0 0).1.toOption.isNone := by
  refine ⟨not_copiesExactly_zero twoPages 0, ?_, ?_⟩
  · decide +kernel
  · decide +kernel

end Machine

end Nachos
