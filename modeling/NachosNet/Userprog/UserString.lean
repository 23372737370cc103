/-
# Strings between the user's memory and the kernel

`stringUser2System` and `StringSys2User` of `userprog/exception.cc` copy a
string byte by byte through `ReadMem` and `WriteMem`. A string that is in the
process's memory is copied in as it is, with its terminator
(`stringUser2System_holds`), and after the copy out the process reads the
string and a terminator at the address (`stringSys2User_holds`). Where the pages
have different frames and the range can be written, nothing else of the process
changes (`stringSys2User_writes`), so that strings go in and out as they are
(`string_copies_faithful`).

The first loop of `stringUser2System` goes on until it reads a zero or the
machine stops; it is given the number of rounds as `fuel`.
-/
import NachosNet.Machine.Translate
import Mathlib.Data.List.Nodup

namespace Nachos

open Basis

/-- Why a copy ends without a result: `ReadMem` raised an exception, on which
the kernel halts, or the rounds are spent. -/
inductive Stop
  | exception (e : ExceptionType)
  | fuel

def strlen (str : List Byte) : ℕ := (str.takeWhile (· ≠ 0)).length

theorem strlen_append {s : List Byte} (hz : 0 ∉ s) (rest : List Byte) : strlen (s ++ 0 :: rest) = s.length := by
  unfold strlen
  rw [List.takeWhile_append_of_pos]
  · simp
  · intro c hc
    exact decide_eq_true fun (h : c = 0) => hz (h ▸ hc)

namespace Machine

/-- The first loop of `stringUser2System` from `length` on: the length with
which it stops. -/
def lengthLoop (addr : BitVec 32) (convertLength : ℤ) : ℕ → ℕ → Machine → Except Stop (ℕ × Machine)
  | 0, _, _ => .error .fuel
  | fuel + 1, length, m =>
    match m.readMem (addr + BitVec.ofNat 32 length) .byte with
    | .error e => .error (.exception e)
    | .ok (oneChar, m) =>
      if (oneChar = 0 ∧ convertLength = -1) ∨ (length + 1 : ℕ) = convertLength then .ok (length + 1, m)
      else lengthLoop addr convertLength fuel (length + 1) m

/-- Its second loop from `i` on, for the `n` bytes that are left. -/
def copyLoop (addr : BitVec 32) : ℕ → ℕ → Machine → Except Stop (List Byte × Machine)
  | 0, _, m => .ok ([], m)
  | n + 1, i, m =>
    match m.readMem (addr + BitVec.ofNat 32 i) .byte with
    | .error e => .error (.exception e)
    | .ok (oneChar, m) => (copyLoop addr n (i + 1) m).map fun r => (oneChar.extractLsb' 0 8 :: r.1, r.2)

def stringUser2System (fuel : ℕ) (m : Machine) (addr : BitVec 32) (convertLength : ℤ) :
    Except Stop (List Byte × Machine) :=
  match lengthLoop addr convertLength fuel 0 m with
  | .error e => .error e
  | .ok (length, m) => copyLoop addr length 0 m

/-- The loop of `StringSys2User` from `i` on, for the bytes `str`. -/
def writeLoop (addr : BitVec 32) : ℕ → List Byte → Machine → Except ExceptionType Machine
  | _, [], m => .ok m
  | i, c :: str, m =>
    match m.writeMem (addr + BitVec.ofNat 32 i) .byte (c.signExtend 32) with
    | .error e => .error e
    | .ok m => writeLoop addr (i + 1) str m

/-- `StringSys2User`; the array `str` has the bytes that are copied. -/
def stringSys2User (m : Machine) (str : List Byte) (addr : BitVec 32) (convertLength : ℤ) :
    Except ExceptionType Machine :=
  let length : ℤ := if convertLength = -1 then strlen str else convertLength
  match writeLoop addr 0 (str.take length.toNat) m with
  | .error e => .error e
  | .ok m => m.writeMem (addr + BitVec.ofInt 32 length) .byte 0

/-! ### Bytes at an address -/

/-- The process reads the bytes `bs` from `addr` on. -/
def Holds (m : Machine) (addr : BitVec 32) (bs : List Byte) : Prop :=
  ∀ i b, bs[i]? = some b → m.byteAt (addr + BitVec.ofNat 32 i) = some b

variable {m m' : Machine} {addr : BitVec 32} {bs : List Byte}

theorem Holds.same (h : m.Holds addr bs) (hs : SameView m m') : m'.Holds addr bs :=
  fun i b hi => (hs.byteAt_eq _).trans (h i b hi)

theorem add_ofNat_add (addr : BitVec 32) (i j : ℕ) :
    addr + BitVec.ofNat 32 i + BitVec.ofNat 32 j = addr + BitVec.ofNat 32 (i + j) := by
  rw [BitVec.add_assoc, BitVec.ofNat_add]

theorem holds_cons {i : ℕ} {b : Byte} : m.Holds (addr + BitVec.ofNat 32 i) (b :: bs) ↔
    m.byteAt (addr + BitVec.ofNat 32 i) = some b ∧ m.Holds (addr + BitVec.ofNat 32 (i + 1)) bs := by
  unfold Holds
  simp only [add_ofNat_add]
  constructor
  · intro h
    refine ⟨h 0 b rfl, fun j c hj => ?_⟩
    rw [Nat.add_right_comm, Nat.add_assoc]
    exact h (j + 1) c hj
  · rintro ⟨h0, h⟩ j c hj
    cases j with
    | zero =>
      obtain rfl := Option.some.inj hj
      exact h0
    | succ j =>
      have := h j c hj
      rwa [Nat.add_right_comm, Nat.add_assoc] at this

theorem signExtend_eq_zero {c : Byte} : c.signExtend 32 = 0 ↔ c = 0 := by
  constructor
  · intro h
    have hc := extractLsb'_signExtend c
    rw [h] at hc
    exact hc.symm
  · rintro rfl
    rfl

/-! ### Copying in -/

theorem lengthLoop_holds (addr : BitVec 32) : ∀ (s : List Byte) (fuel i : ℕ) (m : Machine), 0 ∉ s →
    s.length < fuel → m.Holds (addr + BitVec.ofNat 32 i) (s ++ [0]) →
    ∃ m', lengthLoop addr (-1) fuel i m = .ok (i + s.length + 1, m') ∧ SameView m m'
  | s, 0, _, _, _, hf, _ => by simp at hf
  | [], fuel + 1, i, m, _, _, h => by
    obtain ⟨h0, -⟩ := holds_cons.mp h
    obtain ⟨m', hm', hsame⟩ := readMem_byte h0
    refine ⟨m', ?_, hsame⟩
    unfold lengthLoop
    rw [hm']
    simp
  | c :: s, fuel + 1, i, m, hz, hf, h => by
    obtain ⟨h0, h1⟩ := holds_cons.mp h
    obtain ⟨m', hm', hsame⟩ := readMem_byte h0
    obtain ⟨hc, hz⟩ := not_or.mp (fun h => hz (List.mem_cons.mpr h))
    obtain ⟨m'', hm'', hsame'⟩ := lengthLoop_holds addr s fuel (i + 1) m' hz
      (by simpa using hf) (Holds.same h1 hsame)
    refine ⟨m'', ?_, hsame.trans hsame'⟩
    unfold lengthLoop
    rw [hm']
    have hstop : ¬ ((c.signExtend 32 = 0 ∧ (-1 : ℤ) = -1) ∨ ((i + 1 : ℕ) : ℤ) = -1) := by
      rintro (⟨h, -⟩ | h)
      · exact hc (signExtend_eq_zero.mp h).symm
      · omega
    refine (if_neg hstop).trans ?_
    rw [hm'', List.length_cons, Nat.add_right_comm i 1, ← Nat.add_assoc]

theorem copyLoop_holds (addr : BitVec 32) : ∀ (bs : List Byte) (i : ℕ) (m : Machine),
    m.Holds (addr + BitVec.ofNat 32 i) bs →
    ∃ m', copyLoop addr bs.length i m = .ok (bs, m') ∧ SameView m m'
  | [], i, m, _ => ⟨m, rfl, .refl m⟩
  | b :: bs, i, m, h => by
    obtain ⟨h0, h1⟩ := holds_cons.mp h
    obtain ⟨m', hm', hsame⟩ := readMem_byte h0
    obtain ⟨m'', hm'', hsame'⟩ := copyLoop_holds addr bs (i + 1) m' (Holds.same h1 hsame)
    refine ⟨m'', ?_, hsame.trans hsame'⟩
    rw [List.length_cons, copyLoop, hm']
    simp only [hm'', Except.map, extractLsb'_signExtend]

theorem stringUser2System_holds {s : List Byte} {fuel : ℕ} (hz : 0 ∉ s) (hf : s.length < fuel)
    (h : m.Holds addr (s ++ [0])) :
    ∃ m', stringUser2System fuel m addr (-1) = .ok (s ++ [0], m') ∧ SameView m m' := by
  have h0 : m.Holds (addr + BitVec.ofNat 32 0) (s ++ [0]) := by simpa using h
  obtain ⟨m₁, hm₁, hsame₁⟩ := lengthLoop_holds addr s fuel 0 m hz hf h0
  obtain ⟨m₂, hm₂, hsame₂⟩ := copyLoop_holds addr (s ++ [0]) 0 m₁ (h0.same hsame₁)
  refine ⟨m₂, ?_, hsame₁.trans hsame₂⟩
  unfold stringUser2System
  rw [hm₁]
  simpa using hm₂

/-! ### Copying out -/

theorem add_ofNat_inj {i j : ℕ} (hi : i < 2 ^ 32) (hj : j < 2 ^ 32)
    (h : addr + BitVec.ofNat 32 i = addr + BitVec.ofNat 32 j) : i = j := by
  have hnat := congrArg BitVec.toNat h
  rw [BitVec.toNat_add, BitVec.toNat_add, BitVec.toNat_ofNat, BitVec.toNat_ofNat] at hnat
  omega

/-- The `n` bytes from `addr` on can be written. -/
def Writable (t : PageTable) (addr : BitVec 32) (n : ℕ) : Prop :=
  ∀ i < n, ∃ p, physAddr t (addr + BitVec.ofNat 32 i) .byte true = .ok p

theorem Writable.le_memorySize {t : PageTable} {n : ℕ} (h : Writable t addr n) (hd : Distinct t) :
    n ≤ MemorySize := by
  by_contra hn
  have hsize : MemorySize + 1 < 2 ^ 32 := by decide
  have hlt : ∀ i ∈ List.range (MemorySize + 1), i < n := fun i hi => by
    have := List.mem_range.mp hi
    omega
  choose! p hp using h
  have hnodup : ((List.range (MemorySize + 1)).map p).Nodup := by
    refine List.Nodup.map_on (fun i hi j hj he => ?_) List.nodup_range
    have hj' := hp j (hlt j hj)
    rw [← he] at hj'
    have hi' := List.mem_range.mp hi
    exact add_ofNat_inj (by omega) (by have := List.mem_range.mp hj; omega) (hd.physAddr_inj (hp i (hlt i hi)) hj')
  have hsub : (List.range (MemorySize + 1)).map p ⊆ List.range MemorySize := by
    intro q hq
    obtain ⟨i, hi, rfl⟩ := List.mem_map.mp hq
    exact List.mem_range.mpr (translate_assert ((translate_fst ..).trans (hp i (hlt i hi))))
  have hle := (hnodup.subperm hsub).length_le
  rw [List.length_map, List.length_range, List.length_range] at hle
  omega

theorem writeLoop_holds (addr : BitVec 32) : ∀ (bs : List Byte) (i : ℕ) (m : Machine), Distinct m.pageTable →
    Writable m.pageTable (addr + BitVec.ofNat 32 i) bs.length → i + bs.length ≤ 2 ^ 32 →
    ∃ m', writeLoop addr i bs m = .ok m' ∧ m'.pageTable.map core = m.pageTable.map core ∧
      m'.Holds (addr + BitVec.ofNat 32 i) bs ∧
      ∀ w, (∀ j < bs.length, w ≠ addr + BitVec.ofNat 32 (i + j)) → m'.byteAt w = m.byteAt w
  | [], i, m, _, _, _ => ⟨m, rfl, rfl, fun j b h => by simp at h, fun _ _ => rfl⟩
  | c :: bs, i, m, hd, hw, hlen => by
    rw [List.length_cons] at hw hlen
    obtain ⟨p, hp⟩ := hw 0 (Nat.succ_pos _)
    rw [add_ofNat_add, Nat.add_zero] at hp
    obtain ⟨m₁, hm₁, ht₁, hb₁⟩ := writeMem_byte_of_physAddr hd hp c
    have hw₁ : Writable m₁.pageTable (addr + BitVec.ofNat 32 (i + 1)) bs.length := by
      intro j hj
      rw [add_ofNat_add, physAddr_congr ht₁, Nat.add_assoc, Nat.add_comm 1 j, ← add_ofNat_add]
      exact hw (j + 1) (Nat.succ_lt_succ hj)
    obtain ⟨m₂, hm₂, ht₂, hh₂, hf₂⟩ := writeLoop_holds addr bs (i + 1) m₁ (hd.congr ht₁) hw₁ (by omega)
    refine ⟨m₂, ?_, ht₂.trans ht₁, holds_cons.mpr ⟨?_, hh₂⟩, fun w hne => ?_⟩
    · unfold writeLoop
      rw [hm₁]
      exact hm₂
    · -- the later bytes have later addresses
      rw [hf₂ _ fun j hj heq => ?_, hb₁]
      · exact if_pos rfl
      · have := add_ofNat_inj (by omega) (by omega) heq
        omega
    · rw [hf₂ w fun j hj => ?_, hb₁, if_neg]
      · exact hne 0 (by simp)
      · have := hne (j + 1) (by simpa using hj)
        rwa [Nat.add_assoc, Nat.add_comm 1 j]

theorem writeLoop_concat (addr : BitVec 32) (c : Byte) : ∀ (bs : List Byte) (i : ℕ) (m : Machine),
    writeLoop addr i (bs ++ [c]) m = match writeLoop addr i bs m with
      | .error e => .error e
      | .ok m => m.writeMem (addr + BitVec.ofNat 32 (i + bs.length)) .byte (c.signExtend 32)
  | [], i, m => by
    simp only [List.nil_append, writeLoop, List.length_nil, Nat.add_zero]
    split
    · rename_i h
      rw [h]
    · rename_i h
      rw [h]
  | b :: bs, i, m => by
    simp only [List.cons_append, writeLoop]
    cases m.writeMem (addr + BitVec.ofNat 32 i) .byte (b.signExtend 32) with
    | error e => rfl
    | ok m' =>
      refine (writeLoop_concat addr c bs (i + 1) m').trans ?_
      rw [List.length_cons, Nat.add_right_comm, Nat.add_assoc]

/-- A string of the kernel, with a terminator behind it, is where it was copied to, and
nothing else has changed. -/
theorem stringSys2User_writes {s : List Byte} (rest : List Byte) (hz : 0 ∉ s) (hd : Distinct m.pageTable)
    (hw : Writable m.pageTable addr (s.length + 1)) :
    ∃ m', m.stringSys2User (s ++ 0 :: rest) addr (-1) = .ok m' ∧ m'.Holds addr (s ++ [0]) ∧
      ∀ w, (∀ i ≤ s.length, w ≠ addr + BitVec.ofNat 32 i) → m'.byteAt w = m.byteAt w := by
  have hlen : (s ++ [0]).length = s.length + 1 := List.length_append
  have hle : s.length + 1 ≤ 2 ^ 32 := (hw.le_memorySize hd).trans (by decide)
  have hw' : Writable m.pageTable (addr + BitVec.ofNat 32 0) (s ++ [0]).length := by
    rw [hlen]
    simpa using hw
  obtain ⟨m', hm', -, hh, hf⟩ := writeLoop_holds addr (s ++ [0]) 0 m hd hw' (by
    rw [hlen]
    omega)
  refine ⟨m', ?_, by simpa using hh, fun w hne => hf w fun j hj => ?_⟩
  · rw [writeLoop_concat, Nat.zero_add] at hm'
    unfold stringSys2User
    simp only [if_true, strlen_append hz, Int.toNat_natCast, List.take_left]
    exact hm'
  · rw [hlen] at hj
    rw [Nat.zero_add]
    exact hne j (Nat.le_of_lt_succ hj)

/-- The range of a process with a frame of its own for each page can be written. -/
theorem Mapped.writable (hm : Mapped m.pageTable) {n : ℕ} (h : addr.toNat + n ≤ m.pageTable.length * PageSize) :
    Writable m.pageTable addr n := by
  intro i hi
  apply hm.exists_physAddr
  rw [BitVec.toNat_add, BitVec.toNat_ofNat, Nat.add_mod_mod]
  exact (Nat.mod_le _ _).trans_lt (by omega)

/-- A string of the kernel is read by the process where it was copied to, with
a terminator behind it. -/
theorem stringSys2User_holds {s : List Byte} (rest : List Byte) (hz : 0 ∉ s) (hm : Mapped m.pageTable)
    (hlen : addr.toNat + s.length < m.pageTable.length * PageSize) :
    ∃ m', m.stringSys2User (s ++ 0 :: rest) addr (-1) = .ok m' ∧ m'.Holds addr (s ++ [0]) := by
  obtain ⟨m', hm', hh, -⟩ := stringSys2User_writes rest hz (distinct_of_nodup hm.nodup) (hm.writable hlen)
  exact ⟨m', hm', hh⟩

/-- Strings go in and out as they are. A string of the process is copied with its terminator; a
string of the kernel is read back with its terminator where it was copied to, and no byte
of the process outside that range has changed. -/
theorem string_copies_faithful (hd : Distinct m.pageTable) :
    (∀ (addr : BitVec 32) (s : List Byte) (fuel : ℕ), 0 ∉ s → m.Holds addr (s ++ [0]) → s.length < fuel →
      ∃ m', stringUser2System fuel m addr (-1) = .ok (s ++ [0], m') ∧ SameView m m') ∧
    ∀ (b : BitVec 32) (s rest : List Byte), 0 ∉ s → Writable m.pageTable b (s.length + 1) →
      ∃ m', m.stringSys2User (s ++ 0 :: rest) b (-1) = .ok m' ∧
        (∀ fuel, s.length < fuel → ∃ m'', stringUser2System fuel m' b (-1) = .ok (s ++ [0], m'') ∧ SameView m' m'') ∧
        ∀ w, (∀ i ≤ s.length, w ≠ b + BitVec.ofNat 32 i) → m'.byteAt w = m.byteAt w := by
  constructor
  · intro addr s fuel hz h hf
    exact stringUser2System_holds hz hf h
  · intro b s rest hz hw
    obtain ⟨m', hm', hh, hframe⟩ := stringSys2User_writes rest hz hd hw
    exact ⟨m', hm', fun fuel hf => stringUser2System_holds hz hf hh, hframe⟩

/-- Two pages that lie apart in the memory, the second before the first. -/
def twoPages : Machine := ⟨fun _ => 7, [⟨0, 5, true, false, false, false⟩, ⟨1, 3, true, false, false, false⟩]⟩

theorem string_copies_across_pages : ∃ m', twoPages.stringSys2User [0x41, 0xff, 0] 127 (-1) = .ok m' ∧
    (∃ m'', stringUser2System 3 m' 127 (-1) = .ok ([0x41, 0xff, 0], m'')) ∧ m'.byteAt 126 = some 7 := by
  have hw : Writable twoPages.pageTable 127 3 := by
    intro i hi
    obtain rfl | rfl | rfl : i = 0 ∨ i = 1 ∨ i = 2 := by omega
    · exact ⟨767, rfl⟩
    · exact ⟨384, rfl⟩
    · exact ⟨385, rfl⟩
  obtain ⟨m', hm', hback, hframe⟩ :=
    (string_copies_faithful (distinct_of_nodup (t := twoPages.pageTable) (by decide))).2 127 [0x41, 0xff] []
      (by decide) hw
  obtain ⟨m'', hm'', -⟩ := hback 3 (by decide)
  refine ⟨m', hm', ⟨m'', hm''⟩, (hframe 126 fun i hi => ?_).trans rfl⟩
  obtain rfl | rfl | rfl : i = 0 ∨ i = 1 ∨ i = 2 := by simp at hi; omega
  · decide
  · decide
  · decide

end Machine

end Nachos
