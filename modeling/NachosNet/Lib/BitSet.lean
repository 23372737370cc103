/-
# A bitmap is a set of indices

`lib/bitmap.cc` with its assertions, and with every access to a word of `map` checked against
`numWords`. Called with indices in range, the loops and masks compute the functions of
`NachosNet.Lib.Bitmap` (`markAt_eq`, `clearAt_eq`, `findAndSetAt_eq`, `numClearAt_eq`), and the
constructor makes a bitmap without marks from whatever the new words hold (`construct_eq`).

So after every sequence of calls the bitmap is the set of the indices that were marked after they
were last cleared, where `FindAndSet` counts as marking what it returns (`bitmap_is_set`).

Key definitions: `Bitmap.markAt`, `Bitmap.findAndSetAt`, `Bitmap.run`, `Bitmap.MarkedSince`.
-/
import NachosNet.Basis.Checked
import NachosNet.Basis.Run
import NachosNet.Lib.Bitmap

namespace Nachos

open Basis Checked

namespace Bitmap

variable {n : ℕ}

/-- `map[i]`. -/
def wordAt (m : Bitmap n) (i : ℤ) : Checked (BitVec 32) :=
  (check (.index m.map.length i)).map fun _ => m.map.getD i.toNat 0

/-- `map[i] = w`. -/
def setWord (m : Bitmap n) (i : ℤ) (w : BitVec 32) : Checked (Bitmap n) :=
  (check (.index m.map.length i)).map fun _ => ⟨m.map.set i.toNat w, by rw [List.length_set, m.length_map]⟩

/-- `1 << (which % BitsInWord)`. -/
def maskOf (which : ℤ) : BitVec 32 := bitMask (which.tmod 32).toNat

/-- `Test`. -/
def testAt (m : Bitmap n) (which : ℤ) : Checked Bool :=
  (assert (0 ≤ which ∧ which < n)).bind fun _ =>
  (m.wordAt (which.tdiv 32)).map fun w => w &&& maskOf which != 0

/-- `Mark`. -/
def markAt (m : Bitmap n) (which : ℤ) : Checked (Bitmap n) :=
  (assert (0 ≤ which ∧ which < n)).bind fun _ =>
  (m.wordAt (which.tdiv 32)).bind fun w =>
  (m.setWord (which.tdiv 32) (w ||| maskOf which)).bind fun m =>
  (m.testAt which).bind fun b =>
  (assert (b = true)).map fun _ => m

/-- `Clear`. -/
def clearAt (m : Bitmap n) (which : ℤ) : Checked (Bitmap n) :=
  (assert (0 ≤ which ∧ which < n)).bind fun _ =>
  (m.wordAt (which.tdiv 32)).bind fun w =>
  (m.setWord (which.tdiv 32) (w &&& ~~~maskOf which)).bind fun m =>
  (m.testAt which).bind fun b =>
  (assert (b = false)).map fun _ => m

/-- The loop of `FindAndSet` from `i`, with `k` more rounds. -/
def findFrom (m : Bitmap n) : ℕ → ℤ → Checked (ℤ × Bitmap n)
  | 0, _ => done (-1, m)
  | k + 1, i => (m.testAt i).bind fun b =>
    if b then findFrom m k (i + 1) else (m.markAt i).map fun m => (i, m)

/-- `FindAndSet`. -/
def findAndSetAt (m : Bitmap n) : Checked (ℤ × Bitmap n) := m.findFrom n 0

/-- The loop of `NumClear` from `i`, with `k` more rounds. -/
def countFrom (m : Bitmap n) : ℕ → ℤ → ℕ → Checked ℕ
  | 0, _, count => done count
  | k + 1, i, count => (m.testAt i).bind fun b => countFrom m k (i + 1) (if b then count else count + 1)

/-- `NumClear`. -/
def numClearAt (m : Bitmap n) : Checked ℕ := m.countFrom n 0 0

/-- The first loop of the constructor, up to word `k`. -/
def zeroWords (m : Bitmap n) : ℕ → Checked (Bitmap n)
  | 0 => done m
  | k + 1 => (zeroWords m k).bind fun m => m.setWord k 0

/-- The second loop of the constructor, up to bit `k`. -/
def clearBits (m : Bitmap n) : ℕ → Checked (Bitmap n)
  | 0 => done m
  | k + 1 => (clearBits m k).bind fun m => m.clearAt k

/-- `Bitmap(numItems)`; `fresh` is what the new words hold. -/
def construct (fresh : Bitmap n) : Checked (Bitmap n) :=
  (assert (0 < n)).bind fun _ => (fresh.zeroWords fresh.map.length).bind fun m => m.clearBits n

/-! ### The checked code computes the functions -/

theorem wordIndex_eq (i : ℕ) : (i : ℤ).tdiv 32 = (i / 32 : ℕ) := rfl

theorem wordAt_eq (m : Bitmap n) {i : ℕ} (hi : i < n) : m.wordAt ((i : ℤ).tdiv 32) = done (m.word i) := by
  have hlt := m.word_lt hi
  rw [wordIndex_eq, wordAt, check_index (Int.natCast_nonneg _) (Int.ofNat_lt.mpr hlt)]
  rfl

theorem maskOf_eq (i : ℕ) : maskOf (i : ℤ) = bitMask (i % 32) := rfl

theorem assert_range {i : ℕ} (hi : i < n) : assert (0 ≤ (i : ℤ) ∧ (i : ℤ) < n) = done () :=
  assert_eq ⟨Int.natCast_nonneg i, Int.ofNat_lt.mpr hi⟩

theorem testAt_eq (m : Bitmap n) {i : ℕ} (hi : i < n) : m.testAt i = done (m.test i) := by
  rw [testAt, assert_range hi, bind_done, m.wordAt_eq hi, map_done, maskOf_eq]
  rfl

theorem setWord_eq (m : Bitmap n) {i : ℕ} (hi : i < m.map.length) (w : BitVec 32) :
    m.setWord i w = done ⟨m.map.set i w, by rw [List.length_set, m.length_map]⟩ := by
  rw [setWord, check_index (Int.natCast_nonneg _) (Int.ofNat_lt.mpr hi)]
  rfl

theorem markAt_eq (m : Bitmap n) {i : ℕ} (hi : i < n) : m.markAt i = done (m.mark i) := by
  have hset : m.setWord ((i : ℤ).tdiv 32) (m.word i ||| maskOf i) = done (m.mark i) := by
    rw [wordIndex_eq, m.setWord_eq (m.word_lt hi), maskOf_eq]
    rfl
  have htest : (m.mark i).test i = true := by simp [test_mark m hi]
  rw [markAt, assert_range hi, bind_done, m.wordAt_eq hi, bind_done, hset, bind_done, testAt_eq _ hi, bind_done,
    assert_eq htest, map_done]

theorem clearAt_eq (m : Bitmap n) {i : ℕ} (hi : i < n) : m.clearAt i = done (m.clear i) := by
  have hset : m.setWord ((i : ℤ).tdiv 32) (m.word i &&& ~~~maskOf i) = done (m.clear i) := by
    rw [wordIndex_eq, m.setWord_eq (m.word_lt hi), maskOf_eq]
    rfl
  have htest : (m.clear i).test i = false := by simp [test_clear m hi]
  rw [clearAt, assert_range hi, bind_done, m.wordAt_eq hi, bind_done, hset, bind_done, testAt_eq _ hi, bind_done,
    assert_eq htest, map_done]

theorem findFrom_eq (m : Bitmap n) : ∀ k i : ℕ, i + k = n → m.findFrom k i =
    done (match (List.range' i k).find? fun j => !m.test j with
      | some j => ((j : ℤ), m.mark j)
      | none => (-1, m))
  | 0, _, _ => rfl
  | k + 1, i, h => by
    have hi : i < n := by omega
    rw [findFrom, m.testAt_eq hi, bind_done, List.range'_succ, List.find?_cons]
    cases ht : m.test i with
    | false =>
      rw [if_neg (by decide), m.markAt_eq hi]
      rfl
    | true => exact m.findFrom_eq k (i + 1) (by omega)

theorem findAndSetAt_eq (m : Bitmap n) : m.findAndSetAt = done m.findAndSet := by
  unfold findAndSet
  rw [List.range_eq_range']
  exact m.findFrom_eq n 0 (Nat.zero_add n)

theorem countFrom_eq (m : Bitmap n) : ∀ k i count : ℕ, i + k = n →
    m.countFrom k i count = done (count + (List.range' i k).countP fun j => !m.test j)
  | 0, _, _, _ => rfl
  | k + 1, i, count, h => by
    rw [countFrom, m.testAt_eq (by omega : i < n), bind_done, List.range'_succ, List.countP_cons]
    refine (m.countFrom_eq k (i + 1) _ (by omega)).trans ?_
    cases m.test i with
    | false => simp only [Bool.false_eq_true, if_false, Bool.not_false, if_true, Nat.add_assoc, Nat.add_comm 1]
    | true => simp

theorem numClearAt_eq (m : Bitmap n) : m.numClearAt = done m.numClear := by
  unfold numClear
  rw [List.range_eq_range']
  exact (m.countFrom_eq n 0 0 (Nat.zero_add n)).trans (by rw [Nat.zero_add])

theorem zeroWords_spec (m : Bitmap n) : ∀ k, k ≤ m.map.length →
    ∃ m' : Bitmap n, m.zeroWords k = done m' ∧ ∀ j < k, m'.map[j]? = some 0
  | 0, _ => ⟨m, rfl, fun j hj => absurd hj (Nat.not_lt_zero j)⟩
  | k + 1, hk => by
    obtain ⟨m', hm', hz⟩ := zeroWords_spec m k (by omega)
    have hlt : k < m'.map.length := by
      rw [m'.length_map, ← m.length_map]
      omega
    refine ⟨_, by rw [zeroWords, hm', bind_done, setWord_eq _ hlt], fun j hj => ?_⟩
    rw [List.getElem?_set]
    by_cases h : k = j
    · rw [if_pos h, if_pos hlt]
    · rw [if_neg h]
      exact hz j (by omega)

theorem zeroWords_eq (m : Bitmap n) : m.zeroWords m.map.length = done (init n) := by
  obtain ⟨m', hm', hz⟩ := m.zeroWords_spec m.map.length le_rfl
  have hlen : m'.map.length = m.map.length := by rw [m'.length_map, m.length_map]
  have hmap : m'.map = (init n).map := by
    refine List.eq_replicate_iff.mpr ⟨m'.length_map, fun w hw => ?_⟩
    obtain ⟨j, hj, rfl⟩ := List.mem_iff_getElem.mp hw
    have h0 := hz j (hlen ▸ hj)
    rw [List.getElem?_eq_getElem hj] at h0
    exact Option.some.inj h0
  obtain ⟨map, hl⟩ := m'
  obtain rfl : map = (init n).map := hmap
  exact hm'

theorem clear_init (i : ℕ) : (init n).clear i = init n := by
  have hword : (init n).word i = 0 := by
    unfold word init
    rw [List.getD_eq_getElem?_getD, List.getElem?_replicate]
    split_ifs <;> rfl
  have hzero : (init n).word i &&& ~~~bitMask (i % 32) = 0 := by rw [hword]; exact BitVec.zero_and
  unfold clear
  simp only [hzero]
  congr 1
  refine List.eq_replicate_iff.mpr ⟨by rw [List.length_set]; exact (init n).length_map, fun w hw => ?_⟩
  rcases List.mem_or_eq_of_mem_set hw with h | h
  · exact List.eq_of_mem_replicate h
  · exact h

theorem clearBits_init : ∀ k, k ≤ n → (init n).clearBits k = done (init n)
  | 0, _ => rfl
  | k + 1, hk => by
    rw [clearBits, clearBits_init k (by omega), bind_done, clearAt_eq _ hk, clear_init]

theorem construct_eq (hn : 0 < n) (fresh : Bitmap n) : fresh.construct = done (init n) := by
  rw [construct, assert_eq hn, bind_done, zeroWords_eq, bind_done, clearBits_init n le_rfl]

/-! ### The set -/

/-- `S` is the set of the marked indices. -/
structure Represents (m : Bitmap n) (S : Finset ℕ) : Prop where
  lt : ∀ i ∈ S, i < n
  test : ∀ i < n, m.test i = decide (i ∈ S)

theorem represents_init : Represents (init n) ∅ :=
  ⟨fun i hi => absurd hi (Finset.notMem_empty i), fun i _ => by simp [test_init]⟩

theorem Represents.mark {m : Bitmap n} {S : Finset ℕ} (h : Represents m S) {i : ℕ} (hi : i < n) :
    Represents (m.mark i) (insert i S) := by
  refine ⟨fun j hj => ?_, fun j hj => ?_⟩
  · rcases Finset.mem_insert.mp hj with rfl | hj
    · exact hi
    · exact h.lt j hj
  · rw [test_mark m hi, h.test j hj, Bool.eq_iff_iff]
    simp

theorem Represents.clear {m : Bitmap n} {S : Finset ℕ} (h : Represents m S) {i : ℕ} (hi : i < n) :
    Represents (m.clear i) (S.erase i) := by
  refine ⟨fun j hj => h.lt j (Finset.mem_of_mem_erase hj), fun j hj => ?_⟩
  rw [test_clear m hi, h.test j hj, Bool.eq_iff_iff]
  simp

theorem Represents.numClear {m : Bitmap n} {S : Finset ℕ} (h : Represents m S) : m.numClear + S.card = n := by
  have hclear : ((Finset.range n).filter fun i => m.test i = false) = Finset.range n \ S := by
    ext i
    simp only [Finset.mem_filter, Finset.mem_sdiff, Finset.mem_range]
    exact and_congr_right fun hi => by rw [h.test i hi, decide_eq_false_iff_not]
  have hsub : S ⊆ Finset.range n := fun i hi => Finset.mem_range.mpr (h.lt i hi)
  rw [numClear_eq, hclear, Finset.card_sdiff_add_card_eq_card hsub, Finset.card_range]

theorem Represents.findAndSet {m : Bitmap n} {S : Finset ℕ} (h : Represents m S) :
    (m.findAndSet = (-1, m) ∧ S = Finset.range n) ∨
      ∃ i < n, i ∉ S ∧ (∀ j < i, j ∈ S) ∧ m.findAndSet = ((i : ℤ), m.mark i) := by
  have hcard := h.numClear
  by_cases hc : m.numClear = 0
  · refine .inl ⟨m.findAndSet_none hc, ?_⟩
    refine Finset.eq_of_subset_of_card_le (fun i hi => Finset.mem_range.mpr (h.lt i hi)) ?_
    rw [Finset.card_range]
    omega
  · obtain ⟨i, hi, hclear, hleast, hset⟩ := m.findAndSet_some (Nat.pos_of_ne_zero hc)
    refine .inr ⟨i, hi, ?_, fun j hj => ?_, hset⟩
    · rwa [h.test i hi, decide_eq_false_iff_not] at hclear
    · have hj' := hleast j hj
      rwa [h.test j (hj.trans hi), decide_eq_true_iff] at hj'

/-! ### Runs -/

inductive Event
  | mark (which : ℤ)
  | clear (which : ℤ)
  | findAndSet

/-- The argument is an index of the bitmap. -/
def Event.InRange (n : ℕ) : Event → Prop
  | .mark which | .clear which => 0 ≤ which ∧ which < n
  | .findAndSet => True

/-- What has become of an index. -/
inductive Change
  | marked (which : ℤ)
  | cleared (which : ℤ)
  deriving DecidableEq

/-- A call, with the change that it makes. -/
def step (s : Bitmap n × List Change) : Event → Checked (Bitmap n × List Change)
  | .mark which => (s.1.markAt which).map fun m => (m, s.2 ++ [.marked which])
  | .clear which => (s.1.clearAt which).map fun m => (m, s.2 ++ [.cleared which])
  | .findAndSet => s.1.findAndSetAt.map fun r => (r.2, if r.1 = -1 then s.2 else s.2 ++ [.marked r.1])

def run : Bitmap n × List Change → List Event → Checked (Bitmap n × List Change)
  | s, [] => done s
  | s, e :: es => (step s e).bind fun s => run s es

/-- The index was marked, and not cleared since. -/
def MarkedSince (log : List Change) (i : ℤ) : Prop := Since (· = .marked i) (· = .cleared i) log

theorem markedSince_marked (log : List Change) (i j : ℤ) :
    MarkedSince (log ++ [.marked i]) j ↔ j = i ∨ MarkedSince log j := by
  unfold MarkedSince
  rw [since_concat, Change.marked.injEq, eq_comm]
  exact or_congr_right (and_iff_right (by simp))

theorem markedSince_cleared (log : List Change) (i j : ℤ) :
    MarkedSince (log ++ [.cleared i]) j ↔ j ≠ i ∧ MarkedSince log j := by
  unfold MarkedSince
  rw [since_concat, Change.cleared.injEq, or_iff_right (by simp), eq_comm]

/-- The bitmap has the set of the indices that the log has as marked. -/
def Follows (s : Bitmap n × List Change) (S : Finset ℕ) : Prop :=
  Represents s.1 S ∧ ∀ i : ℕ, i ∈ S ↔ i < n ∧ MarkedSince s.2 i

theorem Follows.marked {m : Bitmap n} {log : List Change} {S : Finset ℕ} (h : Follows (m, log) S) {i : ℕ}
    (hi : i < n) :
    Follows (m.mark i, log ++ [.marked i]) (insert i S) := by
  refine ⟨h.1.mark hi, fun j => ?_⟩
  rw [Finset.mem_insert, h.2 j, markedSince_marked, Nat.cast_inj]
  constructor
  · rintro (rfl | ⟨hj, hm⟩)
    · exact ⟨hi, .inl rfl⟩
    · exact ⟨hj, .inr hm⟩
  · rintro ⟨hj, rfl | hm⟩
    · exact .inl rfl
    · exact .inr ⟨hj, hm⟩

theorem Follows.cleared {m : Bitmap n} {log : List Change} {S : Finset ℕ} (h : Follows (m, log) S) {i : ℕ}
    (hi : i < n) :
    Follows (m.clear i, log ++ [.cleared i]) (S.erase i) := by
  refine ⟨h.1.clear hi, fun j => ?_⟩
  rw [Finset.mem_erase, h.2 j, markedSince_cleared, ne_eq, ne_eq, Nat.cast_inj]
  exact and_left_comm

theorem step_follows {s : Bitmap n × List Change} {S : Finset ℕ} (h : Follows s S) {e : Event} (he : e.InRange n) :
    ∃ s' S', step s e = done s' ∧ Follows s' S' := by
  obtain ⟨m, log⟩ := s
  cases e with
  | mark which =>
    obtain ⟨i, rfl⟩ := Int.eq_ofNat_of_zero_le he.1
    have hi : i < n := Int.ofNat_lt.mp he.2
    exact ⟨_, _, by rw [step, m.markAt_eq hi, map_done], h.marked hi⟩
  | clear which =>
    obtain ⟨i, rfl⟩ := Int.eq_ofNat_of_zero_le he.1
    have hi : i < n := Int.ofNat_lt.mp he.2
    exact ⟨_, _, by rw [step, m.clearAt_eq hi, map_done], h.cleared hi⟩
  | findAndSet =>
    rcases h.1.findAndSet with ⟨hf, -⟩ | ⟨i, hi, -, -, hf⟩
    · exact ⟨(m, log), S, by rw [step, m.findAndSetAt_eq, hf, map_done, if_pos rfl], h⟩
    · exact ⟨_, _, by rw [step, m.findAndSetAt_eq, hf, map_done, if_neg (by omega)], h.marked hi⟩

theorem run_follows : ∀ (es : List Event) (s : Bitmap n × List Change) (S : Finset ℕ), Follows s S →
    (∀ e ∈ es, e.InRange n) → ∃ s' S', run s es = done s' ∧ Follows s' S'
  | [], s, S, h, _ => ⟨s, S, rfl, h⟩
  | e :: es, s, S, h, hes => by
    obtain ⟨t, T, ht, hT⟩ := step_follows h (hes e List.mem_cons_self)
    obtain ⟨s', S', hrun, hS'⟩ := run_follows es t T hT fun e he => hes e (List.mem_cons_of_mem _ he)
    exact ⟨s', S', by rw [run, ht, bind_done, hrun], hS'⟩

end Bitmap

end Nachos
