/-
# Creating a file

`FileSystem` of `filesys/filesys.h` over the host's files. `Create` opens the
file on the host, which creates it, and closes the descriptor again. But the
`Close` that it calls is the method of the class: it closes the descriptor of
that number in the table of the running process. The descriptor of the host
stays open.

Key definitions: `FileSystem.close`, `FileSystem.create`.
-/
import NachosNet.Filesys.FileTable
import Mathlib.Logic.Function.Basic

namespace Nachos

open Basis

/-- The files of the host and its descriptors that are open, and the tables of
the processes. `file` of an `OpenFile` is the number of a descriptor of the host; here it is
apart, in `descriptor`, for each entry of each table. -/
structure FileSystem where
  files : HostFiles
  isOpen : ℕ → Bool
  fileTable : ℕ → FileTable
  descriptor : ℕ → ℕ → ℕ
  open_entry : ∀ p i, (fileTable p).openFile i ≠ none → isOpen (descriptor p i) = true
  distinct : ∀ p i q j, (fileTable p).openFile i ≠ none → (fileTable q).openFile j ≠ none →
    descriptor p i = descriptor q j → p = q ∧ i = j

namespace FileTable

theorem remove_snd (t : FileTable) (index : ℤ) (i : ℕ) :
    (t.remove index).2.openFile i = if (t.remove index).1 = 0 ∧ i = index.toNat then none else t.openFile i := by
  unfold remove
  split
  · simp
  · cases t.openFile index.toNat with
    | none => simp
    | some f =>
      by_cases hi : i = index.toNat
      · subst hi
        simp
      · simp [hi]

theorem remove_fst (t : FileTable) (index : ℤ) :
    (t.remove index).1 = 0 ↔ 2 ≤ index ∧ index < fileMax ∧ t.openFile index.toNat ≠ none := by
  unfold remove
  by_cases hr : index < 2 ∨ (fileMax : ℤ) ≤ index
  · rw [if_pos hr]
    refine iff_of_false (by simp) fun h => ?_
    omega
  · rw [if_neg hr]
    cases t.openFile index.toNat with
    | none => simp
    | some f =>
      simp
      omega

theorem remove_fail {t : FileTable} {index : ℤ} (h : (t.remove index).1 ≠ 0) : (t.remove index).2 = t := by
  unfold remove at h ⊢
  split
  · rfl
  · cases ho : t.openFile index.toNat with
    | none => rfl
    | some f =>
      rw [if_neg ‹_›, ho] at h
      exact absurd rfl h

end FileTable

namespace FileSystem

theorem open_of_remove {s : FileSystem} {p : ℕ} {id : ℤ} {q i : ℕ}
    (h : (Function.update s.fileTable p ((s.fileTable p).remove id).2 q).openFile i ≠ none) :
    (s.fileTable q).openFile i ≠ none := by
  by_cases hq : q = p
  · subst hq
    rw [Function.update_self, FileTable.remove_snd] at h
    exact fun hn => h (by split <;> simp [hn])
  · rwa [Function.update_of_ne hq] at h

/-- `Close(id)` in process `p`: `Remove` deletes the `OpenFile`, which closes its descriptor. -/
def close (s : FileSystem) (p : ℕ) (id : ℤ) : FileSystem where
  files := s.files
  isOpen := if ((s.fileTable p).remove id).1 = 0 then Function.update s.isOpen (s.descriptor p id.toNat) false else s.isOpen
  fileTable := Function.update s.fileTable p ((s.fileTable p).remove id).2
  descriptor := s.descriptor
  open_entry q i h := by
    have hold := open_of_remove h
    split
    · rename_i hr
      have hne : s.descriptor q i ≠ s.descriptor p id.toNat := by
        intro heq
        obtain ⟨rfl, rfl⟩ := s.distinct q i p id.toNat hold ((FileTable.remove_fst _ _).mp hr).2.2 heq
        rw [Function.update_self, FileTable.remove_snd, if_pos ⟨hr, rfl⟩] at h
        exact h rfl
      rw [Function.update_of_ne hne]
      exact s.open_entry q i hold
    · exact s.open_entry q i hold
  distinct q i r j h h' := s.distinct q i r j (open_of_remove h) (open_of_remove h')

/-- `OpenForWrite`: the file is there and empty, and `fd` is open. -/
def openForWrite (s : FileSystem) (file fd : ℕ) : FileSystem where
  files := Function.update s.files file []
  isOpen := Function.update s.isOpen fd true
  fileTable := s.fileTable
  descriptor := s.descriptor
  open_entry p i h := by
    by_cases hd : s.descriptor p i = fd
    · simp [hd]
    · rw [Function.update_of_ne hd]
      exact s.open_entry p i h
  distinct := s.distinct

/-- `Create(name)` in process `p`, where the host opens the file with the number `fd`. -/
def create (s : FileSystem) (p file fd : ℕ) : FileSystem := (s.openForWrite file fd).close p fd

/-- The tables stay as they are exactly when `fd` is not the number of an open
descriptor in the table of the process; of the other tables none changes. The
host's descriptor, which was free, is open afterwards in every case. -/
theorem create_disturbs_iff (s : FileSystem) (p file fd : ℕ) (hfd : s.isOpen fd = false) :
    ((∀ q, (s.create p file fd).fileTable q = s.fileTable q) ↔
      ¬ (2 ≤ fd ∧ fd < fileMax ∧ (s.fileTable p).openFile fd ≠ none)) ∧
    (∀ q, q ≠ p → (s.create p file fd).fileTable q = s.fileTable q) ∧
    (∀ i, i ≠ fd → ((s.create p file fd).fileTable p).openFile i = (s.fileTable p).openFile i) ∧
    (s.create p file fd).isOpen fd = true := by
  have htable : (s.create p file fd).fileTable =
    Function.update s.fileTable p ((s.fileTable p).remove fd).2 := rfl
  have hother : ∀ q, q ≠ p → (s.create p file fd).fileTable q = s.fileTable q := fun q hq => by
    rw [htable, Function.update_of_ne hq]
  have hcast : (2 ≤ fd ∧ fd < fileMax ∧ (s.fileTable p).openFile fd ≠ none) ↔ ((s.fileTable p).remove fd).1 = 0 := by
    rw [FileTable.remove_fst, Int.toNat_natCast]
    exact and_congr (by omega) (and_congr (by omega) Iff.rfl)
  refine ⟨?_, hother, fun i hi => ?_, ?_⟩
  · rw [hcast]
    constructor
    · intro h hr
      -- the entry was open and is closed now
      have hentry := congrArg (fun t => t.openFile fd) (h p)
      simp only [htable, Function.update_self, FileTable.remove_snd, hr, Int.toNat_natCast, and_self, if_true] at hentry
      exact (hcast.mpr hr).2.2 hentry.symm
    · intro hr q
      by_cases hq : q = p
      · subst hq
        rw [htable, Function.update_self, FileTable.remove_fail hr]
      · exact hother q hq
  · rw [htable, Function.update_self, FileTable.remove_snd, if_neg]
    simpa using fun _ => hi
  · show (if ((s.fileTable p).remove fd).1 = 0
      then Function.update (Function.update s.isOpen fd true) (s.descriptor p (fd : ℤ).toNat) false
      else Function.update s.isOpen fd true) fd = true
    split
    · rename_i hr
      -- what is closed is the descriptor of the entry, which was open before
      have hopen := s.open_entry p _ ((FileTable.remove_fst _ _).mp hr).2.2
      have hne : fd ≠ s.descriptor p (fd : ℤ).toNat := by
        intro heq
        rw [← heq, hfd] at hopen
        cases hopen
      rw [Function.update_of_ne hne, Function.update_self]
    · exact Function.update_self ..

/-- Process 0 has a file open as 3, with the descriptor 4 of the host, whose 3 is free. -/
def oneOpen : FileSystem where
  files := fun _ => []
  isOpen fd := fd = 4
  fileTable := Function.update (fun _ => .init) 0
    { FileTable.init with openFile := Function.update (fun _ => none) 3 (some ⟨0, 0⟩) }
  descriptor _ i := i + 1
  open_entry p i h := by
    by_cases hp : p = 0
    · by_cases hi : i = 3
      · simp [hi]
      · simp [hp, hi] at h
    · simp [hp, FileTable.init] at h
  distinct p i q j h h' := by
    have hone : ∀ p i, (Function.update (fun _ => FileTable.init) 0
        { FileTable.init with openFile := Function.update (fun _ => none) 3 (some ⟨0, 0⟩) } p).openFile i ≠ none →
        p = 0 ∧ i = 3 := by
      intro p i h
      by_cases hp : p = 0
      · by_cases hi : i = 3
        · exact ⟨hp, hi⟩
        · simp [hp, hi] at h
      · simp [hp, FileTable.init] at h
    intro _
    rw [(hone p i h).1, (hone p i h).2, (hone q j h').1, (hone q j h').2]
    exact ⟨rfl, rfl⟩

/-- The host has 5 for the new file: the table stays. -/
theorem create_keeps_table : (∀ q, (oneOpen.create 0 1 5).fileTable q = oneOpen.fileTable q) ∧
    (oneOpen.create 0 1 5).isOpen 5 = true :=
  have h := create_disturbs_iff oneOpen 0 1 5 rfl
  ⟨h.1.mpr (by simp [oneOpen]), h.2.2.2⟩

/-- The host has 3: the open file of the process is closed, and 3 stays open. -/
theorem create_closes_other : (oneOpen.fileTable 0).openFile 3 ≠ none ∧
    ((oneOpen.create 0 1 3).fileTable 0).openFile 3 = none ∧
    (oneOpen.create 0 1 3).isOpen 3 = true ∧ (oneOpen.create 0 1 3).isOpen 4 = false := by
  refine ⟨by simp [oneOpen], rfl, rfl, rfl⟩

end FileSystem

end Nachos
