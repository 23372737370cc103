/-
# What the open-file table is for

Each of the descriptors 2 to 9 of a process is closed, or it stands for a file
of the host with a mode and an offset of its own; several may stand for one
file. `OpenFiles.Meaning` says what a call is to do with this: which result it
has, and what it leaves behind. The table of `filesys/filetable.h` does that, call
after call, for every sequence of calls (`fileTable_refines`).

The program is built for 32 bits: the host opens no file of more than
2147483647 bytes, and a write that would make one fails. So the offsets, which
are `int`s, do not overflow; they stay inside of their files, which only grow.

Key definitions: `Description`, `OpenFiles.Meaning`, `OpenTable.perform`, `OpenTable.abs`.
-/
import NachosNet.Basis.Run
import NachosNet.Filesys.FileTable
import Mathlib.Order.Bounds.Basic

namespace Nachos

open Basis

/-- An open descriptor. -/
structure Description where
  file : ℕ
  mode : ℤ
  offset : ℕ

/-- The contents of the files, and the open descriptors. -/
structure OpenFiles where
  content : ℕ → List Byte
  desc : ℕ → Option Description

/-- The calls of a table. The host's answer to an open comes with the call. -/
inductive FileOp
  | insert (host : Option ℕ) (openMode : ℤ)
  | remove (index : ℤ)
  | read (buffer : List Byte) (charCount : ℕ) (index : ℤ)
  | write (buffer : List Byte) (index : ℤ)
  | seek (pos index : ℤ)

/-- The largest size of a file of the host. -/
def hostMax : ℕ := 2147483647

/-- The file that the host opens for a call of `Insert`. -/
def hostOpen (content : ℕ → List Byte) (host : Option ℕ) (openMode : ℤ) : Option ℕ :=
  FileTable.opened (host.filter fun file => (content file).length ≤ hostMax) openMode

namespace OpenFiles

def Closed (s : OpenFiles) (d : ℕ) : Prop := 2 ≤ d ∧ d < fileMax ∧ s.desc d = none

def setDesc (s : OpenFiles) (d : ℕ) (x : Option Description) : OpenFiles :=
  { s with desc := Function.update s.desc d x }

/-- The file with `new` in the place of what was at `offset`. -/
def splice (old : List Byte) (offset : ℕ) (new : List Byte) : List Byte :=
  old.take offset ++ new ++ old.drop (offset + new.length)

/-- What a call is to do: its result, the buffer and the files afterwards. -/
def Meaning (s : OpenFiles) : FileOp → ℤ → List Byte → OpenFiles → Prop
  | .insert host openMode, r, _, s' =>
    (∃ d file, IsLeast {d | s.Closed d} d ∧ hostOpen s.content host openMode = some file ∧
      r = d ∧ s' = s.setDesc d (some ⟨file, openMode, 0⟩)) ∨
    ((∀ d, ¬ s.Closed d) ∨ hostOpen s.content host openMode = none) ∧ r = -1 ∧ s' = s
  | .remove index, r, _, s' =>
    match s.desc index.toNat with
    | none => r = -1 ∧ s' = s
    | some _ => r = 0 ∧ s' = s.setDesc index.toNat none
  | .read buffer charCount index, r, buffer', s' =>
    match s.desc index.toNat with
    | none => r = -1 ∧ buffer' = buffer ∧ s' = s
    | some x =>
      let got := ((s.content x.file).drop x.offset).take charCount
      r = (if got.length = charCount then (charCount : ℤ) else -2) ∧ buffer' = got ++ buffer.drop got.length ∧
        s' = s.setDesc index.toNat (some { x with offset := x.offset + got.length })
  | .write buffer index, r, _, s' =>
    match s.desc index.toNat with
    | none => r = -1 ∧ s' = s
    | some x =>
      if x.mode = modeRead then r = -1 ∧ s' = s
      else r = buffer.length ∧ s'.content = Function.update s.content x.file (splice (s.content x.file) x.offset buffer) ∧
        s'.desc = Function.update s.desc index.toNat (some { x with offset := x.offset + buffer.length })
  | .seek pos index, r, _, s' =>
    match s.desc index.toNat with
    | none => r = -1 ∧ s' = s
    | some x =>
      if pos = -1 then r = (s.content x.file).length ∧
        s' = s.setDesc index.toNat (some { x with offset := (s.content x.file).length })
      else if 0 ≤ pos ∧ pos ≤ (s.content x.file).length then
        r = pos ∧ s' = s.setDesc index.toNat (some { x with offset := pos.toNat })
      else r = -1 ∧ s' = s

end OpenFiles

/-- The table of a process and the files of the host. -/
structure OpenTable where
  files : HostFiles
  table : FileTable

namespace OpenTable

/-- The host cannot write the bytes: the file would get too large. -/
def writeFails (s : OpenTable) (buffer : List Byte) (index : ℤ) : Bool :=
  (s.table.openFile index.toNat).elim false fun f => hostMax < f.currentOffset + buffer.length

/-- A call: its result, the buffer and the state afterwards. `none` when an assertion fails. -/
def perform (s : OpenTable) : FileOp → Option (ℤ × List Byte × OpenTable)
  | .insert host openMode =>
    let r := s.table.insert (host.filter fun file => (s.files file).length ≤ hostMax) openMode
    some (r.1, [], ⟨s.files, r.2⟩)
  | .remove index => some ((s.table.remove index).1, [], ⟨s.files, (s.table.remove index).2⟩)
  | .read buffer charCount index =>
    (s.table.read s.files false buffer charCount index).map fun r => (r.1, r.2.1, ⟨s.files, r.2.2⟩)
  | .write buffer index =>
    (s.table.write s.files (s.writeFails buffer index) buffer buffer.length index).map fun r =>
      (r.1, buffer, ⟨r.2.1, r.2.2⟩)
  | .seek pos index =>
    some ((s.table.seek s.files pos index).1, [], ⟨s.files, (s.table.seek s.files pos index).2⟩)

def step (s : OpenTable) (op : FileOp) : Option OpenTable := (s.perform op).map fun r => r.2.2

def init (files : HostFiles) : OpenTable := ⟨files, .init⟩

/-- The files and descriptors that the table stands for. -/
def abs (s : OpenTable) : OpenFiles where
  content := s.files
  desc d := (s.table.openFile d).map fun f => ⟨f.file, s.table.fileOpenMode d, f.currentOffset.toNat⟩

/-- Every offset is inside of its file, whose size the host can have. -/
def Inside (s : OpenTable) : Prop :=
  ∀ d f, s.table.openFile d = some f →
    0 ≤ f.currentOffset ∧ f.currentOffset ≤ (s.files f.file).length ∧ (s.files f.file).length ≤ hostMax

end OpenTable

/-- The call is about a descriptor of the table. -/
def FileOp.InTable : FileOp → Prop
  | .insert _ _ => True
  | .remove index | .read _ _ index | .write _ index | .seek _ index => 2 ≤ index ∧ index < fileMax

namespace OpenTable

variable {s s' : OpenTable}

/-! ### What a call leaves -/

@[simp] theorem abs_content (s : OpenTable) : s.abs.content = s.files := rfl

theorem abs_desc (s : OpenTable) (d : ℕ) : s.abs.desc d =
    (s.table.openFile d).map fun f => ⟨f.file, s.table.fileOpenMode d, f.currentOffset.toNat⟩ := rfl

theorem closed_iff {d : ℕ} : s.abs.Closed d ↔ d ∈ List.range' 2 (fileMax - 2) ∧ (s.table.openFile d).isNone = true := by
  unfold OpenFiles.Closed
  rw [abs_desc, Option.map_eq_none_iff, Option.isNone_iff_eq_none, List.mem_range'_1]
  have h10 : fileMax = 10 := rfl
  constructor
  · rintro ⟨h1, h2, h3⟩
    exact ⟨⟨h1, by omega⟩, h3⟩
  · rintro ⟨⟨h1, h2⟩, h3⟩
    exact ⟨h1, by omega, h3⟩

theorem freeIndex_some {d : ℕ} (h : s.table.freeIndex = some d) : IsLeast {d | s.abs.Closed d} d := by
  obtain ⟨hd, i, hi, hget, hbefore⟩ := List.find?_eq_some_iff_getElem.mp h
  rw [List.length_range'] at hi
  have hdi : d = 2 + i := by rw [← hget, List.getElem_range', Nat.one_mul]
  refine ⟨closed_iff.mpr ⟨?_, hd⟩, fun e he => ?_⟩
  · rw [hdi, List.mem_range'_1]
    omega
  · obtain ⟨hmem, hnone⟩ := closed_iff.mp he
    rw [List.mem_range'_1] at hmem
    by_contra hlt
    have hno := hbefore (e - 2) (by omega)
    rw [List.getElem_range', Nat.one_mul, Nat.add_sub_cancel' hmem.1] at hno
    simp [hnone] at hno

theorem freeIndex_none (h : s.table.freeIndex = none) (d : ℕ) : ¬ s.abs.Closed d := fun hd => by
  obtain ⟨hmem, hnone⟩ := closed_iff.mp hd
  exact List.find?_eq_none.mp h d hmem hnone

theorem abs_insert (d file : ℕ) (openMode : ℤ) :
    abs ⟨s.files, ⟨Function.update s.table.openFile d (some ⟨file, 0⟩),
      Function.update s.table.fileOpenMode d openMode⟩⟩ = s.abs.setDesc d (some ⟨file, openMode, 0⟩) := by
  unfold abs OpenFiles.setDesc
  congr 1
  funext e
  by_cases he : e = d
  · subst he
    simp
  · simp [he]

theorem abs_set (index : ℤ) (f : OpenFile) :
    (abs ⟨s.files, s.table.set index f⟩).desc = Function.update s.abs.desc index.toNat
      (some ⟨f.file, s.table.fileOpenMode index.toNat, f.currentOffset.toNat⟩) := by
  funext e
  by_cases he : e = index.toNat
  · subst he
    simp [abs, FileTable.set]
  · simp [abs, FileTable.set, he]

theorem abs_remove (index : ℤ) :
    abs ⟨s.files, { s.table with openFile := Function.update s.table.openFile index.toNat none }⟩ =
      s.abs.setDesc index.toNat none := by
  unfold abs OpenFiles.setDesc
  congr 1
  funext e
  by_cases he : e = index.toNat
  · subst he
    simp
  · simp [he]

/-- One entry changes, to an offset inside of its file. -/
theorem Inside.set (h : Inside s) {index : ℤ} {f : OpenFile} (h0 : 0 ≤ f.currentOffset)
    (hle : f.currentOffset ≤ (s.files f.file).length) (hmax : (s.files f.file).length ≤ hostMax) :
    Inside ⟨s.files, s.table.set index f⟩ := by
  intro d g hg
  by_cases hd : d = index.toNat
  · subst hd
    simp only [FileTable.set, Function.update_self, Option.some.injEq] at hg
    subst hg
    exact ⟨h0, hle, hmax⟩
  · simp only [FileTable.set, Function.update_of_ne hd] at hg
    exact h d g hg

/-! ### The calls -/

theorem insert_meaning (h : Inside s) (host : Option ℕ) (openMode : ℤ) :
    ∃ r buffer s', s.perform (.insert host openMode) = some (r, buffer, s') ∧ Inside s' ∧
      s.abs.Meaning (.insert host openMode) r buffer s'.abs := by
  refine ⟨_, _, _, rfl, ?_⟩
  unfold FileTable.insert
  cases hfree : s.table.freeIndex with
  | none => exact ⟨h, .inr ⟨.inl (freeIndex_none hfree), rfl, rfl⟩⟩
  | some d =>
    have hopen : hostOpen s.abs.content host openMode =
      FileTable.opened (host.filter fun file => (s.files file).length ≤ hostMax) openMode := rfl
    cases ho : FileTable.opened (host.filter fun file => (s.files file).length ≤ hostMax) openMode with
    | none => exact ⟨h, .inr ⟨.inr (hopen.trans ho), rfl, rfl⟩⟩
    | some file =>
      refine ⟨fun e g hg => ?_, .inl ⟨d, file, freeIndex_some hfree, hopen.trans ho, rfl, abs_insert d file openMode⟩⟩
      by_cases he : e = d
      · subst he
        simp only [Function.update_self, Option.some.injEq] at hg
        subst hg
        have hsize : (s.files file).length ≤ hostMax := by
          unfold FileTable.opened at ho
          split at ho
          · simpa using (Option.filter_eq_some_iff.mp ho).2
          · cases ho
        exact ⟨le_refl _, Int.natCast_nonneg _, hsize⟩
      · simp only [Function.update_of_ne he] at hg
        exact h e g hg

theorem remove_meaning (h : Inside s) {index : ℤ} (hi : 2 ≤ index ∧ index < fileMax) :
    ∃ r buffer s', s.perform (.remove index) = some (r, buffer, s') ∧ Inside s' ∧
      s.abs.Meaning (.remove index) r buffer s'.abs := by
  refine ⟨_, _, _, rfl, ?_⟩
  simp only [FileTable.remove, OpenFiles.Meaning]
  rw [if_neg (by omega), abs_desc]
  cases hf : s.table.openFile index.toNat with
  | none => exact ⟨h, rfl, rfl⟩
  | some f =>
    refine ⟨fun e g hg => ?_, rfl, abs_remove index⟩
    by_cases he : e = index.toNat
    · simp [he] at hg
    · simp only [Function.update_of_ne he] at hg
      exact h e g hg

theorem read_meaning (h : Inside s) (buffer : List Byte) (charCount : ℕ) {index : ℤ} (hi : 2 ≤ index ∧ index < fileMax) :
    ∃ r buffer' s', s.perform (.read buffer charCount index) = some (r, buffer', s') ∧ Inside s' ∧
      s.abs.Meaning (.read buffer charCount index) r buffer' s'.abs := by
  simp only [perform, FileTable.read, OpenFiles.Meaning]
  rw [if_neg (by omega), if_neg (by omega), abs_desc]
  cases hf : s.table.openFile index.toNat with
  | none => exact ⟨_, _, _, rfl, h, rfl, rfl, rfl⟩
  | some f =>
    obtain ⟨h0, hle, hmax⟩ := h _ f hf
    have hread : f.read s.files false buffer charCount =
        some (((((s.files f.file).drop f.currentOffset.toNat).take charCount).length : ℤ),
          ((s.files f.file).drop f.currentOffset.toNat).take charCount ++
            buffer.drop (((s.files f.file).drop f.currentOffset.toNat).take charCount).length,
          { f with currentOffset := f.currentOffset +
            (((s.files f.file).drop f.currentOffset.toNat).take charCount).length }) := by
      unfold OpenFile.read OpenFile.readAt
      rw [if_neg (by omega)]
      rfl
    simp only [hread, Option.map_some]
    generalize hgot : ((s.files f.file).drop f.currentOffset.toNat).take charCount = got
    have hlen : f.currentOffset.toNat + got.length ≤ (s.files f.file).length := by
      rw [← hgot, List.length_take, List.length_drop]
      omega
    refine ⟨_, _, _, rfl, h.set (by simp only; omega) (by simp only; omega) hmax, ?_, ?_, ?_⟩
    · simp only [abs_content, hgot]
      by_cases hc : got.length = charCount
      · rw [if_pos hc, if_neg (by rw [hc]; simp)]
        rw [hc]
      · rw [if_neg hc, if_pos (by omega)]
    · simp only [abs_content, hgot]
    · simp only [abs_content, hgot]
      refine congrArg (OpenFiles.mk s.files) ((abs_set index _).trans ?_)
      have hoff : (f.currentOffset + got.length).toNat = f.currentOffset.toNat + got.length := by omega
      rw [hoff]

theorem writeAt_inside (f : OpenFile) (buffer : List Byte) (h0 : 0 ≤ f.currentOffset)
    (hle : f.currentOffset ≤ (s.files f.file).length) :
    f.write s.files false buffer buffer.length = some ((buffer.length : ℤ),
      Function.update s.files f.file (OpenFiles.splice (s.files f.file) f.currentOffset.toNat buffer),
      { f with currentOffset := f.currentOffset + buffer.length }) := by
  unfold OpenFile.write OpenFile.writeAt
  rw [if_neg (by simp; omega)]
  have hgap : f.currentOffset.toNat - (s.files f.file).length = 0 := by omega
  have hend : (f.currentOffset + buffer.length).toNat = f.currentOffset.toNat + buffer.length := by omega
  simp only [Option.map_some, hgap, List.replicate_zero, List.append_nil, Int.toNat_natCast, List.take_length, hend]
  by_cases hb : (buffer.length : ℤ) = 0
  · have hnil : buffer = [] := List.length_eq_zero_iff.mp (by omega)
    subst hnil
    simp [OpenFiles.splice]
  · rw [if_neg hb]
    rfl

theorem write_meaning (h : Inside s) (buffer : List Byte) {index : ℤ} (hi : 2 ≤ index ∧ index < fileMax) :
    (∃ r buffer' s', s.perform (.write buffer index) = some (r, buffer', s') ∧ Inside s' ∧
      s.abs.Meaning (.write buffer index) r buffer' s'.abs) ∨
    s.perform (.write buffer index) = none ∧ s.writeFails buffer index = true := by
  simp only [perform, FileTable.write, OpenFiles.Meaning]
  rw [if_neg (by omega), if_neg (by omega), abs_desc]
  cases hf : s.table.openFile index.toNat with
  | none => exact .inl ⟨_, _, _, rfl, h, rfl, rfl⟩
  | some f =>
    obtain ⟨h0, hle, hmax⟩ := h _ f hf
    by_cases hm : s.table.fileOpenMode index.toNat = modeRead
    · simp only [hm, if_true, Option.map_some]
      exact .inl ⟨_, _, _, rfl, h, rfl, rfl⟩
    · simp only [hm, if_false, Option.map_some]
      cases hw : s.writeFails buffer index with
      | true =>
        refine .inr ⟨?_, rfl⟩
        simp [OpenFile.write, OpenFile.writeAt]
      | false =>
        have hfits : f.currentOffset + buffer.length ≤ hostMax := by
          simpa [writeFails, hf] using hw
        rw [writeAt_inside f buffer h0 hle]
        have hsplice : (OpenFiles.splice (s.files f.file) f.currentOffset.toNat buffer).length =
            max (s.files f.file).length (f.currentOffset.toNat + buffer.length) := by
          simp only [OpenFiles.splice, List.length_append, List.length_take, List.length_drop]
          omega
        refine .inl ⟨_, _, _, rfl, fun e g hg => ?_, rfl, rfl, ?_⟩
        · -- the file of the descriptor has grown, and other descriptors may stand for it
          have hgrow : ∀ file, (s.files file).length ≤ (Function.update s.files f.file
              (OpenFiles.splice (s.files f.file) f.currentOffset.toNat buffer) file).length := by
            intro file
            by_cases hfile : file = f.file
            · subst hfile
              rw [Function.update_self, hsplice]
              omega
            · rw [Function.update_of_ne hfile]
          have hsize : ∀ file, (s.files file).length ≤ hostMax → (Function.update s.files f.file
              (OpenFiles.splice (s.files f.file) f.currentOffset.toNat buffer) file).length ≤ hostMax := by
            intro file hle
            by_cases hfile : file = f.file
            · subst hfile
              rw [Function.update_self, hsplice]
              omega
            · rwa [Function.update_of_ne hfile]
          by_cases he : e = index.toNat
          · subst he
            simp only [FileTable.set, Function.update_self, Option.some.injEq] at hg
            subst hg
            refine ⟨by simp only; omega, ?_, hsize _ hmax⟩
            simp only [Function.update_self, hsplice]
            omega
          · simp only [FileTable.set, Function.update_of_ne he] at hg
            obtain ⟨g0, gle, gmax⟩ := h e g hg
            exact ⟨g0, gle.trans (Int.ofNat_le.mpr (hgrow g.file)), hsize _ gmax⟩
        · refine (abs_set (s := ⟨_, s.table⟩) index _).trans ?_
          have hoff : (f.currentOffset + buffer.length).toNat = f.currentOffset.toNat + buffer.length := by omega
          rw [hoff]
          rfl

theorem seek_meaning (h : Inside s) (pos : ℤ) {index : ℤ} (hi : 2 ≤ index ∧ index < fileMax) :
    ∃ r buffer s', s.perform (.seek pos index) = some (r, buffer, s') ∧ Inside s' ∧
      s.abs.Meaning (.seek pos index) r buffer s'.abs := by
  refine ⟨_, _, _, rfl, ?_⟩
  simp only [FileTable.seek, OpenFiles.Meaning]
  rw [if_neg (by omega), abs_desc]
  cases hf : s.table.openFile index.toNat with
  | none => exact ⟨h, rfl, rfl⟩
  | some f =>
    obtain ⟨-, -, hmax⟩ := h _ f hf
    have hset : ∀ p : ℕ, abs ⟨s.files, s.table.set index { f with currentOffset := p }⟩ =
        s.abs.setDesc index.toNat (some ⟨f.file, s.table.fileOpenMode index.toNat, p⟩) := fun p =>
      congrArg (OpenFiles.mk s.files) (abs_set index _)
    simp only [OpenFile.length, OpenFile.seek, Option.map_some, abs_content]
    by_cases hp : pos = -1
    · simp only [hp, if_true]
      rw [if_neg (by omega)]
      exact ⟨h.set (Int.natCast_nonneg _) (le_refl _) hmax, rfl, hset _⟩
    · simp only [hp, if_false]
      by_cases hin : 0 ≤ pos ∧ pos ≤ (s.files f.file).length
      · rw [if_neg (by omega), if_pos hin]
        obtain ⟨p, rfl⟩ := Int.eq_ofNat_of_zero_le hin.1
        exact ⟨h.set hin.1 hin.2 hmax, rfl, hset p⟩
      · rw [if_pos (by omega), if_neg hin]
        exact ⟨h, rfl, rfl⟩

theorem perform_meaning (h : Inside s) {op : FileOp} (hop : op.InTable) :
    (∃ r buffer s', s.perform op = some (r, buffer, s') ∧ Inside s' ∧ s.abs.Meaning op r buffer s'.abs) ∨
    s.perform op = none ∧ ∃ buffer index, op = .write buffer index ∧ s.writeFails buffer index = true := by
  cases op with
  | insert host openMode => exact .inl (insert_meaning h host openMode)
  | remove index => exact .inl (remove_meaning h hop)
  | read buffer charCount index => exact .inl (read_meaning h buffer charCount hop)
  | write buffer index =>
    rcases write_meaning h buffer hop with hw | ⟨hnone, hfails⟩
    · exact .inl hw
    · exact .inr ⟨hnone, buffer, index, rfl, hfails⟩
  | seek pos index => exact .inl (seek_meaning h pos hop)

theorem inside_step {op : FileOp} (h : Inside s) (hop : op.InTable) (hs : s.step op = some s') : Inside s' := by
  obtain ⟨⟨r, buffer, s''⟩, hperform, rfl⟩ := Option.map_eq_some_iff.mp hs
  rcases perform_meaning h hop with ⟨r', buffer', t, ht, hinside, -⟩ | ⟨hnone, -⟩
  · rw [hperform] at ht
    obtain ⟨-, -, rfl⟩ : r = r' ∧ buffer = buffer' ∧ s'' = t := by simpa using ht
    exact hinside
  · rw [hperform] at hnone
    cases hnone

theorem inside_init (files : HostFiles) : Inside (init files) := by
  intro d f hf
  simp [init, FileTable.init] at hf

/-- After every sequence of calls on the descriptors 2 to 9, from a closed
table: all offsets are inside of their files, and each further call does what
it is to do for the descriptors that the table stands for, unless the host
fails to write and the kernel stops. -/
theorem fileTable_refines (files : HostFiles) (ops : List FileOp) (s : OpenTable)
    (hops : ∀ op ∈ ops, op.InTable) (h : exec step (init files) ops = some s) :
    (∀ d f, s.table.openFile d = some f → 0 ≤ f.currentOffset ∧ f.currentOffset ≤ hostMax) ∧
    ∀ op, op.InTable →
      (∃ r buffer s', s.perform op = some (r, buffer, s') ∧ s.abs.Meaning op r buffer s'.abs) ∨
      s.perform op = none ∧ ∃ buffer index, op = .write buffer index ∧ s.writeFails buffer index = true := by
  have hin : Inside s := exec_induction (P := fun ops s => (∀ op ∈ ops, op.InTable) → Inside s)
    (fun _ => inside_init files) (fun ops op s s' hP hs hops => inside_step
      (hP fun o ho => hops o (List.mem_append_left _ ho)) (hops op (by simp)) hs) ops s h hops
  refine ⟨fun d f hf => ?_, fun op hop => ?_⟩
  · obtain ⟨h0, hle, hmax⟩ := hin d f hf
    exact ⟨h0, hle.trans (Int.ofNat_le.mpr hmax)⟩
  · rcases perform_meaning hin hop with ⟨r, buffer, s', hs', -, hm⟩ | hfails
    · exact .inl ⟨r, buffer, s', hs', hm⟩
    · exact .inr hfails

/-- One file is opened twice, written through one descriptor and read through the other. -/
def aliasRun : List FileOp :=
  [.insert (some 0) modeReadWrite, .insert (some 0) modeRead, .write [1, 2, 3] 2, .read [0, 0, 0, 0] 4 3]

/-- The short read has moved the offset of its own descriptor, through which nothing can be written. -/
theorem fileTable_refines_aliasRun : ∃ s, exec step (init fun _ => []) aliasRun = some s ∧
    (s.table.openFile 3).map (fun f => f.currentOffset) = some 3 ∧
    (∀ d f, s.table.openFile d = some f → 0 ≤ f.currentOffset ∧ f.currentOffset ≤ hostMax) ∧
    ∃ r buffer s', s.perform (.write [9] 3) = some (r, buffer, s') ∧ r = -1 := by
  have hrun : ((exec step (init fun _ => []) aliasRun).bind fun s => some
      ((s.table.openFile 3).map (fun f => f.currentOffset), s.table.fileOpenMode 3, s.writeFails [9] 3)) =
      some (some 3, modeRead, false) := by decide +kernel
  obtain ⟨s, hs, h⟩ := Option.bind_eq_some_iff.mp hrun
  simp only [Option.some.injEq, Prod.mk.injEq] at h
  obtain ⟨hoff, hmode, hfails⟩ := h
  have hops : ∀ op ∈ aliasRun, op.InTable := by
    simp [aliasRun, FileOp.InTable, fileMax]
  obtain ⟨hrange, hall⟩ := fileTable_refines (fun _ => []) aliasRun s hops hs
  refine ⟨s, hs, hoff, hrange, ?_⟩
  rcases hall (.write [9] 3) (by simp [FileOp.InTable, fileMax]) with
    ⟨r, buffer, s', hp, hm⟩ | ⟨-, b, i, hop, hw⟩
  · refine ⟨r, buffer, s', hp, ?_⟩
    obtain ⟨f, hf, -⟩ := Option.map_eq_some_iff.mp hoff
    simp only [OpenFiles.Meaning, abs_desc, show (3 : ℤ).toNat = 3 from rfl, hf, Option.map_some, hmode, if_true] at hm
    exact hm.1
  · obtain ⟨rfl, rfl⟩ := FileOp.write.inj hop
    rw [hfails] at hw
    cases hw

end OpenTable

end Nachos
