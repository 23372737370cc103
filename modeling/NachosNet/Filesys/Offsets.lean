/-
# The offset of an open file

`OpenFile` of `filesys/openfile.h` moves its offset by what `ReadAt` and `WriteAt`
return. Here the host answers each transfer with a number of its own: it may read or
write less than it was asked for, and -1 says that it has failed (`Answers`). A
negative number of bytes always fails. `WriteFile` asserts that the answer is the
number of bytes, which -1 passes for -1 bytes; `Lseek` asserts that the offset is not
negative. With its answers for a number that is not negative, these are the accesses
of `FileTable` (`OpenFile.readBy_of_read`, `OpenFile.writeBy_of_write`).

The offsets of a run are kept (`Kept`) exactly when no read of the host fails and no
-1 bytes are written at offset 0 (`offsets_kept_iff`). After a read that failed at
offset 0 the next access ends in the assertion of `Lseek` (`failed_read_breaks_offset`).

Key definitions: `OpenFile.readBy`, `OpenFile.writeBy`, `OpenTable.access`, `OpenTable.Kept`.
-/
import NachosNet.Basis.Int32
import NachosNet.Filesys.OpenFiles

namespace Nachos

open Basis

/-- The assertion that fails. -/
inductive Assertion
  | lseek
  | writeFile
  deriving DecidableEq

/-- `Lseek(file, position, 0)` -/
def lseek (position : ℤ) : Except Assertion Unit := if position < 0 then .error .lseek else .ok ()

namespace OpenFile

/-- `ReadAt`, when the host's `read` returns `ret`. -/
def readAtBy (files : HostFiles) (f : OpenFile) (ret : ℤ) (into : List Byte) (position : ℤ) :
    Except Assertion (ℤ × List Byte) :=
  (lseek position).map fun _ =>
    let got := ((files f.file).drop position.toNat).take ret.toNat
    (ret, got ++ into.drop got.length)

/-- `WriteAt`, when the host's `write` returns `ret`. -/
def writeAtBy (files : HostFiles) (f : OpenFile) (ret : ℤ) (src : List Byte) (numBytes position : ℤ) :
    Except Assertion (ℤ × HostFiles) :=
  (lseek position).bind fun _ =>
    if ret ≠ numBytes then .error .writeFile
    else .ok (numBytes, (f.writeAt files false src numBytes position).elim files Prod.snd)

/-- `currentOffset += moved` -/
def advance (f : OpenFile) (moved : ℤ) : OpenFile := { f with currentOffset := toInt (f.currentOffset + moved) }

def readBy (files : HostFiles) (f : OpenFile) (ret : ℤ) (into : List Byte) :
    Except Assertion (ℤ × List Byte × OpenFile) :=
  (f.readAtBy files ret into f.currentOffset).map fun r => (r.1, r.2, f.advance r.1)

def writeBy (files : HostFiles) (f : OpenFile) (ret : ℤ) (src : List Byte) (numBytes : ℤ) :
    Except Assertion (ℤ × HostFiles × OpenFile) :=
  (f.writeAtBy files ret src numBytes f.currentOffset).map fun r => (r.1, r.2, f.advance r.1)

theorem lseek_ok {position : ℤ} (h : 0 ≤ position) : lseek position = .ok () := if_neg (not_lt.mpr h)

theorem advance_eq {f : OpenFile} {moved : ℤ} (hmin : minInt ≤ f.currentOffset + moved)
    (hmax : f.currentOffset + moved ≤ maxInt) :
    f.advance moved = { f with currentOffset := f.currentOffset + moved } := by
  unfold advance
  rw [toInt_eq hmin hmax]

section

variable {files : HostFiles} {f : OpenFile} {fails : Bool} {buffer : List Byte} {n position : ℤ}

theorem readAtBy_of_readAt {a : ℤ × List Byte} (h : f.readAt files fails buffer n position = some a) :
    f.readAtBy files a.1 buffer position = .ok a := by
  unfold readAt at h
  split at h
  · cases h
  · rename_i hpos
    unfold readAtBy
    rw [lseek_ok (by omega)]
    split at h
    · obtain rfl := Option.some.inj h
      rfl
    · obtain rfl := Option.some.inj h
      have htake : ∀ l : List Byte, l.take (l.take n.toNat).length = l.take n.toNat := fun l => by
        rw [List.length_take, ← List.take_eq_take_min]
      simp only [Except.map, Int.toNat_natCast, htake]

theorem writeAtBy_of_writeAt {a : ℤ × HostFiles} (h : f.writeAt files fails buffer n position = some a) :
    a.1 = n ∧ 0 ≤ position ∧ 0 ≤ n ∧ f.writeAtBy files n buffer n position = .ok a := by
  have hsome := h
  unfold writeAt at h
  split at h
  · cases h
  · rename_i hno
    rw [not_or, not_or, not_lt, not_lt, Bool.not_eq_true] at hno
    obtain ⟨hpos, hn, rfl⟩ := hno
    have hfst : a.1 = n := (Option.some.inj h) ▸ rfl
    refine ⟨hfst, hpos, hn, ?_⟩
    unfold writeAtBy
    rw [lseek_ok hpos, hsome]
    show (if n ≠ n then _ else _) = _
    rw [if_neg (not_not.mpr rfl), ← hfst]
    rfl

/-- `Read` where the host gives as much as there is, or fails. -/
theorem readBy_of_read {r : ℤ × List Byte × OpenFile} (h : f.read files fails buffer n = some r)
    (hmin : minInt ≤ f.currentOffset + r.1) (hmax : f.currentOffset + r.1 ≤ maxInt) :
    f.readBy files r.1 buffer = .ok r := by
  obtain ⟨a, ha, rfl⟩ := Option.map_eq_some_iff.mp h
  unfold readBy
  rw [readAtBy_of_readAt ha]
  exact congrArg (fun g => Except.ok (a.1, a.2, g)) (advance_eq hmin hmax)

/-- `Write` where the host writes everything. -/
theorem writeBy_of_write {r : ℤ × HostFiles × OpenFile} (h : f.write files fails buffer n = some r)
    (hmax : f.currentOffset + n ≤ maxInt) : f.writeBy files n buffer n = .ok r := by
  obtain ⟨a, ha, rfl⟩ := Option.map_eq_some_iff.mp h
  obtain ⟨hfst, hpos, hn, hrun⟩ := writeAtBy_of_writeAt ha
  unfold writeBy
  rw [hrun]
  refine congrArg (fun g => Except.ok (a.1, a.2, g)) (advance_eq ?_ ?_)
  · unfold minInt
    omega
  · rwa [hfst]

end

end OpenFile

namespace FileTable

/-- The open file of a descriptor, after the checks of `Read` and `Write`. -/
def descriptor (t : FileTable) (index : ℕ) : Option OpenFile := if fileMax ≤ index then none else t.openFile index

def readBy (files : HostFiles) (t : FileTable) (ret : ℤ) (buffer : List Byte) (charCount : ℤ) (index : ℕ) :
    Except Assertion (ℤ × List Byte × FileTable) :=
  match t.descriptor index with
  | none => .ok (-1, buffer, t)
  | some f => (f.readBy files ret buffer).map fun r =>
    (if r.1 ≠ charCount then -2 else r.1, r.2.1, t.set index r.2.2)

def writeBy (files : HostFiles) (t : FileTable) (ret : ℤ) (buffer : List Byte) (charCount : ℤ) (index : ℕ) :
    Except Assertion (ℤ × HostFiles × FileTable) :=
  match t.descriptor index with
  | none => .ok (-1, files, t)
  | some f =>
    if t.fileOpenMode index = modeRead then .ok (-1, files, t)
    else (f.writeBy files ret buffer charCount).map fun r => (r.1, r.2.1, t.set index r.2.2)

end FileTable

/-- A call on a descriptor, with what the host returns; or a file of the host gets another content. -/
inductive Access
  | read (buffer : List Byte) (charCount : ℤ) (index : ℕ) (ret : ℤ)
  | write (buffer : List Byte) (charCount : ℤ) (index : ℕ) (ret : ℤ)
  | seek (pos : ℤ) (index : ℕ)
  | other (file : ℕ) (content : List Byte)

/-- What the host can return for `n` bytes at `offset`, when there are `limit` of them. -/
def Answers (n offset limit ret : ℤ) : Prop := ret = -1 ∨ 0 ≤ ret ∧ ret ≤ n ∧ (ret = 0 ∨ offset + ret ≤ limit)

namespace OpenTable

/-- A call: its result and the state afterwards, or the assertion that fails. -/
def access (s : OpenTable) : Access → Except Assertion (ℤ × OpenTable)
  | .read buffer charCount index ret =>
    (s.table.readBy s.files ret buffer charCount index).map fun r => (r.1, ⟨s.files, r.2.2⟩)
  | .write buffer charCount index ret =>
    (s.table.writeBy s.files ret buffer charCount index).map fun r => (r.1, ⟨r.2.1, r.2.2⟩)
  | .seek pos index =>
    .ok ((s.table.seek s.files pos index).1, ⟨s.files, (s.table.seek s.files pos index).2⟩)
  | .other file content => .ok (0, ⟨Function.update s.files file content, s.table⟩)

def accessStep (s : OpenTable) (e : Access) : Option OpenTable := (s.access e).toOption.map Prod.snd

/-- The host reads from a file no more than it has, and writes none that would be too large. -/
def HostAnswers (s : OpenTable) : Access → Prop
  | .read _ charCount index ret => ∀ f, s.table.descriptor index = some f →
      Answers charCount f.currentOffset (s.files f.file).length ret
  | .write _ charCount index ret => ∀ f, s.table.descriptor index = some f →
      Answers charCount f.currentOffset hostMax ret
  | .seek _ _ => True
  | .other _ content => content.length ≤ hostMax

/-- What is to hold of a call: `Lseek` does not end it, no offset is negative after it, and a read that fails leaves
the offset as it was. -/
structure Kept (s : OpenTable) (e : Access) : Prop where
  lseek : s.access e ≠ .error .lseek
  nonneg : ∀ s', s.accessStep e = some s' → ∀ d f, s'.table.descriptor d = some f → 0 ≤ f.currentOffset
  failed : ∀ buffer charCount index, e = .read buffer charCount index (-1) → ∀ s', s.accessStep e = some s' →
    s'.table.descriptor index = s.table.descriptor index

/-- The host does not fail to read, and the call does not write -1 bytes at offset 0. -/
def Sound (s : OpenTable) : Access → Prop
  | .read _ _ index ret => s.table.descriptor index ≠ none → ret ≠ -1
  | .write _ charCount index _ => ∀ f, s.table.descriptor index = some f → s.table.fileOpenMode index ≠ modeRead →
      ¬ (charCount = -1 ∧ f.currentOffset = 0)
  | _ => True

/-- Every offset is one of a file of the host. -/
def Valid (s : OpenTable) : Prop :=
  ∀ d f, s.table.descriptor d = some f →
    0 ≤ f.currentOffset ∧ f.currentOffset ≤ hostMax ∧ (s.files f.file).length ≤ hostMax

/-! ### One call -/

variable {s s' : OpenTable} {index : ℕ} {f : OpenFile} {charCount ret : ℤ}

theorem descriptor_set (h : s.table.descriptor index = some f) (g : OpenFile) (d : ℕ) :
    (s.table.set index g).descriptor d = if d = index then some g else s.table.descriptor d := by
  unfold FileTable.descriptor at *
  have hset : (s.table.set index g).openFile = Function.update s.table.openFile index (some g) := rfl
  rw [hset]
  by_cases hd : d = index
  · subst hd
    rw [if_pos rfl, Function.update_self]
    split at h
    · cases h
    · rename_i hlt
      rw [if_neg hlt]
  · rw [if_neg hd, Function.update_of_ne hd]

theorem access_closed (h : s.table.descriptor index = none) (buffer : List Byte) :
    s.access (.read buffer charCount index ret) = .ok (-1, s) ∧
      s.access (.write buffer charCount index ret) = .ok (-1, s) := by
  unfold access FileTable.readBy FileTable.writeBy
  simp only [h]
  exact ⟨rfl, rfl⟩

theorem access_readOnly (h : s.table.fileOpenMode index = modeRead) (buffer : List Byte) :
    s.access (.write buffer charCount index ret) = .ok (-1, s) := by
  unfold access FileTable.writeBy
  simp only
  split
  · rfl
  · rw [if_pos h]
    rfl

theorem access_read (h : s.table.descriptor index = some f) (h0 : 0 ≤ f.currentOffset) (buffer : List Byte) :
    ∃ r, s.access (.read buffer charCount index ret) = .ok (r, ⟨s.files, s.table.set index (f.advance ret)⟩) := by
  unfold access FileTable.readBy OpenFile.readBy OpenFile.readAtBy
  simp only [h, OpenFile.lseek_ok h0]
  exact ⟨_, rfl⟩

/-- The files after `n` bytes have been written. -/
def written (s : OpenTable) (f : OpenFile) (buffer : List Byte) (n : ℤ) : HostFiles :=
  (f.writeAt s.files false buffer n f.currentOffset).elim s.files Prod.snd

theorem access_write (h : s.table.descriptor index = some f) (hm : s.table.fileOpenMode index ≠ modeRead)
    (h0 : 0 ≤ f.currentOffset) (buffer : List Byte) : s.access (.write buffer charCount index ret) =
      if ret ≠ charCount then .error .writeFile
      else .ok (charCount, ⟨s.written f buffer charCount, s.table.set index (f.advance charCount)⟩) := by
  unfold access FileTable.writeBy OpenFile.writeBy OpenFile.writeAtBy
  simp only [h, OpenFile.lseek_ok h0, if_neg hm]
  by_cases hr : ret = charCount
  · simp only [hr, ne_eq, not_true, if_false]
    rfl
  · simp only [hr, ne_eq, not_false_iff, if_true]
    rfl

theorem access_seek (s : OpenTable) (pos : ℤ) (index : ℕ) : ∃ r s', s.access (.seek pos index) = .ok (r, s') ∧
    (s' = s ∨ ∃ (f : OpenFile) (p : ℤ), s.table.descriptor index = some f ∧ 0 ≤ p ∧ p ≤ (s.files f.file).length ∧
      s' = ⟨s.files, s.table.set index { f with currentOffset := p }⟩) := by
  refine ⟨_, _, rfl, ?_⟩
  unfold FileTable.seek
  split
  · exact Or.inl rfl
  · rename_i hindex
    rw [Int.toNat_natCast]
    cases hf : s.table.openFile index with
    | none => exact Or.inl rfl
    | some f =>
      have hd : s.table.descriptor index = some f := by
        unfold FileTable.descriptor
        rw [if_neg (by omega), hf]
      dsimp only
      generalize (if pos = -1 then f.length s.files else pos) = p
      by_cases hpos : p < 0 ∨ f.length s.files < p
      · rw [if_pos hpos]
        exact Or.inl rfl
      · rw [if_neg hpos]
        rw [not_or, not_lt, not_lt] at hpos
        exact Or.inr ⟨f, p, hd, hpos.1, hpos.2, rfl⟩

/-! ### Offsets that stay valid -/

theorem Valid.set (hv : Valid s) (h : s.table.descriptor index = some f) {offset : ℤ} (h0 : 0 ≤ offset)
    (hmax : offset ≤ hostMax) : Valid ⟨s.files, s.table.set index { f with currentOffset := offset }⟩ := by
  intro d g hg
  rw [descriptor_set h] at hg
  split at hg
  · obtain rfl := Option.some.inj hg
    exact ⟨h0, hmax, (hv index f h).2.2⟩
  · exact hv d g hg

theorem Valid.update (hv : Valid s) (file : ℕ) {content : List Byte} (hlen : content.length ≤ hostMax) :
    Valid ⟨Function.update s.files file content, s.table⟩ := by
  intro d g hg
  obtain ⟨h0, hmax, hsize⟩ := hv d g hg
  refine ⟨h0, hmax, ?_⟩
  by_cases hfile : g.file = file
  · simpa only [hfile, Function.update_self] using hlen
  · simpa only [Function.update_of_ne hfile] using hsize

theorem Valid.advance (hv : Valid s) (h : s.table.descriptor index = some f) {moved : ℤ}
    (h0 : 0 ≤ f.currentOffset + moved) (hmax : f.currentOffset + moved ≤ hostMax) :
    Valid ⟨s.files, s.table.set index (f.advance moved)⟩ := by
  rw [OpenFile.advance_eq (by unfold minInt; omega) (by unfold hostMax at hmax; unfold maxInt; omega)]
  exact hv.set h h0 hmax

theorem Valid.written (hv : Valid s) (h : s.table.descriptor index = some f) (buffer : List Byte) {n : ℤ}
    (hfits : n ≤ 0 ∨ f.currentOffset + n ≤ hostMax) : Valid ⟨s.written f buffer n, s.table⟩ := by
  obtain ⟨h0, hmax, hsize⟩ := hv index f h
  unfold OpenTable.written OpenFile.writeAt
  split
  · exact hv
  · rename_i hn
    simp only [Bool.false_eq_true, or_false, not_or, not_lt] at hn
    apply hv.update
    split
    · exact hsize
    · simp only [List.length_append, List.length_take, List.length_replicate, List.length_drop]
      omega

theorem access_sound (hv : Valid s) {e : Access} (hh : s.HostAnswers e) (hs : s.Sound e) :
    s.access e = .error .writeFile ∨ ∃ r s', s.access e = .ok (r, s') ∧ Valid s' := by
  cases e with
  | read buffer charCount index ret =>
    refine Or.inr ?_
    cases hf : s.table.descriptor index with
    | none => exact ⟨-1, s, (access_closed hf buffer).1, hv⟩
    | some f =>
      obtain ⟨h0, hmax, hsize⟩ := hv index f hf
      obtain ⟨r, hrun⟩ := access_read hf h0 buffer
      have hne : ret ≠ -1 := hs (by rw [hf]; exact Option.some_ne_none f)
      rcases hh f hf with hret | ⟨hpos, -, hend⟩
      · exact absurd hret hne
      · exact ⟨r, _, hrun, hv.advance hf (by omega) (by omega)⟩
  | write buffer charCount index ret =>
    cases hf : s.table.descriptor index with
    | none => exact Or.inr ⟨-1, s, (access_closed hf buffer).2, hv⟩
    | some f =>
      by_cases hm : s.table.fileOpenMode index = modeRead
      · exact Or.inr ⟨-1, s, access_readOnly hm buffer, hv⟩
      obtain ⟨h0, hmax, hsize⟩ := hv index f hf
      rw [access_write hf hm h0]
      by_cases hret : ret = charCount
      · -- the host has written all, or it has failed for -1 bytes
        have hsound := hs f hf hm
        have hans := hh f hf
        rw [hret] at hans
        have hfits : charCount ≤ 0 ∨ f.currentOffset + charCount ≤ hostMax := by
          rcases hans with hfail | ⟨hpos, -, hend⟩ <;> omega
        have hnext : 0 ≤ f.currentOffset + charCount ∧ f.currentOffset + charCount ≤ hostMax := by
          rcases hans with hfail | ⟨hpos, -, hend⟩ <;> omega
        rw [if_neg (not_not.mpr hret)]
        exact Or.inr ⟨_, _, rfl, Valid.advance (hv.written hf buffer hfits) hf hnext.1 hnext.2⟩
      · exact Or.inl (if_pos hret)
  | seek pos index =>
    obtain ⟨r, s', hrun, rfl | ⟨f, p, hf, h0, hle, rfl⟩⟩ := access_seek s pos index
    · exact Or.inr ⟨r, _, hrun, hv⟩
    · refine Or.inr ⟨r, _, hrun, hv.set hf h0 ?_⟩
      exact hle.trans (Int.ofNat_le.mpr (hv index f hf).2.2)
  | other file content => exact Or.inr ⟨0, _, rfl, hv.update file hh⟩

theorem accessStep_eq_some_iff {e : Access} : s.accessStep e = some s' ↔ ∃ r, s.access e = .ok (r, s') := by
  unfold accessStep
  cases s.access e with
  | error a => simp [Except.toOption]
  | ok r => simp [Except.toOption, Prod.ext_iff]

theorem valid_accessStep (hv : Valid s) {e : Access} (hh : s.HostAnswers e) (hs : s.Sound e)
    (hstep : s.accessStep e = some s') : Valid s' := by
  obtain ⟨r, hrun⟩ := accessStep_eq_some_iff.mp hstep
  rcases access_sound hv hh hs with herr | ⟨r', t, hrun', hvalid⟩
  · rw [hrun] at herr
    cases herr
  · rw [hrun] at hrun'
    obtain ⟨-, rfl⟩ := Prod.mk.inj (Except.ok.inj hrun')
    exact hvalid

theorem kept_of_sound (hv : Valid s) {e : Access} (hh : s.HostAnswers e) (hs : s.Sound e) : s.Kept e where
  lseek h := by
    rcases access_sound hv hh hs with herr | ⟨r, s', hrun, -⟩
    · rw [h] at herr
      cases herr
    · rw [h] at hrun
      cases hrun
  nonneg s' hstep d f hf := (valid_accessStep hv hh hs hstep d f hf).1
  failed buffer charCount index he s' hstep := by
    subst he
    have hclosed : s.table.descriptor index = none := by
      by_contra hne
      exact hs hne rfl
    obtain ⟨r, hrun⟩ := accessStep_eq_some_iff.mp hstep
    rw [(access_closed hclosed buffer).1] at hrun
    obtain ⟨-, rfl⟩ := Prod.mk.inj (Except.ok.inj hrun)
    rfl

theorem sound_of_kept (hv : Valid s) {e : Access} (hh : s.HostAnswers e) (hk : s.Kept e) : s.Sound e := by
  cases e with
  | read buffer charCount index ret =>
    rintro hopen rfl
    obtain ⟨f, hf⟩ := Option.ne_none_iff_exists'.mp hopen
    obtain ⟨h0, hmax, -⟩ := hv index f hf
    obtain ⟨r, hrun⟩ := @access_read s index f charCount (-1) hf h0 buffer
    have hsame := hk.failed buffer charCount index rfl _ (accessStep_eq_some_iff.mpr ⟨r, hrun⟩)
    rw [descriptor_set hf, if_pos rfl, hf,
      OpenFile.advance_eq (by unfold minInt; omega) (by unfold hostMax at hmax; unfold maxInt; omega)] at hsame
    have hoff := congrArg OpenFile.currentOffset (Option.some.inj hsame)
    dsimp only at hoff
    omega
  | write buffer charCount index ret =>
    rintro f hf hm ⟨rfl, hzero⟩
    have hret : ret = -1 := by
      rcases hh f hf with hret | ⟨h0, h1, -⟩
      · exact hret
      · omega
    have hrun := @access_write s index f (-1) ret hf hm hzero.ge buffer
    rw [if_neg (not_not.mpr hret)] at hrun
    have hneg := hk.nonneg _ (accessStep_eq_some_iff.mpr ⟨_, hrun⟩) index (f.advance (-1))
      ((descriptor_set hf _ index).trans (if_pos rfl))
    rw [OpenFile.advance_eq (by rw [hzero]; decide) (by rw [hzero]; decide)] at hneg
    dsimp only at hneg
    omega
  | seek pos index => trivial
  | other file content => trivial

/-- Over any calls on the descriptors, with any answers of the host, the offsets are kept exactly when no read of
the host fails and no -1 bytes are written at offset 0. -/
theorem offsets_kept_iff (es : List Access) (s : OpenTable) (hv : Valid s) (hh : Along accessStep HostAnswers s es) :
    Along accessStep Kept s es ↔ Along accessStep Sound s es :=
  along_congr (fun _ _ hv hh => ⟨sound_of_kept hv hh, kept_of_sound hv hh⟩)
    (fun _ _ _ hv hh hs hstep => valid_accessStep hv hh hs hstep) es s hv hh

/-- A file of three bytes, opened as descriptor 2. -/
def threeBytes : OpenTable := ⟨fun _ => [1, 2, 3], (FileTable.init.insert (some 0) modeReadWrite).2⟩

theorem valid_threeBytes : Valid threeBytes := by
  intro d f hf
  unfold FileTable.descriptor at hf
  split at hf
  · cases hf
  · have hopen : threeBytes.table.openFile = Function.update (fun _ => none) 2 (some ⟨0, 0⟩) := rfl
    rw [hopen] at hf
    by_cases hd : d = 2
    · rw [hd, Function.update_self] at hf
      obtain rfl := Option.some.inj hf
      decide
    · rw [Function.update_of_ne hd] at hf
      cases hf

/-- The host gives the three bytes of the file when four are read. -/
theorem offsets_kept_shortRead : Along accessStep HostAnswers threeBytes [.read [0, 0, 0, 0] 4 2 3] ∧
    Along accessStep Kept threeBytes [.read [0, 0, 0, 0] 4 2 3] := by
  have hans : Along accessStep HostAnswers threeBytes [.read [0, 0, 0, 0] 4 2 3] := by
    refine ⟨fun f hf => ?_, fun _ _ => trivial⟩
    obtain rfl : (⟨0, 0⟩ : OpenFile) = f := Option.some.inj hf
    exact Or.inr (by decide)
  have hsound : Along accessStep Sound threeBytes [.read [0, 0, 0, 0] 4 2 3] :=
    ⟨fun _ => by decide, fun _ _ => trivial⟩
  exact ⟨hans, (offsets_kept_iff _ threeBytes valid_threeBytes hans).mpr hsound⟩

/-- A read that fails at offset 0 makes the offset -1, and `Lseek` ends the next access. -/
theorem failed_read_breaks_offset : threeBytes.HostAnswers (.read [0] 1 2 (-1)) ∧
    ∃ s, threeBytes.accessStep (.read [0] 1 2 (-1)) = some s ∧
      (s.table.descriptor 2).map OpenFile.currentOffset = some (-1) ∧
      ∀ buffer charCount ret, s.access (.read buffer charCount 2 ret) = .error .lseek ∧
        s.access (.write buffer charCount 2 ret) = .error .lseek := by
  refine ⟨fun f _ => Or.inl rfl, _, rfl, by decide +kernel, fun buffer charCount ret => ⟨rfl, rfl⟩⟩

end OpenTable

end Nachos
