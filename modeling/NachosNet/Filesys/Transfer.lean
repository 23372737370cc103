/-
# Copying a file in and printing it

`Copy` and `Print` of `threads/main.cc`: `nachos -cp` copies a UNIX file to the disk,
`nachos -p` prints a file of the disk. Both go through `Read` and `Write` of
`filesys/openfile.cc`, which move a position along the file, and transfer at most
`TransferSize` bytes at a time. What the reads of the UNIX file give is `chunks`; its
length is taken before they start.

What was copied is printed: right after it, and after any other calls that neither
remove the file nor write to it (`copied_file_prints`).

Key definitions: `Handle`, `FileSystem.copy`, `FileSystem.print`, `Store.Spares`.
-/
import NachosNet.Filesys.Files

namespace Nachos

open Basis

namespace OnDisk

def TransferSize : ℕ := 128

/-- An open file with its `seekPosition`. -/
structure Handle where
  file : OpenFile
  seekPosition : ℤ

/-- `Read`: the number of bytes, the buffer and the file after it. -/
def Handle.read (h : Handle) (d : Disk) (unset : ℕ → Byte) (numBytes : ℤ) : Option (ℤ × (ℕ → Byte) × Handle) :=
  (h.file.hdr.readAt d unset numBytes h.seekPosition).map fun r =>
    (r.1, r.2, { h with seekPosition := h.seekPosition + r.1 })

/-- `Write`: the number of bytes, the disk and the file after it. -/
def Handle.write (h : Handle) (d : Disk) (unset source : ℕ → Byte) (numBytes : ℤ) : Option (ℤ × Disk × Handle) :=
  (h.file.hdr.writeAt d unset source numBytes h.seekPosition).map fun r =>
    (r.1, r.2, { h with seekPosition := h.seekPosition + r.1 })

namespace FileSystem

/-- The loop of `Copy`. A read that gives nothing ends it; what is left in the buffer of the reads before stays. -/
def copyLoop (unset : ℕ → ℕ → Byte) : ℕ → (ℕ → Byte) → List (List Byte) → Disk → Handle → Option Disk
  | _, _, [], d, _ => some d
  | k, buffer, chunk :: chunks, d, h =>
    let buffer := overlay buffer 0 chunk.length fun i => chunk.getD i 0
    if 0 < chunk.length then
      (h.write d (unset k) buffer chunk.length).bind fun r => copyLoop unset (k + 1) buffer chunks r.2.1 r.2.2
    else some d

/-- The loop of `Print`, with the bytes that it prints. -/
def printLoop (d : Disk) (unset : ℕ → ℕ → Byte) : ℕ → ℕ → Handle → Option (List Byte)
  | 0, _, _ => none
  | fuel + 1, k, h =>
    (h.read d (unset k) TransferSize).bind fun r =>
      if 0 < r.1 then
        (printLoop d unset fuel (k + 1) r.2.2).map fun rest => (List.range r.1.toNat).map r.2.1 ++ rest
      else some []

/-- `Open`, with the file that it returns. -/
def openName (s : FileSystem) (unset : ℕ → ℕ → Byte) (name : CString) : Option (Option OpenFile × FileSystem) :=
  (s.openFile unset name).map fun s' =>
    (if s'.opened.length = s.opened.length then none else s'.opened.head?, s')

/-- `delete openFile` -/
def close (s : FileSystem) (f : OpenFile) : FileSystem := { s with opened := s.opened.erase f }

/-- `Copy`, of a UNIX file that is there; whether it could create the file. -/
def copy (s : FileSystem) (unset : ℕ → ℕ → ℕ → Byte) (chunks : List (List Byte)) (toName : CString) :
    Option (Bool × FileSystem) := do
  let (done, s) ← s.create (unset 0) toName chunks.flatten.length
  if done = false then return (false, s)
  else do
    let (file, s) ← s.openName (unset 1) toName
    -- `ASSERT(openFile != NULL)`
    let f ← file
    let d ← copyLoop (unset 2) 0 (unset 3 0) chunks s.disk ⟨f, 0⟩
    return (true, close { s with disk := d } f)

/-- `Print`; `none` for the bytes when the file cannot be opened. -/
def print (s : FileSystem) (fuel : ℕ) (unset : ℕ → ℕ → ℕ → Byte) (name : CString) :
    Option (Option (List Byte) × FileSystem) := do
  let (file, s) ← s.openName (unset 0) name
  match file with
  | none => return (none, s)
  | some f => do
    let out ← printLoop s.disk (unset 1) fuel 0 ⟨f, 0⟩
    return (some out, s.close f)

end FileSystem

/-! ### The loops -/

section Loops

variable {f : OpenFile} {d : Disk}

theorem copyLoop_eq (hc : f.hdr.Covers) (unset : ℕ → ℕ → Byte) : ∀ (chunks : List (List Byte)) (k : ℕ)
    (buffer : ℕ → Byte) (d : Disk) (a b : List Byte), f.hdr.content d = a ++ b → chunks.flatten.length = b.length →
    (∀ c ∈ chunks, c ≠ []) →
    ∃ d', FileSystem.copyLoop unset k buffer chunks d ⟨f, a.length⟩ = some d' ∧
      f.hdr.content d' = a ++ chunks.flatten ∧ ∀ x, x ∉ f.hdr.sectors → d' x = d x
  | [], _, _, d, a, b, hd, hlen, _ => by
    obtain rfl : b = [] := List.length_eq_zero_iff.mp hlen.symm
    exact ⟨d, rfl, hd, fun _ _ => rfl⟩
  | chunk :: chunks, k, buffer, d, a, b, hd, hlen, hne => by
    have hpos : 0 < chunk.length := List.length_pos_iff.mpr (hne chunk List.mem_cons_self)
    have hsize : f.hdr.numBytes.toNat = a.length + b.length := by
      rw [← Volume.length_content f.hdr d, hd, List.length_append]
    rw [List.flatten_cons, List.length_append] at hlen
    generalize hbuf : overlay buffer 0 chunk.length (fun i => chunk.getD i 0) = buffer'
    have hchunk : (List.range chunk.length).map buffer' = chunk := by
      apply List.ext_getElem
      · rw [List.length_map, List.length_range]
      · intro i h1 h2
        rw [List.getElem_map, List.getElem_range, ← hbuf, overlay_of_mem (Nat.zero_le i) (by omega), Nat.sub_zero,
          List.getD_eq_getElem?_getD, List.getElem?_eq_getElem h2, Option.getD_some]
    have hmax := hc.length_le
    unfold MaxFileSize at hmax
    obtain ⟨d₁, hrun, hcontent, hother⟩ := FileHeader.writeAt_splice hc d (unset k) buffer' (n := chunk.length)
      (p := a.length) (Int.natCast_nonneg _) (by unfold maxInt; omega)
    have htransferred : transferred f.hdr.numBytes.toInt chunk.length a.length = chunk.length := by
      unfold transferred
      rw [hc.toInt_numBytes]
      omega
    rw [hd, splice_append _ _ _ (by omega), hchunk, ← List.append_assoc] at hcontent
    obtain ⟨d₂, hloop, hcontent₂, hother₂⟩ := copyLoop_eq hc unset chunks (k + 1) buffer' d₁ (a ++ chunk)
      (b.drop chunk.length) hcontent (by rw [List.length_drop]; omega) fun c h => hne c (List.mem_cons_of_mem _ h)
    refine ⟨d₂, ?_, ?_, fun x hx => (hother₂ x hx).trans (hother x hx)⟩
    · unfold FileSystem.copyLoop Handle.write
      dsimp only
      rw [hbuf, if_pos hpos, hrun, Option.map_some, Option.bind_some, htransferred, ← Int.natCast_add,
        ← List.length_append]
      exact hloop
    · rw [hcontent₂, List.flatten_cons, List.append_assoc]

theorem printLoop_eq (hc : f.hdr.Covers) (unset : ℕ → ℕ → Byte) : ∀ (fuel k p : ℕ), p ≤ f.hdr.numBytes.toNat →
    f.hdr.numBytes.toNat - p + (TransferSize - 1) < TransferSize * fuel →
    FileSystem.printLoop d unset fuel k ⟨f, p⟩ = some ((f.hdr.content d).drop p)
  | 0, _, _, _, h => absurd h (Nat.not_lt_zero _)
  | fuel + 1, k, p, hp, hfuel => by
    have hmax := hc.length_le
    unfold MaxFileSize at hmax
    obtain ⟨into, hrun, hbytes⟩ := FileHeader.readAt_slice hc d (unset k) (n := (TransferSize : ℕ)) (p := p)
      (Int.natCast_nonneg _) (by unfold maxInt TransferSize; omega)
    rw [Int.toNat_natCast, Int.toNat_natCast] at hbytes
    have hlen := Volume.length_content f.hdr d
    have htransferred : transferred f.hdr.numBytes.toInt TransferSize p =
        (min TransferSize (f.hdr.numBytes.toNat - p) : ℕ) := by
      unfold transferred
      rw [hc.toInt_numBytes]
      omega
    unfold FileSystem.printLoop Handle.read
    dsimp only
    rw [hrun, Option.map_some, Option.bind_some]
    dsimp only
    rw [htransferred] at hbytes ⊢
    unfold TransferSize at *
    by_cases hend : p = f.hdr.numBytes.toNat
    · rw [if_neg (by omega), List.drop_eq_nil_of_le (by omega)]
    · rw [if_pos (by omega), ← Int.natCast_add, printLoop_eq hc unset fuel (k + 1) _ (by omega) (by unfold TransferSize; omega),
        Option.map_some, hbytes]
      congr 1
      -- the last read may be short
      obtain hle | hgt := Nat.le_total 128 (f.hdr.numBytes.toNat - p)
      · rw [Nat.min_eq_left hle, slice_append_drop]
      · rw [Nat.min_eq_right hgt, List.drop_eq_nil_of_le (by omega), List.append_nil]
        unfold slice
        exact List.take_of_length_le (by rw [List.length_drop]; omega)

end Loops

/-! ### Other calls -/

namespace Store

variable {a b : Store} {k : Key}

/-- The call neither removes the file `k` nor writes to it. -/
def Spares (a : Store) (k : Key) : Call → Prop
  | .op (.remove _ name) => keyOf name ≠ k
  | .op (.writeAt _ file _ _ _) => a.refers file ≠ some k
  | _ => True

instance (a : Store) (k : Key) : ∀ c, Decidable (a.Spares k c)
  | .op (.create _ _ _) => isTrue trivial
  | .op (.remove _ name) => inferInstanceAs (Decidable (keyOf name ≠ k))
  | .op (.openFile _ _) => isTrue trivial
  | .op (.writeAt _ file _ _ _) => inferInstanceAs (Decidable (a.refers file ≠ some k))
  | .readAt _ _ _ _ => isTrue trivial
  | .length _ => isTrue trivial

theorem Does.content_eq {call : Call} {r : Answer} (h : a.Does call r b) (hspares : a.Spares k call) {c : List Byte}
    (hc : a.content k = some c) : b.content k = some c := by
  cases h with
  | created c' hroom _ =>
    refine (Function.update_of_ne ?_ _ _).trans hc
    rintro rfl
    rw [hroom.new] at hc
    cases hc
  | removed _ => exact (Function.update_of_ne (Ne.symm hspares) _ _).trans hc
  | wrote hf _ =>
    refine (Function.update_of_ne ?_ _ _).trans hc
    rintro rfl
    exact hspares hf
  | notCreated | notRemoved | opened | notOpened | read | length => exact hc

end Store

namespace FileSystem

variable {s : FileSystem}

theorem Inv.spares {k : Key} {c : List Byte} (cs : List Call) (hs : Inv s) (hc : s.store.content k = some c)
    (hcs : Along next (fun s call => s.Permitted call ∧ s.store.Spares k call) s cs) :
    ∃ s', exec next s cs = some s' ∧ Inv s' ∧ s'.store.content k = some c := by
  refine exec_total (I := fun s => Inv s ∧ s.store.content k = some c) ?_ cs s ⟨hs, hc⟩ hcs
  rintro s call ⟨hs, hc⟩ ⟨hpermitted, hspares⟩
  obtain ⟨r, s', hcall, hdoes⟩ := hs.call hpermitted
  exact ⟨s', congrArg (Option.map Prod.snd) hcall, hs.of_call hpermitted hcall, hdoes.content_eq hspares hc⟩

/-! ### Copying and printing -/

theorem close_cons (f : OpenFile) (fs : List OpenFile) : close { s with opened := f :: fs } f = { s with opened := fs } := by
  unfold close
  rw [List.erase_cons_head]

theorem openName_of_openFile {unset : ℕ → ℕ → Byte} {name : CString} {f : OpenFile}
    (h : s.openFile unset name = some { s with opened := f :: s.opened }) :
    s.openName unset name = some (some f, { s with opened := f :: s.opened }) := by
  unfold openName
  rw [h, Option.map_some, if_neg (by rw [List.length_cons]; omega)]
  rfl

theorem Inv.opened_file (hs : Inv s) (unset : ℕ → ℕ → Byte) {name : CString} {c : List Byte}
    (hc : s.store.content (keyOf name) = some c) : ∃ f,
      s.openName unset name = some (some f, { s with opened := f :: s.opened }) ∧
        Inv { s with opened := f :: s.opened } ∧ f.hdr.Covers ∧ f.hdr.content s.disk = c ∧
          store { s with opened := f :: s.opened } = s.store.link f (keyOf name) := by
  obtain ⟨f, hopen, hstore⟩ := hs.open_found unset hc
  obtain ⟨s', hrun, hInv⟩ := hs.openFile unset name
  obtain rfl := Option.some.inj (hrun.symm.trans hopen)
  have hmem : f ∈ f :: s.opened := List.mem_cons_self
  refine ⟨f, openName_of_openFile hopen, hInv, hInv.covers hmem, ?_, hstore⟩
  obtain ⟨k, hk, hcontent⟩ := hInv.refers hmem
  rw [hstore] at hk hcontent
  obtain rfl : keyOf name = k := Option.some.inj ((Store.refers_link_self _ _ _).symm.trans hk)
  exact Option.some.inj (hcontent.symm.trans hc)

theorem Inv.prints (hs : Inv s) (unset : ℕ → ℕ → ℕ → Byte) {name : CString} {c : List Byte}
    (hc : s.store.content (keyOf name) = some c) {fuel : ℕ} (hfuel : c.length + (TransferSize - 1) < TransferSize * fuel) :
    s.print fuel unset name = some (some c, s) := by
  obtain ⟨f, hopen, -, hcovers, rfl, -⟩ := hs.opened_file (unset 0) hc
  rw [Volume.length_content] at hfuel
  have hloop := printLoop_eq (d := s.disk) hcovers (unset 1) fuel 0 0 (Nat.zero_le _) hfuel
  rw [List.drop_zero, Nat.cast_zero] at hloop
  unfold print
  simp only [hopen, hloop, Option.bind_eq_bind, Option.bind_some, Option.pure_def, close_cons]

theorem Inv.of_data (hs : Inv s) {f : OpenFile} (hf : f ∈ s.opened) {d : Disk}
    (hd : ∀ x, x ∉ f.hdr.sectors → d x = s.disk x) : Inv { s with disk := d } := by
  obtain ⟨⟨i, hi⟩, hhdr⟩ := hs.opened f hf
  have hsame : Volume.Same (volume s.disk) (volume d) := hs.sound.same_data hi fun x hx => hd x (hhdr ▸ hx)
  exact hs.written hs.sound hsame rfl rfl hs.opened

theorem Inv.of_opened (hs : Inv s) {fs : List OpenFile} (h : ∀ f ∈ fs, f ∈ s.opened) : Inv { s with opened := fs } :=
  ⟨hs.sound, hs.map_eq, hs.dir_eq, fun f hf => hs.opened f (h f hf)⟩

theorem Inv.create_room (hs : Inv s) (unset : ℕ → ℕ → Byte) {name : CString} {size : ℕ} (hsize : size ≤ MaxFileSize)
    (hroom : s.store.Room (keyOf name) size) : ∃ s' c, s.create unset name size = some (true, s') ∧ Inv s' ∧
      c.length = size ∧ s'.store.content = Function.update s.store.content (keyOf name) (some c) := by
  obtain ⟨r, s', hcall, hdoes⟩ := hs.creates unset name hsize
  have hInv := hs.of_call (c := .op (.create unset name size)) ⟨⟨Int.natCast_nonneg _, Int.ofNat_le.mpr hsize⟩, trivial⟩
    hcall
  obtain ⟨⟨done, q⟩, hq, he⟩ := Option.map_eq_some_iff.mp hcall
  obtain ⟨hr, rfl⟩ := Prod.mk.inj he
  generalize hstore : store q = b at hdoes
  generalize hcreate : Call.op (.create unset name size) = call at hdoes
  cases hdoes with
  | created c _ hc =>
    obtain ⟨rfl, rfl, hn⟩ := Op.create.inj (Call.op.inj hcreate)
    obtain rfl := Int.ofNat.inj hn
    cases done with
    | false => cases hr
    | true => exact ⟨q, c, hq, hInv, hc, congrArg Store.content hstore⟩
  | notCreated hnot =>
    obtain ⟨rfl, rfl, hn⟩ := Op.create.inj (Call.op.inj hcreate)
    obtain rfl := Int.ofNat.inj hn
    exact absurd hroom hnot
  | removed | notRemoved | opened | notOpened | wrote | read | length => cases hcreate

theorem Inv.copies (hs : Inv s) (unset : ℕ → ℕ → ℕ → Byte) {chunks : List (List Byte)} {name : CString}
    (hne : ∀ c ∈ chunks, c ≠ []) (hsize : chunks.flatten.length ≤ MaxFileSize)
    (hroom : s.store.Room (keyOf name) chunks.flatten.length) : ∃ s', s.copy unset chunks name = some (true, s') ∧ Inv s' ∧
      s'.store.content = Function.update s.store.content (keyOf name) (some chunks.flatten) := by
  obtain ⟨s₁, c, hcreate, hs₁, hlen, hcontent⟩ := hs.create_room (unset 0) hsize hroom
  have hc : s₁.store.content (keyOf name) = some c := by rw [hcontent, Function.update_self]
  obtain ⟨f, hopen, hs₂, hcovers, hfile, hstore⟩ := hs₁.opened_file (unset 1) hc
  obtain ⟨d, hloop, hbytes, hother⟩ := copyLoop_eq hcovers (unset 2) chunks 0 (unset 3 0) s₁.disk [] c hfile hlen.symm hne
  rw [List.nil_append] at hbytes
  have hf : f ∈ f :: s₁.opened := List.mem_cons_self
  have hInv : Inv { s₁ with disk := d } :=
    (hs₂.of_data hf hother).of_opened fun g hg => List.mem_cons_of_mem _ hg
  refine ⟨{ s₁ with disk := d }, ?_, hInv, ?_⟩
  · unfold copy
    simp only [hcreate, hopen, Option.bind_eq_bind, Option.bind_some, Option.pure_def, Bool.true_eq_false, if_false]
    rw [show ((0 : ℤ)) = (([] : List Byte).length : ℤ) from rfl, hloop, Option.bind_some]
    exact congrArg some (congrArg (Prod.mk true) (close_cons (s := { s₁ with disk := d }) f s₁.opened))
  · have hk : (store { s₁ with opened := f :: s₁.opened }).refers f = some (keyOf name) := by
      rw [hstore, Store.refers_link_self]
    have hdata := congrArg Store.content (hs₂.store_data hf hk hother)
    calc (store { s₁ with disk := d }).content
      _ = Function.update s₁.store.content (keyOf name) (some (f.hdr.content d)) := hdata
      _ = Function.update s.store.content (keyOf name) (some chunks.flatten) := by
        rw [hbytes, hcontent, Function.update_idem]

/-- **What was copied in is printed.** On a disk that was formatted and used in any way, `Copy` of a UNIX file for
which there is room succeeds and changes no other file; after any calls that spare the new file, `Print` prints the
bytes of the UNIX file, for every name that is the same in its first nine bytes. -/
theorem copied_file_prints (d : Disk) (unset : ℕ → ℕ → Byte) : ∃ s₀, format d unset = some s₀ ∧
    ∀ cs s, Along next Permitted s₀ cs → exec next s₀ cs = some s →
    ∀ u chunks name, (∀ c ∈ chunks, c ≠ []) → chunks.flatten.length ≤ MaxFileSize →
      s.store.Room (keyOf name) chunks.flatten.length →
      ∃ s', s.copy u chunks name = some (true, s') ∧
        s'.store.content = Function.update s.store.content (keyOf name) (some chunks.flatten) ∧
        ∀ cs', Along next (fun t c => t.Permitted c ∧ t.store.Spares (keyOf name) c) s' cs' →
          ∃ t, exec next s' cs' = some t ∧ ∀ u' name' fuel, keyOf name' = keyOf name →
            chunks.flatten.length + (TransferSize - 1) < TransferSize * fuel →
            t.print fuel u' name' = some (some chunks.flatten, t) := by
  obtain ⟨s₀, h₀, hInv₀⟩ := format_inv d unset
  refine ⟨s₀, h₀, fun cs s hcs hrun u chunks name hne hsize hroom => ?_⟩
  have hs : Inv s := by
    refine exec_induction_along (P := fun _ s => Inv s) hInv₀ (fun _ c t t' ht hc hstep => ?_) cs s hcs hrun
    obtain ⟨r, hr, rfl⟩ := Option.map_eq_some_iff.mp hstep
    exact ht.of_call hc hr
  obtain ⟨s', hcopy, hs', hcontent⟩ := hs.copies u hne hsize hroom
  refine ⟨s', hcopy, hcontent, fun cs' hcs' => ?_⟩
  have hc : s'.store.content (keyOf name) = some chunks.flatten := by rw [hcontent, Function.update_self]
  obtain ⟨t, ht, hInv, hfile⟩ := Inv.spares cs' hs' hc hcs'
  refine ⟨t, ht, fun u' name' fuel hname hfuel => ?_⟩
  exact hInv.prints u' (hname ▸ hfile) hfuel

/-- A UNIX file of 130 bytes, which takes two reads. -/
def unixChunks : List (List Byte) := [List.replicate 128 65, [66, 10]]

/-- The file is copied to an empty disk, another file is created, and the first one is printed. -/
theorem copied_file_prints_unixChunks : ∃ s₀ s' t, format zeros zeros = some s₀ ∧
    s₀.copy (fun _ => zeros) unixChunks nameA = some (true, s') ∧
    exec next s' [.op (.create zeros ⟨[98], by decide⟩ 100)] = some t ∧
    t.print 3 (fun _ => zeros) nameA = some (some unixChunks.flatten, t) := by
  obtain ⟨s₀, h₀, h⟩ := copied_file_prints zeros zeros
  obtain ⟨s, hs, hInv⟩ := format_inv zeros zeros
  obtain rfl := Option.some.inj (hs.symm.trans h₀)
  have hlen : unixChunks.flatten.length = 130 := by decide +kernel
  have hroom : s.store.Room (keyOf nameA) unixChunks.flatten.length := by
    rw [store_format hs hInv, hlen]
    exact ⟨rfl, by decide, by decide⟩
  have hsize : (0 : ℤ) ≤ 100 ∧ (100 : ℤ) ≤ MaxFileSize := by decide
  obtain ⟨s', hcopy, -, hprint⟩ := h [] s trivial rfl (fun _ => zeros) unixChunks nameA (by decide)
    (by rw [hlen]; decide) hroom
  obtain ⟨t, ht, hall⟩ := hprint [.op (.create zeros ⟨[98], by decide⟩ 100)]
    ⟨⟨⟨hsize, trivial⟩, trivial⟩, fun _ _ => trivial⟩
  exact ⟨s, s', t, hs, hcopy, ht, hall (fun _ => zeros) nameA 3 rfl (by rw [hlen]; decide)⟩

end FileSystem

end OnDisk

end Nachos
