/-
# coff2noff keeps the program's image

`coff2noff/coff2noff.c`, built with `RDATA` for a host of 32 bits: the section
headers of a COFF file are read into memory, each section that is not empty is
copied behind the place of the NOFF header or, for `.bss`, only recorded, and the
header is written last, at the start of the output. `inNoffFile` counts where the
next section goes, beside the position that the host keeps.

The calls of the host return -1 for a negative size or offset. `lseek` is not
checked, and `Read` and `Write` compare the result with the size, so a size of -1
passes both.

* `coff2noff_keeps_image`: for every accepted input with at most one section that
  is not empty of each kind, and no negative offset or size, the header of the output gives the address and the
  size of each, the bytes of the output at the recorded range are those of the
  section, and the ranges and the header are apart.

Key definitions: `coff2noff`, `Conversion.loadSections`, `Image`, `Conversion.Loaded`.
-/
import NachosNet.Basis.CString
import NachosNet.Basis.Except
import NachosNet.Basis.Layout
import NachosNet.Basis.Ranges
import NachosNet.Filesys.OpenFiles
import NachosNet.Userprog.Loader

namespace Nachos

open Basis

/-! ### The formats -/

inductive FilehdrField
  | f_magic | f_nscns | f_timdat | f_symptr | f_nsyms | f_opthdr | f_flags
deriving DecidableEq

/-- `struct filehdr`. -/
def filehdr : Layout FilehdrField :=
  [(.f_magic, 2), (.f_nscns, 2), (.f_timdat, 4), (.f_symptr, 4), (.f_nsyms, 4), (.f_opthdr, 2), (.f_flags, 2)]

inductive AouthdrField
  | magic | vstamp | tsize | dsize | bsize | entry | text_start | data_start | bss_start | gprmask | cprmask | gp_value
deriving DecidableEq

/-- `struct aouthdr`. -/
def aouthdr : Layout AouthdrField :=
  [(.magic, 2), (.vstamp, 2), (.tsize, 4), (.dsize, 4), (.bsize, 4), (.entry, 4), (.text_start, 4),
    (.data_start, 4), (.bss_start, 4), (.gprmask, 4), (.cprmask, 16), (.gp_value, 4)]

inductive ScnhdrField
  | s_name | s_paddr | s_vaddr | s_size | s_scnptr | s_relptr | s_lnnoptr | s_nreloc | s_nlnno | s_flags
deriving DecidableEq

/-- `struct scnhdr`. -/
def scnhdr : Layout ScnhdrField :=
  [(.s_name, 8), (.s_paddr, 4), (.s_vaddr, 4), (.s_size, 4), (.s_scnptr, 4), (.s_relptr, 4), (.s_lnnoptr, 4),
    (.s_nreloc, 2), (.s_nlnno, 2), (.s_flags, 4)]

def MIPSELMAGIC : BitVec 16 := 0x0162

/-- `0407` -/
def OMAGIC : BitVec 16 := 263

/-- The sections that the converter knows. -/
inductive Kind
  | text | data | rdata | bss
deriving DecidableEq

namespace Kind

def name : Kind → List Byte
  | text => [46, 116, 101, 120, 116]
  | data => [46, 100, 97, 116, 97]
  | rdata => [46, 114, 100, 97, 116, 97]
  | bss => [46, 98, 115, 115]

/-- The chain of `strcmp`. -/
def ofName (s : List Byte) : Option Kind := [text, data, rdata, bss].find? fun k => cstr s = k.name

end Kind

/-- The fields of a section header that are used. -/
structure Scnhdr where
  s_name : List Byte
  s_paddr : BitVec 32
  s_size : BitVec 32
  s_scnptr : BitVec 32

namespace Scnhdr

def ofBytes (b : List Byte) : Scnhdr where
  s_name := scnhdr.field b .s_name
  s_paddr := wordAt (scnhdr.field b .s_paddr) 0
  s_size := wordAt (scnhdr.field b .s_size) 0
  s_scnptr := wordAt (scnhdr.field b .s_scnptr) 0

/-- The array `sections` in the bytes that were read. -/
def array (b : List Byte) (numsections : ℕ) : List Scnhdr :=
  (List.range numsections).map fun i => ofBytes (slice b (scnhdr.size * i) scnhdr.size)

/-- The section is one of kind `k`, and not empty. -/
def Has (s : Scnhdr) (k : Kind) : Prop := s.s_size ≠ 0 ∧ Kind.ofName s.s_name = some k

instance (s : Scnhdr) (k : Kind) : Decidable (s.Has k) := inferInstanceAs (Decidable (_ ∧ _))

/-- The calls of the host work for a section that is copied: neither its offset nor its size is negative. -/
def HostWorks (s : Scnhdr) : Prop := ∀ k, s.Has k → k ≠ .bss → 0 ≤ s.s_scnptr.toInt ∧ 0 ≤ s.s_size.toInt

end Scnhdr

/-- `NoffHeader` with `RDATA`: the magic number and `code`, `initData`,
`readonlyData` and `uninitData`. -/
def noffHeader : Layout (Option Kind) :=
  [(none, 4), (some .text, 12), (some .data, 12), (some .rdata, 12), (some .bss, 12)]

/-- The fields of a header with the segments `noffH`. -/
def noffFields (noffH : Kind → Segment) : Option Kind → List Byte
  | none => wordBytes NOFFMAGIC
  | some k => (noffH k).bytes

/-- The segment in the header of a NOFF file. -/
def noffSegment (out : List Byte) (k : Kind) : Segment := .ofBytes (noffHeader.field out (some k)) 0

/-! ### The host -/

structure Descriptor where
  content : List Byte
  pos : ℕ

namespace Descriptor

/-- `lseek(fd, offset, 0)`: the result, and the descriptor afterwards. -/
def lseek (fd : Descriptor) (offset : ℤ) : ℤ × Descriptor :=
  if offset < 0 then (-1, fd) else (offset, { fd with pos := offset.toNat })

/-- `read`: the result, the bytes, and the descriptor afterwards. -/
def read (fd : Descriptor) (nBytes : ℤ) : ℤ × List Byte × Descriptor :=
  if nBytes < 0 then (-1, [], fd)
  else
    let got := slice fd.content fd.pos nBytes.toNat
    (got.length, got, { fd with pos := fd.pos + got.length })

/-- `write`: the result, and the descriptor afterwards. The file ends at the
largest offset at the latest. -/
def write (fd : Descriptor) (buf : List Byte) (nBytes : ℤ) : ℤ × Descriptor :=
  if nBytes < 0 then (-1, fd)
  else
    let put := buf.take (min nBytes.toNat (hostMax - fd.pos))
    (put.length,
      { content := if put = [] then fd.content else patch fd.content fd.pos put
        pos := fd.pos + put.length })

end Descriptor

/-! ### The conversion -/

/-- Why the output is unlinked. -/
inductive Refusal
  /-- File is too short -/
  | tooShort
  /-- Unable to write file -/
  | unableToWrite
  /-- File is not a MIPSEL COFF file -/
  | notMipsel
  /-- File is not a OMAGIC file -/
  | notOmagic
  /-- Can't handle both bss and sbss -/
  | bssAndSbss
  /-- Unknown segment type: %s -/
  | unknownSegment (s_name : List Byte)
deriving DecidableEq

structure Conversion where
  fdIn : Descriptor
  fdOut : Descriptor
  noffH : Kind → Segment
  inNoffFile : BitVec 32

namespace Conversion

def seekIn (c : Conversion) (offset : ℤ) : Conversion := { c with fdIn := (c.fdIn.lseek offset).2 }

def seekOut (c : Conversion) (offset : ℤ) : Conversion := { c with fdOut := (c.fdOut.lseek offset).2 }

/-- `Read`: the buffer, and the conversion afterwards. -/
def read (c : Conversion) (nBytes : ℤ) : Except Refusal (List Byte × Conversion) :=
  let r := c.fdIn.read nBytes
  if r.1 ≠ nBytes then .error .tooShort else .ok (r.2.1, { c with fdIn := r.2.2 })

def write (c : Conversion) (buf : List Byte) (nBytes : ℤ) : Except Refusal Conversion :=
  let r := c.fdOut.write buf nBytes
  if r.1 ≠ nBytes then .error .unableToWrite else .ok { c with fdOut := r.2 }

/-- The header's entry for a kind is set. -/
def setSegment (c : Conversion) (k : Kind) (seg : Segment) : Conversion :=
  { c with noffH := Function.update c.noffH k seg }

/-- The branches for `.text`, `.data` and `.rdata`. -/
def copySection (c : Conversion) (k : Kind) (s : Scnhdr) : Except Refusal Conversion :=
  let c := c.setSegment k ⟨s.s_paddr, c.inNoffFile, s.s_size⟩
  ((c.seekIn s.s_scnptr.toInt).read s.s_size.toInt).bind fun r =>
    (r.2.write r.1 s.s_size.toInt).bind fun c => .ok { c with inNoffFile := c.inNoffFile + s.s_size }

/-- The branch for `.bss`. -/
def recordBss (c : Conversion) (s : Scnhdr) : Except Refusal Conversion :=
  let uninitData := c.noffH .bss
  if uninitData.size ≠ 0 then
    if s.s_paddr = uninitData.virtualAddr + uninitData.size then .error .bssAndSbss
    else .ok (c.setSegment .bss { uninitData with size := uninitData.size + s.s_size })
  else .ok (c.setSegment .bss { uninitData with virtualAddr := s.s_paddr, size := s.s_size })

/-- One pass of the loop over the sections. -/
def loadSection (c : Conversion) (s : Scnhdr) : Except Refusal Conversion :=
  if s.s_size = 0 then .ok c
  else match Kind.ofName s.s_name with
    | some .bss => c.recordBss s
    | some k => c.copySection k s
    | none => .error (.unknownSegment s.s_name)

def loadSections : List Scnhdr → Conversion → Except Refusal Conversion
  | [], c => .ok c
  | s :: l, c => (c.loadSection s).bind (loadSections l)

/-- The header is written at the start of the output. -/
def writeHeader (c : Conversion) : Except Refusal Conversion :=
  (c.seekOut 0).write (noffHeader.encode (noffFields c.noffH)) noffHeader.size

end Conversion

/-- `fileh.f_nscns`. -/
def numsections (input : List Byte) : ℕ := (ofLe16 (filehdr.field input .f_nscns)).toNat

/-- The section headers of a COFF file. -/
def coffSections (input : List Byte) : List Scnhdr :=
  Scnhdr.array (slice input (filehdr.size + aouthdr.size) (numsections input * scnhdr.size)) (numsections input)

/-- `main` on files that could be opened; `unset` is what the header holds before. -/
def coff2noff (unset : Kind → Segment) (input : List Byte) : Except Refusal Conversion :=
  let c : Conversion := ⟨⟨input, 0⟩, ⟨[], 0⟩, unset, 0⟩
  (c.read filehdr.size).bind fun (fileh, c) =>
  if ofLe16 (filehdr.field fileh .f_magic) ≠ MIPSELMAGIC then .error .notMipsel
  else (c.read aouthdr.size).bind fun (systemh, c) =>
  if ofLe16 (aouthdr.field systemh .magic) ≠ OMAGIC then .error .notOmagic
  else
    let numsections := (ofLe16 (filehdr.field fileh .f_nscns)).toNat
    (c.read (numsections * scnhdr.size : ℕ)).bind fun (buffer, c) =>
    let noffH := fun k => { unset k with size := 0 }
    let c := { c with noffH := noffH, inNoffFile := BitVec.ofNat 32 noffHeader.size }
    (Conversion.loadSections (Scnhdr.array buffer numsections) (c.seekOut noffHeader.size)).bind Conversion.writeHeader

/-! ### What one call leaves -/

namespace Conversion

variable {c c' : Conversion} {buf : List Byte} {nBytes : ℤ} {k : Kind} {s : Scnhdr}

theorem read_cases (c : Conversion) (h0 : 0 ≤ nBytes) : c.read nBytes = .error .tooShort ∨
    (slice c.fdIn.content c.fdIn.pos nBytes.toNat).length = nBytes.toNat ∧
      c.read nBytes = .ok (slice c.fdIn.content c.fdIn.pos nBytes.toNat,
        { c with fdIn := { c.fdIn with pos := c.fdIn.pos + nBytes.toNat } }) := by
  unfold read Descriptor.read
  simp only [if_neg (Int.not_lt.mpr h0)]
  by_cases hlen : (slice c.fdIn.content c.fdIn.pos nBytes.toNat).length = nBytes.toNat
  · refine Or.inr ⟨hlen, ?_⟩
    rw [hlen, Int.toNat_of_nonneg h0, if_neg (not_not_intro rfl)]
  · exact Or.inl (if_pos (by omega))

theorem read_eq_ok (h : c.read nBytes = .ok (buf, c')) (h0 : 0 ≤ nBytes) :
    buf = slice c.fdIn.content c.fdIn.pos nBytes.toNat ∧
      buf.length = nBytes.toNat ∧ c' = { c with fdIn := { c.fdIn with pos := c.fdIn.pos + nBytes.toNat } } := by
  obtain herr | ⟨hlen, hok⟩ := c.read_cases h0
  · rw [herr] at h
    cases h
  · rw [hok] at h
    obtain ⟨rfl, rfl⟩ := Prod.mk.inj (Except.ok.inj h)
    exact ⟨rfl, hlen, rfl⟩

theorem write_eq_ok (h : c.write buf nBytes = .ok c') (h0 : 0 < nBytes) :
    c.fdOut.pos + nBytes.toNat ≤ hostMax ∧
      c' = { c with fdOut := ⟨patch c.fdOut.content c.fdOut.pos (buf.take nBytes.toNat),
        c.fdOut.pos + nBytes.toNat⟩ } := by
  unfold write Descriptor.write at h
  simp only [if_neg h0.not_gt] at h
  split at h
  · cases h
  · rename_i heq
    rw [not_not, List.length_take] at heq
    have hmin : min nBytes.toNat (hostMax - c.fdOut.pos) = nBytes.toNat := by omega
    have hlen : (buf.take nBytes.toNat).length = nBytes.toNat := by
      rw [List.length_take]
      omega
    have hne : buf.take nBytes.toNat ≠ [] := by
      intro hnil
      rw [hnil, List.length_nil] at hlen
      omega
    rw [hmin, if_neg hne, hlen] at h
    exact ⟨by omega, (Except.ok.inj h).symm⟩

theorem seekIn_eq {offset : ℤ} (h0 : 0 ≤ offset) :
    c.seekIn offset = { c with fdIn := { c.fdIn with pos := offset.toNat } } := by
  unfold seekIn Descriptor.lseek
  rw [if_neg h0.not_gt]

theorem toNat_toInt {x : BitVec 32} (h : 0 ≤ x.toInt) : x.toInt.toNat = x.toNat := by
  rw [BitVec.toInt_eq_toNat_of_msb (by rw [BitVec.msb_eq_toInt]; simpa using h), Int.toNat_natCast]

theorem copySection_eq_ok (h : c.copySection k s = .ok c') (hs : s.s_size ≠ 0) (hptr : 0 ≤ s.s_scnptr.toInt)
    (hsize : 0 ≤ s.s_size.toInt) :
    c.fdOut.pos + s.s_size.toNat ≤ hostMax ∧
      s.s_scnptr.toNat + s.s_size.toNat ≤ c.fdIn.content.length ∧
      c'.fdIn.content = c.fdIn.content ∧ c'.inNoffFile = c.inNoffFile + s.s_size ∧
      c'.noffH = Function.update c.noffH k ⟨s.s_paddr, c.inNoffFile, s.s_size⟩ ∧
      c'.fdOut = ⟨patch c.fdOut.content c.fdOut.pos (slice c.fdIn.content s.s_scnptr.toNat s.s_size.toNat),
        c.fdOut.pos + s.s_size.toNat⟩ := by
  obtain ⟨⟨buf, c₁⟩, hread, h⟩ := bind_eq_ok.mp h
  obtain ⟨c₂, hwrite, h⟩ := bind_eq_ok.mp h
  obtain rfl := Except.ok.inj h
  have hpos : 0 < s.s_size.toInt :=
    lt_of_le_of_ne hsize fun h0 => hs (BitVec.eq_of_toInt_eq (by simpa using h0.symm))
  rw [seekIn_eq hptr] at hread
  obtain ⟨rfl, hlen, rfl⟩ := read_eq_ok hread hsize
  obtain ⟨hmax, rfl⟩ := write_eq_ok hwrite hpos
  simp only [toNat_toInt hsize, toNat_toInt hptr, length_slice, setSegment] at hlen hmax
  have htake : (slice c.fdIn.content s.s_scnptr.toNat s.s_size.toNat).take s.s_size.toNat =
      slice c.fdIn.content s.s_scnptr.toNat s.s_size.toNat := by simp [slice]
  have hne : s.s_size.toNat ≠ 0 := fun h0 => hs (BitVec.eq_of_toNat_eq h0)
  refine ⟨hmax, by omega, rfl, rfl, rfl, ?_⟩
  simp only [toNat_toInt hsize, toNat_toInt hptr, setSegment, htake]

end Conversion

/-! ### The image -/

/-- The output `out`, with the header `noffH`, holds the image of these sections. -/
structure Image (input : List Byte) (sections : List Scnhdr) (noffH : Kind → Segment) (out : List Byte) : Prop where
  segment : ∀ s ∈ sections, ∀ k, s.Has k → (noffH k).virtualAddr = s.s_paddr ∧ (noffH k).size = s.s_size
  bytes : ∀ s ∈ sections, ∀ k, s.Has k → k ≠ .bss → s.s_scnptr.toNat + s.s_size.toNat ≤ input.length ∧
    slice out (noffH k).inFileAddr.toNat (noffH k).size.toNat = slice input s.s_scnptr.toNat s.s_size.toNat
  inside : ∀ k, k ≠ .bss → (noffH k).size ≠ 0 → noffHeader.size ≤ (noffH k).inFileAddr.toNat ∧
    (noffH k).inFileAddr.toNat + (noffH k).size.toNat ≤ out.length
  apart : ∀ k k', k ≠ .bss → k' ≠ .bss → k ≠ k' → (noffH k).size ≠ 0 → (noffH k').size ≠ 0 →
    (noffH k).inFileAddr.toNat + (noffH k).size.toNat ≤ (noffH k').inFileAddr.toNat ∨
      (noffH k').inFileAddr.toNat + (noffH k').size.toNat ≤ (noffH k).inFileAddr.toNat
  absent : ∀ k, (∀ s ∈ sections, ¬ s.Has k) → (noffH k).size = 0

theorem Scnhdr.Has.unique {s : Scnhdr} {k k' : Kind} (h : s.Has k) (h' : s.Has k') : k = k' :=
  Option.some.inj (h.2.symm.trans h'.2)

namespace Image

variable {input out : List Byte} {done : List Scnhdr} {noffH : Kind → Segment} {s : Scnhdr} {k : Kind}

theorem nil {noffH : Kind → Segment} (h0 : ∀ k, (noffH k).size = 0) : Image input [] noffH out where
  segment := by simp
  bytes := by simp
  inside := fun k _ h => absurd (h0 k) h
  apart := fun k _ _ _ _ h => absurd (h0 k) h
  absent := fun k _ => h0 k

/-- A section that is empty adds nothing. -/
theorem skip (h : Image input done noffH out) (hs : s.s_size = 0) : Image input (done ++ [s]) noffH out := by
  have hno : ∀ k, ¬ s.Has k := fun k hk => hk.1 hs
  have hmem : ∀ {t k}, t ∈ done ++ [s] → t.Has k → t ∈ done := by
    intro t k ht hk
    obtain ht | rfl := List.mem_append.mp ht |>.imp_right List.mem_singleton.mp
    · exact ht
    · exact absurd hk (hno k)
  exact
    { segment := fun t ht k hk => h.segment t (hmem ht hk) k hk
      bytes := fun t ht k hk => h.bytes t (hmem ht hk) k hk
      inside := h.inside
      apart := h.apart
      absent := fun k hk => h.absent k fun t ht => hk t (List.mem_append_left _ ht) }

/-- A section of a kind that was not there: the kinds from before keep their entries. -/
theorem add (h : Image input done noffH out) (hs : s.Has k) (hnew : ∀ t ∈ done, ¬ t.Has k) {seg : Segment}
    {out' : List Byte} (haddr : seg.virtualAddr = s.s_paddr) (hsize : seg.size = s.s_size)
    (hlen : out.length ≤ out'.length)
    (hkeep : ∀ off len, off + len ≤ out.length → slice out' off len = slice out off len)
    (hcopy : k ≠ .bss → s.s_scnptr.toNat + s.s_size.toNat ≤ input.length ∧
      slice out' seg.inFileAddr.toNat seg.size.toNat = slice input s.s_scnptr.toNat s.s_size.toNat)
    (hplace : k ≠ .bss → noffHeader.size ≤ seg.inFileAddr.toNat ∧ out.length ≤ seg.inFileAddr.toNat ∧
      seg.inFileAddr.toNat + seg.size.toNat ≤ out'.length) :
    Image input (done ++ [s]) (Function.update noffH k seg) out' := by
  have hold : ∀ {t j}, t ∈ done → t.Has j → j ≠ k := fun ht hj hjk => hnew _ ht (hjk ▸ hj)
  refine ⟨?_, ?_, ?_, ?_, ?_⟩
  · intro t ht j hj
    obtain ht | rfl := List.mem_append.mp ht |>.imp_right List.mem_singleton.mp
    · rw [Function.update_of_ne (hold ht hj)]
      exact h.segment t ht j hj
    · obtain rfl := hs.unique hj
      rw [Function.update_self]
      exact ⟨haddr, hsize⟩
  · intro t ht j hj hb
    obtain ht | rfl := List.mem_append.mp ht |>.imp_right List.mem_singleton.mp
    · rw [Function.update_of_ne (hold ht hj)]
      have hne : (noffH j).size ≠ 0 := by
        rw [(h.segment t ht j hj).2]
        exact hj.1
      rw [hkeep _ _ (h.inside j hb hne).2]
      exact h.bytes t ht j hj hb
    · obtain rfl := hs.unique hj
      rw [Function.update_self]
      exact hcopy hb
  · intro j hb
    obtain rfl | hj := eq_or_ne j k
    · rw [Function.update_self]
      exact fun _ => ⟨(hplace hb).1, (hplace hb).2.2⟩
    · rw [Function.update_of_ne hj]
      intro hne
      exact ⟨(h.inside j hb hne).1, (h.inside j hb hne).2.trans hlen⟩
  · intro i j hi hj hij
    obtain rfl | hik := eq_or_ne i k
    · rw [Function.update_self, Function.update_of_ne hij.symm]
      intro _ hne
      exact Or.inr ((h.inside j hj hne).2.trans (hplace hi).2.1)
    · rw [Function.update_of_ne hik]
      obtain rfl | hjk := eq_or_ne j k
      · rw [Function.update_self]
        intro hne _
        exact Or.inl ((h.inside i hi hne).2.trans (hplace hj).2.1)
      · rw [Function.update_of_ne hjk]
        exact h.apart i j hi hj hij
  · intro j hj
    have hjk : j ≠ k := fun e => hj s (by simp) (e ▸ hs)
    rw [Function.update_of_ne hjk]
    exact h.absent j fun t ht => hj t (List.mem_append_left _ ht)

theorem length_noffFields (noffH : Kind → Segment) : ∀ p ∈ noffHeader, (noffFields noffH p.1).length = p.2 := by
  simp [noffHeader, noffFields, Segment.bytes, wordBytes]

theorem ofBytes_bytes (seg : Segment) : Segment.ofBytes seg.bytes 0 = seg := by
  simp only [Segment.bytes, wordBytes, List.cons_append, List.nil_append, Segment.ofBytes, wordAt, Nat.reduceAdd,
    List.getD_cons_succ, List.getD_cons_zero, extractLsb'_bytes]

theorem noffSegment_patch (out : List Byte) (noffH : Kind → Segment) :
    noffSegment (patch out 0 (noffHeader.encode (noffFields noffH))) = noffH := by
  funext k
  have hk : some k ∈ noffHeader.map Prod.fst := by cases k <;> decide
  calc noffSegment (patch out 0 (noffHeader.encode (noffFields noffH))) k
      = .ofBytes (noffFields noffH (some k)) 0 := by
        unfold noffSegment patch
        rw [List.take_zero, Nat.zero_sub, List.replicate_zero, List.nil_append, List.nil_append,
          Layout.field_encode _ noffHeader (length_noffFields noffH) hk]
    _ = noffH k := ofBytes_bytes _

/-- The header is written over the start, where nothing else is. -/
theorem header (h : Image input done noffH out) :
    Image input done (noffSegment (patch out 0 (noffHeader.encode (noffFields noffH))))
      (patch out 0 (noffHeader.encode (noffFields noffH))) := by
  have hlen : (noffHeader.encode (noffFields noffH)).length = noffHeader.size := rfl
  rw [noffSegment_patch]
  refine ⟨h.segment, ?_, ?_, h.apart, h.absent⟩
  · intro s hs k hk hb
    have hne : (noffH k).size ≠ 0 := by
      rw [(h.segment s hs k hk).2]
      exact hk.1
    have hin := (h.inside k hb hne).1
    rw [slice_patch_after _ (by omega)]
    exact h.bytes s hs k hk hb
  · intro k hb hne
    rw [length_patch]
    have hin := h.inside k hb hne
    exact ⟨hin.1, hin.2.trans (le_max_left _ _)⟩

end Image

/-! ### The run -/

namespace Conversion

/-- The state of the loop after the sections `done`. -/
structure Loaded (input : List Byte) (done : List Scnhdr) (c : Conversion) : Prop where
  image : Image input done c.noffH c.fdOut.content
  fdIn : c.fdIn.content = input
  pos : c.fdOut.pos = c.inNoffFile.toNat
  header_le : noffHeader.size ≤ c.fdOut.pos
  length_le : c.fdOut.content.length ≤ c.fdOut.pos

variable {input : List Byte} {c c' : Conversion} {s : Scnhdr} {done : List Scnhdr}

theorem Loaded.copySection {k : Kind} (h : c.Loaded input done) (hc : c.copySection k s = .ok c')
    (hhost : 0 ≤ s.s_scnptr.toInt ∧ 0 ≤ s.s_size.toInt) (hs : s.Has k) (hnew : ∀ t ∈ done, ¬ t.Has k) :
    c'.Loaded input (done ++ [s]) := by
  obtain ⟨hmax, hptr, hin, hno, hH, hout⟩ := copySection_eq_ok hc hs.1 hhost.1 hhost.2
  rw [h.fdIn] at hptr hin hout
  have hsize := length_slice_eq hptr
  refine ⟨?_, hin, ?_, ?_, ?_⟩
  · rw [hH, hout]
    apply h.image.add hs hnew rfl rfl
    · rw [length_patch]
      exact le_max_left _ _
    · intro off len hle
      exact slice_patch_before _ (hle.trans h.length_le) hle
    · intro _
      refine ⟨hptr, ?_⟩
      simp only [← h.pos]
      have := slice_patch_self c.fdOut.content c.fdOut.pos (slice input s.s_scnptr.toNat s.s_size.toNat)
      rwa [hsize] at this
    · intro _
      simp only [← h.pos, length_patch, hsize]
      exact ⟨h.header_le, h.length_le, le_max_right _ _⟩
  · have hlt : c.inNoffFile.toNat + s.s_size.toNat < 2 ^ 32 := by
      rw [← h.pos]
      exact hmax.trans_lt (by decide)
    rw [hout, hno, BitVec.toNat_add_of_lt hlt, h.pos]
  · rw [hout]
    exact h.header_le.trans (Nat.le_add_right _ _)
  · rw [hout, length_patch, hsize]
    exact max_le (h.length_le.trans (Nat.le_add_right _ _)) le_rfl

theorem Loaded.recordBss (h : c.Loaded input done) (hc : c.recordBss s = .ok c') (hs : s.Has .bss)
    (hnew : ∀ t ∈ done, ¬ t.Has .bss) : c'.Loaded input (done ++ [s]) := by
  unfold Conversion.recordBss at hc
  rw [if_neg (not_not.mpr (h.image.absent .bss hnew))] at hc
  obtain rfl := Except.ok.inj hc
  refine ⟨?_, h.fdIn, h.pos, h.header_le, h.length_le⟩
  exact h.image.add hs hnew rfl rfl le_rfl (fun _ _ _ => rfl) (fun hb => absurd rfl hb) (fun hb => absurd rfl hb)

/-- One pass of the loop. -/
theorem Loaded.loadSection (h : c.Loaded input done) (hc : c.loadSection s = .ok c') (hhost : s.HostWorks)
    (hnew : ∀ k, s.Has k → ∀ t ∈ done, ¬ t.Has k) : c'.Loaded input (done ++ [s]) := by
  unfold Conversion.loadSection at hc
  split at hc
  · rename_i h0
    obtain rfl := Except.ok.inj hc
    exact ⟨h.image.skip h0, h.fdIn, h.pos, h.header_le, h.length_le⟩
  · rename_i h0
    split at hc
    · rename_i hk
      exact h.recordBss hc ⟨h0, hk⟩ (hnew _ ⟨h0, hk⟩)
    · rename_i k hb hk
      exact h.copySection hc (hhost k ⟨h0, hk⟩ hb) ⟨h0, hk⟩ (hnew _ ⟨h0, hk⟩)
    · cases hc

/-- The whole loop, by induction on the sections that are left. -/
theorem Loaded.loadSections : ∀ {l done : List Scnhdr} {c : Conversion}, c.Loaded input done →
    loadSections l c = .ok c' → (∀ s ∈ l, s.HostWorks) → (∀ k, (done ++ l).countP (fun s => s.Has k) ≤ 1) →
    c'.Loaded input (done ++ l)
  | [], done, c, h, hc, _, _ => by
    obtain rfl := Except.ok.inj hc
    rwa [List.append_nil]
  | s :: l, done, c, h, hc, hhost, hone => by
    obtain ⟨c₁, hs, hl⟩ := bind_eq_ok.mp hc
    obtain ⟨hw, hhost⟩ := List.forall_mem_cons.mp hhost
    rw [List.append_cons] at hone ⊢
    refine Loaded.loadSections (h.loadSection hs hw fun k hk t ht htk => ?_) hl hhost hone
    -- two sections of the kind
    have hcount := hone k
    have hdone : 0 < done.countP (fun s => s.Has k) := List.countP_pos_iff.mpr ⟨t, ht, decide_eq_true htk⟩
    rw [List.countP_append, List.countP_append, List.countP_singleton, if_pos (decide_eq_true hk)] at hcount
    omega

end Conversion

theorem field_slice {ι : Type*} [DecidableEq ι] {l : Layout ι} (input : List Byte) {f : ι}
    (h : l.offset f + l.width f ≤ l.size) : l.field (slice input 0 l.size) f = l.field input f := by
  unfold Layout.field slice
  rw [List.drop_zero, List.drop_take, List.take_take]
  congr 1
  omega

/-- The loop begins with an empty header, behind its place in the output. -/
structure Conversion.Begun (input : List Byte) (c : Conversion) : Prop where
  empty : ∀ k, (c.noffH k).size = 0
  fdIn : c.fdIn.content = input
  fdOut : c.fdOut = ⟨[], noffHeader.size⟩
  inNoffFile : c.inNoffFile = BitVec.ofNat 32 noffHeader.size

theorem coff2noff_cases (unset : Kind → Segment) (input : List Byte) :
    (∃ e, (e = .tooShort ∨ e = .notMipsel ∨ e = .notOmagic) ∧ coff2noff unset input = .error e) ∨
      ∃ c₀ : Conversion, c₀.Begun input ∧
        coff2noff unset input = (Conversion.loadSections (coffSections input) c₀).bind Conversion.writeHeader := by
  have hn : (ofLe16 (filehdr.field (slice input 0 filehdr.size) .f_nscns)).toNat = numsections input :=
    congrArg (fun b => (ofLe16 b).toNat) (field_slice input (by decide))
  unfold coff2noff
  dsimp only
  obtain herr | ⟨-, hok⟩ := Conversion.read_cases ⟨⟨input, 0⟩, ⟨[], 0⟩, unset, 0⟩
    (Int.natCast_nonneg filehdr.size)
  · exact Or.inl ⟨_, Or.inl rfl, by rw [herr]; rfl⟩
  rw [hok]
  simp only [Except.bind, Int.toNat_natCast]
  split
  · exact Or.inl ⟨_, Or.inr (Or.inl rfl), rfl⟩
  obtain herr | ⟨-, hok⟩ := Conversion.read_cases ⟨⟨input, 0 + filehdr.size⟩, ⟨[], 0⟩, unset, 0⟩
    (Int.natCast_nonneg aouthdr.size)
  · exact Or.inl ⟨_, Or.inl rfl, by rw [herr]⟩
  rw [hok]
  simp only [Int.toNat_natCast]
  split
  · exact Or.inl ⟨_, Or.inr (Or.inr rfl), rfl⟩
  obtain herr | ⟨-, hok⟩ := Conversion.read_cases ⟨⟨input, 0 + filehdr.size + aouthdr.size⟩, ⟨[], 0⟩, unset, 0⟩
    (Int.natCast_nonneg ((ofLe16 (filehdr.field (slice input 0 filehdr.size) .f_nscns)).toNat * scnhdr.size))
  · exact Or.inl ⟨_, Or.inl rfl, by rw [herr]⟩
  rw [hok]
  simp only [Int.toNat_natCast, hn]
  exact Or.inr ⟨_, ⟨fun k => rfl, rfl, rfl, rfl⟩, rfl⟩

theorem Conversion.writeHeader_eq (c : Conversion) :
    ∃ c', c.writeHeader = .ok c' ∧ noffSegment c'.fdOut.content = c.noffH := by
  have hlen : (noffHeader.encode (noffFields c.noffH)).length = noffHeader.size := rfl
  have htake : (noffHeader.encode (noffFields c.noffH)).take (min noffHeader.size (hostMax - 0)) =
      noffHeader.encode (noffFields c.noffH) := List.take_of_length_le (by rw [hlen]; decide)
  have hne : noffHeader.encode (noffFields c.noffH) ≠ [] := by
    intro hnil
    rw [hnil] at hlen
    cases hlen
  have hwrite : Descriptor.write ⟨c.fdOut.content, 0⟩ (noffHeader.encode (noffFields c.noffH)) noffHeader.size =
      ((noffHeader.size : ℤ),
        ⟨patch c.fdOut.content 0 (noffHeader.encode (noffFields c.noffH)), 0 + noffHeader.size⟩) := by
    unfold Descriptor.write
    rw [if_neg (by decide), Int.toNat_natCast]
    simp only [htake, if_neg hne, hlen]
  have hseek : (c.seekOut 0).fdOut = ⟨c.fdOut.content, 0⟩ := rfl
  unfold writeHeader write
  dsimp only
  rw [hseek, hwrite]
  exact ⟨_, if_neg (not_not_intro rfl), Image.noffSegment_patch _ _⟩

theorem coff2noff_eq_ok {unset : Kind → Segment} {input : List Byte} {c : Conversion}
    (h : coff2noff unset input = .ok c) : ∃ c₀ c₁ : Conversion,
      c₀.Loaded input [] ∧ Conversion.loadSections (coffSections input) c₀ = .ok c₁ ∧
      c.fdOut.content = patch c₁.fdOut.content 0 (noffHeader.encode (noffFields c₁.noffH)) := by
  obtain ⟨e, -, herr⟩ | ⟨c₀, hbegun, heq⟩ := coff2noff_cases unset input
  · rw [herr] at h
    cases h
  rw [heq] at h
  obtain ⟨c₁, hload, h⟩ := bind_eq_ok.mp h
  obtain ⟨-, rfl⟩ := Conversion.write_eq_ok h (by decide)
  refine ⟨c₀, c₁, ?_, hload, rfl⟩
  have hpos : c₀.fdOut.pos = noffHeader.size := by rw [hbegun.fdOut]
  refine ⟨Image.nil hbegun.empty, hbegun.fdIn, ?_, hpos.ge, ?_⟩
  · rw [hpos, hbegun.inNoffFile]
    rfl
  · rw [hbegun.fdOut]
    exact Nat.zero_le _

/-- **The output holds the image of the input.** The input is accepted, the
calls of the host work, and no kind has two sections that are not empty. -/
theorem coff2noff_keeps_image {unset : Kind → Segment} {input : List Byte} {c : Conversion}
    (h : coff2noff unset input = .ok c) (hhost : ∀ s ∈ coffSections input, s.HostWorks)
    (hone : ∀ k, (coffSections input).countP (fun s => s.Has k) ≤ 1) :
    Image input (coffSections input) (noffSegment c.fdOut.content) c.fdOut.content := by
  obtain ⟨c₀, c₁, h₀, hload, hout⟩ := coff2noff_eq_ok h
  have hl := h₀.loadSections hload hhost hone
  rw [hout]
  exact hl.image.header

/-- A COFF file with the given section headers; `body` is what follows them. -/
def coffFile (sections : List Scnhdr) (body : List Byte) : List Byte :=
  filehdr.encode (fun
    | .f_magic => le16 MIPSELMAGIC
    | .f_nscns => le16 (BitVec.ofNat 16 sections.length)
    | .f_opthdr | .f_flags => le16 0
    | _ => le32 0) ++
  aouthdr.encode (fun
    | .magic => le16 OMAGIC
    | .vstamp => le16 0
    | .cprmask => List.replicate 16 0
    | _ => le32 0) ++
  sections.flatMap (fun s => scnhdr.encode fun
    | .s_name => s.s_name
    | .s_paddr => le32 s.s_paddr
    | .s_size => le32 s.s_size
    | .s_scnptr => le32 s.s_scnptr
    | .s_nreloc | .s_nlnno => le16 0
    | _ => le32 0) ++
  body

/-- The header of a section of a kind. -/
def Kind.scnhdr (k : Kind) (s_paddr s_size s_scnptr : BitVec 32) : Scnhdr :=
  ⟨(Bytes.pad 8 k.name).1, s_paddr, s_size, s_scnptr⟩

/-- Data before code, an empty section between them, and `.bss`. -/
def dataThenCode : List Byte :=
  coffFile [Kind.data.scnhdr 0x80 2 236, Kind.rdata.scnhdr 0x40 0 0, Kind.bss.scnhdr 0x100 16 0,
    Kind.text.scnhdr 0 3 237] [10, 11, 12, 13]

theorem coff2noff_keeps_dataThenCode : ∃ c, coff2noff (fun _ => ⟨0, 0, 0⟩) dataThenCode = .ok c ∧
    (∀ s ∈ coffSections dataThenCode, s.HostWorks) ∧
    Image dataThenCode (coffSections dataThenCode) (noffSegment c.fdOut.content) c.fdOut.content := by
  have hone : ∀ k, (coffSections dataThenCode).countP (fun s => s.Has k) ≤ 1 := by
    intro k
    cases k <;> decide +kernel
  have hsections : ∀ s ∈ coffSections dataThenCode, 0 ≤ s.s_scnptr.toInt ∧ 0 ≤ s.s_size.toInt := by decide +kernel
  have hhost : ∀ s ∈ coffSections dataThenCode, s.HostWorks := fun s hs _ _ _ => hsections s hs
  have hrun : (coff2noff (fun _ => ⟨0, 0, 0⟩) dataThenCode).toOption.isSome := by decide +kernel
  obtain ⟨c, hc⟩ := Option.isSome_iff_exists.mp hrun
  have h := eq_ok_of_toOption hc
  exact ⟨c, h, hhost, coff2noff_keeps_image h hhost hone⟩

-- A size of -1 passes both comparisons, and the next section is recorded one byte early.
example : (coff2noff (fun _ => ⟨0, 0, 0⟩) (coffFile [Kind.text.scnhdr 0 (-1) 156, Kind.data.scnhdr 0 1 156] [10])
    ).toOption.map (fun c => (noffSegment c.fdOut.content .data).inFileAddr) = some 51 := by
  decide +kernel

end Nachos
