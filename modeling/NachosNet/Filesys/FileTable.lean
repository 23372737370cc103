/-
# The open files of a process

`FileTable` of `filesys/filetable.h` over the `OpenFile` that passes its calls on to
the host (`filesys/openfile.h`). The files of the host are arrays of bytes. A call
of the host that fails is `fails`; an assertion that fails, an index before the
table and a negative number of bytes are `none`.

Key definitions: `OpenFile`, `FileTable.insert`, `FileTable.remove`, `FileTable.read`, `FileTable.write`,
`FileTable.seek`.
-/
import NachosNet.Basis.Bytes

namespace Nachos

open Basis

def fileMax : ℕ := 10

def modeReadWrite : ℤ := 0

def modeRead : ℤ := 1

def modeWrite : ℤ := 2

abbrev HostFiles := ℕ → List Byte

/-- An open file: the file of the host, and where the next access is. -/
structure OpenFile where
  file : ℕ
  currentOffset : ℤ

namespace OpenFile

/-- `ReadAt`: the result, and the array `into` afterwards. -/
def readAt (files : HostFiles) (f : OpenFile) (fails : Bool) (into : List Byte) (numBytes position : ℤ) :
    Option (ℤ × List Byte) :=
  if position < 0 ∨ numBytes < 0 then none
  else if fails then some (-1, into)
  else
    let got := ((files f.file).drop position.toNat).take numBytes.toNat
    some (got.length, got ++ into.drop got.length)

/-- `WriteAt`: the result, and the files afterwards. A write of no bytes leaves the file. -/
def writeAt (files : HostFiles) (f : OpenFile) (fails : Bool) (src : List Byte) (numBytes position : ℤ) :
    Option (ℤ × HostFiles) :=
  if position < 0 ∨ numBytes < 0 ∨ fails then none
  else
    let old := files f.file
    let start := old.take position.toNat ++ List.replicate (position.toNat - old.length) 0
    let new := if numBytes = 0 then old else start ++ src.take numBytes.toNat ++ old.drop (position + numBytes).toNat
    some (numBytes, Function.update files f.file new)

def read (files : HostFiles) (f : OpenFile) (fails : Bool) (into : List Byte) (numBytes : ℤ) :
    Option (ℤ × List Byte × OpenFile) :=
  (f.readAt files fails into numBytes f.currentOffset).map fun r =>
    (r.1, r.2, { f with currentOffset := f.currentOffset + r.1 })

def write (files : HostFiles) (f : OpenFile) (fails : Bool) (src : List Byte) (numBytes : ℤ) :
    Option (ℤ × HostFiles × OpenFile) :=
  (f.writeAt files fails src numBytes f.currentOffset).map fun r =>
    (r.1, r.2, { f with currentOffset := f.currentOffset + r.1 })

def length (files : HostFiles) (f : OpenFile) : ℤ := (files f.file).length

/-- `Seek`: the result, and the open file afterwards. -/
def seek (f : OpenFile) (position : ℤ) : ℤ × OpenFile := (position, { f with currentOffset := position })

end OpenFile

structure FileTable where
  openFile : ℕ → Option OpenFile
  fileOpenMode : ℕ → ℤ

namespace FileTable

/-- `FileTable()`, where the memory was zero before. -/
def init : FileTable where
  openFile := fun _ => none
  fileOpenMode := fun i => if i = 0 then modeRead else if i = 1 then modeWrite else 0

/-- The first loop of `Insert`. -/
def freeIndex (t : FileTable) : Option ℕ := (List.range' 2 (fileMax - 2)).find? fun i => (t.openFile i).isNone

/-- `fileDescriptor` in `Insert`; `host` is what the host's open gives. -/
def opened (host : Option ℕ) (openMode : ℤ) : Option ℕ :=
  if openMode = modeReadWrite ∨ openMode = modeRead then host else none

/-- `Insert`: the result and the table afterwards. -/
def insert (t : FileTable) (host : Option ℕ) (openMode : ℤ) : ℤ × FileTable :=
  match t.freeIndex with
  | none => (-1, t)
  | some freeIndex =>
    match opened host openMode with
    | none => (-1, t)
    | some fileDescriptor =>
      (freeIndex,
        { openFile := Function.update t.openFile freeIndex (some ⟨fileDescriptor, 0⟩)
          fileOpenMode := Function.update t.fileOpenMode freeIndex openMode })

/-- `Remove`: the result and the table afterwards. -/
def remove (t : FileTable) (index : ℤ) : ℤ × FileTable :=
  if index < 2 ∨ fileMax ≤ index then (-1, t)
  else match t.openFile index.toNat with
    | some _ => (0, { t with openFile := Function.update t.openFile index.toNat none })
    | none => (-1, t)

def set (t : FileTable) (index : ℤ) (f : OpenFile) : FileTable :=
  { t with openFile := Function.update t.openFile index.toNat (some f) }

/-- `Read`: the result, the array `buffer` and the table afterwards. -/
def read (files : HostFiles) (t : FileTable) (fails : Bool) (buffer : List Byte) (charCount index : ℤ) :
    Option (ℤ × List Byte × FileTable) :=
  if fileMax ≤ index then some (-1, buffer, t)
  else if index < 0 then none
  else match t.openFile index.toNat with
    | none => some (-1, buffer, t)
    | some f => (f.read files fails buffer charCount).map fun r =>
      (if r.1 ≠ charCount then -2 else r.1, r.2.1, t.set index r.2.2)

/-- `Write`: the result, the files and the table afterwards. -/
def write (files : HostFiles) (t : FileTable) (fails : Bool) (buffer : List Byte) (charCount index : ℤ) :
    Option (ℤ × HostFiles × FileTable) :=
  if fileMax ≤ index then some (-1, files, t)
  else if index < 0 then none
  else match t.openFile index.toNat with
    | none => some (-1, files, t)
    | some f =>
      if t.fileOpenMode index.toNat = modeRead then some (-1, files, t)
      else (f.write files fails buffer charCount).map fun r => (r.1, r.2.1, t.set index r.2.2)

/-- `Seek`: the result and the table afterwards. -/
def seek (files : HostFiles) (t : FileTable) (pos index : ℤ) : ℤ × FileTable :=
  if index ≤ 1 ∨ fileMax ≤ index then (-1, t)
  else match t.openFile index.toNat with
    | none => (-1, t)
    | some f =>
      let pos := if pos = -1 then f.length files else pos
      if pos < 0 ∨ f.length files < pos then (-1, t)
      else ((f.seek pos).1, t.set index (f.seek pos).2)

end FileTable

end Nachos
