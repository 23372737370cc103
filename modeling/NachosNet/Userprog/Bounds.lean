/-
# What the user passes to the kernel

The handlers of `userprog/exception.cc` that are given sizes, file ids or names,
with every allocation, every index and every copy of the kernel checked. Sizes
and ids are the user's, so each is any `int`, and a name is any string.

A call makes no access out of bounds exactly when its arguments are `InRange`
(`handle_safe_iff`): `Seek` and `Close` check both ends; `Read` and `Write` take a
negative file id, and -1 as the size of an open file; `ReadString` and `Recv_Msg`
take a negative size; `CreateSemaphore` and `Exec` copy a name of any length
(`out_of_bounds`).

The checked `Read`, `Write` and `Recv_Msg` are those of `Buffers` and `Message`
where they make no such access (`checkedRead_eq`, `checkedWrite_eq`, `checkedRecvMsg_eq`).

Key definitions: `Kernel.handle`, `Kernel.InRange`.
-/
import NachosNet.Basis.Checked
import NachosNet.Threads.Process
import NachosNet.Threads.STable
import NachosNet.Userprog.Buffers

namespace Nachos

open Basis Checked

/-! ### Strings -/

/-- `strlen` from `i` on, for an array of `size` bytes of which `rest` is left. -/
def strlenFrom (size : ℕ) : ℕ → List Byte → Checked ℕ
  | i, [] => .fault (.index size i)
  | i, c :: rest => if c = 0 then .done i else strlenFrom size (i + 1) rest

def checkedStrlen (str : List Byte) : Checked ℕ := strlenFrom str.length 0 str

namespace Machine

/-- The second loop of `stringUser2System` from `i` on, for the `n` bytes that are left. -/
def copyInto (addr : BitVec 32) : ℕ → ℕ → List Byte → Machine → Checked (List Byte × Machine)
  | 0, _, str, m => .done (str, m)
  | n + 1, i, str, m =>
    match m.readMem (addr + BitVec.ofNat 32 i) .byte with
    | .error _ => .stopped
    | .ok (oneChar, m) => (put str i (oneChar.extractLsb' 0 8)).bind fun str => copyInto addr n (i + 1) str m

def checkedUser2System (fuel : ℕ) (m : Machine) (addr : BitVec 32) (convertLength : ℤ) :
    Checked (List Byte × Machine) :=
  match lengthLoop addr convertLength fuel 0 m with
  | .error _ => .stopped
  | .ok (length, m) => (alloc length).bind fun str => copyInto addr length 0 str m

/-- The loop of `StringSys2User` from `i` on, for the `n` bytes that are left. -/
def writeFrom (str : List Byte) (addr : BitVec 32) : ℕ → ℕ → Machine → Checked Machine
  | 0, _, m => .done m
  | n + 1, i, m => (get str i).bind fun c =>
    match m.writeMem (addr + BitVec.ofNat 32 i) .byte (c.signExtend 32) with
    | .error _ => .stopped
    | .ok m => writeFrom str addr n (i + 1) m

def checkedSys2User (m : Machine) (str : List Byte) (addr : BitVec 32) (convertLength : ℤ) : Checked Machine :=
  (if convertLength = -1 then (checkedStrlen str).map Int.ofNat else .done convertLength).bind fun length =>
    (writeFrom str addr length.toNat 0 m).bind fun m =>
      ofExcept (m.writeMem (addr + BitVec.ofInt 32 length) .byte 0)

end Machine

/-! ### The calls -/

/-- The loop of `SysReadString` from `i` on, for the `n` characters that are left. -/
def readChars : ℕ → ℕ → List Byte → List Byte → Checked (List Byte × List Byte)
  | 0, _, buffer, keys => .done (buffer, keys)
  | _ + 1, _, _, [] => .stopped
  | n + 1, i, buffer, c :: keys => (put buffer i c).bind fun buffer => readChars n (i + 1) buffer keys

/-- `SysReadString`: the buffer and the keys left. -/
def sysReadString (length : ℤ) (keys : List Byte) : Checked (List Byte × List Byte) :=
  (alloc (toInt (length + 1))).bind fun buffer => (readChars length.toNat 0 buffer keys).bind fun r =>
    (put r.1 length 0).map fun buffer => (buffer, r.2)

def maxReadStringLength : ℤ := 255

/-- `handle_SC_ReadString`: the keys left and the machine. `SysHalt` does not come back. -/
def checkedReadString (m : Machine) (keys : List Byte) (memPtr : BitVec 32) (length : ℤ) :
    Checked (List Byte × Machine) :=
  if maxReadStringLength < length then .stopped
  else (sysReadString length keys).bind fun r => (m.checkedSys2User r.1 memPtr (-1)).map fun m => (r.2, m)

/-- `GetString` with `n` characters left to read. -/
def checkedGetString (size : ℤ) : ℕ → List Byte → List Byte → Checked (ℤ × List Byte × List Byte)
  | 0, buffer, keys => .done (size, buffer, keys)
  | _ + 1, _, [] => .stopped
  | n + 1, buffer, c :: keys =>
    let i := size.toNat - (n + 1)
    (put buffer i c).bind fun buffer =>
      if c = eof then (put buffer i 0).map fun buffer => (-2, buffer, keys) else checkedGetString size n buffer keys

/-- `PutString` from `i` on, with `n` characters left: what is displayed. -/
def checkedPutString (buffer : List Byte) : ℕ → ℕ → Checked (List Byte)
  | 0, _ => .done []
  | n + 1, i => (get buffer i).bind fun c => (checkedPutString buffer n (i + 1)).map (c :: ·)

namespace FileTable

/-- `Read`. -/
def checkedRead (files : HostFiles) (t : FileTable) (fails : Bool) (buffer : List Byte) (charCount index : ℤ) :
    Checked (ℤ × List Byte × FileTable) :=
  if fileMax ≤ index then .done (-1, buffer, t)
  else (check (.index fileMax index)).bind fun _ =>
    match t.openFile index.toNat with
    | none => .done (-1, buffer, t)
    | some f =>
      -- the assertion in `Lseek`
      if f.currentOffset < 0 then .stopped
      else (check (.block buffer.length charCount)).bind fun _ =>
        ofOption ((f.read files fails buffer charCount).map fun r =>
          (if r.1 ≠ charCount then -2 else r.1, r.2.1, t.set index r.2.2))

/-- `Write`. -/
def checkedWrite (files : HostFiles) (t : FileTable) (fails : Bool) (buffer : List Byte) (charCount index : ℤ) :
    Checked (ℤ × HostFiles × FileTable) :=
  if fileMax ≤ index then .done (-1, files, t)
  else (check (.index fileMax index)).bind fun _ =>
    match t.openFile index.toNat with
    | none => .done (-1, files, t)
    | some f =>
      if t.fileOpenMode index.toNat = modeRead then .done (-1, files, t)
      else if f.currentOffset < 0 then .stopped
      else (check (.block buffer.length charCount)).bind fun _ =>
        ofOption ((f.write files fails buffer charCount).map fun r => (r.1, r.2.1, t.set index r.2.2))

/-- `Seek`. -/
def checkedSeek (files : HostFiles) (t : FileTable) (pos index : ℤ) : Checked (ℤ × FileTable) :=
  if index ≤ 1 ∨ fileMax ≤ index then .done (-1, t)
  else (check (.index fileMax index)).map fun _ => t.seek files pos index

/-- `Remove`. -/
def checkedRemove (t : FileTable) (index : ℤ) : Checked (ℤ × FileTable) :=
  if index < 2 ∨ fileMax ≤ index then .done (-1, t)
  else (check (.index fileMax index)).map fun _ => t.remove index

end FileTable

namespace Io

/-- `SysRead`. -/
def checkedRead (io : Io) (fails : Bool) (buffer : List Byte) (charCount fileId : ℤ) : Checked (ℤ × List Byte × Io) :=
  if fileId = 0 then
    (checkedGetString charCount charCount.toNat buffer io.keys).map fun r => (r.1, r.2.1, { io with keys := r.2.2 })
  else (io.table.checkedRead io.files fails buffer charCount fileId).map fun r =>
    (r.1, r.2.1, { io with table := r.2.2 })

/-- `SysWrite`. -/
def checkedWrite (io : Io) (fails : Bool) (buffer : List Byte) (charCount fileId : ℤ) : Checked (ℤ × Io) :=
  if fileId = 1 then
    (checkedPutString buffer charCount.toNat 0).map fun shown =>
      (charCount, { io with display := io.display ++ shown })
  else (io.table.checkedWrite io.files fails buffer charCount fileId).map fun r =>
    (r.1, { io with files := r.2.1, table := r.2.2 })

/-- `SysSeek`. -/
def checkedSeek (io : Io) (seekPos fileId : ℤ) : Checked (ℤ × Io) :=
  if fileId ≤ 1 then .done (-1, io)
  else (io.table.checkedSeek io.files seekPos fileId).map fun r => (r.1, { io with table := r.2 })

/-- `SysClose`. -/
def checkedClose (io : Io) (id : ℤ) : Checked (ℤ × Io) :=
  (io.table.checkedRemove id).map fun r => (r.1, { io with table := r.2 })

end Io

/-- `handle_SC_Read`. -/
def checkedRead (fuel : ℕ) (io : Io) (fails : Bool) (m : Machine) (virtAddr : BitVec 32) (charCount fileId : ℤ) :
    Checked (ℤ × Io × Machine) :=
  (m.checkedUser2System fuel virtAddr charCount).bind fun (buffer, m) =>
    (io.checkedRead fails buffer charCount fileId).bind fun (result, buffer, io) =>
      (m.checkedSys2User buffer virtAddr charCount).map fun m => (result, io, m)

/-- `handle_SC_Write`. -/
def checkedWrite (fuel : ℕ) (io : Io) (fails : Bool) (m : Machine) (virtAddr : BitVec 32) (charCount fileId : ℤ) :
    Checked (ℤ × Io × Machine) :=
  (m.checkedUser2System fuel virtAddr charCount).bind fun (buffer, m) =>
    (io.checkedWrite fails buffer charCount fileId).bind fun (result, io) =>
      (m.checkedSys2User buffer virtAddr charCount).map fun m => (result, io, m)

/-- `getData`. -/
def Sockets.checkedGetData (k : Sockets) (msg : List Byte) (size sockID : ℤ) : Checked (ℤ × List Byte × Sockets) :=
  if k.portOf sockID = -1 then .done (-1, msg, k)
  else (ofOption (k.removeFront (k.portOf sockID))).bind fun (p, k) =>
    (check (.block msg.length (min size p.1))).bind fun _ =>
      (check (.block p.2.length (min size p.1))).map fun _ => (1, memcpy msg p.2 (min size p.1).toNat, k)

/-- `handle_SC_Recv_Msg`; the string `str` is made from `msg` and not used. -/
def checkedRecvMsg (k : Sockets) (m : Machine) (sockID : ℤ) (virtAddr : BitVec 32) (size : ℤ) :
    Checked (ℤ × Sockets × Machine) :=
  (alloc (toInt (size + 1))).bind fun msg => (k.checkedGetData msg size sockID).bind fun (result, msg, k) =>
    (checkedStrlen msg).bind fun _ => (m.checkedSys2User msg virtAddr (-1)).map fun m => (result, k, m)

/-- `Create`; `Sem::Sem` copies the name with its terminator. -/
def STable.checkedCreate {τ : Type*} (s : STable τ) (unset : Bytes 50) (name : CString) (init : ℤ) :
    Checked (ℤ × STable τ) :=
  match s.search name with
  | none => .stopped
  | some (some _) => .done (-1, s)
  | some none =>
    if s.bm.findAndSet.1 < 0 then .done (-1, ⟨s.bm.findAndSet.2, s.semTab⟩)
    else (check (.block 50 (name.1.length + 1))).bind fun _ => ofOption (s.create unset name init)

/-- `ExecUpdate` up to the call of `SetFileName`, which copies the name with its terminator. -/
def PTable.checkedExec {n : ℕ} (s : PTable n) (t : Fin n) (name : CString) : Checked Unit :=
  if name.1 = (s.name t).1 then .done ()
  else match s.getFreeSlot with
    | none => .done ()
    | some _ => check (.block 128 (name.1.length + 1))

/-! ### The handlers -/

/-- The system calls that take a size, a file id or a name to be kept. -/
inductive SC
  | readString | read | write | seek | close | recvMsg | createSemaphore | exec
  deriving DecidableEq

/-- What the handlers use of the kernel. -/
structure Kernel (n : ℕ) where
  machine : Machine
  io : Io
  sockets : Sockets
  semTab : STable (Fin n)
  pTab : PTable n
  currentThread : Fin n

/-- What the host does: whether its calls on files fail, which programs it can
open, and what is in memory that has not been set. -/
structure HostState where
  fails : Bool
  opens : List Byte → Bool
  unset : Bytes 50

namespace Kernel

variable {n : ℕ}

/-- The handler of a system call with the registers `r`, as far as its accesses go. -/
def handle (fuel : ℕ) (host : HostState) (k : Kernel n) (r : ℕ → BitVec 32) : SC → Checked Unit
  | .readString => (checkedReadString k.machine k.io.keys (r 4) (r 5).toInt).map fun _ => ()
  | .read => (checkedRead fuel k.io host.fails k.machine (r 4) (r 5).toInt (r 6).toInt).map fun _ => ()
  | .write => (checkedWrite fuel k.io host.fails k.machine (r 4) (r 5).toInt (r 6).toInt).map fun _ => ()
  | .seek => (k.io.checkedSeek (r 4).toInt (r 5).toInt).map fun _ => ()
  | .close => (k.io.checkedClose (r 4).toInt).map fun _ => ()
  | .recvMsg => (checkedRecvMsg k.sockets k.machine (r 4).toInt (r 5) (r 6).toInt).map fun _ => ()
  | .createSemaphore => (k.machine.checkedUser2System fuel (r 4) (-1)).bind fun (name, _) =>
      (k.semTab.checkedCreate host.unset (.ofArray name) (r 5).toInt).map fun _ => ()
  | .exec => (k.machine.checkedUser2System fuel (r 4) (-1)).bind fun (name, _) =>
      if host.opens (cstr name) then k.pTab.checkedExec k.currentThread (.ofArray name) else .done ()

/-- The arguments that keep the call inside the arrays. -/
def InRange (fuel : ℕ) (host : HostState) (k : Kernel n) (r : ℕ → BitVec 32) : SC → Prop
  | .readString => 0 ≤ (r 5).toInt
  | .read => ∀ buffer m, k.machine.stringUser2System fuel (r 4) (r 5).toInt = .ok (buffer, m) →
      0 ≤ (r 6).toInt ∧ ((r 5).toInt = -1 → (r 6).toInt = 0 ∨ fileMax ≤ (r 6).toInt ∨
        ∀ f, k.io.table.openFile (r 6).toInt.toNat = some f → f.currentOffset < 0)
  | .write => ∀ buffer m, k.machine.stringUser2System fuel (r 4) (r 5).toInt = .ok (buffer, m) →
      0 ≤ (r 6).toInt ∧ ((r 5).toInt = -1 → (r 6).toInt = 1 ∨ fileMax ≤ (r 6).toInt ∨
        ∀ f, k.io.table.openFile (r 6).toInt.toNat = some f →
          k.io.table.fileOpenMode (r 6).toInt.toNat = modeRead ∨ f.currentOffset < 0)
  | .seek | .close => True
  | .recvMsg => -1 ≤ (r 6).toInt ∧ (r 6).toInt < maxInt ∧
      if k.sockets.portOf (r 4).toInt = -1 then (r 6).toInt ≠ -1
      else ∀ p s, k.sockets.removeFront (k.sockets.portOf (r 4).toInt) = some (p, s) →
        0 ≤ min (r 6).toInt p.1 ∧ min (r 6).toInt p.1 ≤ p.2.length
  | .createSemaphore => ∀ name m, k.machine.stringUser2System fuel (r 4) (-1) = .ok (name, m) →
      k.semTab.search (.ofArray name) = some none → 0 ≤ k.semTab.bm.findAndSet.1 → (cstr name).length < 50
  | .exec => ∀ name m, k.machine.stringUser2System fuel (r 4) (-1) = .ok (name, m) →
      host.opens (cstr name) → cstr name ≠ (k.pTab.name k.currentThread).1 → k.pTab.getFreeSlot ≠ none →
      (cstr name).length < 128

end Kernel

/-! ### The loops stay in their arrays -/

theorem strlenFrom_eq {size : ℕ} : ∀ {rest : List Byte} {i : ℕ}, 0 ∈ rest →
    strlenFrom size i rest = .done (i + strlen rest)
  | c :: rest, i, h => by
    unfold strlenFrom strlen
    by_cases hc : c = 0
    · simp [hc]
    · have hrest : 0 ∈ rest := (List.mem_cons.mp h).resolve_left (Ne.symm hc)
      have htake : (c :: rest).takeWhile (· ≠ 0) = c :: rest.takeWhile (· ≠ 0) :=
        List.takeWhile_cons_of_pos (decide_eq_true hc)
      rw [if_neg hc, strlenFrom_eq hrest, htake, List.length_cons]
      unfold strlen
      rw [Nat.add_right_comm, Nat.add_assoc]

theorem checkedStrlen_eq {str : List Byte} (h : 0 ∈ str) : checkedStrlen str = .done (strlen str) := by
  unfold checkedStrlen
  rw [strlenFrom_eq h, Nat.zero_add]

theorem strlen_le_length (str : List Byte) : strlen str ≤ str.length := (List.takeWhile_sublist _).length_le

namespace Machine

variable {m m' : Machine} {addr : BitVec 32} {fuel : ℕ}

theorem copyInto_eq : ∀ (n i : ℕ) (front : List Byte) (m : Machine), front.length = i →
    copyInto addr n i (front ++ List.replicate n 0) m =
      (ofExcept (copyLoop addr n i m)).map fun r => (front ++ r.1, r.2)
  | 0, i, front, m, _ => by simp [copyInto, copyLoop]
  | n + 1, i, front, m, hi => by
    unfold copyInto copyLoop
    cases hread : m.readMem (addr + BitVec.ofNat 32 i) .byte with
    | error e => rfl
    | ok r =>
      obtain ⟨oneChar, m₁⟩ := r
      have hset : (front ++ List.replicate (n + 1) 0).set i (oneChar.extractLsb' 0 8) =
          (front ++ [oneChar.extractLsb' 0 8]) ++ List.replicate n 0 := by
        rw [← hi, List.set_append_right _ _ (le_refl _), Nat.sub_self, List.replicate_succ, List.set_cons_zero,
          List.append_assoc, List.singleton_append]
      have hlt : i < (front ++ List.replicate (n + 1) (0 : Byte)).length := by
        rw [List.length_append, List.length_replicate]
        omega
      simp only [put_eq hlt, hset, bind_done]
      rw [copyInto_eq n (i + 1) _ m₁ (by rw [List.length_append, hi, List.length_singleton])]
      cases copyLoop addr n (i + 1) m₁ with
      | error e => rfl
      | ok r => simp [Except.map]

theorem checkedUser2System_eq (m : Machine) (convertLength : ℤ) :
    m.checkedUser2System fuel addr convertLength = ofExcept (m.stringUser2System fuel addr convertLength) := by
  unfold checkedUser2System stringUser2System
  cases lengthLoop addr convertLength fuel 0 m with
  | error e => rfl
  | ok r =>
    obtain ⟨length, m₁⟩ := r
    have hcopy := @copyInto_eq addr length 0 [] m₁ rfl
    rw [List.nil_append] at hcopy
    simp only [alloc_eq, bind_done, hcopy]
    cases copyLoop addr length 0 m₁ with
    | error e => rfl
    | ok r => rfl

theorem writeFrom_eq {str : List Byte} : ∀ (n i : ℕ) (m : Machine), i + n ≤ str.length →
    writeFrom str addr n i m = ofExcept (writeLoop addr i ((str.drop i).take n) m)
  | 0, i, m, _ => by
    rw [List.take_zero]
    rfl
  | n + 1, i, m, h => by
    have hi : i < str.length := by omega
    have hdrop : (str.drop i).take (n + 1) = str.getD i 0 :: (str.drop (i + 1)).take n := by
      rw [List.drop_eq_getElem_cons hi, List.take_succ_cons]
      simp [hi]
    unfold writeFrom
    rw [hdrop, get_eq hi]
    simp only [bind_done, writeLoop]
    cases m.writeMem (addr + BitVec.ofNat 32 i) .byte ((str.getD i 0).signExtend 32) with
    | error e => rfl
    | ok m₁ => exact writeFrom_eq n (i + 1) m₁ (by omega)

/-- The bytes that are copied out are in the array. -/
def Ready (str : List Byte) (convertLength : ℤ) : Prop :=
  if convertLength = -1 then 0 ∈ str else convertLength ≤ str.length

theorem checkedSys2User_eq {str : List Byte} {convertLength : ℤ} (h : Ready str convertLength) :
    m.checkedSys2User str addr convertLength = ofExcept (m.stringSys2User str addr convertLength) := by
  unfold Ready at h
  have hcore : ∀ length : ℤ, length ≤ str.length →
      ((writeFrom str addr length.toNat 0 m).bind fun m =>
        ofExcept (m.writeMem (addr + BitVec.ofInt 32 length) .byte 0)) =
      ofExcept (match writeLoop addr 0 (str.take length.toNat) m with
        | .error e => .error e
        | .ok m => m.writeMem (addr + BitVec.ofInt 32 length) .byte 0) := by
    intro length hle
    rw [writeFrom_eq _ 0 m (by omega), List.drop_zero]
    cases writeLoop addr 0 (str.take length.toNat) m with
    | error e => rfl
    | ok m₁ => rfl
  unfold checkedSys2User stringSys2User
  by_cases hc : convertLength = -1
  · rw [if_pos hc] at h
    simp only [if_pos hc, checkedStrlen_eq h]
    exact hcore (strlen str) (Int.ofNat_le.mpr (strlen_le_length str))
  · rw [if_neg hc] at h
    simp only [if_neg hc]
    exact hcore convertLength h

theorem lengthLoop_zero : ∀ (fuel length l : ℕ) (m m' : Machine), lengthLoop addr (-1) fuel length m = .ok (l, m') →
    SameView m m' ∧ ∃ j, l = j + 1 ∧ m.byteAt (addr + BitVec.ofNat 32 j) = some 0
  | 0, _, _, _, _, h => by cases h
  | fuel + 1, length, l, m, m', h => by
    simp only [lengthLoop] at h
    split at h
    · cases h
    · rename_i oneChar m₁ hread
      obtain ⟨hsame, b, hb, rfl⟩ := readMem_ok hread
      split at h
      · rename_i hstop
        obtain ⟨rfl, rfl⟩ := Prod.mk.inj (Except.ok.inj h)
        have h0 : b.signExtend 32 = 0 := by
          rcases hstop with ⟨h0, -⟩ | hneg
          · exact h0
          · omega
        exact ⟨hsame, length, rfl, signExtend_eq_zero.mp h0 ▸ hb⟩
      · obtain ⟨hsame', j, hj, hzero⟩ := lengthLoop_zero fuel (length + 1) l m₁ m' h
        exact ⟨hsame.trans hsame', j, hj, (hsame.byteAt_eq _).symm.trans hzero⟩

theorem ready_of_stringUser2System {convertLength : ℤ} {buffer : List Byte}
    (h : m.stringUser2System fuel addr convertLength = .ok (buffer, m')) : Ready buffer convertLength := by
  unfold stringUser2System at h
  split at h
  · cases h
  · rename_i l m₁ hloop
    obtain ⟨-, hlen, hholds⟩ := copyLoop_ok l 0 m₁ m' buffer h
    unfold Ready
    split
    · rename_i hc
      rw [hc] at hloop
      obtain ⟨hsame, j, rfl, hzero⟩ := lengthLoop_zero fuel 0 l m m₁ hloop
      have hj : j < buffer.length := by omega
      have hb := hholds j buffer[j] (List.getElem?_eq_getElem hj)
      rw [add_ofNat_add, Nat.zero_add, hsame.byteAt_eq, hzero] at hb
      rw [Option.some.inj hb]
      exact List.getElem_mem hj
    · rename_i hc
      have hl := (lengthLoop_ok hc fuel 0 l m m₁ hloop).1
      omega

theorem length_of_stringUser2System {convertLength : ℤ} {buffer : List Byte} (hc : convertLength ≠ -1)
    (h : m.stringUser2System fuel addr convertLength = .ok (buffer, m')) : (buffer.length : ℤ) = convertLength := by
  unfold stringUser2System at h
  split at h
  · cases h
  · rename_i l m₁ hloop
    obtain ⟨-, hlen, -⟩ := copyLoop_ok l 0 m₁ m' buffer h
    rw [hlen]
    exact (lengthLoop_ok hc fuel 0 l m m₁ hloop).1

end Machine

/-! ### The calls -/

theorem readChars_ensures : ∀ {n i : ℕ} {buffer keys : List Byte}, i + n ≤ buffer.length →
    (readChars n i buffer keys).Ensures fun r => r.1.length = buffer.length
  | 0, _, _, _, _ => rfl
  | n + 1, _, _, [], _ => trivial
  | n + 1, i, buffer, c :: keys, h => by
    unfold readChars
    rw [put_eq (by omega), bind_done]
    have := @readChars_ensures n (i + 1) (buffer.set i c) keys (by rw [List.length_set]; omega)
    rwa [List.length_set] at this

theorem checkedGetString_eq {size : ℤ} : ∀ {n : ℕ} {buffer keys : List Byte}, n ≤ size.toNat →
    size.toNat ≤ buffer.length → checkedGetString size n buffer keys = ofOption (Io.getString size n buffer keys)
  | 0, _, _, _, _ => rfl
  | n + 1, _, [], _, _ => rfl
  | n + 1, buffer, c :: keys, hn, hsize => by
    have hi : size.toNat - (n + 1) < buffer.length := by omega
    unfold checkedGetString Io.getString
    simp only [put_eq hi, bind_done]
    split
    · rw [put_eq (by rwa [List.length_set]), List.set_set]
      rfl
    · exact checkedGetString_eq (by omega) (by rwa [List.length_set])

theorem length_getString {size : ℤ} : ∀ {n : ℕ} {buffer keys : List Byte} {r : ℤ × List Byte × List Byte},
    Io.getString size n buffer keys = some r → r.2.1.length = buffer.length
  | 0, _, _, _, h => by
    obtain rfl := Option.some.inj h
    rfl
  | _ + 1, _, [], _, h => by cases h
  | n + 1, buffer, c :: keys, r, h => by
    unfold Io.getString at h
    simp only at h
    split at h
    · obtain rfl := Option.some.inj h
      exact List.length_set
    · rw [length_getString h, List.length_set]

theorem checkedPutString_eq {buffer : List Byte} : ∀ (n i : ℕ), i + n ≤ buffer.length →
    checkedPutString buffer n i = .done ((buffer.drop i).take n)
  | 0, _, _ => by
    rw [List.take_zero]
    rfl
  | n + 1, i, h => by
    have hi : i < buffer.length := by omega
    unfold checkedPutString
    rw [get_eq hi, bind_done, checkedPutString_eq n (i + 1) (by omega), map_done, List.drop_eq_getElem_cons hi,
      List.take_succ_cons]
    simp [hi]

theorem sysReadString_safe_iff {length : ℤ} {keys : List Byte} (h0 : minInt ≤ length) (hmax : length < maxInt) :
    (sysReadString length keys).Safe ↔ 0 ≤ length := by
  unfold minInt at h0
  unfold sysReadString Safe
  rw [toInt_eq (by unfold minInt; omega) (by omega), ensures_bind, ensures_alloc]
  simp only [ensures_bind, ensures_map, ensures_put, and_true]
  constructor
  · rintro ⟨hlen, h⟩
    by_contra hneg
    obtain rfl : length = -1 := by omega
    exact absurd h.1 (by decide)
  · intro hlen
    refine ⟨by omega, Ensures.mono (readChars_ensures ?_) fun r hr => ⟨hlen, ?_⟩⟩
    · rw [List.length_replicate]
      omega
    · rw [hr, List.length_replicate]
      omega

theorem sysReadString_ready {length : ℤ} {keys : List Byte} (h : (sysReadString length keys).Safe) :
    (sysReadString length keys).Ensures fun r => Machine.Ready r.1 (-1) := by
  unfold sysReadString Safe at *
  simp only [ensures_bind, ensures_map, ensures_put, ensures_alloc, and_true] at h ⊢
  refine ⟨h.1, h.2.mono fun r hr => ⟨hr, ?_⟩⟩
  exact List.mem_set (by omega) _

theorem Machine.Ready.of_length {str str' : List Byte} {convertLength : ℤ} (h : Ready str convertLength)
    (hlen : str.length ≤ str'.length) (hsame : convertLength = -1 → str' = str) : Ready str' convertLength := by
  unfold Ready at *
  split
  · rename_i hc
    rw [if_pos hc] at h
    rwa [hsame hc]
  · rename_i hc
    rw [if_neg hc] at h
    omega

theorem OpenFile.length_read {files : HostFiles} {f : OpenFile} {fails : Bool} {into : List Byte} {numBytes : ℤ}
    {r : ℤ × List Byte × OpenFile} (h : f.read files fails into numBytes = some r) :
    0 ≤ numBytes ∧ into.length ≤ r.2.1.length := by
  obtain ⟨g, hg, rfl⟩ := Option.map_eq_some_iff.mp h
  unfold readAt at hg
  split at hg
  · cases hg
  · rename_i hneg
    refine ⟨by omega, ?_⟩
    split at hg
    · obtain rfl := Option.some.inj hg
      exact le_rfl
    · obtain rfl := Option.some.inj hg
      rw [List.length_append, List.length_drop]
      omega

namespace FileTable

variable {files : HostFiles} {t : FileTable} {fails : Bool} {buffer : List Byte} {charCount index : ℤ}

theorem ensures_open {α : Type*} {f : OpenFile} {x : Option α} :
    (if f.currentOffset < 0 then Checked.stopped
      else (check (.block buffer.length charCount)).bind fun _ => ofOption x).Safe ↔
    (0 ≤ f.currentOffset → 0 ≤ charCount ∧ charCount ≤ buffer.length) := by
  unfold Safe
  split
  · rename_i hneg
    exact ⟨fun _ h0 => absurd h0 (not_le.mpr hneg), fun _ => trivial⟩
  · rename_i hpos
    rw [ensures_bind, ensures_check]
    exact ⟨fun h _ => h.1, fun h => ⟨h (not_lt.mp hpos), safe_ofOption x⟩⟩

theorem safe_lookup {α : Type*} {a : α} {x : OpenFile → Checked α} :
    (if fileMax ≤ index then Checked.done a
      else (check (.index fileMax index)).bind fun _ =>
        match t.openFile index.toNat with
        | none => .done a
        | some f => x f).Safe ↔
    fileMax ≤ index ∨ 0 ≤ index ∧ ∀ f, t.openFile index.toNat = some f → (x f).Safe := by
  by_cases hmax : fileMax ≤ index
  · rw [if_pos hmax]
    exact ⟨fun _ => Or.inl hmax, fun _ => trivial⟩
  · unfold Safe
    rw [if_neg hmax, ensures_bind, ensures_check, or_iff_right hmax]
    refine and_congr (and_iff_left (not_le.mp hmax)) ?_
    cases t.openFile index.toNat with
    | none => exact ⟨fun _ f hf => (nomatch hf), fun _ => trivial⟩
    | some f => exact ⟨fun h g hg => Option.some.inj hg ▸ h, fun h => h f rfl⟩

theorem checkedRead_safe_iff : (t.checkedRead files fails buffer charCount index).Safe ↔
    fileMax ≤ index ∨ 0 ≤ index ∧ ∀ f, t.openFile index.toNat = some f → 0 ≤ f.currentOffset →
      0 ≤ charCount ∧ charCount ≤ buffer.length := by
  refine safe_lookup.trans (or_congr_right (and_congr_right fun _ => ?_))
  exact forall_congr' fun f => forall_congr' fun _ => ensures_open

theorem lookup_eq {α : Type*} {a : α} {x : OpenFile → Checked α} {y : OpenFile → Option α}
    (h : fileMax ≤ index ∨ 0 ≤ index ∧ ∀ f, t.openFile index.toNat = some f → x f = ofOption (y f)) :
    (if fileMax ≤ index then Checked.done a
      else (check (.index fileMax index)).bind fun _ =>
        match t.openFile index.toNat with
        | none => .done a
        | some f => x f) =
    ofOption (if fileMax ≤ index then some a
      else if index < 0 then none
      else match t.openFile index.toNat with
        | none => some a
        | some f => y f) := by
  split
  · rfl
  · rename_i hmax
    obtain ⟨h0, hopen⟩ := h.resolve_left hmax
    rw [if_neg (not_lt.mpr h0), check_index h0 (not_le.mp hmax), bind_done]
    cases hf : t.openFile index.toNat with
    | none => rfl
    | some f => exact hopen f hf

theorem checkedRead_eq (h : (t.checkedRead files fails buffer charCount index).Safe) :
    t.checkedRead files fails buffer charCount index = ofOption (t.read files fails buffer charCount index) := by
  refine lookup_eq ((checkedRead_safe_iff.mp h).imp_right fun ⟨h0, hopen⟩ => ⟨h0, fun f hf => ?_⟩)
  split
  · -- the assertion fails
    rename_i hneg
    unfold OpenFile.read OpenFile.readAt
    rw [if_pos (Or.inl hneg)]
    rfl
  · rename_i hpos
    rw [check_block (hopen f hf (not_lt.mp hpos)), bind_done]

theorem checkedWrite_safe_iff : (t.checkedWrite files fails buffer charCount index).Safe ↔
    fileMax ≤ index ∨ 0 ≤ index ∧ ∀ f, t.openFile index.toNat = some f →
      t.fileOpenMode index.toNat = modeRead ∨ (0 ≤ f.currentOffset → 0 ≤ charCount ∧ charCount ≤ buffer.length) := by
  refine safe_lookup.trans (or_congr_right (and_congr_right fun _ => ?_))
  refine forall_congr' fun f => forall_congr' fun _ => ?_
  by_cases hmode : t.fileOpenMode index.toNat = modeRead
  · rw [if_pos hmode]
    exact ⟨fun _ => Or.inl hmode, fun _ => trivial⟩
  · rw [if_neg hmode, or_iff_right hmode]
    exact ensures_open

theorem checkedWrite_eq (h : (t.checkedWrite files fails buffer charCount index).Safe) :
    t.checkedWrite files fails buffer charCount index = ofOption (t.write files fails buffer charCount index) := by
  refine lookup_eq ((checkedWrite_safe_iff.mp h).imp_right fun ⟨h0, hopen⟩ => ⟨h0, fun f hf => ?_⟩)
  split
  · rfl
  · rename_i hmode
    split
    · rename_i hneg
      unfold OpenFile.write OpenFile.writeAt
      rw [if_pos (Or.inl hneg)]
      rfl
    · rename_i hpos
      rw [check_block ((hopen f hf).resolve_left hmode (not_lt.mp hpos)), bind_done]

theorem ready_read {r : ℤ × List Byte × FileTable} (hready : Machine.Ready buffer charCount)
    (h : t.read files fails buffer charCount index = some r) : Machine.Ready r.2.1 charCount := by
  unfold FileTable.read at h
  split at h
  · obtain rfl := Option.some.inj h
    exact hready
  split at h
  · cases h
  cases hf : t.openFile index.toNat with
  | none =>
    rw [hf] at h
    obtain rfl := Option.some.inj h
    exact hready
  | some f =>
    rw [hf] at h
    obtain ⟨g, hg, rfl⟩ := Option.map_eq_some_iff.mp h
    obtain ⟨h0, hle⟩ := OpenFile.length_read hg
    exact hready.of_length hle fun hc => by omega

end FileTable

namespace Io

variable {io : Io} {fails : Bool} {buffer : List Byte} {charCount fileId : ℤ}

theorem checkedRead_safe_iff (hlen : charCount.toNat ≤ buffer.length) :
    (io.checkedRead fails buffer charCount fileId).Safe ↔
      fileId = 0 ∨ (io.table.checkedRead io.files fails buffer charCount fileId).Safe := by
  unfold checkedRead
  split
  · rename_i h0
    rw [checkedGetString_eq le_rfl hlen, safe_map]
    exact ⟨fun _ => Or.inl h0, fun _ => safe_ofOption _⟩
  · rename_i h0
    rw [safe_map, or_iff_right h0]

theorem checkedRead_eq (hlen : charCount.toNat ≤ buffer.length)
    (h : (io.checkedRead fails buffer charCount fileId).Safe) :
    io.checkedRead fails buffer charCount fileId = ofOption (io.sysRead fails buffer charCount fileId) := by
  have hor := (checkedRead_safe_iff hlen).mp h
  unfold checkedRead sysRead
  split
  · rw [checkedGetString_eq le_rfl hlen, ofOption_map]
  · rename_i h0
    rw [FileTable.checkedRead_eq (hor.resolve_left h0), ofOption_map]

theorem ready_sysRead {r : ℤ × List Byte × Io} (hready : Machine.Ready buffer charCount)
    (h : io.sysRead fails buffer charCount fileId = some r) : Machine.Ready r.2.1 charCount := by
  unfold sysRead at h
  split at h
  · obtain ⟨g, hg, rfl⟩ := Option.map_eq_some_iff.mp h
    refine hready.of_length (length_getString hg).ge fun hc => ?_
    subst hc
    obtain rfl := Option.some.inj hg
    rfl
  · obtain ⟨g, hg, rfl⟩ := Option.map_eq_some_iff.mp h
    exact FileTable.ready_read hready hg

theorem checkedWrite_safe_iff (hlen : charCount.toNat ≤ buffer.length) :
    (io.checkedWrite fails buffer charCount fileId).Safe ↔
      fileId = 1 ∨ (io.table.checkedWrite io.files fails buffer charCount fileId).Safe := by
  unfold checkedWrite
  split
  · rename_i h1
    rw [checkedPutString_eq _ 0 (by omega), map_done]
    exact ⟨fun _ => Or.inl h1, fun _ => trivial⟩
  · rename_i h1
    rw [safe_map, or_iff_right h1]

theorem checkedWrite_eq (hlen : charCount.toNat ≤ buffer.length)
    (h : (io.checkedWrite fails buffer charCount fileId).Safe) :
    io.checkedWrite fails buffer charCount fileId = ofOption (io.sysWrite fails buffer charCount fileId) := by
  have hor := (checkedWrite_safe_iff hlen).mp h
  unfold checkedWrite sysWrite
  split
  · rw [checkedPutString_eq _ 0 (by omega), map_done, List.drop_zero]
    rfl
  · rename_i h1
    rw [FileTable.checkedWrite_eq (hor.resolve_left h1), ofOption_map]

end Io

section

variable {fuel : ℕ} {io : Io} {fails : Bool} {m m' : Machine} {virtAddr : BitVec 32} {charCount fileId : ℤ}
  {buffer : List Byte}

theorem toNat_le_of_stringUser2System (h : m.stringUser2System fuel virtAddr charCount = .ok (buffer, m')) :
    charCount.toNat ≤ buffer.length := by
  by_cases hc : charCount = -1
  · rw [hc]
    exact Nat.zero_le _
  · have := Machine.length_of_stringUser2System hc h
    omega

theorem checkedRead_safe_iff : (checkedRead fuel io fails m virtAddr charCount fileId).Safe ↔
    ∀ buffer m', m.stringUser2System fuel virtAddr charCount = .ok (buffer, m') →
      (io.checkedRead fails buffer charCount fileId).Safe := by
  unfold checkedRead Safe
  rw [Machine.checkedUser2System_eq, ensures_bind, ensures_ofExcept]
  constructor
  · intro h buffer m' hok
    exact (ensures_bind.mp (h (buffer, m') hok)).mono fun _ _ => trivial
  · rintro h ⟨buffer, m'⟩ hok
    have hlen := toNat_le_of_stringUser2System hok
    rw [ensures_bind, Io.checkedRead_eq hlen (h buffer m' hok), ensures_ofOption]
    intro r hr
    have hready := Io.ready_sysRead (Machine.ready_of_stringUser2System hok) hr
    rw [ensures_map, Machine.checkedSys2User_eq hready]
    exact safe_ofExcept _

/-- The handler of `Buffers` is this one, where it stays in its arrays. -/
theorem checkedRead_eq (h : (checkedRead fuel io fails m virtAddr charCount fileId).Safe) :
    checkedRead fuel io fails m virtAddr charCount fileId =
      (ofOption (handleRead fuel io fails m virtAddr charCount fileId)).bind Checked.ofExcept := by
  have hsafe := checkedRead_safe_iff.mp h
  unfold checkedRead handleRead
  rw [Machine.checkedUser2System_eq]
  cases hok : m.stringUser2System fuel virtAddr charCount with
  | error e => rfl
  | ok p =>
    obtain ⟨buffer, m'⟩ := p
    have hlen := toNat_le_of_stringUser2System hok
    simp only [ofExcept_ok, bind_done, Io.checkedRead_eq hlen (hsafe buffer m' hok)]
    cases hr : io.sysRead fails buffer charCount fileId with
    | none => rfl
    | some r =>
      have hready := Io.ready_sysRead (Machine.ready_of_stringUser2System hok) hr
      simp only [ofOption_some, bind_done, Option.map_some, Machine.checkedSys2User_eq hready]
      cases m'.stringSys2User r.2.1 virtAddr charCount <;> rfl

theorem checkedWrite_safe_iff : (checkedWrite fuel io fails m virtAddr charCount fileId).Safe ↔
    ∀ buffer m', m.stringUser2System fuel virtAddr charCount = .ok (buffer, m') →
      (io.checkedWrite fails buffer charCount fileId).Safe := by
  unfold checkedWrite Safe
  rw [Machine.checkedUser2System_eq, ensures_bind, ensures_ofExcept]
  constructor
  · intro h buffer m' hok
    exact (ensures_bind.mp (h (buffer, m') hok)).mono fun _ _ => trivial
  · rintro h ⟨buffer, m'⟩ hok
    rw [ensures_bind]
    refine (h buffer m' hok).mono fun r _ => ?_
    rw [ensures_map, Machine.checkedSys2User_eq (Machine.ready_of_stringUser2System hok)]
    exact safe_ofExcept _

theorem checkedWrite_eq (h : (checkedWrite fuel io fails m virtAddr charCount fileId).Safe) :
    checkedWrite fuel io fails m virtAddr charCount fileId =
      (ofOption (handleWrite fuel io fails m virtAddr charCount fileId)).bind Checked.ofExcept := by
  have hsafe := checkedWrite_safe_iff.mp h
  unfold checkedWrite handleWrite
  rw [Machine.checkedUser2System_eq]
  cases hok : m.stringUser2System fuel virtAddr charCount with
  | error e => rfl
  | ok p =>
    obtain ⟨buffer, m'⟩ := p
    have hlen := toNat_le_of_stringUser2System hok
    simp only [ofExcept_ok, bind_done, Io.checkedWrite_eq hlen (hsafe buffer m' hok)]
    cases io.sysWrite fails buffer charCount fileId with
    | none => rfl
    | some r =>
      have hready := Machine.ready_of_stringUser2System hok
      simp only [ofOption_some, bind_done, Option.map_some, Machine.checkedSys2User_eq hready]
      cases m'.stringSys2User buffer virtAddr charCount <;> rfl

end

section

variable {k : Sockets} {m : Machine} {sockID size : ℤ} {virtAddr : BitVec 32}

theorem alloc_size_iff (hmin : minInt ≤ size) (hmax : size ≤ maxInt) :
    0 ≤ toInt (size + 1) ↔ -1 ≤ size ∧ size < maxInt := by
  rcases hmax.lt_or_eq with hlt | rfl
  · rw [toInt_eq (by omega) (by omega)]
    omega
  · rw [toInt_beyond (by omega) (by decide)]
    decide

theorem recvTail_safe {msg : List Byte} (h : 0 ∈ msg) :
    ((checkedStrlen msg).bind fun _ => m.checkedSys2User msg virtAddr (-1)).Safe := by
  rw [checkedStrlen_eq h, bind_done, Machine.checkedSys2User_eq (by simpa [Machine.Ready] using h)]
  exact safe_ofExcept _

theorem zero_mem_memcpy {src : List Byte} {n count : ℕ} (h : count < n) :
    0 ∈ memcpy (List.replicate n 0) src count := by
  unfold memcpy
  rw [List.drop_replicate]
  exact List.mem_append_right _ (List.mem_replicate.mpr ⟨by omega, rfl⟩)

theorem checkedRecvMsg_safe_iff (hmin : minInt ≤ size) (hmax : size ≤ maxInt) :
    (checkedRecvMsg k m sockID virtAddr size).Safe ↔ -1 ≤ size ∧ size < maxInt ∧
      if k.portOf sockID = -1 then size ≠ -1
      else ∀ p s, k.removeFront (k.portOf sockID) = some (p, s) →
        0 ≤ min size p.1 ∧ min size p.1 ≤ p.2.length := by
  unfold checkedRecvMsg Safe
  rw [ensures_bind, ensures_alloc, alloc_size_iff hmin hmax, and_assoc]
  refine and_congr_right fun h1 => and_congr_right fun hlt => ?_
  rw [toInt_eq (by omega) (by omega)]
  unfold Sockets.checkedGetData
  split
  · -- nothing is copied, and the array is read to its first zero
    rw [bind_done]
    constructor
    · rintro h rfl
      exact h
    · intro hne
      have h0 : (0 : Byte) ∈ List.replicate (size + 1).toNat 0 := List.mem_replicate.mpr ⟨by omega, rfl⟩
      have := @recvTail_safe m virtAddr _ h0
      unfold Safe at this
      simpa only [ensures_bind, ensures_map] using this
  · simp only [ensures_bind, ensures_ofOption, ensures_check, ensures_map]
    constructor
    · intro h p s hp
      exact (h (p, s) hp).2.1
    · rintro h ⟨p, s⟩ hp
      have hp' := h p s hp
      refine ⟨⟨hp'.1, ?_⟩, hp', ?_⟩
      · rw [List.length_replicate]
        omega
      · have hzero : 0 ∈ memcpy (List.replicate (size + 1).toNat 0) p.2 (min size p.1).toNat :=
          zero_mem_memcpy (by omega)
        have := @recvTail_safe m virtAddr _ hzero
        unfold Safe at this
        simpa only [ensures_bind, ensures_map] using this

theorem recvTail_eq {α : Type*} {msg : List Byte} (h : 0 ∈ msg) (f : Machine → α) :
    ((checkedStrlen msg).bind fun _ => (m.checkedSys2User msg virtAddr (-1)).map f) =
      Checked.ofExcept ((m.stringSys2User msg virtAddr (-1)).map f) := by
  rw [checkedStrlen_eq h, bind_done, Machine.checkedSys2User_eq (by simpa [Machine.Ready] using h), ofExcept_map]

theorem checkedRecvMsg_eq (hmin : minInt ≤ size) (hmax : size ≤ maxInt)
    (h : (checkedRecvMsg k m sockID virtAddr size).Safe) : checkedRecvMsg k m sockID virtAddr size =
      (ofOption (handleRecvMsg k m sockID virtAddr size)).bind Checked.ofExcept := by
  obtain ⟨h1, hlt, hget⟩ := (checkedRecvMsg_safe_iff hmin hmax).mp h
  have halloc : alloc (toInt (size + 1)) = .done (List.replicate (size + 1).toNat 0) := by
    rw [toInt_eq (by omega) (by omega), ← Int.toNat_of_nonneg (show 0 ≤ size + 1 by omega), alloc_eq, Int.toNat_natCast]
  unfold checkedRecvMsg handleRecvMsg Sockets.checkedGetData Sockets.getData
  rw [halloc, bind_done]
  by_cases hport : k.portOf sockID = -1
  · rw [if_pos hport] at hget
    have h0 : (0 : Byte) ∈ List.replicate (size + 1).toNat 0 := List.mem_replicate.mpr ⟨by omega, rfl⟩
    simp only [if_pos hport, if_neg (show ¬ (size < 0 ∨ maxInt < size + 1) by omega), bind_done, Option.map_some, ofOption_some]
    exact recvTail_eq h0 _
  · rw [if_neg hport] at hget
    simp only [if_neg hport]
    cases hfront : k.removeFront (k.portOf sockID) with
    | none =>
      split <;> rfl
    | some r =>
      obtain ⟨p, s⟩ := r
      have hp := hget p s hfront
      have hzero : 0 ∈ memcpy (List.replicate (size + 1).toNat 0) p.2 (min size p.1).toNat :=
        zero_mem_memcpy (by omega)
      have hmsg : 0 ≤ min size p.1 ∧ min size p.1 ≤ (List.replicate (size + 1).toNat (0 : Byte)).length :=
        ⟨hp.1, by rw [List.length_replicate]; omega⟩
      simp only [ofOption_some, bind_done, check_block hmsg, check_block hp, map_done,
        if_neg (show ¬ (size < 0 ∨ maxInt < size + 1) by omega), if_neg (not_lt.mpr hp.1), Option.map_some]
      exact recvTail_eq hzero _

end

namespace Kernel

variable {fuel n : ℕ} {host : HostState} {k : Kernel n} {r : ℕ → BitVec 32}

theorem readString_safe_iff : (k.handle fuel host r .readString).Safe ↔ k.InRange fuel host r .readString := by
  simp only [handle, InRange, checkedReadString, safe_map]
  split
  · rename_i hmax
    unfold maxReadStringLength at hmax
    exact ⟨fun _ => by omega, fun _ => trivial⟩
  · rename_i hmax
    unfold maxReadStringLength at hmax
    rw [← sysReadString_safe_iff (BitVec.le_toInt _) (show (r 5).toInt < maxInt by unfold maxInt; omega)]
    constructor
    · intro h
      exact (ensures_bind.mp h).mono fun _ _ => trivial
    · intro h
      refine ensures_bind.mpr ((sysReadString_ready h).mono fun b hb => ?_)
      rw [ensures_map, Machine.checkedSys2User_eq hb]
      exact safe_ofExcept _

/-- Only a size of -1 can be more than the buffer has. The console is the id `con`, and `P` is that an open
file is not used. -/
theorem size_inRange_iff {charCount fileId con : ℤ} (P : Prop) {o : Option OpenFile} {len : ℕ} (hcon : 0 ≤ con)
    (hlen : charCount ≠ -1 → (len : ℤ) = charCount) :
    (fileId = con ∨ fileMax ≤ fileId ∨ 0 ≤ fileId ∧ ∀ f, o = some f → P ∨
      (0 ≤ f.currentOffset → 0 ≤ charCount ∧ charCount ≤ len)) ↔
    0 ≤ fileId ∧ (charCount = -1 → fileId = con ∨ fileMax ≤ fileId ∨
      ∀ f, o = some f → P ∨ f.currentOffset < 0) := by
  constructor
  · rintro (h0 | hmax | ⟨h0, hopen⟩)
    · exact ⟨h0 ▸ hcon, fun _ => Or.inl h0⟩
    · exact ⟨(Int.natCast_nonneg _).trans hmax, fun _ => Or.inr (Or.inl hmax)⟩
    · refine ⟨h0, fun hc => Or.inr (Or.inr fun f hf => (hopen f hf).imp_right fun hblock => ?_)⟩
      by_contra hoff
      have := (hblock (not_lt.mp hoff)).1
      omega
  · rintro ⟨h0, hneg⟩
    by_cases hc : charCount = -1
    · refine (hneg hc).imp_right (Or.imp_right fun hopen => ⟨h0, fun f hf => (hopen f hf).imp_right ?_⟩)
      exact fun hoff h => absurd hoff (not_lt.mpr h)
    · have := hlen hc
      exact Or.inr (Or.inr ⟨h0, fun _ _ => Or.inr fun _ => by omega⟩)

theorem read_safe_iff : (k.handle fuel host r .read).Safe ↔ k.InRange fuel host r .read := by
  simp only [handle, InRange, safe_map, checkedRead_safe_iff]
  refine forall_congr' fun buffer => forall_congr' fun m => forall_congr' fun hok => ?_
  rw [Io.checkedRead_safe_iff (toNat_le_of_stringUser2System hok), FileTable.checkedRead_safe_iff]
  simpa only [false_or] using size_inRange_iff False le_rfl fun hc => Machine.length_of_stringUser2System hc hok

theorem write_safe_iff : (k.handle fuel host r .write).Safe ↔ k.InRange fuel host r .write := by
  simp only [handle, InRange, safe_map, checkedWrite_safe_iff]
  refine forall_congr' fun buffer => forall_congr' fun m => forall_congr' fun hok => ?_
  rw [Io.checkedWrite_safe_iff (toNat_le_of_stringUser2System hok), FileTable.checkedWrite_safe_iff]
  exact size_inRange_iff _ Int.one_nonneg fun hc => Machine.length_of_stringUser2System hc hok

theorem seek_safe : (k.handle fuel host r .seek).Safe := by
  simp only [handle, Io.checkedSeek, FileTable.checkedSeek, safe_map]
  split
  · trivial
  · rw [safe_map]
    split
    · trivial
    · rename_i hin
      rw [check_index (by omega) (by omega)]
      trivial

theorem close_safe : (k.handle fuel host r .close).Safe := by
  simp only [handle, Io.checkedClose, FileTable.checkedRemove, safe_map]
  split
  · trivial
  · rename_i hin
    rw [check_index (by omega) (by omega)]
    trivial

theorem createSemaphore_safe_iff :
    (k.handle fuel host r .createSemaphore).Safe ↔ k.InRange fuel host r .createSemaphore := by
  simp only [handle, InRange, Safe, Machine.checkedUser2System_eq, ensures_bind, ensures_ofExcept, Prod.forall,
    ensures_map]
  refine forall_congr' fun name => forall_congr' fun m => forall_congr' fun _ => ?_
  unfold STable.checkedCreate
  cases k.semTab.search (.ofArray name) with
  | none => exact ⟨fun _ h => (nomatch h), fun _ => trivial⟩
  | some i =>
    cases i with
    | some i => exact ⟨fun _ h => (nomatch h), fun _ => trivial⟩
    | none =>
      dsimp only
      split
      · rename_i hneg
        exact ⟨fun _ _ h => absurd h (not_le.mpr hneg), fun _ => trivial⟩
      · rename_i hpos
        rw [ensures_bind]
        constructor
        · intro h _ _
          exact safe_check_string.mp (h.mono fun _ _ => trivial)
        · intro h
          exact (safe_check_string.mpr (h rfl (not_lt.mp hpos))).mono fun _ _ => safe_ofOption _

theorem exec_safe_iff : (k.handle fuel host r .exec).Safe ↔ k.InRange fuel host r .exec := by
  simp only [handle, InRange, Safe, Machine.checkedUser2System_eq, ensures_bind, ensures_ofExcept, Prod.forall]
  refine forall_congr' fun name => forall_congr' fun m => forall_congr' fun _ => ?_
  split
  · rename_i hopen
    rw [forall_prop_of_true hopen]
    unfold PTable.checkedExec
    split
    · rename_i hsame
      exact ⟨fun _ h => absurd hsame h, fun _ => trivial⟩
    · rename_i hne
      have hne' : cstr name ≠ (k.pTab.name k.currentThread).1 := hne
      rw [forall_prop_of_true hne']
      cases k.pTab.getFreeSlot with
      | none => exact ⟨fun _ h => absurd rfl h, fun _ => trivial⟩
      | some i => exact safe_check_string.trans ⟨fun h _ => h, fun h => h (Option.some_ne_none i)⟩
  · rename_i hopen
    exact ⟨fun _ h => absurd h hopen, fun _ => trivial⟩

/-- **A call stays in the arrays of the kernel exactly when its arguments are in
range**, for every content of the registers and of the memory, every state of the
kernel and every answer of the host. -/
theorem handle_safe_iff (fuel : ℕ) (host : HostState) (k : Kernel n) (r : ℕ → BitVec 32) (sc : SC) :
    (k.handle fuel host r sc).Safe ↔ k.InRange fuel host r sc := by
  cases sc with
  | readString => exact readString_safe_iff
  | read => exact read_safe_iff
  | write => exact write_safe_iff
  | seek => exact iff_of_true seek_safe trivial
  | close => exact iff_of_true close_safe trivial
  | recvMsg =>
    have hmax := (r 6).toInt_lt
    simp only [handle, InRange, safe_map]
    exact checkedRecvMsg_safe_iff (BitVec.le_toInt _) (by unfold maxInt; omega)
  | createSemaphore => exact createSemaphore_safe_iff
  | exec => exact exec_safe_iff

/-- A process with two pages, a string of 128 characters at address 0, and nothing open. -/
def longName : Kernel MAX_PROCESS where
  machine := ⟨fun a => if a < 128 then 97 else 0, [⟨0, 0, true, false, false, false⟩, ⟨1, 1, true, false, false, false⟩]⟩
  io := oneKey
  sockets := .init
  semTab := .init
  pTab := .init (fun _ => ⟨0, 0, none⟩) PTable.programA
  currentThread := 0

def openHost : HostState := ⟨false, fun _ => true, Bytes.pad 50 []⟩

/-- The registers 4, 5 and 6. -/
def registers (r4 r5 r6 : BitVec 32) (i : ℕ) : BitVec 32 := if i = 4 then r4 else if i = 5 then r5 else r6

/-- A size of -1 or -2, the file id -1, and a name that is too long. -/
theorem out_of_bounds :
    longName.handle 1 openHost (registers 0 (-1) 0) .readString = .fault (.index 0 (-1)) ∧
    longName.handle 1 openHost (registers 1 0 (-2)) .recvMsg = .fault (.alloc (-1)) ∧
    longName.handle 1 openHost (registers 0 1 (-1)) .read = .fault (.index fileMax (-1)) ∧
    longName.handle 1 openHost (registers 0 1 (-1)) .write = .fault (.index fileMax (-1)) ∧
    longName.handle 51 openHost (registers 78 1 0) .createSemaphore = .fault (.block 50 51) ∧
    longName.handle 129 openHost (registers 0 0 0) .exec = .fault (.block 128 129) := by
  decide +kernel

end Kernel

end Nachos
