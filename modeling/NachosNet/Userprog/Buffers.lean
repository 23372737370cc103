/-
# System calls on a buffer of the user

`handle_SC_Read`, `handle_SC_Write` and `handle_SC_Recv_Msg` of
`userprog/exception.cc` take the address of a buffer and its size. The first two
copy the buffer into the kernel, read or write, and copy it back; all three copy
out with `StringSys2User`, which writes a zero behind the bytes.

Two virtual addresses may be one place of `mainMemory`, so what a call changes is
said of places: `ChangesOnly m m' addr n` is that every byte that has changed is
the place of one of the `n` addresses from `addr` on. The calls keep to their buffer
if and only if the zero behind it changes nothing (`buffers_framed`).

Key definitions: `Io.sysRead`, `Io.sysWrite`, `handleRead`, `handleWrite`,
`Machine.ChangesOnly`, `Machine.Spare`.
-/
import NachosNet.Filesys.FileTable
import NachosNet.Userprog.Message
import NachosNet.Userprog.Numbers

namespace Nachos

open Basis

/-- What the calls read and write: the keys that have been typed, the display, the
files of the host and the open files of the process. -/
structure Io where
  keys : List Byte
  display : List Byte
  files : HostFiles
  table : FileTable

namespace Io

/-- `GetString` with `n` characters left to read: the result, the array and the keys
left. `none` while it waits for a key. -/
def getString (size : ℤ) : ℕ → List Byte → List Byte → Option (ℤ × List Byte × List Byte)
  | 0, buffer, keys => some (size, buffer, keys)
  | _ + 1, _, [] => none
  | n + 1, buffer, c :: keys =>
    let i := size.toNat - (n + 1)
    if c = eof then some (-2, buffer.set i 0, keys) else getString size n (buffer.set i c) keys

/-- `SysRead`: the result, the array `buffer` and the rest afterwards. -/
def sysRead (io : Io) (fails : Bool) (buffer : List Byte) (charCount fileId : ℤ) : Option (ℤ × List Byte × Io) :=
  if fileId = 0 then
    (getString charCount charCount.toNat buffer io.keys).map fun r => (r.1, r.2.1, { io with keys := r.2.2 })
  else (io.table.read io.files fails buffer charCount fileId).map fun r => (r.1, r.2.1, { io with table := r.2.2 })

/-- `SysWrite`: the result, and the rest afterwards. -/
def sysWrite (io : Io) (fails : Bool) (buffer : List Byte) (charCount fileId : ℤ) : Option (ℤ × Io) :=
  if fileId = 1 then some (charCount, { io with display := io.display ++ buffer.take charCount.toNat })
  else (io.table.write io.files fails buffer charCount fileId).map fun r =>
    (r.1, { io with files := r.2.1, table := r.2.2 })

end Io

/-- `handle_SC_Read`: the result in register 2, and the machine. `none` while it
waits. -/
def handleRead (fuel : ℕ) (io : Io) (fails : Bool) (m : Machine) (virtAddr : BitVec 32) (charCount fileId : ℤ) :
    Option (Except Stop (ℤ × Io × Machine)) :=
  match m.stringUser2System fuel virtAddr charCount with
  | .error e => some (.error e)
  | .ok (buffer, m) => (io.sysRead fails buffer charCount fileId).map fun r =>
    match m.stringSys2User r.2.1 virtAddr charCount with
    | .error e => .error (.exception e)
    | .ok m => .ok (r.1, r.2.2, m)

/-- `handle_SC_Write` -/
def handleWrite (fuel : ℕ) (io : Io) (fails : Bool) (m : Machine) (virtAddr : BitVec 32) (charCount fileId : ℤ) :
    Option (Except Stop (ℤ × Io × Machine)) :=
  match m.stringUser2System fuel virtAddr charCount with
  | .error e => some (.error e)
  | .ok (buffer, m) => (io.sysWrite fails buffer charCount fileId).map fun r =>
    match m.stringSys2User buffer virtAddr charCount with
    | .error e => .error (.exception e)
    | .ok m => .ok (r.1, r.2, m)

namespace Machine

/-- The place of an address that can be written. -/
def Place (m : Machine) (v : BitVec 32) (p : ℕ) : Prop := physAddr m.pageTable v .byte true = .ok p

/-- `p` is the place of one of the `n` addresses from `addr` on. -/
def InBuffer (m : Machine) (addr : BitVec 32) (n p : ℕ) : Prop := ∃ i < n, m.Place (addr + BitVec.ofNat 32 i) p

/-- Every byte that has changed is in the buffer. -/
def ChangesOnly (m m' : Machine) (addr : BitVec 32) (n : ℕ) : Prop :=
  ∀ p, m'.mainMemory p ≠ m.mainMemory p → m.InBuffer addr n p

/-- A zero behind the buffer is already there, or has its place in the buffer. -/
def Spare (m : Machine) (addr : BitVec 32) (n : ℕ) : Prop :=
  ∀ p, m.Place (addr + BitVec.ofNat 32 n) p → m.mainMemory p = 0 ∨ m.InBuffer addr n p

variable {m m' : Machine} {addr v : BitVec 32} {n p : ℕ}

theorem SameView.place_iff (h : SameView m m') : m'.Place v p ↔ m.Place v p := by
  unfold Place
  rw [physAddr_congr h.table]

/-! ### One byte -/

theorem readMem_ok {x : BitVec 32} (h : m.readMem v .byte = .ok (x, m')) :
    SameView m m' ∧ ∃ b, m.byteAt v = some b ∧ x = b.signExtend 32 := by
  unfold readMem at h
  split at h
  · cases h
  · rename_i q t htr
    obtain ⟨rfl, rfl⟩ := Prod.mk.inj (Except.ok.inj h)
    have hq : physAddr m.pageTable v .byte false = .ok q := by rw [← translate_fst, htr]
    refine ⟨⟨rfl, ?_⟩, m.mainMemory q, ?_, rfl⟩
    · show t.map core = _
      rw [← map_core_translate m.pageTable v .byte false, htr]
    · unfold byteAt
      rw [hq]

theorem writeMem_ok {c : Byte} (h : m.writeMem v .byte (c.signExtend 32) = .ok m') :
    m'.pageTable.map core = m.pageTable.map core ∧
      ∃ q, m.Place v q ∧ ∀ p, m'.mainMemory p = if p = q then c else m.mainMemory p := by
  unfold writeMem at h
  split at h
  · cases h
  · rename_i q t htr
    obtain rfl := Except.ok.inj h
    refine ⟨?_, q, ?_, fun p => store_byte ..⟩
    · show t.map core = _
      rw [← map_core_translate m.pageTable v .byte true, htr]
    · unfold Place
      rw [← translate_fst, htr]

theorem Place.byteAt_eq (h : m.Place v p) : m.byteAt v = some (m.mainMemory p) := by
  obtain ⟨ha, e, he, hvalid, -, hpage, rfl⟩ := translate_ok_iff.mp ((translate_fst ..).trans h)
  have hread : physAddr m.pageTable v .byte false = .ok (e.physicalPage.toNat * PageSize + v.toNat % PageSize) := by
    rw [← translate_fst]
    exact translate_ok_iff.mpr ⟨ha, e, he, hvalid, by rw [Bool.and_false], hpage, rfl⟩
  unfold byteAt
  rw [hread]

theorem Place.unique {q : ℕ} (h : m.Place v p) (h' : m.Place v q) : p = q := by
  unfold Place at h h'
  rw [h] at h'
  exact Except.ok.inj h'

/-! ### Copying in -/

theorem lengthLoop_ok {size : ℤ} (hsize : size ≠ -1) : ∀ (fuel length l : ℕ) (m m' : Machine),
    lengthLoop addr size fuel length m = .ok (l, m') → (l : ℤ) = size ∧ SameView m m'
  | 0, _, _, _, _, h => by cases h
  | fuel + 1, length, l, m, m', h => by
    simp only [lengthLoop] at h
    split at h
    · cases h
    · rename_i oneChar m₁ hread
      have hsame := (readMem_ok hread).1
      split at h
      · rename_i hstop
        obtain ⟨rfl, rfl⟩ := Prod.mk.inj (Except.ok.inj h)
        rcases hstop with ⟨-, hneg⟩ | hlen
        · exact absurd hneg hsize
        · exact ⟨hlen, hsame⟩
      · obtain ⟨hl, hsame'⟩ := lengthLoop_ok hsize fuel (length + 1) l m₁ m' h
        exact ⟨hl, hsame.trans hsame'⟩

theorem copyLoop_ok : ∀ (n i : ℕ) (m m' : Machine) (bs : List Byte), copyLoop addr n i m = .ok (bs, m') →
    SameView m m' ∧ bs.length = n ∧ m.Holds (addr + BitVec.ofNat 32 i) bs
  | 0, i, m, m', bs, h => by
    obtain ⟨rfl, rfl⟩ := Prod.mk.inj (Except.ok.inj h)
    exact ⟨.refl m, rfl, fun j b hj => by simp at hj⟩
  | n + 1, i, m, m', bs, h => by
    simp only [copyLoop] at h
    split at h
    · cases h
    · rename_i oneChar m₁ hread
      obtain ⟨hsame, b, hb, rfl⟩ := readMem_ok hread
      cases hcopy : copyLoop addr n (i + 1) m₁ with
      | error e => rw [hcopy] at h; cases h
      | ok r =>
        rw [hcopy] at h
        obtain ⟨rfl, rfl⟩ := Prod.mk.inj (Except.ok.inj h)
        obtain ⟨hsame', hlen, hholds⟩ := copyLoop_ok n (i + 1) m₁ r.2 r.1 hcopy
        rw [extractLsb'_signExtend]
        refine ⟨hsame.trans hsame', by rw [List.length_cons, hlen], holds_cons.mpr ⟨hb, ?_⟩⟩
        exact hholds.same ⟨hsame.memory.symm, hsame.table.symm⟩

theorem stringUser2System_ok {fuel : ℕ} {size : ℤ} {buffer : List Byte} (hsize : 0 < size)
    (h : m.stringUser2System fuel addr size = .ok (buffer, m')) :
    SameView m m' ∧ buffer.length = size.toNat ∧ m.Holds addr buffer := by
  unfold stringUser2System at h
  split at h
  · cases h
  · rename_i l m₁ hloop
    obtain ⟨hl, hsame⟩ := lengthLoop_ok (by omega) fuel 0 l m m₁ hloop
    obtain ⟨hsame', hlen, hholds⟩ := copyLoop_ok l 0 m₁ m' buffer h
    refine ⟨hsame.trans hsame', by omega, ?_⟩
    have hback := hholds.same ⟨hsame.memory.symm, hsame.table.symm⟩
    simpa using hback

/-! ### Copying out -/

theorem writeLoop_frame : ∀ (bs : List Byte) (i : ℕ) (m m' : Machine), writeLoop addr i bs m = .ok m' →
    m'.pageTable.map core = m.pageTable.map core ∧
      ∀ p, m'.mainMemory p ≠ m.mainMemory p → ∃ j < bs.length, m.Place (addr + BitVec.ofNat 32 (i + j)) p
  | [], i, m, m', h => by
    obtain rfl := Except.ok.inj h
    exact ⟨rfl, fun p hp => absurd rfl hp⟩
  | c :: bs, i, m, m', h => by
    simp only [writeLoop] at h
    split at h
    · cases h
    · rename_i m₁ hwrite
      obtain ⟨htable, q, hq, hmem⟩ := writeMem_ok hwrite
      obtain ⟨htable', hframe⟩ := writeLoop_frame bs (i + 1) m₁ m' h
      refine ⟨htable'.trans htable, fun p hp => ?_⟩
      by_cases hchanged : m'.mainMemory p = m₁.mainMemory p
      · -- the first byte has its place here
        rcases eq_or_ne p q with rfl | hpq
        · exact ⟨0, by simp, hq⟩
        · rw [hchanged, hmem, if_neg hpq] at hp
          exact absurd rfl hp
      · obtain ⟨j, hj, hplace⟩ := hframe p hchanged
        refine ⟨j + 1, by simpa using hj, ?_⟩
        unfold Place at hplace ⊢
        rw [physAddr_congr htable] at hplace
        rwa [Nat.add_right_comm, Nat.add_assoc] at hplace

theorem writeLoop_same : ∀ (bs : List Byte) (i : ℕ) (m m' : Machine), m.Holds (addr + BitVec.ofNat 32 i) bs →
    writeLoop addr i bs m = .ok m' → SameView m m'
  | [], i, m, m', _, h => by
    obtain rfl := Except.ok.inj h
    exact .refl m
  | c :: bs, i, m, m', hholds, h => by
    obtain ⟨hc, hrest⟩ := holds_cons.mp hholds
    simp only [writeLoop] at h
    split at h
    · cases h
    · rename_i m₁ hwrite
      obtain ⟨htable, q, hq, hmem⟩ := writeMem_ok hwrite
      have hsame : SameView m m₁ := by
        refine ⟨funext fun p => ?_, htable⟩
        rw [hmem]
        split
        · rename_i hpq
          rw [hq.byteAt_eq] at hc
          rw [hpq, Option.some.inj hc]
        · rfl
      exact hsame.trans (writeLoop_same bs (i + 1) m₁ m' (hrest.same hsame) h)

theorem stringSys2User_ok {str : List Byte} {size : ℤ} {l : ℕ} (hl : (if size = -1 then (strlen str : ℤ) else size) = l)
    (h : m.stringSys2User str addr size = .ok m') :
    ∃ m₁ q, writeLoop addr 0 (str.take l) m = .ok m₁ ∧ m.Place (addr + BitVec.ofNat 32 l) q ∧
      ∀ p, m'.mainMemory p = if p = q then 0 else m₁.mainMemory p := by
  unfold stringSys2User at h
  simp only [hl, Int.toNat_natCast] at h
  split at h
  · cases h
  · rename_i m₁ hloop
    obtain ⟨htable, -⟩ := writeLoop_frame _ 0 m m₁ hloop
    obtain ⟨-, q, hq, hmem⟩ := writeMem_ok (c := 0) h
    refine ⟨m₁, q, hloop, ?_, hmem⟩
    unfold Place at hq ⊢
    rw [physAddr_congr htable, BitVec.ofInt_natCast] at hq
    exact hq

theorem changesOnly_iff {str : List Byte} {size : ℤ} {l : ℕ}
    (hl : (if size = -1 then (strlen str : ℤ) else size) = l) (hln : l ≤ n)
    (h : m.stringSys2User str addr size = .ok m') : m.ChangesOnly m' addr n ↔ l < n ∨ m.Spare addr n := by
  obtain ⟨m₁, q, hloop, hq, hmem⟩ := stringSys2User_ok hl h
  obtain ⟨-, hframe⟩ := writeLoop_frame _ 0 m m₁ hloop
  have hothers : ∀ p, p ≠ q → m'.mainMemory p ≠ m.mainMemory p → m.InBuffer addr n p := by
    intro p hpq hp
    rw [hmem, if_neg hpq] at hp
    obtain ⟨j, hj, hplace⟩ := hframe p hp
    rw [Nat.zero_add] at hplace
    exact ⟨j, lt_of_lt_of_le hj ((List.length_take_le ..).trans hln), hplace⟩
  have hzero : m'.mainMemory q = 0 := by rw [hmem, if_pos rfl]
  constructor
  · intro hchanges
    rcases hln.lt_or_eq with hlt | rfl
    · exact Or.inl hlt
    · refine Or.inr fun p hp => ?_
      obtain rfl := hp.unique hq
      by_cases h0 : m.mainMemory p = 0
      · exact Or.inl h0
      · exact Or.inr (hchanges p (by rw [hzero]; exact Ne.symm h0))
  · intro hspare p hp
    rcases eq_or_ne p q with rfl | hpq
    · rcases hspare with hlt | hspare
      · exact ⟨l, hlt, hq⟩
      · rcases hln.lt_or_eq with hlt | rfl
        · exact ⟨l, hlt, hq⟩
        · rcases hspare p hq with h0 | hin
          · rw [hzero, h0] at hp
            exact absurd rfl hp
          · exact hin
    · exact hothers p hpq hp

theorem memory_eq_iff {str : List Byte} {size : ℤ} {l : ℕ} (hl : (if size = -1 then (strlen str : ℤ) else size) = l)
    (hholds : m.Holds addr str) (h : m.stringSys2User str addr size = .ok m') :
    m'.mainMemory = m.mainMemory ↔ ∀ p, m.Place (addr + BitVec.ofNat 32 l) p → m.mainMemory p = 0 := by
  obtain ⟨m₁, q, hloop, hq, hmem⟩ := stringSys2User_ok hl h
  have htake : m.Holds (addr + BitVec.ofNat 32 0) (str.take l) := by
    intro i b hi
    rw [List.getElem?_take] at hi
    split at hi
    · simpa using hholds i b hi
    · cases hi
  have hsame := writeLoop_same _ 0 m m₁ htake hloop
  constructor
  · intro heq p hp
    obtain rfl := hp.unique hq
    rw [← heq, hmem, if_pos rfl]
  · intro hzero
    funext p
    rw [hmem, hsame.memory]
    split
    · rename_i hpq
      rw [hpq, hzero q hq]
    · rfl

theorem SameView.inBuffer_iff (h : SameView m m') : m'.InBuffer addr n p ↔ m.InBuffer addr n p := by
  unfold InBuffer
  simp only [h.place_iff]

theorem SameView.spare_iff (h : SameView m m') : m'.Spare addr n ↔ m.Spare addr n := by
  unfold Spare
  simp only [h.place_iff, h.inBuffer_iff, h.memory]

theorem SameView.changesOnly_iff {m'' : Machine} (h : SameView m m') :
    m'.ChangesOnly m'' addr n ↔ m.ChangesOnly m'' addr n := by
  unfold ChangesOnly
  simp only [h.inBuffer_iff, h.memory]

end Machine

/-! ### The calls -/

open Machine

theorem strlen_le : ∀ (a b : List Byte), strlen (a ++ 0 :: b) ≤ a.length
  | [], b => by simp [strlen]
  | c :: a, b => by
    have ih := strlen_le a b
    unfold strlen at ih ⊢
    rw [List.cons_append, List.takeWhile_cons]
    split
    · simpa using ih
    · simp

theorem strlen_getData_le {k k' : Sockets} {size sockID r : ℤ} {msg : List Byte} (hsize : 0 < size)
    (h : k.getData (List.replicate (size + 1).toNat 0) size sockID = some (r, msg, k')) : strlen msg ≤ size.toNat := by
  have hzeros : ∀ n, n ≤ size.toNat → (List.replicate (size + 1).toNat (0 : Byte)).drop n =
      0 :: List.replicate (size.toNat - n) 0 := by
    intro n hn
    rw [List.drop_replicate, show (size + 1).toNat - n = size.toNat - n + 1 by omega, List.replicate_succ]
  unfold Sockets.getData at h
  split at h
  · obtain ⟨-, h⟩ := Prod.mk.inj (Option.some.inj h)
    obtain ⟨rfl, -⟩ := Prod.mk.inj h
    have hall := hzeros 0 (Nat.zero_le _)
    rw [List.drop_zero] at hall
    rw [hall]
    exact (strlen_le [] _).trans (Nat.zero_le _)
  · split at h
    · cases h
    · rename_i p k₁ hfront
      split at h
      · cases h
      · rename_i hneg
        obtain ⟨-, h⟩ := Prod.mk.inj (Option.some.inj h)
        obtain ⟨rfl, -⟩ := Prod.mk.inj h
        have hle : (min size p.1).toNat ≤ size.toNat := by omega
        unfold memcpy
        rw [hzeros _ hle]
        exact (strlen_le ..).trans ((List.length_take_le ..).trans hle)

/-- For every memory, page table, buffer of at least one byte, content of the files
and keys, and message: `Read` keeps to the buffer if and only if the zero behind it
changes nothing, `Write` changes nothing if and only if there was a zero behind the
buffer, and `Recv_Msg` keeps to the buffer if and only if the message is shorter or
the zero behind the buffer changes nothing. -/
theorem buffers_framed (m : Machine) (addr : BitVec 32) (size : ℤ) (hsize : 0 < size) :
    (∀ fuel io fails fileId r io' m', handleRead fuel io fails m addr size fileId = some (.ok (r, io', m')) →
      (m.ChangesOnly m' addr size.toNat ↔ m.Spare addr size.toNat)) ∧
    (∀ fuel io fails fileId r io' m', handleWrite fuel io fails m addr size fileId = some (.ok (r, io', m')) →
      (m'.mainMemory = m.mainMemory ↔
        ∀ p, m.Place (addr + BitVec.ofNat 32 size.toNat) p → m.mainMemory p = 0)) ∧
    ∀ k sockID r k' m', handleRecvMsg k m sockID addr size = some (.ok (r, k', m')) →
      ∃ msg, k.getData (List.replicate (size + 1).toNat 0) size sockID = some (r, msg, k') ∧
        (m.ChangesOnly m' addr size.toNat ↔ strlen msg < size.toNat ∨ m.Spare addr size.toNat) := by
  have hn : ∀ x : ℤ, (if size = -1 then x else size) = (size.toNat : ℤ) := by
    intro x
    rw [if_neg (by omega)]
    omega
  refine ⟨?_, ?_, ?_⟩
  · intro fuel io fails fileId r io' m' h
    unfold handleRead at h
    split at h
    · cases h
    · rename_i buffer m₁ hin
      obtain ⟨hsame, -, -⟩ := stringUser2System_ok hsize hin
      obtain ⟨x, hx, h⟩ := Option.map_eq_some_iff.mp h
      split at h
      · cases h
      · rename_i m₂ hout
        obtain ⟨-, -, rfl⟩ := by simpa using h
        rw [← hsame.changesOnly_iff, changesOnly_iff (hn _) (le_refl _) hout, hsame.spare_iff]
        simp
  · intro fuel io fails fileId r io' m' h
    unfold handleWrite at h
    split at h
    · cases h
    · rename_i buffer m₁ hin
      obtain ⟨hsame, -, hholds⟩ := stringUser2System_ok hsize hin
      obtain ⟨x, hx, h⟩ := Option.map_eq_some_iff.mp h
      split at h
      · cases h
      · rename_i m₂ hout
        obtain ⟨-, -, rfl⟩ := by simpa using h
        rw [← hsame.memory, memory_eq_iff (hn _) (hholds.same hsame) hout]
        simp only [hsame.place_iff]
  · intro k sockID r k' m' h
    unfold handleRecvMsg at h
    obtain ⟨-, h⟩ := Option.ite_none_left_eq_some.mp h
    obtain ⟨x, hx, h⟩ := Option.map_eq_some_iff.mp h
    cases hout : m.stringSys2User x.2.1 addr (-1) with
    | error e => rw [hout] at h; cases h
    | ok m₁ =>
      rw [hout] at h
      obtain ⟨rfl, rfl, rfl⟩ := by simpa [Except.map] using h
      exact ⟨x.2.1, hx, changesOnly_iff rfl (strlen_getData_le hsize hx) hout⟩

/-- One page, full of `c`. -/
def filled (c : Byte) : Machine := ⟨fun _ => c, onePage 0⟩

/-- The key `A` has been typed, and no file is open. -/
def oneKey : Io := ⟨[65], [], fun _ => [], fun _ => none, fun _ => 0⟩

/-- A zero is behind the byte that is read. -/
theorem buffers_framed_zero : ∃ r io' m', handleRead 1 oneKey false (filled 0) 0 1 0 = some (.ok (r, io', m')) ∧
    m'.mainMemory 0 = 65 ∧ (filled 0).ChangesOnly m' 0 1 := by
  refine ⟨_, _, _, rfl, rfl, ?_⟩
  exact ((buffers_framed (filled 0) 0 1 (by decide)).1 1 oneKey false 0 _ _ _ rfl).mpr fun p _ => Or.inl rfl

/-- A message of one byte for the socket 1. -/
def oneMessage : Sockets := { Sockets.init with bindSockets := OrdMap.empty.insert 5 1 }.putData [65] 1 5

theorem not_changesOnly_filled {m' : Machine} (h : m'.mainMemory 1 = 0) : ¬ (filled 7).ChangesOnly m' 0 1 := by
  intro hc
  obtain ⟨i, hi, hplace⟩ := hc 1 (by rw [h]; decide)
  obtain rfl : i = 0 := by omega
  have h0 : (filled 7).Place (0 + BitVec.ofNat 32 0) 0 := rfl
  exact absurd (hplace.unique h0) (by decide)

/-- With a buffer of one byte, each of the calls changes the byte behind it. -/
theorem buffers_damaged :
    (∃ r io' m', handleRead 1 oneKey false (filled 7) 0 1 0 = some (.ok (r, io', m')) ∧
      ¬ (filled 7).ChangesOnly m' 0 1) ∧
    (∃ r io' m', handleWrite 1 oneKey false (filled 7) 0 1 1 = some (.ok (r, io', m')) ∧
      m'.mainMemory ≠ (filled 7).mainMemory) ∧
    ∃ r k' m', handleRecvMsg oneMessage (filled 7) 1 0 1 = some (.ok (r, k', m')) ∧
      ¬ (filled 7).ChangesOnly m' 0 1 := by
  refine ⟨⟨_, _, _, rfl, not_changesOnly_filled rfl⟩, ⟨_, _, _, rfl, fun h => ?_⟩,
    ⟨_, _, _, rfl, not_changesOnly_filled rfl⟩⟩
  exact absurd (congrFun h 1) (by decide)

end Nachos
