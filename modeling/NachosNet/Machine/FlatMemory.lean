/-
# Virtual memory is an array of bytes

`ReadMem` and `WriteMem` of `machine/translate.cc` for accesses of one, two and four bytes, in any
order. With a page table whose valid entries have different frames of the memory, what a process
reads is what an array with a byte at each address holds: a write replaces the bytes of its range,
lowest first, and nothing else, and an access that is refused changes nothing.

An access of an aligned range stays in one page, so that its bytes are side by side in the memory
(`physAddr_range`); different addresses are different places of it.

Key definitions: `MemAccess`, `Machine.access`, `MemAccess.Allowed`, `MemAccess.failure`, `storeBytes`.
Key theorems: `Machine.store_at`, `Machine.holding_after`, `Machine.memory_refines_bytes`.
-/
import NachosNet.Basis.WordBytes
import NachosNet.Machine.Translate

namespace Nachos

open Basis

/-- A call of `ReadMem` or `WriteMem`. -/
inductive MemAccess
  | read (addr : BitVec 32) (size : Width)
  | write (addr : BitVec 32) (size : Width) (value : BitVec 32)
  deriving DecidableEq

namespace MemAccess

def addr : MemAccess → BitVec 32
  | read addr _ => addr
  | write addr _ _ => addr

def size : MemAccess → Width
  | read _ size => size
  | write _ size _ => size

def writing : MemAccess → Bool
  | read _ _ => false
  | write _ _ _ => true

/-- The access is aligned, and its page is in the table, valid and not read-only for a write. -/
def Allowed (t : PageTable) (x : MemAccess) : Prop :=
  x.addr.toNat % x.size.bytes = 0 ∧ ∃ e ∈ t[x.addr.toNat / PageSize]?, e.valid = true ∧
    (x.writing = true → e.readOnly = false)

instance (t : PageTable) (x : MemAccess) : Decidable (x.Allowed t) :=
  inferInstanceAs (Decidable (_ ∧ ∃ e ∈ t[x.addr.toNat / PageSize]?, _))

/-- The exception of the first check that fails. -/
def failure (t : PageTable) (x : MemAccess) : Option ExceptionType :=
  if x.addr.toNat % x.size.bytes ≠ 0 then some .addressError
  else match t[x.addr.toNat / PageSize]? with
    | none => some .addressError
    | some e =>
      if e.valid = false then some .pageFault
      else if e.readOnly = true ∧ x.writing = true then some .readOnly
      else none

end MemAccess

/-! ### Arrays of bytes -/

/-- The array `a` with the low bytes of `value` at `addr` and the addresses after it. -/
def storeBytes (a : BitVec 32 → Byte) (addr : BitVec 32) (size : Width) (value : BitVec 32) : BitVec 32 → Byte :=
  fun v => if (v - addr).toNat < size.bytes then byteOf value (v - addr).toNat else a v

/-- What an access makes of the array, for the permissions of `t`. -/
def MemAccess.apply (t : PageTable) (a : BitVec 32 → Byte) (x : MemAccess) : BitVec 32 → Byte :=
  match x with
  | .read _ _ => a
  | .write addr size value => if x.Allowed t then storeBytes a addr size value else a

namespace Machine

/-- A call: what is read or the exception, and the machine after it. -/
def access (m : Machine) : MemAccess → Except ExceptionType (Option (BitVec 32)) × Machine
  | .read addr size =>
    match m.readMem addr size with
    | .error e => (.error e, ⟨m.mainMemory, (translate m.pageTable addr size false).2⟩)
    | .ok (v, m) => (.ok (some v), m)
  | .write addr size value =>
    match m.writeMem addr size value with
    | .error e => (.error e, ⟨m.mainMemory, (translate m.pageTable addr size true).2⟩)
    | .ok m => (.ok none, m)

/-- The machine after the calls `xs`. -/
def after (m : Machine) (xs : List MemAccess) : Machine := xs.foldl (fun m x => (m.access x).2) m

/-- The bytes of all addresses; what stands for one that cannot be read does not matter. -/
def bytes (m : Machine) : BitVec 32 → Byte := fun v => (m.byteAt v).getD 0

variable {m : Machine} {t : PageTable} {addr : BitVec 32} {size : Width} {writing : Bool} {p : ℕ}

/-- The frames of the valid pages are in the memory. -/
def FramesFit (t : PageTable) : Prop := ∀ e ∈ t, e.valid = true → e.physicalPage.toNat < NumPhysPages

theorem allowed_iff (hf : FramesFit t) (x : MemAccess) :
    x.Allowed t ↔ ∃ p, physAddr t x.addr x.size x.writing = .ok p := by
  constructor
  · rintro ⟨ha, e, he, hv, hr⟩
    refine ⟨_, physAddr_ok_iff.mpr ⟨ha, e, he, hv, ?_, hf e (List.mem_of_getElem? he) hv, rfl⟩⟩
    cases hw : x.writing with
    | false => rw [Bool.and_false]
    | true => rw [hr hw, Bool.false_and]
  · rintro ⟨p, hp⟩
    obtain ⟨ha, e, he, hv, hr, -⟩ := physAddr_ok_iff.mp hp
    refine ⟨ha, e, he, hv, fun hw => ?_⟩
    rwa [hw, Bool.and_true] at hr

theorem failure_of_error (hf : FramesFit t) (x : MemAccess) {e : ExceptionType}
    (h : physAddr t x.addr x.size x.writing = .error e) : x.failure t = some e := by
  unfold physAddr at h
  unfold MemAccess.failure
  by_cases ha : x.addr.toNat % x.size.bytes ≠ 0
  · rw [if_pos ha] at h ⊢
    exact congrArg some (Except.error.inj h)
  · rw [if_neg ha] at h ⊢
    cases he : t[x.addr.toNat / PageSize]? with
    | none =>
      rw [he] at h
      exact congrArg some (Except.error.inj h)
    | some entry =>
      rw [he] at h
      dsimp only at h ⊢
      cases hv : entry.valid with
      | false =>
        rw [hv] at h
        exact congrArg some (Except.error.inj h)
      | true =>
        have hfit := hf entry (List.mem_of_getElem? he) hv
        simp only [hv, Bool.not_true, Bool.false_eq_true, if_false, Bool.and_eq_true, Nat.not_le.mpr hfit] at h
        by_cases hr : entry.readOnly = true ∧ x.writing = true
        · rw [if_pos hr] at h
          rw [if_neg Bool.noConfusion, if_pos hr]
          exact congrArg some (Except.error.inj h)
        · rw [if_neg hr] at h
          cases h

theorem physAddr_range (h : physAddr t addr size writing = .ok p) {k : ℕ} (hk : k < size.bytes) :
    physAddr t (addr + BitVec.ofNat 32 k) .byte false = .ok (p + k) := by
  obtain ⟨ha, e, he, hv, -, hp, rfl⟩ := physAddr_ok_iff.mp h
  have hlt := addr.isLt
  have hsize : size.bytes = 1 ∨ size.bytes = 2 ∨ size.bytes = 4 := by cases size <;> simp [Width.bytes]
  have hnat : (addr + BitVec.ofNat 32 k).toNat = addr.toNat + k := by
    rw [BitVec.toNat_add, BitVec.toNat_ofNat]
    rcases hsize with hs | hs | hs <;> rw [hs] at ha hk <;> omega
  have hpage : (addr.toNat + k) / PageSize = addr.toNat / PageSize ∧
      (addr.toNat + k) % PageSize = addr.toNat % PageSize + k := by
    unfold PageSize
    rcases hsize with hs | hs | hs <;> rw [hs] at ha hk <;> omega
  refine physAddr_ok_iff.mpr ⟨Nat.mod_one _, e, ?_, hv, Bool.and_false _, hp, ?_⟩
  · rw [hnat, hpage.1, he]
  · rw [hnat, hpage.2, Nat.add_assoc]

theorem byteOf_load (mem : Memory) (p : ℕ) (size : Width) :
    ∀ k < size.bytes, byteOf (load mem p size) k = mem (p + k) := by
  intro k hk
  cases size with
  | byte =>
    obtain rfl : k = 0 := by simpa [Width.bytes] using hk
    exact extractLsb'_signExtend (mem p)
  | half =>
    have hhalf : byteOf (load mem p .half) k = byteOf (mem (p + 1) ++ mem p) k := by
      apply byteOf_ext
      intro i hi
      have hlt : 8 * k + i < 32 := by simp only [Width.bytes] at hk; omega
      rw [getLsbD_byteOf _ _ hi, load, BitVec.getLsbD_setWidth, decide_eq_true hlt, Bool.true_and]
    rw [hhalf]
    obtain rfl | rfl : k = 0 ∨ k = 1 := by simp only [Width.bytes] at hk; omega
    · exact byteOf_append_byte_zero _ _
    · exact BitVec.extractLsb'_append_eq_left
  | word =>
    obtain rfl | rfl | rfl | rfl : k = 0 ∨ k = 1 ∨ k = 2 ∨ k = 3 := by simp only [Width.bytes] at hk; omega
    · exact byteOf_append_byte_zero _ _
    · exact (byteOf_append_byte_succ _ _ 0).trans (byteOf_append_byte_zero _ _)
    · exact (byteOf_append_byte_succ _ _ 1).trans ((byteOf_append_byte_succ _ _ 0).trans (byteOf_append_byte_zero _ _))
    · exact (byteOf_append_byte_succ _ _ 2).trans
        ((byteOf_append_byte_succ _ _ 1).trans BitVec.extractLsb'_append_eq_left)

/-! ### One access -/

theorem access_of_error {x : MemAccess} {e : ExceptionType}
    (h : physAddr m.pageTable x.addr x.size x.writing = .error e) : m.access x = (.error e, m) := by
  have htr : translate m.pageTable x.addr x.size x.writing = (.error e, m.pageTable) := by
    unfold translate
    rw [h]
  cases x with
  | read addr size =>
    have htr' : translate m.pageTable addr size false = (.error e, m.pageTable) := htr
    simp only [access, readMem, htr']
  | write addr size value =>
    have htr' : translate m.pageTable addr size true = (.error e, m.pageTable) := htr
    simp only [access, writeMem, htr']

theorem access_read (h : physAddr m.pageTable addr size false = .ok p) :
    ∃ m', m.access (.read addr size) = (.ok (some (load m.mainMemory p size)), m') ∧ SameView m m' := by
  obtain ⟨m', hread, hsame⟩ := readMem_of_physAddr h
  refine ⟨m', ?_, hsame⟩
  simp only [access, hread]

theorem access_write (h : physAddr m.pageTable addr size true = .ok p) (value : BitVec 32) :
    ∃ m', m.access (.write addr size value) = (.ok none, m') ∧ m'.mainMemory = store m.mainMemory p size value ∧
      m'.pageTable.map core = m.pageTable.map core := by
  obtain ⟨m', hwrite, hmem, hcore⟩ := writeMem_of_physAddr h value
  refine ⟨m', ?_, hmem, hcore⟩
  simp only [access, hwrite]

/-- The memory holds the array `a` at the addresses that can be read. -/
structure Holding (t : PageTable) (a : BitVec 32 → Byte) (m : Machine) : Prop where
  table : m.pageTable.map core = t.map core
  byte : ∀ v p, physAddr t v .byte false = .ok p → m.mainMemory p = a v

theorem holding_bytes (m : Machine) : Holding m.pageTable m.bytes m := by
  refine ⟨rfl, fun v p hp => ?_⟩
  unfold bytes
  rw [byteAt_eq_some_iff.mpr ⟨p, hp, rfl⟩, Option.getD_some]

theorem store_at (hd : Distinct t) (h : physAddr t addr size true = .ok p) (mem : Memory) (value v : BitVec 32) {q : ℕ}
    (hq : physAddr t v .byte false = .ok q) : store mem p size value q =
      if (v - addr).toNat < size.bytes then byteOf value (v - addr).toNat else mem q := by
  unfold store
  by_cases hin : p ≤ q ∧ q < p + size.bytes
  · obtain ⟨k, rfl⟩ := Nat.exists_eq_add_of_le hin.1
    have hk : k < size.bytes := Nat.lt_of_add_lt_add_left hin.2
    obtain rfl : v = addr + BitVec.ofNat 32 k := hd.physAddr_inj hq (physAddr_range h hk)
    have hsub : (addr + BitVec.ofNat 32 k - addr).toNat = k := by
      rw [BitVec.add_comm, BitVec.add_sub_cancel, BitVec.toNat_ofNat, Nat.mod_eq_of_lt]
      cases size <;> simp only [Width.bytes] at hk <;> omega
    rw [if_pos hin, hsub, if_pos hk, Nat.add_sub_cancel_left]
    rfl
  · rw [if_neg hin, if_neg fun hlt => hin ?_]
    have hplace := physAddr_range h hlt
    rw [BitVec.ofNat_toNat, BitVec.setWidth_eq, BitVec.add_comm, BitVec.sub_add_cancel, hq] at hplace
    obtain rfl := Except.ok.inj hplace
    exact ⟨Nat.le_add_right _ _, Nat.add_lt_add_left hlt _⟩

variable {a : BitVec 32 → Byte}

theorem Holding.sameView {m' : Machine} (h : Holding t a m) (hs : SameView m m') : Holding t a m' :=
  ⟨hs.table.trans h.table, fun v p hp => by rw [hs.memory, h.byte v p hp]⟩

/-- An access does to the memory what it does to the array. -/
theorem Holding.access (hd : Distinct t) (hf : FramesFit t) (h : Holding t a m) (x : MemAccess) :
    Holding t (x.apply t a) (m.access x).2 := by
  have hallowed := allowed_iff hf x
  have hcongr := physAddr_congr h.table
  cases x with
  | read addr size =>
    show Holding t a _
    cases hx : physAddr t addr size false with
    | error e =>
      rw [access_of_error (x := .read addr size) ((hcongr addr size false).trans hx)]
      exact h
    | ok p =>
      obtain ⟨m', hm', hsame⟩ := access_read ((hcongr addr size false).trans hx)
      rw [hm']
      exact h.sameView hsame
  | write addr size value =>
    rw [MemAccess.apply]
    cases hx : physAddr t addr size true with
    | error e =>
      rw [access_of_error (x := .write addr size value) ((hcongr addr size true).trans hx), if_neg]
      · exact h
      · rw [hallowed]
        rintro ⟨p, hp⟩
        cases hx.symm.trans hp
    | ok p =>
      obtain ⟨m', hm', hmem, hcore⟩ := access_write ((hcongr addr size true).trans hx) value
      rw [hm', if_pos (hallowed.mpr ⟨p, hx⟩)]
      refine ⟨hcore.trans h.table, fun v q hq => ?_⟩
      rw [hmem, store_at hd hx _ _ _ hq, h.byte v q hq]
      rfl

theorem holding_after (hd : Distinct t) (hf : FramesFit t) : ∀ (xs : List MemAccess) {a : BitVec 32 → Byte}
    {m : Machine}, Holding t a m → Holding t (xs.foldl (MemAccess.apply t) a) (m.after xs)
  | [], _, _, h => h
  | x :: xs, _, _, h => holding_after hd hf xs (h.access hd hf x)

/-- After any calls, a call succeeds exactly when it is allowed; when it does not, it gives the
exception of the first check that fails and changes nothing; and a read gives the bytes of the
array that the writes have made. -/
theorem memory_refines_bytes (m : Machine) (hd : Distinct m.pageTable) (hf : FramesFit m.pageTable)
    (xs : List MemAccess) (x : MemAccess) :
    ((∃ r, ((m.after xs).access x).1 = .ok r) ↔ x.Allowed m.pageTable) ∧
    (∀ e, ((m.after xs).access x).1 = .error e →
      x.failure m.pageTable = some e ∧ ((m.after xs).access x).2 = m.after xs) ∧
    ∀ addr size v, x = .read addr size → ((m.after xs).access x).1 = .ok (some v) → ∀ k < size.bytes,
      byteOf v k = xs.foldl (MemAccess.apply m.pageTable) m.bytes (addr + BitVec.ofNat 32 k) := by
  have h := holding_after hd hf xs (holding_bytes m)
  have hcongr := physAddr_congr h.table
  rw [allowed_iff hf]
  cases hx : physAddr m.pageTable x.addr x.size x.writing with
  | error e =>
    have herr := access_of_error ((hcongr x.addr x.size x.writing).trans hx)
    rw [herr]
    refine ⟨iff_of_false (by simp) (by simp), fun e' he => ?_, fun addr size v _ hv => by simp at hv⟩
    obtain rfl := Except.error.inj he
    exact ⟨failure_of_error hf x hx, rfl⟩
  | ok p =>
    cases x with
    | read addr size =>
      obtain ⟨m', hm', -⟩ := access_read ((hcongr addr size false).trans hx)
      rw [hm']
      refine ⟨iff_of_true ⟨_, rfl⟩ ⟨p, rfl⟩, fun e he => by simp at he, fun addr' size' v hread hv k hk => ?_⟩
      obtain ⟨rfl, rfl⟩ := MemAccess.read.inj hread
      obtain rfl := Option.some.inj (Except.ok.inj hv)
      rw [byteOf_load _ _ _ k hk]
      exact h.byte _ _ (physAddr_range hx hk)
    | write addr size value =>
      obtain ⟨m', hm', -⟩ := access_write ((hcongr addr size true).trans hx) value
      rw [hm']
      exact ⟨iff_of_true ⟨_, rfl⟩ ⟨p, rfl⟩, fun e he => by simp at he, fun addr' size' v hread => by simp at hread⟩

/-- Two pages that lie apart, the second of them read-only. -/
def readOnlyPage : Machine := ⟨fun _ => 7, [⟨0, 5, true, false, false, false⟩, ⟨1, 3, true, true, false, false⟩]⟩

/-- A half of a word that was written, and a write to the read-only page. -/
theorem memory_refines_bytes_half :
    (∃ v, ((readOnlyPage.after [.write 124 .word 0x44332211]).access (.read 126 .half)).1 = .ok (some v) ∧
      byteOf v 0 = 0x33 ∧ byteOf v 1 = 0x44) ∧
    ¬ ∃ r, ((readOnlyPage.after [.write 124 .word 0x44332211]).access (.write 128 .byte 1)).1 = .ok r := by
  have hd : Distinct readOnlyPage.pageTable := distinct_of_nodup (by decide)
  have hf : FramesFit readOnlyPage.pageTable := by
    unfold FramesFit
    decide
  constructor
  · obtain ⟨-, -, hbytes⟩ := memory_refines_bytes readOnlyPage hd hf [.write 124 .word 0x44332211] (.read 126 .half)
    have hread : ((readOnlyPage.after [.write 124 .word 0x44332211]).access (.read 126 .half)).1 =
        .ok (some 0x4433) := rfl
    exact ⟨_, hread, hbytes _ _ _ rfl hread 0 (by decide), hbytes _ _ _ rfl hread 1 (by decide)⟩
  · rw [(memory_refines_bytes readOnlyPage hd hf _ _).1]
    decide

end Machine

end Nachos
