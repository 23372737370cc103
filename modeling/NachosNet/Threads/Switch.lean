/-
# SWITCH

The threads of the kernel itself, on the host: `Scheduler::Run` calls `SWITCH`, and
`Thread::StackAllocate` prepares a new thread for it. A thread that calls `SWITCH(old, next)` goes on,
with the registers of the other thread, on the other thread's stack: it comes back from its call
only when some thread switches to it again, which may be itself.

For a thread, `SWITCH` is then a call that returns with all registers and its stack as they were,
its arguments apart (`Context.call`), whatever the other threads do in between on their own stacks
(`threads_resume`); and a forked thread calls `ThreadBegin`, the procedure with its argument, and
`ThreadFinish` (`forked_thread_calls`).

Key definitions: `Placement`, `KernelThreads`, `KernelThreads.step`, `Context`, `Context.step`.
-/
import NachosNet.Basis.Components
import NachosNet.Threads.X86

namespace Nachos

open Basis

/-! ### Threads -/

open X86

/-- `StackSize`, in words. -/
def StackSize : ℕ := 8 * 1024

def stackFencepost : X86.Word := 0xdedbeef

/-- Where things are in the memory of the host: the `Thread` objects, the stacks, `_eax_save` and the functions. The
thread `main` has the stack of the host's process, and the others have what `AllocBoundedArray` returns. -/
structure Placement (ι : Type*) [DecidableEq ι] where
  main : ι
  mainStack : Set X86.Word
  thread : ι → X86.Word
  bottom : ι → X86.Word
  eaxSave : X86.Word
  threadRoot : X86.Word
  threadBegin : X86.Word
  threadFinish : X86.Word

namespace Placement

variable {ι : Type*} [DecidableEq ι] (L : Placement ι)

/-- The part of a `Thread` object that `SWITCH` uses. -/
def object (i : ι) : Set X86.Word := span (L.thread i) (4 * 9)

def stack (i : ι) : Set X86.Word := if i = L.main then L.mainStack else span (L.bottom i) (4 * StackSize)

/-- No two of them have a byte in common. -/
structure Sound : Prop where
  object_object : ∀ i j, i ≠ j → Disjoint (L.object i) (L.object j)
  stack_stack : ∀ i j, i ≠ j → Disjoint (L.stack i) (L.stack j)
  object_stack : ∀ i j, Disjoint (L.object i) (L.stack j)
  var_object : ∀ i, Disjoint (span L.eaxSave 4) (L.object i)
  var_stack : ∀ i, Disjoint (span L.eaxSave 4) (L.stack i)

variable {L}

theorem Sound.apart_var_field (hL : L.Sound) (i : ι) {j : ℕ} (hj : j < 9) : Apart L.eaxSave (field (L.thread i) j) :=
  apart_of_disjoint (subset_refl _) (span_field_subset (L.thread i) hj) (hL.var_object i)

theorem Sound.apart_field_stack (hL : L.Sound) (i : ι) {j : ℕ} (hj : j < 9) {e : X86.Word} (he : span e 4 ⊆ L.stack i) :
    Apart (field (L.thread i) j) e :=
  apart_of_disjoint (span_field_subset (L.thread i) hj) he (hL.object_stack i i)

theorem Sound.apart_var_stack (hL : L.Sound) {i : ι} {e : X86.Word} (he : span e 4 ⊆ L.stack i) : Apart L.eaxSave e :=
  apart_of_disjoint (subset_refl _) he (hL.var_stack i)

end Placement

/-- The threads of the kernel. -/
structure KernelThreads (ι : Type*) where
  cpu : X86
  currentThread : ι
  /-- `Fork` has been called, or it is the main thread. -/
  forked : ι → Bool

/-- Bytes are written, one after the other. -/
def storeAll (mem : X86.Word → Byte) (stores : List (X86.Word × Byte)) : X86.Word → Byte :=
  stores.foldl (fun m w => Function.update m w.1 w.2) mem

namespace KernelThreads

inductive Event (ι : Type*)
  /-- The current thread goes on, to these registers, and writes bytes. -/
  | compute (gpr : Register → X86.Word) (eip : X86.Word) (stores : List (X86.Word × Byte))
  /-- The current thread forks `t`. -/
  | fork (t : ι) (func arg : X86.Word)
  /-- The current thread calls `SWITCH` for `next`, from before the instruction at `ret`. -/
  | switch (next : ι) (ret : X86.Word)

variable {ι : Type*} [DecidableEq ι] (L : Placement ι)

/-- `stackTop` of a thread that is forked. -/
def initialTop (i : ι) : X86.Word := field (L.bottom i) (StackSize - 4) - 4

/-- `Thread::StackAllocate`, on the object as the constructor leaves it. -/
def stackAllocate (i : ι) (func arg : X86.Word) (mem : X86.Word → Byte) : X86.Word → Byte :=
  let registers : Register → X86.Word
    | .esp => initialTop L i
    | .ecx => L.threadBegin
    | .edx => arg
    | .esi => func
    | .edi => L.threadFinish
    | .eax | .ebx | .ebp => 0
  setFields (L.thread i) (savedFields registers L.threadRoot)
    (setWord (setWord mem (initialTop L i) L.threadRoot) (L.bottom i) stackFencepost)

/-- The call `SWITCH(oldThread, nextThread)`, up to the entry of `SWITCH`. -/
def callSwitch (s : X86) (old next ret : X86.Word) : X86 := ((s.push next).push old).push ret

def step (s : KernelThreads ι) : Event ι → Option (KernelThreads ι)
  | .compute gpr eip stores => some { s with cpu := ⟨gpr, eip, storeAll s.cpu.mem stores⟩ }
  | .fork t func arg =>
    if s.forked t then none
    else some { s with
      cpu := { s.cpu with mem := stackAllocate L t func arg s.cpu.mem }
      forked := Function.update s.forked t true }
  | .switch next ret =>
    if s.forked next then
      some { s with
        cpu := run (SWITCH L.eaxSave) (callSwitch s.cpu (L.thread s.currentThread) (L.thread next) ret)
        currentThread := next }
    else none

/-- A thread writes neither to the objects nor to the stacks of others, and has room on its stack for a call. -/
def Permitted (s : KernelThreads ι) : Event ι → Prop
  | .compute _ _ stores => ∀ w ∈ stores, ∀ i, s.forked i = true →
      w.1 ∉ L.object i ∧ (i ≠ s.currentThread → w.1 ∉ L.stack i)
  | .fork _ _ _ => True
  | .switch _ _ => span (s.cpu.gpr .esp - 12) 12 ⊆ L.stack s.currentThread

end KernelThreads

/-! ### A thread as it sees itself -/

/-- The registers of a thread, and its stack. -/
structure Context where
  gpr : Register → X86.Word
  eip : X86.Word
  stack : X86.Word → Byte

namespace Context

inductive Event
  | start (func arg : X86.Word) (mem : X86.Word → Byte)
  | compute (gpr : Register → X86.Word) (eip : X86.Word) (stores : List (X86.Word × Byte))
  | call (next ret : X86.Word)

/-- The call of `SWITCH` has returned: the registers are as they were, with the two arguments on the stack, and what
is left of the call is below and in them. -/
def call (c : Context) (next ret : X86.Word) : Context where
  gpr := Function.update c.gpr .esp (c.gpr .esp - 8)
  eip := ret
  stack := setWord (setWord (setWord c.stack (c.gpr .esp - 4) next) (c.gpr .esp - 8) ret) (c.gpr .esp - 12) ret

variable {ι : Type*} [DecidableEq ι] (L : Placement ι)

/-- A forked thread, at the start of `ThreadRoot`. -/
def start (i : ι) (func arg : X86.Word) (mem : X86.Word → Byte) : Context where
  gpr
    | .esp => KernelThreads.initialTop L i + 4
    | .ecx => L.threadBegin
    | .edx => arg
    | .esi => func
    | .edi => L.threadFinish
    | .eax | .ebx | .ebp => 0
  eip := L.threadRoot
  stack := setWord (setWord (setWord mem (KernelThreads.initialTop L i) L.threadRoot) (L.bottom i) stackFencepost)
    (KernelThreads.initialTop L i + 4) L.threadRoot

/-- A step of thread `i` alone; it is `none` until it is forked. -/
def step (i : ι) : Option Context → Event → Option (Option Context)
  | none, .start func arg mem => some (some (start L i func arg mem))
  | some c, .compute gpr eip stores => some (some ⟨gpr, eip, storeAll c.stack stores⟩)
  | some c, .call next ret => some (some (c.call next ret))
  | _, _ => none

end Context

namespace KernelThreads

variable {ι : Type*} [DecidableEq ι] (L : Placement ι)

/-- The thread whose event it is, and what it is for that thread. -/
def label (s : KernelThreads ι) : Event ι → Option (ι × Context.Event)
  | .compute gpr eip stores => some (s.currentThread, .compute gpr eip stores)
  | .fork t func arg => some (t, .start func arg s.cpu.mem)
  | .switch next ret => some (s.currentThread, .call (L.thread next) ret)

/-! ### What a thread leaves behind -/

/-- The memory has the registers and the stack of a thread that is in `SWITCH`. Its first argument there is still to be
overwritten. -/
structure Suspended (i : ι) (c : Context) (mem : X86.Word → Byte) : Prop where
  registers : ∀ r, restored mem (L.thread i) r = Function.update c.gpr .esp (c.gpr .esp - 4) r
  pc : wordAt mem (field (L.thread i) pcIndex) = c.eip
  room : span (c.gpr .esp - 4) 8 ⊆ L.stack i
  ret : wordAt c.stack (c.gpr .esp - 4) = c.eip
  argument : wordAt c.stack (c.gpr .esp) = c.eip
  stack : ∀ a ∈ L.stack i, a ∉ span (c.gpr .esp) 4 → mem a = c.stack a

/-- Thread `i` has the processor. -/
structure Running (i : ι) (c : Context) (cpu : X86) : Prop where
  gpr : cpu.gpr = c.gpr
  eip : cpu.eip = c.eip
  stack : ∀ a ∈ L.stack i, cpu.mem a = c.stack a

/-- Each forked thread is as it sees itself. -/
structure Tracks (s : KernelThreads ι) (cs : ι → Option Context) : Prop where
  forked : ∀ i, s.forked i = (cs i).isSome
  main : s.forked L.main = true
  current : ∃ c ∈ cs s.currentThread, Running L s.currentThread c s.cpu
  suspended : ∀ i, i ≠ s.currentThread → ∀ c ∈ cs i, Suspended L i c s.cpu.mem

section Steps

variable {L} {i : ι} {c : Context} {mem mem' : X86.Word → Byte}

theorem wordAt_object {j : ℕ} (hj : j < 9) (h : ∀ a ∈ L.object i, mem' a = mem a) :
    wordAt mem' (field (L.thread i) j) = wordAt mem (field (L.thread i) j) :=
  wordAt_congr fun _ hk => h _ (span_field_subset (L.thread i) hj (add_mem_span _ hk))

/-- A suspended thread does not notice what happens elsewhere in the memory. -/
theorem Suspended.frame (h : Suspended L i c mem) (hobject : ∀ a ∈ L.object i, mem' a = mem a)
    (hstack : ∀ a ∈ L.stack i, mem' a = mem a) : Suspended L i c mem' where
  registers r := (wordAt_object (index_lt r) hobject).trans (h.registers r)
  pc := (wordAt_object (by decide) hobject).trans h.pc
  room := h.room
  ret := h.ret
  argument := h.argument
  stack a ha hne := (hstack a ha).trans (h.stack a ha hne)

theorem wordAt_saved (gpr : Register → X86.Word) (pc : X86.Word) (t : X86.Word) (mem : X86.Word → Byte) :
    (∀ r, restored (setFields t (savedFields gpr pc) mem) t r = gpr r) ∧
      wordAt (setFields t (savedFields gpr pc) mem) (field t pcIndex) = pc := by
  have hfield : ∀ j < 9, wordAt (setFields t (savedFields gpr pc) mem) (field t j) =
      ((savedFields gpr pc).lookup j).getD (wordAt mem (field t j)) := fun j hj =>
    wordAt_setFields (n := 9) (by decide) hj _ (nodup_savedFields gpr pc) (savedFields_lt gpr pc)
  refine ⟨fun r => (hfield _ (index_lt r)).trans ?_, (hfield pcIndex (by decide)).trans rfl⟩
  cases r <;> rfl

theorem setFields_savedFields_of_notMem {gpr : Register → X86.Word} {pc a : X86.Word} (ha : a ∉ L.object i) :
    setFields (L.thread i) (savedFields gpr pc) mem a = mem a :=
  setFields_of_notMem ha _ (savedFields_lt gpr pc)

/-! ### The two halves of `SWITCH` -/

theorem gpr_callSwitch (cpu : X86) (old next ret : X86.Word) :
    (callSwitch cpu old next ret).gpr = Function.update cpu.gpr .esp (cpu.gpr .esp - 12) := by
  have h12 : cpu.gpr .esp - 4 - 4 - 4 = cpu.gpr .esp - 12 := by bv_omega
  simp only [callSwitch, push, Function.update_self, Function.update_idem, h12]

theorem mem_callSwitch (cpu : X86) (old next ret : X86.Word) : (callSwitch cpu old next ret).mem =
    setWord (setWord (setWord cpu.mem (cpu.gpr .esp - 4) next) (cpu.gpr .esp - 8) old) (cpu.gpr .esp - 12) ret := by
  have h8 : cpu.gpr .esp - 4 - 4 = cpu.gpr .esp - 8 := by bv_omega
  have h12 : cpu.gpr .esp - 8 - 4 = cpu.gpr .esp - 12 := by bv_omega
  simp only [callSwitch, push, Function.update_self, h8, h12]

theorem apart_pushed (e : X86.Word) : Apart (e - 12) (e - 8) ∧ Apart (e - 12) (e - 4) ∧ Apart (e - 8) (e - 4) := by
  unfold Apart
  bv_omega

theorem span_pushed {e a : X86.Word} {k : ℕ} (hk : k ≤ 8) (ha : a ∈ span (e - 12 + BitVec.ofNat 32 k) 4) :
    a ∈ span (e - 12) 12 := span_subset (by omega) ha

theorem notMem_pushed {e a : X86.Word} (ha : a ∉ span (e - 12) 12) :
    a ∉ span (e - 12) 4 ∧ a ∉ span (e - 8) 4 ∧ a ∉ span (e - 4) 4 := by
  have h0 : e - 12 = e - 12 + BitVec.ofNat 32 0 := (BitVec.add_zero _).symm
  have h4 : e - 8 = e - 12 + BitVec.ofNat 32 4 := by bv_omega
  have h8 : e - 4 = e - 12 + BitVec.ofNat 32 8 := by bv_omega
  refine ⟨fun h => ha ?_, fun h => ha ?_, fun h => ha ?_⟩
  · rw [h0] at h
    exact span_pushed (by decide) h
  · rw [h4] at h
    exact span_pushed (by decide) h
  · rw [h8] at h
    exact span_pushed (by decide) h

/-- What `SWITCH` has written when the old thread is saved. -/
def savedMem (L : Placement ι) (i : ι) (cpu : X86) (next ret : X86.Word) : X86.Word → Byte :=
  let entry := callSwitch cpu (L.thread i) next ret
  setFields (L.thread i) (savedFields entry.gpr ret) (setWord entry.mem L.eaxSave (entry.gpr .eax))

theorem savedMem_of_notMem {cpu : X86} {next ret a : X86.Word} (hobject : a ∉ L.object i) (hvar : a ∉ span L.eaxSave 4)
    (hpushed : a ∉ span (cpu.gpr .esp - 12) 12) : savedMem L i cpu next ret a = cpu.mem a := by
  obtain ⟨h12, h8, h4⟩ := notMem_pushed hpushed
  rw [savedMem, setFields_savedFields_of_notMem hobject, setWord_of_notMem _ _ hvar, mem_callSwitch,
    setWord_of_notMem _ _ h12, setWord_of_notMem _ _ h8, setWord_of_notMem _ _ h4]

/-- The first half of `SWITCH` leaves the old thread suspended in its call. -/
theorem Running.save (hL : L.Sound) {cpu : X86} (h : Running L i c cpu) (hroom : span (cpu.gpr .esp - 12) 12 ⊆ L.stack i)
    (next ret : X86.Word) : Suspended L i (c.call next ret) (savedMem L i cpu next ret) := by
  obtain ⟨h128, h124, h84⟩ := apart_pushed (c.gpr .esp)
  have hsp : (c.call next ret).gpr .esp = c.gpr .esp - 8 := Function.update_self Register.esp _ c.gpr
  have hsp4 : c.gpr .esp - 8 - 4 = c.gpr .esp - 12 := by bv_omega
  rw [h.gpr] at hroom
  obtain ⟨hregs, hpc⟩ := wordAt_saved (callSwitch cpu (L.thread i) next ret).gpr ret (L.thread i)
    (setWord (callSwitch cpu (L.thread i) next ret).mem L.eaxSave ((callSwitch cpu (L.thread i) next ret).gpr .eax))
  refine ⟨fun r => ?_, hpc, ?_, ?_, ?_, fun a ha hne => ?_⟩
  · rw [savedMem, hregs r, gpr_callSwitch, h.gpr, hsp, hsp4, Context.call, Function.update_idem]
  · rw [hsp, hsp4]
    exact fun a ha => hroom (Nat.lt_of_lt_of_le ha (by decide))
  · rw [hsp, hsp4]
    exact wordAt_setWord_self ..
  · rw [hsp]
    exact (wordAt_setWord_of_apart _ _ h128).trans (wordAt_setWord_self ..)
  · rw [hsp] at hne
    have hobject : a ∉ L.object i := fun hc => Set.disjoint_left.mp (hL.object_stack i i) hc ha
    have hvar : a ∉ span L.eaxSave 4 := fun hc => Set.disjoint_left.mp (hL.var_stack i) hc ha
    rw [savedMem, setFields_savedFields_of_notMem hobject, setWord_of_notMem _ _ hvar, mem_callSwitch, h.gpr]
    change _ = setWord (setWord (setWord c.stack _ _) _ _) _ _ a
    -- the words at the same places, but for the first argument
    by_cases h12 : a ∈ span (c.gpr .esp - 12) 4
    · exact (if_pos h12).trans (if_pos h12).symm
    rw [setWord_of_notMem _ _ h12, setWord_of_notMem _ _ h12, setWord_of_notMem _ _ hne, setWord_of_notMem _ _ hne]
    by_cases h4 : a ∈ span (c.gpr .esp - 4) 4
    · exact (if_pos h4).trans (if_pos h4).symm
    · rw [setWord_of_notMem _ _ h4, setWord_of_notMem _ _ h4, h.stack a ha]

/-- What `SWITCH` has written at its end. -/
def restoredMem (L : Placement ι) (t : ι) (mem : X86.Word → Byte) : X86.Word → Byte :=
  setWord (setWord mem L.eaxSave (restored mem (L.thread t) .eax)) (field (restored mem (L.thread t) .esp) 1)
    (wordAt mem (field (L.thread t) pcIndex))

theorem Suspended.restoredMem_eq (h : Suspended L i c mem) :
    restoredMem L i mem = setWord (setWord mem L.eaxSave (c.gpr .eax)) (c.gpr .esp) c.eip := by
  have hsp : field (restored mem (L.thread i) .esp) 1 = c.gpr .esp := by
    rw [h.registers, Function.update_self]
    change c.gpr .esp - 4 + 4 = c.gpr .esp
    exact BitVec.sub_add_cancel ..
  rw [restoredMem, hsp, h.pc, h.registers, Function.update_of_ne (by decide)]

theorem Suspended.restore (hL : L.Sound) (h : Suspended L i c mem) :
    Running L i c ⟨Function.update (restored mem (L.thread i)) .esp (restored mem (L.thread i) .esp + 4),
      wordAt (restoredMem L i mem) (restored mem (L.thread i) .esp), restoredMem L i mem⟩ := by
  have hcancel : c.gpr .esp - 4 + 4 = c.gpr .esp := BitVec.sub_add_cancel ..
  have hregs : restored mem (L.thread i) = Function.update c.gpr .esp (c.gpr .esp - 4) := funext h.registers
  have happart : Apart (c.gpr .esp) (c.gpr .esp - 4) := by
    unfold Apart
    bv_omega
  have hret : span (c.gpr .esp - 4) 4 ⊆ L.stack i := fun a ha => h.room (Nat.lt_of_lt_of_le ha (by decide))
  have hvar : ∀ a ∈ L.stack i, a ∉ span L.eaxSave 4 := fun a ha hc => Set.disjoint_left.mp (hL.var_stack i) hc ha
  rw [h.restoredMem_eq, hregs, Function.update_self, hcancel, Function.update_idem, Function.update_eq_self]
  refine ⟨rfl, ?_, fun a ha => ?_⟩
  · change wordAt (setWord (setWord mem L.eaxSave _) _ _) _ = c.eip
    rw [wordAt_setWord_of_apart _ _ happart, ← h.ret]
    refine wordAt_congr fun k hk => ?_
    have hk' : c.gpr .esp - 4 + BitVec.ofNat 32 k ∈ span (c.gpr .esp - 4) 4 := add_mem_span _ hk
    rw [setWord_of_notMem _ _ (hvar _ (hret hk'))]
    refine h.stack _ (hret hk') fun hc => ?_
    change (c.gpr .esp - 4 + BitVec.ofNat 32 k - c.gpr .esp).toNat < 4 at hc
    bv_omega
  · change setWord (setWord mem L.eaxSave _) _ _ a = c.stack a
    by_cases harg : a ∈ span (c.gpr .esp) 4
    · have hbyte : c.stack a = _ := byte_of_mem_span harg
      rw [hbyte, h.argument]
      exact if_pos harg
    · rw [setWord_of_notMem _ _ harg, setWord_of_notMem _ _ (hvar a ha), h.stack a ha harg]

/-! ### One step -/

variable {s : KernelThreads ι} {cs : ι → Option Context}

theorem span_pushed_subset {e : X86.Word} (hroom : span (e - 12) 12 ⊆ L.stack i) :
    span (e - 12) 4 ⊆ L.stack i ∧ span (e - 8) 4 ⊆ L.stack i ∧ span (e - 4) 4 ⊆ L.stack i := by
  refine ⟨fun a ha => ?_, fun a ha => ?_, fun a ha => ?_⟩
  all_goals
    by_contra hc
    have hnot := notMem_pushed fun h => hc (hroom h)
  · exact hnot.1 ha
  · exact hnot.2.1 ha
  · exact hnot.2.2 ha

theorem run_SWITCH (hL : L.Sound) {cpu : X86} (hroom : span (cpu.gpr .esp - 12) 12 ⊆ L.stack i) {t : ι} {ret : X86.Word}
    (ht : Suspended L t c (savedMem L i cpu (L.thread t) ret)) :
    run (SWITCH L.eaxSave) (callSwitch cpu (L.thread i) (L.thread t) ret) =
      let mem := savedMem L i cpu (L.thread t) ret
      ⟨Function.update (restored mem (L.thread t)) .esp (restored mem (L.thread t) .esp + 4),
        wordAt (restoredMem L t mem) (restored mem (L.thread t) .esp), restoredMem L t mem⟩ := by
  obtain ⟨h128, h124, h84⟩ := apart_pushed (cpu.gpr .esp)
  obtain ⟨hin12, hin8, hin4⟩ := span_pushed_subset hroom
  have hsp : (callSwitch cpu (L.thread i) (L.thread t) ret).gpr .esp = cpu.gpr .esp - 12 := by
    rw [gpr_callSwitch, Function.update_self]
  have h8 : field (cpu.gpr .esp - 12) 1 = cpu.gpr .esp - 8 := by
    unfold field
    bv_omega
  have h4 : field (cpu.gpr .esp - 12) 2 = cpu.gpr .esp - 4 := by
    unfold field
    bv_omega
  have hret : wordAt (callSwitch cpu (L.thread i) (L.thread t) ret).mem (cpu.gpr .esp - 12) = ret := by
    rw [mem_callSwitch, wordAt_setWord_self]
  have hold : wordAt (callSwitch cpu (L.thread i) (L.thread t) ret).mem (cpu.gpr .esp - 8) = L.thread i := by
    rw [mem_callSwitch, wordAt_setWord_of_apart _ _ h128, wordAt_setWord_self]
  have hnext : wordAt (callSwitch cpu (L.thread i) (L.thread t) ret).mem (cpu.gpr .esp - 4) = L.thread t := by
    rw [mem_callSwitch, wordAt_setWord_of_apart _ _ h124, wordAt_setWord_of_apart _ _ h84, wordAt_setWord_self]
  have hsave : run (saveCode L.eaxSave) (callSwitch cpu (L.thread i) (L.thread t) ret) = {
      callSwitch cpu (L.thread i) (L.thread t) ret with
      gpr := Function.update (Function.update (callSwitch cpu (L.thread i) (L.thread t) ret).gpr .eax (L.thread i)) .ebx ret
      mem := savedMem L i cpu (L.thread t) ret } := by
    rw [← h8, ← hsp] at hold
    refine (run_saveCode hold (fun j hj => (hL.apart_var_field i hj).symm) (fun j hj => ?_) ?_ ?_).trans ?_
    · rw [hsp]
      exact hL.apart_field_stack i hj hin12
    · rw [hsp]
      exact hL.apart_var_stack hin12
    · rw [hsp, h8]
      exact hL.apart_var_stack hin8
    · rw [hsp, hret]
      rfl
  -- the second argument is read after the first half
  have hnext' : wordAt (savedMem L i cpu (L.thread t) ret) (cpu.gpr .esp - 4) = L.thread t := by
    refine Eq.trans (wordAt_congr fun k hk => ?_) hnext
    have hk' := hin4 (add_mem_span (cpu.gpr .esp - 4) hk)
    rw [savedMem, setFields_savedFields_of_notMem fun hc => Set.disjoint_left.mp (hL.object_stack i i) hc hk',
      setWord_of_notMem _ _ fun hc => Set.disjoint_left.mp (hL.var_stack i) hc hk']
  have hgpr : Function.update (Function.update (callSwitch cpu (L.thread i) (L.thread t) ret).gpr .eax (L.thread i)) .ebx
      ret .esp = cpu.gpr .esp - 12 := by
    rw [Function.update_of_ne Register.noConfusion, Function.update_of_ne Register.noConfusion, hsp]
  have hsecond : wordAt (savedMem L i cpu (L.thread t) ret) (field (Function.update (Function.update
      (callSwitch cpu (L.thread i) (L.thread t) ret).gpr .eax (L.thread i)) .ebx ret .esp) 2) = L.thread t := by
    rw [hgpr, h4, hnext']
  have hroom' : span (field (c.gpr .esp - 4) 1) 4 ⊆ L.stack t := by
    intro a ha
    apply ht.room
    exact span_subset (k := 4) (by decide) ha
  have harg : Apart (field (restored (savedMem L i cpu (L.thread t) ret) (L.thread t) .esp) 1) L.eaxSave := by
    rw [ht.registers, Function.update_self]
    exact (hL.apart_var_stack hroom').symm
  have htwo : run (SWITCH L.eaxSave) (callSwitch cpu (L.thread i) (L.thread t) ret) =
      run (restoreCode L.eaxSave) (run (saveCode L.eaxSave) (callSwitch cpu (L.thread i) (L.thread t) ret)) :=
    List.foldl_append ..
  rw [htwo, hsave]
  exact run_restoreCode hsecond (fun j hj => hL.apart_var_field t hj) harg

/-- A switch: the old thread is in its call, and the new one comes back from its own. -/
theorem Tracks.switch (hL : L.Sound) (h : Tracks L s cs) {next : ι} {ret : X86.Word} {s' : KernelThreads ι}
    (hp : Permitted L s (.switch next ret)) (hs : step L s (.switch next ret) = some s') :
    ∃ b, Context.step L s.currentThread (cs s.currentThread) (.call (L.thread next) ret) = some b ∧
      Tracks L s' (Function.update cs s.currentThread b) := by
  obtain ⟨hnext, hs⟩ := Option.ite_none_right_eq_some.mp hs
  obtain rfl := Option.some.inj hs
  obtain ⟨c, hc, hrun⟩ := h.current
  have hcs : cs s.currentThread = some c := hc
  have hroom : span (s.cpu.gpr .esp - 12) 12 ⊆ L.stack s.currentThread := hp
  refine ⟨some (c.call (L.thread next) ret), by rw [hcs]; rfl, ?_⟩
  -- after the first half every thread is suspended
  have hsaved : ∀ i, ∀ d ∈ Function.update cs s.currentThread (some (c.call (L.thread next) ret)) i,
      Suspended L i d (savedMem L s.currentThread s.cpu (L.thread next) ret) := by
    intro i d hd
    by_cases hi : i = s.currentThread
    · subst hi
      rw [Function.update_self] at hd
      obtain rfl := Option.some.inj hd
      exact hrun.save hL hroom (L.thread next) ret
    · rw [Function.update_of_ne hi] at hd
      refine (h.suspended i hi d hd).frame (fun a ha => ?_) fun a ha => ?_
      · exact savedMem_of_notMem (fun hc => Set.disjoint_left.mp (hL.object_object i _ hi) ha hc)
          (fun hc => Set.disjoint_left.mp (hL.var_object i) hc ha)
          fun hc => Set.disjoint_left.mp (hL.object_stack i _) ha (hroom hc)
      · exact savedMem_of_notMem (fun hc => Set.disjoint_left.mp (hL.object_stack _ i) hc ha)
          (fun hc => Set.disjoint_left.mp (hL.var_stack i) hc ha)
          fun hc => Set.disjoint_left.mp (hL.stack_stack i _ hi) ha (hroom hc)
  -- the new thread is one of them
  have hsome : ∃ d, Function.update cs s.currentThread (some (c.call (L.thread next) ret)) next = some d := by
    by_cases hn : next = s.currentThread
    · exact ⟨_, by rw [hn, Function.update_self]⟩
    · rw [Function.update_of_ne hn]
      exact Option.isSome_iff_exists.mp ((h.forked next).symm.trans hnext)
  obtain ⟨d, hd⟩ := hsome
  have hsusp := hsaved next d hd
  have hrest : span (d.gpr .esp) 4 ⊆ L.stack next := by
    intro a ha
    apply hsusp.room
    have hsp : d.gpr .esp = d.gpr .esp - 4 + BitVec.ofNat 32 4 := (BitVec.sub_add_cancel ..).symm
    rw [hsp] at ha
    exact span_subset (by decide) ha
  constructor
  · intro i
    change s.forked i = _
    rw [h.forked i]
    by_cases hi : i = s.currentThread
    · rw [hi, Function.update_self, hcs]
      rfl
    · rw [Function.update_of_ne hi]
  · exact h.main
  · refine ⟨d, hd, ?_⟩
    rw [run_SWITCH hL hroom hsusp]
    exact hsusp.restore hL
  · intro i hi d' hd'
    rw [run_SWITCH hL hroom hsusp]
    change Suspended L i d' (restoredMem L next _)
    rw [hsusp.restoredMem_eq]
    refine (hsaved i d' hd').frame (fun a ha => ?_) fun a ha => ?_
    · rw [setWord_of_notMem _ _ fun hc => Set.disjoint_left.mp (hL.object_stack i next) ha (hrest hc),
        setWord_of_notMem _ _ fun hc => Set.disjoint_left.mp (hL.var_object i) hc ha]
    · rw [setWord_of_notMem _ _ fun hc => Set.disjoint_left.mp (hL.stack_stack i next hi) ha (hrest hc),
        setWord_of_notMem _ _ fun hc => Set.disjoint_left.mp (hL.var_stack i) hc ha]

theorem storeAll_congr {a : X86.Word} : ∀ (stores : List (X86.Word × Byte)) {mem mem' : X86.Word → Byte},
    mem' a = mem a → storeAll mem' stores a = storeAll mem stores a
  | [], _, _, h => h
  | w :: stores, mem, mem', h => by
    refine storeAll_congr stores ?_
    change Function.update mem' w.1 w.2 a = Function.update mem w.1 w.2 a
    rw [Function.update_apply, Function.update_apply, h]

theorem storeAll_of_notMem {a : X86.Word} : ∀ (stores : List (X86.Word × Byte)) {mem : X86.Word → Byte},
    (∀ w ∈ stores, w.1 ≠ a) → storeAll mem stores a = mem a
  | [], _, _ => rfl
  | w :: stores, mem, h => by
    have ih : storeAll (Function.update mem w.1 w.2) stores a = Function.update mem w.1 w.2 a :=
      storeAll_of_notMem stores fun v hv => h v (List.mem_cons_of_mem w hv)
    exact ih.trans (Function.update_of_ne (h w List.mem_cons_self).symm w.2 mem)

/-- The current thread goes on. -/
theorem Tracks.compute (h : Tracks L s cs) {gpr : Register → X86.Word} {eip : X86.Word} {stores : List (X86.Word × Byte)}
    (hp : Permitted L s (.compute gpr eip stores)) :
    ∃ b, Context.step L s.currentThread (cs s.currentThread) (.compute gpr eip stores) = some b ∧
      Tracks L { s with cpu := ⟨gpr, eip, storeAll s.cpu.mem stores⟩ } (Function.update cs s.currentThread b) := by
  obtain ⟨c, hc, hrun⟩ := h.current
  have hcs : cs s.currentThread = some c := hc
  refine ⟨some ⟨gpr, eip, storeAll c.stack stores⟩, by rw [hcs]; rfl, ?_, h.main, ?_, ?_⟩
  · intro i
    rw [h.forked i]
    by_cases hi : i = s.currentThread
    · rw [hi, Function.update_self, hcs]
      rfl
    · rw [Function.update_of_ne hi]
  · exact ⟨_, Function.update_self .., rfl, rfl, fun a ha => storeAll_congr stores (hrun.stack a ha)⟩
  · intro i hi d hd
    rw [Function.update_of_ne hi] at hd
    have hfork : s.forked i = true := by
      rw [h.forked i, Option.mem_def.mp hd]
      rfl
    refine (h.suspended i hi d hd).frame (fun a ha => ?_) fun a ha => ?_
    · exact storeAll_of_notMem stores fun w hw he => (hp w hw i hfork).1 (he ▸ ha)
    · exact storeAll_of_notMem stores fun w hw he => (hp w hw i hfork).2 hi (he ▸ ha)

theorem initialTop_eq (i : ι) : initialTop L i = field (L.bottom i) (StackSize - 5) := by
  unfold initialTop field StackSize
  bv_omega

theorem span_initialTop (i : ι) (hi : i ≠ L.main) :
    span (initialTop L i) 8 ⊆ L.stack i ∧ span (L.bottom i) 4 ⊆ L.stack i ∧ Apart (L.bottom i) (initialTop L i) ∧
      Apart (initialTop L i + 4) (initialTop L i) := by
  have hstack : L.stack i = span (L.bottom i) (4 * StackSize) := if_neg hi
  rw [hstack, initialTop_eq]
  refine ⟨span_subset (by decide), fun a ha => Nat.lt_of_lt_of_le ha (by decide), ?_, ?_⟩
  · have h0 : L.bottom i = field (L.bottom i) 0 := (BitVec.add_zero _).symm
    nth_rewrite 1 [h0]
    exact apart_field (L.bottom i) (n := StackSize) (by decide) (by decide) (by decide) (by decide)
  · unfold Apart
    bv_omega

theorem suspended_stackAllocate (hL : L.Sound) {t : ι} (ht : t ≠ L.main) (func arg : X86.Word) (mem : X86.Word → Byte) :
    Suspended L t (Context.start L t func arg mem) (stackAllocate L t func arg mem) := by
  obtain ⟨hroom, -, hbottom, htop⟩ := span_initialTop t ht
  have hsp : (Context.start L t func arg mem).gpr .esp = initialTop L t + 4 := rfl
  have hcancel : initialTop L t + 4 - 4 = initialTop L t := BitVec.add_sub_cancel ..
  obtain ⟨hregs, hpc⟩ := wordAt_saved (fun
    | .esp => initialTop L t
    | .ecx => L.threadBegin
    | .edx => arg
    | .esi => func
    | .edi => L.threadFinish
    | .eax | .ebx | .ebp => 0) L.threadRoot (L.thread t)
    (setWord (setWord mem (initialTop L t) L.threadRoot) (L.bottom t) stackFencepost)
  refine ⟨fun r => (hregs r).trans ?_, hpc, ?_, ?_, ?_, fun a ha hne => ?_⟩
  · rw [hsp, hcancel]
    cases r <;> rfl
  · rw [hsp, hcancel]
    exact hroom
  · rw [hsp, hcancel]
    change wordAt (setWord (setWord (setWord mem _ _) _ _) _ _) _ = L.threadRoot
    rw [wordAt_setWord_of_apart _ _ htop, wordAt_setWord_of_apart _ _ hbottom, wordAt_setWord_self]
  · exact wordAt_setWord_self ..
  · rw [hsp] at hne
    rw [stackAllocate, setFields_savedFields_of_notMem fun hc => Set.disjoint_left.mp (hL.object_stack t t) hc ha]
    exact (setWord_of_notMem _ _ hne).symm

theorem stackAllocate_of_notMem {t : ι} (ht : t ≠ L.main) (func arg : X86.Word) {a : X86.Word} (hobject : a ∉ L.object t)
    (hstack : a ∉ L.stack t) : stackAllocate L t func arg mem a = mem a := by
  obtain ⟨hroom, hbottom, -, -⟩ := span_initialTop t ht
  rw [stackAllocate, setFields_savedFields_of_notMem hobject, setWord_of_notMem _ _ fun hc => hstack (hbottom hc),
    setWord_of_notMem _ _ fun hc => hstack (hroom (Nat.lt_of_lt_of_le hc (by decide)))]

theorem Tracks.fork (hL : L.Sound) (h : Tracks L s cs) {t : ι} {func arg : X86.Word} {s' : KernelThreads ι}
    (hs : step L s (.fork t func arg) = some s') :
    ∃ b, Context.step L t (cs t) (.start func arg s.cpu.mem) = some b ∧ Tracks L s' (Function.update cs t b) := by
  obtain ⟨hnot, hs⟩ := Option.ite_none_left_eq_some.mp hs
  obtain rfl := Option.some.inj hs
  obtain ⟨c, hc, hrun⟩ := h.current
  have hnone : cs t = none := by
    rw [h.forked t, Bool.not_eq_true, Option.isSome_eq_false_iff, Option.isNone_iff_eq_none] at hnot
    exact hnot
  have hcur : s.currentThread ≠ t := by
    rintro rfl
    rw [hnone] at hc
    cases hc
  have hmain : t ≠ L.main := by
    rintro rfl
    exact hnot h.main
  refine ⟨some (Context.start L t func arg s.cpu.mem), by rw [hnone]; rfl, ?_, ?_, ?_, ?_⟩
  · intro i
    change Function.update s.forked t true i = _
    by_cases hi : i = t
    · rw [hi, Function.update_self, Function.update_self]
      rfl
    · rw [Function.update_of_ne hi, Function.update_of_ne hi, h.forked i]
  · change Function.update s.forked t true L.main = true
    rw [Function.update_of_ne hmain.symm, h.main]
  · refine ⟨c, (Function.update_of_ne hcur _ cs).trans hc, hrun.gpr, hrun.eip, fun a ha => ?_⟩
    refine (stackAllocate_of_notMem hmain func arg (fun hc => ?_) fun hc => ?_).trans (hrun.stack a ha)
    · exact Set.disjoint_left.mp (hL.object_stack t _) hc ha
    · exact Set.disjoint_left.mp (hL.stack_stack _ t hcur) ha hc
  · intro i hi d hd
    by_cases hit : i = t
    · subst hit
      rw [Function.update_self] at hd
      obtain rfl := Option.some.inj hd
      exact suspended_stackAllocate hL hmain func arg s.cpu.mem
    · rw [Function.update_of_ne hit] at hd
      refine (h.suspended i hi d hd).frame (fun a ha => ?_) fun a ha => ?_
      · exact stackAllocate_of_notMem hmain func arg (fun hc => Set.disjoint_left.mp (hL.object_object i t hit) ha hc)
          fun hc => Set.disjoint_left.mp (hL.object_stack i t) ha hc
      · exact stackAllocate_of_notMem hmain func arg (fun hc => Set.disjoint_left.mp (hL.object_stack t i) hc ha)
          fun hc => Set.disjoint_left.mp (hL.stack_stack i t hit) ha hc

end Steps

/-! ### Every run -/

/-- The main thread runs, and no other has been forked. -/
def start (cpu : X86) : KernelThreads ι := ⟨cpu, L.main, fun i => i = L.main⟩

def contexts (cpu : X86) (i : ι) : Option Context := if i = L.main then some ⟨cpu.gpr, cpu.eip, cpu.mem⟩ else none

theorem tracks_start (cpu : X86) : Tracks L (start L cpu) (contexts L cpu) where
  forked i := by
    change decide (i = L.main) = _
    unfold contexts
    by_cases hi : i = L.main
    · rw [if_pos hi, decide_eq_true hi]
      rfl
    · rw [if_neg hi, decide_eq_false hi]
      rfl
  main := decide_eq_true rfl
  current := ⟨⟨cpu.gpr, cpu.eip, cpu.mem⟩, if_pos rfl, rfl, rfl, fun _ _ => rfl⟩
  suspended i hi d hd := by
    have hmain : i ≠ L.main := hi
    rw [contexts, if_neg hmain] at hd
    cases hd

variable {L}

theorem exec_tracks (hL : L.Sound) (cpu : X86) (es : List (Event ι)) (s : KernelThreads ι)
    (hp : Along (step L) (Permitted L) (start L cpu) es) (h : exec (step L) (start L cpu) es = some s) :
    ∃ cs : ι → Option Context, (∀ i, exec (Context.step L i) (contexts L cpu i)
      (eventsOf (step L) (label L) i (start L cpu) es) = some (cs i)) ∧ Tracks L s cs := by
  refine exec_projects (R := Tracks L) ?_ ?_ es (start L cpu) (contexts L cpu) s (tracks_start L cpu) hp h
  · intro s cs e s' i a ht hpe hl hs
    cases e with
    | compute gpr eip stores =>
      obtain ⟨rfl, rfl⟩ := Prod.mk.inj (Option.some.inj hl)
      obtain rfl := Option.some.inj hs
      exact ht.compute hpe
    | fork t func arg =>
      obtain ⟨rfl, rfl⟩ := Prod.mk.inj (Option.some.inj hl)
      exact ht.fork hL hs
    | switch next ret =>
      obtain ⟨rfl, rfl⟩ := Prod.mk.inj (Option.some.inj hl)
      exact ht.switch hL hpe hs
  · intro s cs e s' _ _ hl
    cases e <;> cases hl

/-- **A thread does not notice `SWITCH`.** In every run of threads that write neither to one another's stacks nor to
the part of the `Thread` objects where `SWITCH` keeps the registers, the thread that has the processor has the registers and
the stack that its own steps have led to, for which each call of `SWITCH` was one that returned with all registers as
they were and nothing of the stack changed but its arguments. -/
theorem threads_resume (hL : L.Sound) (cpu : X86) (es : List (Event ι)) (s : KernelThreads ι)
    (hp : Along (step L) (Permitted L) (start L cpu) es) (h : exec (step L) (start L cpu) es = some s) :
    ∃ c, exec (Context.step L s.currentThread) (contexts L cpu s.currentThread)
        (eventsOf (step L) (label L) s.currentThread (start L cpu) es) = some (some c) ∧
      s.cpu.gpr = c.gpr ∧ s.cpu.eip = c.eip ∧ ∀ a ∈ L.stack s.currentThread, s.cpu.mem a = c.stack a := by
  obtain ⟨cs, hcs, ht⟩ := exec_tracks hL cpu es s hp h
  obtain ⟨c, hc, hrun⟩ := ht.current
  refine ⟨c, ?_, hrun.gpr, hrun.eip, hrun.stack⟩
  rw [hcs s.currentThread, Option.mem_def.mp hc]

/-- Two threads. -/
def twoThreads : Placement Bool where
  main := false
  mainStack := span 0x200000 0x1000
  thread t := if t then 0x1200 else 0x1000
  bottom _ := 0x100000
  eaxSave := 0x900
  threadRoot := 0x8000
  threadBegin := 0x8100
  threadFinish := 0x8200

theorem twoThreads_sound : twoThreads.Sound := by
  have hstack : twoThreads.stack = fun t => if t then span 0x100000 (4 * StackSize) else span 0x200000 0x1000 := by
    funext t
    cases t <;> rfl
  have hobject : twoThreads.object = fun t => span (if t then 0x1200 else 0x1000) (4 * 9) := rfl
  constructor
  · intro i j hij
    rw [hobject]
    cases i <;> cases j
    · exact absurd rfl hij
    · exact disjoint_span (by decide) (by decide)
    · exact (disjoint_span (by decide) (by decide)).symm
    · exact absurd rfl hij
  · intro i j hij
    rw [hstack]
    cases i <;> cases j
    · exact absurd rfl hij
    · exact (disjoint_span (by decide) (by decide)).symm
    · exact disjoint_span (by decide) (by decide)
    · exact absurd rfl hij
  · intro i j
    rw [hstack, hobject]
    cases i <;> cases j <;> exact disjoint_span (by decide) (by decide)
  · intro i
    rw [hobject]
    cases i <;> exact disjoint_span (by decide) (by decide)
  · intro i
    rw [hstack]
    cases i <;> exact disjoint_span (by decide) (by decide)

/-- The main thread forks the other one and switches to it, which goes on and switches back. -/
def forkAndBack : List (Event Bool) :=
  [.fork true 0x5000 7, .switch true 0x4000, .compute (fun _ => 0x101000) 0x5010 [], .switch false 0x6000]

/-- The processor at the start. -/
def atBoot : X86 := ⟨fun _ => 0x200800, 0x4444, fun _ => 0⟩

theorem room_main : span (0x200800 - 12) 12 ⊆ twoThreads.stack false :=
  span_subset (k := 0x7f4) (n := 0x1000) (a := 0x200000) (by decide)

theorem room_forked : span (0x101000 - 12) 12 ⊆ twoThreads.stack true :=
  span_subset (k := 0xff4) (n := 4 * StackSize) (a := 0x100000) (by decide)

theorem threads_resume_forkAndBack : ∃ s, exec (step twoThreads) (start twoThreads atBoot) forkAndBack = some s ∧
    s.currentThread = false ∧ s.cpu.eip = 0x4000 ∧ s.cpu.gpr = Function.update (fun _ => 0x200800) .esp 0x2007f8 := by
  obtain ⟨s, hs⟩ : ∃ s, exec (step twoThreads) (start twoThreads atBoot) forkAndBack = some s := ⟨_, rfl⟩
  have hcur : s.currentThread = false := by
    obtain rfl := Option.some.inj hs
    rfl
  have hp : Along (step twoThreads) (Permitted twoThreads) (start twoThreads atBoot) forkAndBack := by
    refine ⟨trivial, fun s₁ hs₁ => ⟨?_, fun s₂ hs₂ => ⟨fun w hw => ?_, fun s₃ hs₃ => ⟨?_, fun _ _ => trivial⟩⟩⟩⟩
    · obtain rfl := Option.some.inj hs₁
      exact room_main
    · cases hw
    · obtain rfl := Option.some.inj hs₁
      obtain rfl := Option.some.inj hs₂
      obtain rfl := Option.some.inj hs₃
      exact room_forked
  obtain ⟨c, hc, hgpr, heip, -⟩ := threads_resume twoThreads_sound atBoot forkAndBack s hp hs
  rw [hcur] at hc
  have hown : eventsOf (step twoThreads) (label twoThreads) false (start twoThreads atBoot) forkAndBack =
      [.call 0x1200 0x4000] := rfl
  rw [hown] at hc
  obtain rfl := Option.some.inj (Option.some.inj hc)
  exact ⟨s, hs, hcur, heip, hgpr⟩

/-! ### Forked threads -/

/-- **A forked thread runs its procedure.** When a thread that `Fork(func, arg)` was called for gets the processor for the
first time, `ThreadRoot` calls `ThreadBegin`, then `func` with `arg` as its argument, and then `ThreadFinish`, whatever
these do as functions that return to their caller. -/
theorem forked_thread_calls (hL : L.Sound) (cpu : X86) (es : List (Event ι)) (s : KernelThreads ι)
    (hp : Along (step L) (Permitted L) (start L cpu) es) (h : exec (step L) (start L cpu) es = some s)
    (func arg : X86.Word) (mem : X86.Word → Byte)
    (hfirst : eventsOf (step L) (label L) s.currentThread (start L cpu) es = [.start func arg mem])
    (callee : X86 → X86) (after : ℕ → X86.Word)
    (hbegin : ∀ t, t.eip = L.threadBegin → Returned (field (L.bottom s.currentThread) StackSize) 0 t (callee t))
    (hfunc : ∀ t, t.eip = func → Returned (field (L.bottom s.currentThread) StackSize) 1 t (callee t)) :
    s.cpu.eip = L.threadRoot ∧ ∃ b f d, calls callee (ThreadRoot after) s.cpu = [b, f, d] ∧ b.eip = L.threadBegin ∧
      f.eip = func ∧ wordAt f.mem (field (f.gpr .esp) 1) = arg ∧ d.eip = L.threadFinish := by
  obtain ⟨cs, hcs, ht⟩ := exec_tracks hL cpu es s hp h
  obtain ⟨c, hc, hrun⟩ := ht.current
  have hstart : s.currentThread ≠ L.main ∧ c = Context.start L s.currentThread func arg mem := by
    have hown := hcs s.currentThread
    rw [hfirst, Option.mem_def.mp hc, contexts] at hown
    by_cases hm : s.currentThread = L.main
    · rw [if_pos hm] at hown
      cases hown
    · rw [if_neg hm] at hown
      exact ⟨hm, (Option.some.inj (Option.some.inj hown)).symm⟩
  obtain ⟨-, rfl⟩ := hstart
  have hgpr := congrFun hrun.gpr
  have hroom : 4 ≤ (field (L.bottom s.currentThread) StackSize - (s.cpu.gpr .esp - 8)).toNat := by
    have hesp : s.cpu.gpr .esp = initialTop L s.currentThread + 4 := hgpr .esp
    rw [hesp, initialTop_eq]
    unfold field StackSize
    bv_omega
  have hcalls := calls_ThreadRoot (fun t ht => hbegin t (ht.trans (hgpr .ecx))) (fun t ht => hfunc t (ht.trans (hgpr .esi)))
    hroom after
  obtain ⟨b, f, d, hcalls, hb, hf, harg, hd⟩ := hcalls
  exact ⟨hrun.eip, b, f, d, hcalls, hb.trans (hgpr .ecx), hf.trans (hgpr .esi), harg.trans (hgpr .edx),
    hd.trans (hgpr .edi)⟩

theorem returned_ret (top : X86.Word) (args : ℕ) (t : X86) : Returned top args t (t.execute .ret) where
  kept r hr := by
    have hne : r ≠ .esp := by
      rcases hr with rfl | rfl | rfl | rfl
      all_goals exact Register.noConfusion
    exact Function.update_of_ne hne _ t.gpr
  esp := Function.update_self Register.esp _ t.gpr
  eip := rfl
  stack _ _ := rfl

theorem forked_thread_calls_first : ∃ s,
    exec (step twoThreads) (start twoThreads atBoot) [.fork true 0x5000 7, .switch true 0x4000] = some s ∧
    ∃ b f d, calls (·.execute .ret) (ThreadRoot fun k => BitVec.ofNat 32 (0x8005 + 2 * k)) s.cpu = [b, f, d] ∧
      b.eip = 0x8100 ∧ f.eip = 0x5000 ∧ wordAt f.mem (field (f.gpr .esp) 1) = 7 ∧ d.eip = 0x8200 := by
  obtain ⟨s, hs⟩ : ∃ s, exec (step twoThreads) (start twoThreads atBoot) [.fork true 0x5000 7, .switch true 0x4000] = some s :=
    ⟨_, rfl⟩
  have hcur : s.currentThread = true := by
    obtain rfl := Option.some.inj hs
    rfl
  have hp : Along (step twoThreads) (Permitted twoThreads) (start twoThreads atBoot)
      [.fork true 0x5000 7, .switch true 0x4000] := by
    refine ⟨trivial, fun s₁ hs₁ => ⟨?_, fun _ _ => trivial⟩⟩
    obtain rfl := Option.some.inj hs₁
    exact room_main
  have hfirst : eventsOf (step twoThreads) (label twoThreads) s.currentThread (start twoThreads atBoot)
      [.fork true 0x5000 7, .switch true 0x4000] = [.start 0x5000 7 fun _ => 0] := by
    rw [hcur]
    rfl
  have hcalls := forked_thread_calls twoThreads_sound atBoot _ s hp hs 0x5000 7 (fun _ => 0) hfirst (·.execute .ret)
    (fun k => BitVec.ofNat 32 (0x8005 + 2 * k)) (fun t _ => returned_ret _ 0 t) fun t _ => returned_ret _ 1 t
  exact ⟨s, hs, hcalls.2⟩

end KernelThreads

end Nachos
