/-
# The process table

`threads/ptable.cc` and `threads/pcb.cc`: `ExecUpdate`, `JoinUpdate` and
`ExitUpdate` as the steps of the processes that call them, in any
interleaving. A process is between two steps wherever a switch can come in
between: at each semaphore operation and at each access to a PCB. A slot of
`pcb[]` is NULL, or it points to a PCB, or to a PCB that has been deleted;
a run that uses a PCB that is not there ends with `fault`. `SetFileName` copies the name
that `Exec` is given to an array of 128 bytes: the runs here are those in which all names fit.

`Remove` deletes the PCB of the caller and then sets the slot to NULL, but the
destructor calls `Thread::Finish`, which does not return. So the slot stays:
the table is as it should be exactly while no process has finished
(`reclaimed_iff_none_finished`).
-/
import NachosNet.Basis.Bytes
import NachosNet.Basis.Run
import NachosNet.Threads.Synch
import Mathlib.Data.Fintype.Basic

namespace Nachos

open Basis

def MAX_PROCESS : ℕ := 10

instance : NeZero MAX_PROCESS := ⟨by decide⟩

/-- A file name that fits into `PCB::filename`: `strcpy` of a longer one writes behind the array. -/
abbrev FileName := {s : List Byte // s.length < 128}

/-- A system call as the table sees it. -/
inductive Call where
  /-- `ExecUpdate(name)`; `none` is NULL. -/
  | exec (name : Option FileName)
  | join (id : ℤ)
  | exit (exitcode : ℤ)
  deriving DecidableEq

/-- The semaphores: `bmsem` of the table and three in each PCB. -/
inductive Loc (n : ℕ) where
  | bmsem
  | joinsem (i : Fin n)
  | exitsem (i : Fin n)
  | multex (i : Fin n)
  deriving DecidableEq

/-- The fields of a PCB; `parentID` is `none` for -1. -/
structure PCB (n : ℕ) where
  exitcode : ℤ
  numwait : ℤ
  parentID : Option (Fin n)
  deriving DecidableEq

/-- A slot of `pcb[]`. -/
inductive Slot where
  | null
  | live
  /-- It points to a PCB that has been deleted. -/
  | freed
  deriving DecidableEq

/-- Where a process is in `ExecUpdate` after it has found slot `i`: before
`new PCB`, then in `PCB::Exec` before `multex->P`, `new Thread` and `multex->V`. -/
inductive ExecPc (n : ℕ) where
  | new (i : Fin n)
  | fork (i : Fin n)
  | thread (i : Fin n)
  | unlock (i : Fin n)
  deriving DecidableEq

/-- Where a process is in `JoinUpdate` after the checks: in `IncNumWait`
before `multex->P`, `++numwait` and `multex->V`, then before `JoinWait`,
`GetExitCode` and `ExitRelease`. -/
inductive JoinPc where
  | incP
  | inc
  | incV
  | wait
  | read
  | release (exit_code : ℤ)
  deriving DecidableEq

/-- Where a process is in `ExitUpdate`: before `SetExitCode`, in `DecNumWait`
of the parent `q`, then before `JoinRelease`, `ExitWait` and `Remove`. -/
inductive ExitPc (n : ℕ) where
  | set
  | decP (q : Fin n)
  | dec (q : Fin n)
  | decV (q : Fin n)
  | release
  | wait
  | remove
  deriving DecidableEq

/-- Where a process is. -/
inductive Pc (n : ℕ) where
  /-- There is no thread. -/
  | none
  | user
  | execLock (name : Option FileName)
  | execCheck (name : Option FileName)
  | exec (name : FileName) (k : ExecPc n)
  | execDone (name : Option FileName) (result : ℤ)
  | joinCheck (id : ℤ)
  | join (id : Fin n) (k : JoinPc)
  | exit (exitcode : ℤ) (k : ExitPc n)
  | finished
  deriving DecidableEq

inductive Status where
  | running
  | halted
  /-- A PCB was used that is not there. -/
  | fault
  deriving DecidableEq

/-- The table, the threads of its processes, and the system calls so far with
what they returned. -/
structure PTable (n : ℕ) where
  slot : Fin n → Slot
  pcb : Fin n → PCB n
  sync : Sleepers (Fin n) (Loc n)
  pc : Fin n → Pc n
  name : Fin n → FileName
  status : Status
  called : List (Fin n × Call)
  returned : List (Fin n × Call × ℤ)

namespace PTable

variable {n : ℕ}

def goto (s : PTable n) (t : Fin n) (k : Pc n) : PTable n := { s with pc := Function.update s.pc t k }

/-- The call returns to the program. -/
def ret (s : PTable n) (t : Fin n) (c : Call) (v : ℤ) : PTable n :=
  { s.goto t .user with returned := s.returned ++ [(t, c, v)] }

def setSync (s : PTable n) (sync : Sleepers (Fin n) (Loc n)) : PTable n := { s with sync := sync }

/-- `P` on semaphore `l`; the thread goes on to `k` when it has passed. -/
def atP (s : PTable n) (t : Fin n) (l : Loc n) (k : Pc n) : PTable n :=
  if (s.sync.P t l).2 then (s.goto t k).setSync (s.sync.P t l).1 else s.setSync (s.sync.P t l).1

/-- `V` on semaphore `l`. -/
def atV (s : PTable n) (l : Loc n) : PTable n := s.setSync (s.sync.V l)

def setPCB (s : PTable n) (i : Fin n) (p : PCB n) : PTable n := { s with pcb := Function.update s.pcb i p }

/-- A step that uses `*pcb[i]`. -/
def access (s : PTable n) (i : Fin n) (s' : PTable n) : PTable n :=
  if s.slot i = .live then s' else { s with status := .fault }

def getFreeSlot (s : PTable n) : Option (Fin n) := (List.finRange n).find? fun i => s.slot i = .null

/-- `pcb[i] = new PCB(i)` with its `parentID`; `exitcode` and `numwait` are not set. -/
def newPCB (s : PTable n) (i t : Fin n) : PTable n :=
  { s with
    slot := Function.update s.slot i .live
    pcb := Function.update s.pcb i { s.pcb i with parentID := some t }
    sync := ((s.sync.fresh (.joinsem i) 0).fresh (.exitsem i) 0).fresh (.multex i) 1 }

/-- `new Thread(filename)` with its `processID`, the `parentID` once more, and `Fork`. -/
def newThread (s : PTable n) (i t : Fin n) (name : FileName) : PTable n :=
  { (s.setPCB i { s.pcb i with parentID := some t }).goto i .user with name := Function.update s.name i name }

/-- The slot of a pid that is in range. -/
def slotOf (n : ℕ) (id : ℤ) : Option (Fin n) :=
  if h : 0 ≤ id ∧ id < n then some ⟨id.toNat, by omega⟩ else none

/-- A step of process `t` inside `ExecUpdate`. -/
def stepExec (s : PTable n) (t : Fin n) (name : FileName) : ExecPc n → PTable n
  | .new i => (s.newPCB i t).goto t (.exec name (.fork i))
  | .fork i => s.access i (s.atP t (.multex i) (.exec name (.thread i)))
  | .thread i => s.access i ((s.newThread i t name).goto t (.exec name (.unlock i)))
  | .unlock i => s.access i ((s.atV (.multex i)).goto t (.execDone (some name) i))

/-- A step of process `t` inside `JoinUpdate(id)` after the checks; `*pcb[parentID]` is its own PCB. -/
def stepJoin (s : PTable n) (t id : Fin n) : JoinPc → PTable n
  | .incP => s.access t (s.atP t (.multex t) (.join id .inc))
  | .inc => s.access t
      ((s.setPCB t { s.pcb t with numwait := (s.pcb t).numwait + 1 }).goto t (.join id .incV))
  | .incV => s.access t ((s.atV (.multex t)).goto t (.join id .wait))
  | .wait => s.access id (s.atP t (.joinsem id) (.join id .read))
  | .read => s.access id (s.goto t (.join id (.release (s.pcb id).exitcode)))
  | .release exit_code => s.access id ((s.atV (.exitsem id)).ret t (.join id) exit_code)

/-- A step of process `t` inside `ExitUpdate(exitcode)`. -/
def stepExit (s : PTable n) (t : Fin n) (exitcode : ℤ) : ExitPc n → PTable n
  | .set =>
    if s.slot t = .null then s.ret t (.exit exitcode) (-1)
    else match (s.pcb t).parentID with
      | none => { s with status := .fault }
      | some q => s.access t ((s.setPCB t { s.pcb t with exitcode := exitcode }).goto t (.exit exitcode (.decP q)))
  | .decP q => s.access q (s.atP t (.multex q) (.exit exitcode (.dec q)))
  | .dec q =>
    let numwait := (s.pcb q).numwait
    s.access q ((s.setPCB q { s.pcb q with numwait := if 0 < numwait then numwait - 1 else numwait }).goto t
      (.exit exitcode (.decV q)))
  | .decV q => s.access q ((s.atV (.multex q)).goto t (.exit exitcode .release))
  | .release => s.access t ((s.atV (.joinsem t)).goto t (.exit exitcode .wait))
  | .wait => s.access t (s.atP t (.exitsem t) (.exit exitcode .remove))
  | .remove =>
    if s.slot t = .null then s.ret t (.exit exitcode) exitcode
    -- `delete` does not come back, so the slot keeps the address
    else s.access t ({ s with slot := Function.update s.slot t .freed }.goto t .finished)

/-- A step of process `t` in the kernel. -/
def run (s : PTable n) (t : Fin n) : Option (PTable n) :=
  match s.pc t with
  | .none | .user | .finished => none
  | .execLock name => some (s.atP t .bmsem (.execCheck name))
  | .execCheck name =>
    if name = none ∨ name = some (s.name t) then some (s.goto t (.execDone name (-1)))
    else match name, s.getFreeSlot with
      | some name, some i => some (s.goto t (.exec name (.new i)))
      | name, _ => some (s.goto t (.execDone name (-1)))
  | .exec name k => some (s.stepExec t name k)
  | .execDone name result => some ((s.atV .bmsem).ret t (.exec name) result)
  | .joinCheck id =>
    match slotOf n id with
    | none => some (s.ret t (.join id) (-1))
    | some c =>
      if s.slot c = .null then some (s.ret t (.join id) (-1))
      else some (s.access c
        (if (s.pcb c).parentID ≠ some t then s.ret t (.join id) (-1) else s.goto t (.join c .incP)))
  | .join id k => some (s.stepJoin t id k)
  | .exit exitcode k => some (s.stepExit t exitcode k)

/-- A program makes a system call; `ExitUpdate` of process 0 halts the machine. -/
def call [NeZero n] (s : PTable n) (t : Fin n) : Call → PTable n
  | .exec name => s.goto t (.execLock name)
  | .join id => s.goto t (.joinCheck id)
  | .exit exitcode => if t = 0 then { s with status := .halted } else s.goto t (.exit exitcode .set)

inductive Event (n : ℕ) where
  | call (t : Fin n) (c : Call)
  | run (t : Fin n)

def step [NeZero n] (s : PTable n) : Event n → Option (PTable n)
  | .call t c =>
    if s.status = .running ∧ s.pc t = .user then some { s.call t c with called := s.called ++ [(t, c)] } else none
  | .run t => if s.status = .running ∧ s.sync.asleep t = false then s.run t else none

/-- `PTable(size)` with the main thread; `unset` is what memory holds. -/
def init [NeZero n] (unset : Fin n → PCB n) (name : FileName) : PTable n where
  slot := Function.update (fun _ => .null) 0 .live
  pcb := Function.update unset 0 { unset 0 with parentID := none }
  sync := ⟨fun | .bmsem => .mk0 1 | .multex _ => .mk0 1 | _ => .mk0 0, fun _ => false⟩
  pc := Function.update (fun _ => .none) 0 .user
  name := fun _ => name
  status := .running
  called := []
  returned := []

end PTable

/-! ### What a step can do -/

namespace Pc

variable {n : ℕ}

/-- The semaphore at whose `P` process `t` is. -/
def waits (t : Fin n) : Pc n → Option (Loc n)
  | .execLock _ => some .bmsem
  | .exec _ (.fork i) => some (.multex i)
  | .join _ .incP => some (.multex t)
  | .join id .wait => some (.joinsem id)
  | .exit _ (.decP q) => some (.multex q)
  | .exit _ .wait => some (.exitsem t)
  | _ => Option.none

/-- Where it goes on after the `P`. -/
def passed : Pc n → Pc n
  | .execLock name => .execCheck name
  | .exec name (.fork i) => .exec name (.thread i)
  | .join id .incP => .join id .inc
  | .join id .wait => .join id .read
  | .exit v (.decP q) => .exit v (.dec q)
  | .exit v .wait => .exit v .remove
  | k => k

/-- The semaphore at whose `V` process `t` is, inside a call. -/
def signals (t : Fin n) : Pc n → Option (Loc n)
  | .exec _ (.unlock i) => some (.multex i)
  | .join _ .incV => some (.multex t)
  | .exit _ (.decV q) => some (.multex q)
  | .exit _ .release => some (.joinsem t)
  | _ => Option.none

/-- Where it goes on after the `V`. -/
def signalled : Pc n → Pc n
  | .exec name (.unlock i) => .execDone (some name) i
  | .join id .incV => .join id .wait
  | .exit v (.decV _) => .exit v .release
  | .exit v .release => .exit v .wait
  | k => k

/-- The PCB whose `numwait` process `t` is about to change, and where it goes on. -/
def counts (t : Fin n) : Pc n → Option (Fin n × Pc n)
  | .join id .inc => some (t, .join id .incV)
  | .exit v (.dec q) => some (q, .exit v (.decV q))
  | _ => Option.none

/-- The PCB that the next step of process `t` uses. -/
def uses (t : Fin n) : Pc n → Option (Fin n)
  | .exec _ (.fork i) | .exec _ (.thread i) | .exec _ (.unlock i) => some i
  | .joinCheck id => PTable.slotOf n id
  | .join _ .incP | .join _ .inc | .join _ .incV => some t
  | .join id _ => some id
  | .exit _ (.decP q) | .exit _ (.dec q) | .exit _ (.decV q) => some q
  | .exit _ _ => some t
  | _ => Option.none

/-- There is a thread and it has not finished. -/
def active : Pc n → Bool
  | .none | .finished => false
  | _ => true

/-- The process that is being made and has its PCB but no thread yet. -/
def creating : Pc n → Option (Fin n)
  | .exec _ (.fork i) | .exec _ (.thread i) => some i
  | _ => Option.none

/-- The slot that has been found free and is not taken yet. -/
def chosen : Pc n → Option (Fin n)
  | .exec _ (.new i) => some i
  | _ => Option.none

/-- Between `bmsem->P` and `bmsem->V`. -/
def inExec : Pc n → Bool
  | .execCheck _ | .exec _ _ | .execDone _ _ => true
  | _ => false

/-- A move from `a` to `k` that neither makes a process nor ends one. -/
structure Moves (a k : Pc n) : Prop where
  before : a.active = true
  after : k.active = true
  creating : k.creating = a.creating

theorem moves_passed {a : Pc n} {t : Fin n} {l : Loc n} (hw : a.waits t = some l) : a.Moves a.passed := by
  unfold waits at hw
  split at hw <;> first | exact ⟨rfl, rfl, rfl⟩ | cases hw

theorem moves_signalled {a : Pc n} {t : Fin n} {l : Loc n} (hs : a.signals t = some l) : a.Moves a.signalled := by
  unfold signals at hs
  split at hs <;> first | exact ⟨rfl, rfl, rfl⟩ | cases hs

theorem moves_counts {a k : Pc n} {t i : Fin n} (hc : a.counts t = some (i, k)) : a.Moves k := by
  unfold counts at hc
  split at hc <;> cases hc <;> exact ⟨rfl, rfl, rfl⟩

theorem chosen_passed {a : Pc n} {t : Fin n} {l : Loc n} (hw : a.waits t = some l) : a.passed.chosen = Option.none := by
  unfold waits at hw
  split at hw <;> first | rfl | cases hw

theorem chosen_signalled {a : Pc n} {t : Fin n} {l : Loc n} (hs : a.signals t = some l) :
    a.signalled.chosen = Option.none := by
  unfold signals at hs
  split at hs <;> first | rfl | cases hs

theorem chosen_counts {a k : Pc n} {t i : Fin n} (hc : a.counts t = some (i, k)) : k.chosen = Option.none := by
  unfold counts at hc
  split at hc <;> cases hc <;> rfl

theorem inExec_passed {a : Pc n} {t : Fin n} {l : Loc n} (hw : a.waits t = some l) :
    if l = .bmsem then a.passed.inExec = true else a.passed.inExec = a.inExec := by
  unfold waits at hw
  split at hw <;> cases hw <;> simp [passed, inExec]

theorem inExec_signalled {a : Pc n} {t : Fin n} {l : Loc n} (hs : a.signals t = some l) :
    l ≠ .bmsem ∧ a.signalled.inExec = a.inExec := by
  unfold signals at hs
  split at hs <;> cases hs <;> simp [signalled, inExec]

theorem inExec_counts {a k : Pc n} {t i : Fin n} (hc : a.counts t = some (i, k)) : k.inExec = a.inExec := by
  unfold counts at hc
  split at hc <;> cases hc <;> rfl

theorem inExec_of_creating {a : Pc n} {i : Fin n} (h : a.creating = some i) : a.inExec = true := by
  unfold creating at h
  split at h <;> cases h <;> rfl

theorem inExec_of_chosen {a : Pc n} {i : Fin n} (h : a.chosen = some i) : a.inExec = true := by
  unfold chosen at h
  split at h
  · rfl
  · cases h

end Pc

namespace PTable

variable {n : ℕ} {s s' : PTable n} {t : Fin n}

/-- The steps of a process in the kernel. -/
inductive Step (s : PTable n) (t : Fin n) : PTable n → Prop where
  | fault {i : Fin n} (hu : (s.pc t).uses t = some i) (hs : s.slot i ≠ .live) : Step s t { s with status := .fault }
  | orphan {v : ℤ} (h : s.pc t = .exit v .set) (hp : (s.pcb t).parentID = none) :
    Step s t { s with status := .fault }
  | sleep {l : Loc n} (hw : (s.pc t).waits t = some l) (hv : (s.sync.sem l).value = 0) :
    Step s t (s.setSync (s.sync.P t l).1)
  | pass {l : Loc n} (hw : (s.pc t).waits t = some l) (hv : (s.sync.sem l).value ≠ 0) :
    Step s t ((s.goto t (s.pc t).passed).setSync (s.sync.P t l).1)
  | signal {l : Loc n} (hs : (s.pc t).signals t = some l) : Step s t ((s.atV l).goto t (s.pc t).signalled)
  | count {i : Fin n} {k : Pc n} {v : ℤ} (hc : (s.pc t).counts t = some (i, k)) :
    Step s t ((s.setPCB i { s.pcb i with numwait := v }).goto t k)
  | execFail {name : Option FileName} (h : s.pc t = .execCheck name) : Step s t (s.goto t (.execDone name (-1)))
  | execFound {name : FileName} {i : Fin n} (h : s.pc t = .execCheck (some name)) (hi : s.getFreeSlot = some i) :
    Step s t (s.goto t (.exec name (.new i)))
  | new {name : FileName} {i : Fin n} (h : s.pc t = .exec name (.new i)) :
    Step s t ((s.newPCB i t).goto t (.exec name (.fork i)))
  | thread {name : FileName} {i : Fin n} (h : s.pc t = .exec name (.thread i)) :
    Step s t ((s.newThread i t name).goto t (.exec name (.unlock i)))
  | execReturn {name : Option FileName} {v : ℤ} (h : s.pc t = .execDone name v) :
    Step s t ((s.atV .bmsem).ret t (.exec name) v)
  | joinFail {id : ℤ} (h : s.pc t = .joinCheck id)
    (hid : ∀ c, slotOf n id = some c → s.slot c = .live → (s.pcb c).parentID ≠ some t) :
    Step s t (s.ret t (.join id) (-1))
  | joinFound {id : ℤ} {c : Fin n} (h : s.pc t = .joinCheck id) (hid : slotOf n id = some c)
    (hp : (s.pcb c).parentID = some t) : Step s t (s.goto t (.join c .incP))
  | read {c : Fin n} (h : s.pc t = .join c .read) : Step s t (s.goto t (.join c (.release (s.pcb c).exitcode)))
  | release {c : Fin n} {v : ℤ} (h : s.pc t = .join c (.release v)) :
    Step s t ((s.atV (.exitsem c)).ret t (.join c) v)
  | exitFail {v w : ℤ} {k : ExitPc n} (h : s.pc t = .exit v k) (hs : s.slot t = .null) : Step s t (s.ret t (.exit v) w)
  | set {v : ℤ} {q : Fin n} (h : s.pc t = .exit v .set) (hp : (s.pcb t).parentID = some q) :
    Step s t ((s.setPCB t { s.pcb t with exitcode := v }).goto t (.exit v (.decP q)))
  | remove {v : ℤ} (h : s.pc t = .exit v .remove) :
    Step s t ({ s with slot := Function.update s.slot t .freed }.goto t .finished)

section

variable {a k : Pc n} {l : Loc n} {i : Fin n}

theorem Step.access (hpc : s.pc t = a) (hu : a.uses t = some i) (h : Step s t s') : Step s t (s.access i s') := by
  unfold PTable.access
  split
  · exact h
  · exact .fault (hpc ▸ hu) ‹_›

theorem Step.atP (hpc : s.pc t = a) (hw : a.waits t = some l) (hk : a.passed = k) : Step s t (s.atP t l k) := by
  subst hpc hk
  unfold PTable.atP
  by_cases hv : (s.sync.sem l).value = 0
  · have h := Step.sleep hw hv
    rw [Sleepers.P_sleep hv] at h ⊢
    exact h
  · have h := Step.pass hw hv
    rw [Sleepers.P_take hv] at h ⊢
    exact h

theorem Step.atV (hpc : s.pc t = a) (hs : a.signals t = some l) (hk : a.signalled = k) :
    Step s t ((s.atV l).goto t k) := by
  subst hpc hk
  exact .signal hs

end

theorem step_exec {name : FileName} {k : ExecPc n} (hpc : s.pc t = .exec name k) : Step s t (s.stepExec t name k) := by
  cases k with
  | new i => exact .new hpc
  | fork i => exact .access hpc rfl (.atP hpc rfl rfl)
  | thread i => exact .access hpc rfl (.thread hpc)
  | unlock i => exact .access hpc rfl (.atV hpc rfl rfl)

theorem step_join {id : Fin n} {k : JoinPc} (hpc : s.pc t = .join id k) : Step s t (s.stepJoin t id k) := by
  cases k with
  | incP => exact .access hpc rfl (.atP hpc rfl rfl)
  | inc => exact .access hpc rfl (.count (hpc ▸ rfl))
  | incV => exact .access hpc rfl (.atV hpc rfl rfl)
  | wait => exact .access hpc rfl (.atP hpc rfl rfl)
  | read => exact .access hpc rfl (.read hpc)
  | release v => exact .access hpc rfl (.release hpc)

theorem step_exit {v : ℤ} {k : ExitPc n} (hpc : s.pc t = .exit v k) : Step s t (s.stepExit t v k) := by
  cases k with
  | set =>
    rw [stepExit]
    split
    · exact .exitFail hpc ‹_›
    · split
      · exact .orphan hpc ‹_›
      · exact .access hpc rfl (.set hpc ‹_›)
  | decP q => exact .access hpc rfl (.atP hpc rfl rfl)
  | dec q => exact .access hpc rfl (.count (hpc ▸ rfl))
  | decV q => exact .access hpc rfl (.atV hpc rfl rfl)
  | release => exact .access hpc rfl (.atV hpc rfl rfl)
  | wait => exact .access hpc rfl (.atP hpc rfl rfl)
  | remove =>
    rw [stepExit]
    split
    · exact .exitFail hpc ‹_›
    · exact .access hpc rfl (.remove hpc)

theorem step_joinCheck {id : ℤ} (hpc : s.pc t = .joinCheck id) (h : s.run t = some s') : Step s t s' := by
  simp only [run, hpc] at h
  cases hid : slotOf n id with
  | none =>
    simp only [hid, Option.some.injEq] at h
    exact h ▸ .joinFail hpc (by simp [hid])
  | some c =>
    simp only [hid] at h
    split at h
    · have hnull : s.slot c = .null := ‹_›
      obtain rfl := Option.some.inj h
      refine .joinFail hpc fun d hd hl => ?_
      rw [hid, Option.some.injEq] at hd
      simp [← hd, hnull] at hl
    · obtain rfl := Option.some.inj h
      refine .access hpc hid ?_
      by_cases hp : (s.pcb c).parentID = some t
      · rw [if_neg (not_not.mpr hp)]
        exact .joinFound hpc hid hp
      · rw [if_pos hp]
        refine .joinFail hpc fun d hd _ => ?_
        rw [hid, Option.some.injEq] at hd
        rwa [← hd]

theorem step_of_run (h : s.run t = some s') : Step s t s' := by
  cases hpc : s.pc t with
  | none => simp [run, hpc] at h
  | user => simp [run, hpc] at h
  | finished => simp [run, hpc] at h
  | execLock name =>
    simp only [run, hpc, Option.some.injEq] at h
    exact h ▸ .atP hpc rfl rfl
  | execCheck name =>
    simp only [run, hpc] at h
    split at h
    · exact Option.some.inj h ▸ .execFail hpc
    · split at h
      · exact Option.some.inj h ▸ .execFound hpc ‹_›
      · exact Option.some.inj h ▸ .execFail hpc
  | exec name k =>
    simp only [run, hpc, Option.some.injEq] at h
    exact h ▸ step_exec hpc
  | execDone name v =>
    simp only [run, hpc, Option.some.injEq] at h
    exact h ▸ .execReturn hpc
  | joinCheck id => exact step_joinCheck hpc h
  | join id k =>
    simp only [run, hpc, Option.some.injEq] at h
    exact h ▸ step_join hpc
  | exit v k =>
    simp only [run, hpc, Option.some.injEq] at h
    exact h ▸ step_exit hpc

/-! ### Slots and processes -/

/-- How slots and threads go together in every run. -/
structure Inv (s : PTable n) : Prop where
  finished : ∀ c, s.pc c = .finished ↔ s.slot c = .freed
  null : ∀ c, s.slot c = .null → s.pc c = .none
  unstarted : ∀ c, s.slot c ≠ .null → s.pc c = .none → ∃ t, (s.pc t).creating = some c
  creating : ∀ t c, (s.pc t).creating = some c → s.slot c = .live ∧ s.pc c = .none
  chosen : ∀ t i, (s.pc t).chosen = some i → s.slot i = .null
  bmsem : Locked (fun t => (s.pc t).inExec = true) (s.sync.sem .bmsem).value

theorem pc_init [NeZero n] (unset : Fin n → PCB n) (name : FileName) (c : Fin n) :
    (init unset name).pc c = if c = 0 then .user else .none := by
  by_cases hc : c = 0
  · subst hc
    simp [init]
  · simp [init, hc]

theorem slot_init [NeZero n] (unset : Fin n → PCB n) (name : FileName) (c : Fin n) :
    (init unset name).slot c = if c = 0 then .live else .null := by
  by_cases hc : c = 0
  · subst hc
    simp [init]
  · simp [init, hc]

theorem inv_init [NeZero n] (unset : Fin n → PCB n) (name : FileName) : Inv (init unset name) := by
  have hpc := pc_init unset name
  have hslot := slot_init unset name
  refine ⟨fun c => ?_, fun c h => ?_, fun c h1 h2 => ?_, fun u c h => ?_, fun u i h => ?_, .inl ⟨rfl, fun u h => ?_⟩⟩
  all_goals grind [Pc.creating, Pc.chosen, Pc.inExec]

/-- A process moves on and the slots stay. -/
theorem Inv.move (hi : Inv s) {k : Pc n} (hm : (s.pc t).Moves k) (hch : ∀ i, k.chosen = some i → s.slot i = .null)
    (hpc : s'.pc = Function.update s.pc t k) (hslot : s'.slot = s.slot)
    (hb : Locked (fun u => (s'.pc u).inExec = true) (s'.sync.sem .bmsem).value) : Inv s' := by
  have hself : s'.pc t = k := by simp [hpc]
  have hne : ∀ u, u ≠ t → s'.pc u = s.pc u := fun u hu => by simp [hpc, hu]
  have hat : s.pc t ≠ .none ∧ s.pc t ≠ .finished ∧ k ≠ .none ∧ k ≠ .finished := by
    refine ⟨?_, ?_, ?_, ?_⟩
    · exact fun h => by simpa [h, Pc.active] using hm.before
    · exact fun h => by simpa [h, Pc.active] using hm.before
    · exact fun h => by simpa [h, Pc.active] using hm.after
    · exact fun h => by simpa [h, Pc.active] using hm.after
  -- the process itself is none of those the fields speak of
  have hnone : ∀ c, s'.pc c = .none ↔ s.pc c = .none := fun c => by grind
  have hfin : ∀ c, s'.pc c = .finished ↔ s.pc c = .finished := fun c => by grind
  have hcre : ∀ u, (s'.pc u).creating = (s.pc u).creating := fun u => by grind [hm.creating]
  refine ⟨fun c => ?_, fun c h => ?_, fun c h1 h2 => ?_, fun u c h => ?_, fun u i h => ?_, hb⟩
  · rw [hfin, hslot]
    exact hi.finished c
  · rw [hnone]
    exact hi.null c (hslot ▸ h)
  · simp only [hcre]
    exact hi.unstarted c (hslot ▸ h1) ((hnone c).mp h2)
  · rw [hslot, hnone]
    exact hi.creating u c (hcre u ▸ h)
  · rw [hslot]
    by_cases hu : u = t
    · subst hu
      exact hch i (hself ▸ h)
    · exact hi.chosen u i (hne u hu ▸ h)

theorem Inv.bmsem_move (hi : Inv s) {k : Pc n} (hin : k.inExec = (s.pc t).inExec) :
    Locked (fun u => (Function.update s.pc t k u).inExec = true) (s.sync.sem .bmsem).value :=
  hi.bmsem.move (f := fun _ k => Pc.inExec k = true) (by rw [hin])

theorem Inv.bmsem_signal (hi : Inv s) {k : Pc n} {l : Loc n} (hl : l ≠ .bmsem) (hin : k.inExec = (s.pc t).inExec) :
    Locked (fun u => (Function.update s.pc t k u).inExec = true) ((s.sync.V l).sem .bmsem).value := by
  rw [Sleepers.value_V, if_neg (Ne.symm hl), Int.add_zero]
  exact hi.bmsem_move hin

theorem getFreeSlot_null {i : Fin n} (h : s.getFreeSlot = some i) : s.slot i = .null := by
  simpa using List.find?_some h

theorem inv_pass (hi : Inv s) {l : Loc n} (hw : (s.pc t).waits t = some l) (hv : (s.sync.sem l).value ≠ 0) :
    Inv ((s.goto t (s.pc t).passed).setSync (s.sync.P t l).1) := by
  refine hi.move (Pc.moves_passed hw) (by simp [Pc.chosen_passed hw]) rfl rfl ?_
  have hin := Pc.inExec_passed hw
  show Locked _ ((s.sync.P t l).1.sem .bmsem).value
  rw [Sleepers.value_P hv]
  by_cases hl : l = .bmsem
  · subst hl
    rw [if_pos rfl] at hin ⊢
    exact hi.bmsem.moveIn (f := fun _ k => Pc.inExec k = true) hv hin
  · rw [if_neg hl] at hin
    rw [if_neg (Ne.symm hl), Int.sub_zero]
    exact hi.bmsem_move hin

theorem inv_execReturn (hi : Inv s) {name : Option FileName} {v : ℤ} (h : s.pc t = .execDone name v) :
    Inv ((s.atV .bmsem).ret t (.exec name) v) := by
  refine hi.move (k := .user) (h ▸ ⟨rfl, rfl, rfl⟩) (by simp [Pc.chosen]) rfl rfl ?_
  show Locked _ ((s.sync.V .bmsem).sem .bmsem).value
  rw [Sleepers.value_V, if_pos rfl]
  exact hi.bmsem.moveOut (f := fun _ k => Pc.inExec k = true) (by rw [h]; rfl) (by simp [Pc.inExec])

/-- The process in the region is the only one with a slot in hand. -/
theorem Inv.alone (hi : Inv s) (ht : (s.pc t).inExec = true) {u i : Fin n}
    (hu : (s.pc u).creating = some i ∨ (s.pc u).chosen = some i) : u = t := by
  refine hi.bmsem.unique ht ?_
  rcases hu with hu | hu
  · exact Pc.inExec_of_creating hu
  · exact Pc.inExec_of_chosen hu

/-! A process that has made a PCB or a thread for slot `i`, and is at `k` now. -/

section

variable (s : PTable n) (i t : Fin n) (name : FileName) (k : Pc n)

theorem pc_newPCB (u : Fin n) : ((s.newPCB i t).goto t k).pc u = if u = t then k else s.pc u := by
  simp [goto, newPCB, Function.update_apply]

theorem slot_newPCB (c : Fin n) : ((s.newPCB i t).goto t k).slot c = if c = i then .live else s.slot c := by
  simp [goto, newPCB, Function.update_apply]

theorem pcb_newPCB (c : Fin n) :
    ((s.newPCB i t).goto t k).pcb c = if c = i then { s.pcb i with parentID := some t } else s.pcb c := by
  simp [goto, newPCB, Function.update_apply]

theorem pc_newThread (u : Fin n) :
    ((s.newThread i t name).goto t k).pc u = if u = t then k else if u = i then .user else s.pc u := by
  simp [goto, newThread, setPCB, Function.update_apply]

end

theorem inv_new (hi : Inv s) {name : FileName} {i : Fin n} (h : s.pc t = .exec name (.new i)) :
    Inv ((s.newPCB i t).goto t (.exec name (.fork i))) := by
  have hin : (s.pc t).inExec = true := by simp [h, Pc.inExec]
  have hnull : s.slot i = .null := hi.chosen t i (by simp [h, Pc.chosen])
  have hnone := hi.null i hnull
  have hti : t ≠ i := fun he => by simp [← he, h] at hnone
  have hpc := pc_newPCB s i t (.exec name (.fork i))
  have hslot := slot_newPCB s i t (.exec name (.fork i))
  have hcre : ∀ u j, (s.pc u).creating ≠ some j := by
    intro u j hu
    have := hi.alone hin (.inl hu)
    simp [this, h, Pc.creating] at hu
  have hcho : ∀ u j, (s.pc u).chosen = some j → u = t := fun u j hu => hi.alone hin (.inr hu)
  refine ⟨fun c => ?_, fun c => ?_, fun c => ?_, fun u c => ?_, fun u j => ?_, ?_⟩
  · have := hi.finished c
    grind
  · have := hi.null c
    grind
  · have := hi.unstarted c
    grind [Pc.creating]
  · grind [Pc.creating]
  · grind [Pc.chosen]
  · exact hi.bmsem_move (by simp [h, Pc.inExec])

theorem inv_thread (hi : Inv s) {name : FileName} {i : Fin n} (h : s.pc t = .exec name (.thread i)) :
    Inv ((s.newThread i t name).goto t (.exec name (.unlock i))) := by
  have hin : (s.pc t).inExec = true := by simp [h, Pc.inExec]
  obtain ⟨hlive, hnone⟩ := hi.creating t i (by simp [h, Pc.creating])
  have hti : t ≠ i := fun he => by simp [← he, h] at hnone
  have hpc := pc_newThread s i t name (.exec name (.unlock i))
  have hslot : ((s.newThread i t name).goto t (.exec name (.unlock i))).slot = s.slot := rfl
  have hcre : ∀ u j, (s.pc u).creating = some j → u = t := fun u j hu => hi.alone hin (.inl hu)
  have hcho : ∀ u j, (s.pc u).chosen ≠ some j := by
    intro u j hu
    have := hi.alone hin (.inr hu)
    simp [this, h, Pc.chosen] at hu
  refine ⟨fun c => ?_, fun c => ?_, fun c => ?_, fun u c => ?_, fun u j => ?_, ?_⟩
  · have := hi.finished c
    grind
  · have := hi.null c
    grind
  · have := hi.unstarted c
    grind [Pc.creating]
  · grind [Pc.creating]
  · grind [Pc.chosen]
  · refine hi.bmsem.congr fun u => ?_
    grind [Pc.inExec]

theorem inv_remove (hi : Inv s) {v : ℤ} (h : s.pc t = .exit v .remove) :
    Inv ({ s with slot := Function.update s.slot t .freed }.goto t .finished) := by
  have hpc : ∀ u, ({ s with slot := Function.update s.slot t .freed }.goto t .finished).pc u =
      if u = t then .finished else s.pc u := fun u => by
    simp [goto, Function.update_apply]
  have hslot : ∀ u, ({ s with slot := Function.update s.slot t .freed }.goto t .finished).slot u =
      if u = t then .freed else s.slot u := fun u => by
    simp [goto, Function.update_apply]
  refine ⟨fun c => ?_, fun c => ?_, fun c => ?_, fun u c => ?_, fun u j => ?_, ?_⟩
  · have := hi.finished c
    grind
  · have := hi.null c
    grind
  · have := hi.unstarted c
    grind [Pc.creating]
  · have := hi.creating u c
    grind [Pc.creating]
  · have := hi.chosen u j
    have := hi.null t
    grind [Pc.chosen]
  · exact hi.bmsem_move (by simp [h, Pc.inExec])

theorem inv_run (hi : Inv s) (h : Step s t s') : Inv s' := by
  cases h with
  | fault | orphan => exact ⟨hi.finished, hi.null, hi.unstarted, hi.creating, hi.chosen, hi.bmsem⟩
  | sleep hw hv =>
    refine ⟨hi.finished, hi.null, hi.unstarted, hi.creating, hi.chosen, ?_⟩
    show Locked _ ((s.sync.P t _).1.sem .bmsem).value
    rw [Sleepers.value_sleep hv]
    exact hi.bmsem
  | pass hw hv => exact inv_pass hi hw hv
  | signal hs =>
    obtain ⟨hl, hin⟩ := Pc.inExec_signalled hs
    exact hi.move (Pc.moves_signalled hs) (by simp [Pc.chosen_signalled hs]) rfl rfl (hi.bmsem_signal hl hin)
  | count hc =>
    exact hi.move (Pc.moves_counts hc) (by simp [Pc.chosen_counts hc]) rfl rfl (hi.bmsem_move (Pc.inExec_counts hc))
  | execFail hpc =>
    exact hi.move (hpc ▸ ⟨rfl, rfl, rfl⟩) (by simp [Pc.chosen]) rfl rfl (hi.bmsem_move (by rw [hpc]; rfl))
  | execFound hpc hj =>
    refine hi.move (hpc ▸ ⟨rfl, rfl, rfl⟩) (fun i hc => ?_) rfl rfl (hi.bmsem_move (by rw [hpc]; rfl))
    obtain rfl := Option.some.inj hc
    exact getFreeSlot_null hj
  | new hpc => exact inv_new hi hpc
  | thread hpc => exact inv_thread hi hpc
  | execReturn hpc => exact inv_execReturn hi hpc
  | joinFail hpc | joinFound hpc | read hpc | exitFail hpc | set hpc =>
    exact hi.move (hpc ▸ ⟨rfl, rfl, rfl⟩) (by simp [Pc.chosen]) rfl rfl (hi.bmsem_move (by rw [hpc]; rfl))
  | release hpc =>
    exact hi.move (k := .user) (hpc ▸ ⟨rfl, rfl, rfl⟩) (by simp [Pc.chosen]) rfl rfl
      (hi.bmsem_signal (by simp) (by rw [hpc]; rfl))
  | remove hpc => exact inv_remove hi hpc

section

variable [NeZero n]

theorem inv_call (hi : Inv s) (hpc : s.pc t = .user) (c : Call) :
    Inv { s.call t c with called := s.called ++ [(t, c)] } := by
  have hmove : ∀ k : Pc n, k.active = true → k.creating = none → k.chosen = none → k.inExec = false →
      ∀ s' : PTable n, s'.pc = Function.update s.pc t k → s'.slot = s.slot → s'.sync = s.sync → Inv s' := by
    intro k h1 h2 h3 h4 s' hp hslot hsync
    refine hi.move (k := k) (hpc ▸ ⟨rfl, h1, h2⟩) (by simp [h3]) hp hslot ?_
    rw [hp, hsync]
    exact hi.bmsem_move (by rw [h4, hpc]; rfl)
  unfold call
  cases c with
  | exec name => exact hmove (.execLock name) rfl rfl rfl rfl _ rfl rfl rfl
  | join id => exact hmove (.joinCheck id) rfl rfl rfl rfl _ rfl rfl rfl
  | exit v =>
    by_cases ht : t = 0
    · simp only [ht, if_true]
      exact ⟨hi.finished, hi.null, hi.unstarted, hi.creating, hi.chosen, hi.bmsem⟩
    · simp only [ht, if_false]
      exact hmove (.exit v .set) rfl rfl rfl rfl _ rfl rfl rfl

theorem step_call {c : Call} (h : s.step (.call t c) = some s') :
    s.pc t = .user ∧ s' = { s.call t c with called := s.called ++ [(t, c)] } := by
  unfold step at h
  dsimp only at h
  split at h
  · exact ⟨(‹s.status = .running ∧ s.pc t = .user›).2, (Option.some.inj h).symm⟩
  · cases h

theorem step_run (h : s.step (.run t) = some s') : s.sync.asleep t = false ∧ Step s t s' := by
  unfold step at h
  dsimp only at h
  split at h
  · exact ⟨(‹s.status = .running ∧ s.sync.asleep t = false›).2, step_of_run h⟩
  · cases h

theorem inv_step {e : Event n} (hi : Inv s) (h : s.step e = some s') : Inv s' := by
  cases e with
  | call t c =>
    obtain ⟨hpc, rfl⟩ := step_call h
    exact inv_call hi hpc c
  | run t => exact inv_run hi (step_run h).2

theorem inv_exec {unset : Fin n → PCB n} {name : FileName} (es : List (Event n)) (s : PTable n)
    (h : exec step (init unset name) es = some s) : Inv s :=
  exec_induction (P := fun _ s => Inv s) (inv_init unset name) (fun _ _ _ _ hi hs => inv_step hi hs) es s h

/-- The processes that have been made and have not finished. -/
def unfinished (s : PTable n) : Finset (Fin n) :=
  Finset.univ.filter fun c => (s.pc c).active = true ∨ ∃ t, (s.pc t).creating = some c

/-- The slots that are not NULL. -/
def taken (s : PTable n) : Finset (Fin n) := Finset.univ.filter fun c => s.slot c ≠ .null

/-- The slots of finished processes have been given back: they are NULL, as
many slots are taken as there are unfinished processes, `ExecUpdate` finds no
slot only when the table is full of those, and to join a finished process
returns -1. -/
structure Reclaimed (s : PTable n) : Prop where
  null : ∀ c, s.pc c = .finished → s.slot c = .null
  card_taken : (taken s).card = (unfinished s).card
  full : s.getFreeSlot = none → (unfinished s).card = n
  join : ∀ t c : Fin n, s.pc c = .finished → s.pc t = .joinCheck c → s.status = .running →
    s.sync.asleep t = false → s.step (.run t) = some (s.ret t (.join c) (-1))

omit [NeZero n] in
theorem mem_unfinished (hi : Inv s) {c : Fin n} : c ∈ unfinished s ↔ c ∈ taken s ∧ s.pc c ≠ .finished := by
  have hact : (s.pc c).active = true ↔ s.pc c ≠ .none ∧ s.pc c ≠ .finished := by
    cases s.pc c <;> simp [Pc.active]
  have h1 := hi.null c
  have h2 := hi.unstarted c
  have h3 := fun u => hi.creating u c
  simp only [unfinished, taken, Finset.mem_filter, Finset.mem_univ, true_and]
  grind

/-- In every run with file names that fit into `PCB::filename` the table is as it should be
exactly while no process has finished. -/
theorem reclaimed_iff_none_finished (unset : Fin n → PCB n) (name : FileName) (es : List (Event n)) (s : PTable n)
    (h : exec step (init unset name) es = some s) : Reclaimed s ↔ ∀ c, s.pc c ≠ .finished := by
  have hi := inv_exec es s h
  constructor
  · intro hr c hc
    have hnull := hr.null c hc
    rw [(hi.finished c).mp hc] at hnull
    cases hnull
  · intro hno
    have heq : unfinished s = taken s := by
      ext c
      rw [mem_unfinished hi]
      simp [hno c]
    refine ⟨fun c hc => absurd hc (hno c), by rw [heq], fun hfull => ?_, fun t c hc => absurd hc (hno c)⟩
    have hall : ∀ c, s.slot c ≠ .null := fun c => by
      simpa using List.find?_eq_none.mp hfull c (List.mem_finRange c)
    simp [heq, taken, hall]

/-- The program `a`. -/
def programA : FileName := ⟨[0x61], by decide⟩

def initMain : PTable MAX_PROCESS := init (fun _ => ⟨0, 0, none⟩) ⟨[0x6d], by decide⟩

/-- Process 0 executes `a`. -/
def execRun : List (Event MAX_PROCESS) := .call 0 (.exec (some programA)) :: List.replicate 7 (.run 0)

/-- Process 0 executes `a` as process `c` and joins it, and `c` exits with 7:
process 0 sleeps in `JoinWait` and `c` in `ExitWait` before both go on. -/
def joinRun (c : Fin MAX_PROCESS) : List (Event MAX_PROCESS) :=
  execRun ++ (.call 0 (.join c) :: List.replicate 5 (.run 0)) ++ (.call c (.exit 7) :: List.replicate 6 (.run c)) ++
    List.replicate 3 (.run 0) ++ List.replicate 2 (.run c)

/-- Nine times, and process 0 executes `a` once more. -/
def fullRun : List (Event MAX_PROCESS) :=
  ((List.finRange MAX_PROCESS).tail.flatMap joinRun) ++ .call 0 (.exec (some programA)) :: List.replicate 3 (.run 0)

theorem reclaimed_execRun : ∃ s, exec step initMain execRun = some s ∧ Reclaimed s := by
  have hrun : ((exec step initMain execRun).bind fun s => some (decide (∀ c, s.pc c ≠ .finished))) = some true := by
    decide +kernel
  obtain ⟨s, hs, h⟩ := Option.bind_eq_some_iff.mp hrun
  exact ⟨s, hs, (reclaimed_iff_none_finished _ _ execRun s hs).mpr (by simpa using h)⟩

/-- All children have been joined and are gone, no slot is NULL, and `Exec` fails. -/
theorem slots_run_out : ∃ s, exec step initMain fullRun = some s ∧
    (∀ c, c ≠ 0 → (0, .join c, 7) ∈ s.returned ∧ s.pc c = .finished ∧ s.slot c ≠ .null) ∧
    s.returned.getLast? = some (0, .exec (some programA), -1) ∧ unfinished s = {0} := by
  have hrun : ((exec step initMain fullRun).bind fun s => some (decide
      ((∀ c, c ≠ 0 → (0, .join c, 7) ∈ s.returned ∧ s.pc c = .finished ∧ s.slot c ≠ .null) ∧
        s.returned.getLast? = some (0, .exec (some programA), -1) ∧ unfinished s = {0}))) = some true := by
    decide +kernel
  obtain ⟨s, hs, h⟩ := Option.bind_eq_some_iff.mp hrun
  exact ⟨s, hs, by simpa using h⟩

end

end PTable

end Nachos
