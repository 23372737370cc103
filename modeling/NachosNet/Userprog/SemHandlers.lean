/-
# Who releases the name of a semaphore

The handlers of `CreateSemaphore`, `Wait` and `Signal` in `userprog/exception.cc` copy
the name into a buffer of the kernel, call `SysCreateSemaphore`, `SysWait` or
`SysSignal` of `userprog/ksyscall.h` with it, and delete it. These delete it too when
the table has answered -1. What the table answers is what it does in `SemUsers.step`.

A thread can be switched out in `P`, and at the end of `P` and `V`, when the
interrupts are enabled again; so a call that has succeeded deletes its buffer later
(`leave`). Between the two deletes of a call that has failed there is no switch.

`released_once_iff`: a call that has returned has released its buffer exactly once if
the table at the call accepted it (`STable.Accepts`), and twice otherwise. Each handler
keeps that table as `before`, for the statement only.

Key definitions: `SemHandlers`, `SemHandlers.step`, `SemHandlers.Finished.released`, `STable.Accepts`.
-/
import NachosNet.Basis.Heap
import NachosNet.Basis.Run
import NachosNet.Threads.STable

namespace Nachos

open Basis

namespace SemHandlers

/-- A call of a handler, with the table it found. -/
structure Entered (τ : Type*) where
  call : SemCall
  before : STable τ

/-- Where a thread is in a handler. -/
inductive Place (τ β : Type*)
  /-- In the call on the table. -/
  | inside (f : Heap.Held β) (c : Entered τ)
  /-- `Sys*` has returned 0, and `name` is still to be deleted. -/
  | leaving (f : Heap.Held β) (c : Entered τ)

/-- The buffer of the handler. -/
def Place.name {τ β : Type*} : Place τ β → Heap.Held β
  | inside f _ => f
  | leaving f _ => f

def Place.entered {τ β : Type*} : Place τ β → Entered τ
  | inside _ c => c
  | leaving _ c => c

/-- A handler that has returned. -/
structure Finished (τ β : Type*) extends Entered τ where
  thread : τ
  result : ℤ
  buffer : β
  /-- How often the buffer was deleted since its `new`. -/
  released : ℕ

inductive Event (τ β : Type*)
  /-- Thread `t` calls, and its name is copied into `b`. -/
  | call (t : τ) (b : β) (unset : Bytes 50) (c : SemCall)
  /-- Thread `t` comes back from `Sleep`. -/
  | resume (t : τ)
  /-- The end of the handler of a call that was successful. -/
  | leave (t : τ)

end SemHandlers

structure SemHandlers (τ β : Type*) where
  users : SemUsers τ
  heap : Heap β
  place : τ → Option (SemHandlers.Place τ β)
  finished : List (SemHandlers.Finished τ β)

/-- The step of the table for a call. -/
def SemCall.event {τ : Type*} (t : τ) (unset : Bytes 50) : SemCall → SemUsers.Event τ
  | .create name semval => .create t unset name semval
  | .wait name => .wait t name
  | .signal name => .signal t name

/-- What a call has returned in a step; `none` when it sleeps. -/
def SemUsers.answer {τ : Type*} (u u' : SemUsers τ) : Option ℤ :=
  (u'.returned.drop u.returned.length).head?.map fun r => r.2.2

namespace SemHandlers

variable {τ β : Type*} [DecidableEq τ] [DecidableEq β]

def init (live : Finset β) : SemHandlers τ β := ⟨.init, ⟨live, []⟩, fun _ => none, []⟩

/-- `delete[] name` of the handler, and its return. -/
def finish (s : SemHandlers τ β) (t : τ) (f : Heap.Held β) (c : Entered τ) (result : ℤ) : SemHandlers τ β :=
  let heap := s.heap.delete f.buffer
  { s with
    heap := heap
    place := Function.update s.place t none
    finished := s.finished ++ [⟨c, t, result, f.buffer, heap.releasedSince f.buffer f.start⟩] }

/-- `Sys*` from the answer of the table on. -/
def sysReturn (s : SemHandlers τ β) (t : τ) (f : Heap.Held β) (c : Entered τ) (res : ℤ) : SemHandlers τ β :=
  if res = -1 then { s with heap := s.heap.delete f.buffer }.finish t f c (-1)
  else { s with place := Function.update s.place t (some (.leaving f c)) }

def goOn (s : SemHandlers τ β) (t : τ) (f : Heap.Held β) (c : Entered τ) : Option ℤ → SemHandlers τ β
  | some res => s.sysReturn t f c res
  | none => { s with place := Function.update s.place t (some (.inside f c)) }

/-- What happens next; `none` when the thread cannot do this, or the table does not. -/
def step (s : SemHandlers τ β) : Event τ β → Option (SemHandlers τ β)
  | .call t b unset c =>
    if s.place t ≠ none then none
    else (s.heap.new b).bind fun heap => (s.users.step (c.event t unset)).map fun u =>
      { s with users := u, heap := heap }.goOn t ⟨b, s.heap.log.length⟩ ⟨c, s.users.table⟩ (s.users.answer u)
  | .resume t =>
    match s.place t with
    | some (.inside f c) => (s.users.step (.resume t)).map fun u =>
        { s with users := u }.goOn t f c (s.users.answer u)
    | _ => none
  | .leave t =>
    match s.place t with
    | some (.leaving f c) => some (s.finish t f c 0)
    | _ => none

/-! ### What the table answers -/

section Answers

variable {u u' : SemUsers τ}

omit [DecidableEq τ] in
theorem answer_ret (u : SemUsers τ) (table : STable τ) (t : τ) (c : SemCall) (v : ℤ) :
    u.answer ({ u with table := table }.ret t c v) = some v := by
  simp [SemUsers.answer, SemUsers.ret]

theorem answer_pass (u : SemUsers τ) (t : τ) (name : CString) (i : ℕ) (a : Sem τ) :
    u.answer (u.pass t name i a) ≠ some (-1) := by
  rw [SemUsers.answer, SemUsers.pass_returned]
  split <;> simp

theorem answer_call (h : u.Inv) {t : τ} {unset : Bytes 50} {c : SemCall} (hs : u.step (c.event t unset) = some u') :
    u.answer u' = some (-1) ↔ ¬ u.table.Accepts c := by
  have hcall : (c.event t unset).call = some c := by cases c <;> rfl
  generalize c.event t unset = e at hs hcall
  cases SemUsers.step_cases h hs with
  | created hno hroom =>
    obtain rfl := Option.some.inj hcall
    rw [answer_ret]
    exact iff_of_false (by decide) (not_not_intro ⟨hno, hroom⟩)
  | failed hc hnot =>
    obtain rfl := Option.some.inj (hcall.symm.trans hc)
    exact iff_of_true (answer_ret u u.table _ _ _) hnot
  | pass hc ha hn =>
    obtain rfl := hc c hcall
    exact iff_of_false (answer_pass u _ _ _ _) (not_not_intro ⟨_, _, ha, hn⟩)
  | signal ha hn =>
    obtain rfl := Option.some.inj hcall
    rw [answer_ret]
    exact iff_of_false (by decide) (not_not_intro ⟨_, _, ha, hn⟩)

theorem answer_resume {t : τ} (hs : u.step (.resume t) = some u') : u.answer u' ≠ some (-1) := by
  obtain ⟨⟨name, i⟩, -, hs⟩ := Option.bind_eq_some_iff.mp hs
  obtain ⟨a, -, hs⟩ := Option.bind_eq_some_iff.mp hs
  split at hs
  · cases hs
  · obtain rfl := Option.some.inj hs
    exact answer_pass u t name i a

end Answers

/-! ### The buffers of the threads -/

variable {live : Finset β} {s s' : SemHandlers τ β}

/-- The buffer of the handler that thread `t` is in. -/
def held (s : SemHandlers τ β) (t : τ) : Option (Heap.Held β) := (s.place t).map Place.name

omit [DecidableEq τ] [DecidableEq β] in
theorem held_of_place {t : τ} {o : Option (Place τ β)} (h : s.place t = o) : s.held t = o.map Place.name :=
  congrArg (Option.map Place.name) h

/-- A call that the table accepted has returned 0 and deleted its buffer once, and another one twice. -/
def Finished.Counted (d : Finished τ β) : Prop :=
  d.before.Accepts d.call ∧ d.result = 0 ∧ d.released = 1 ∨
  ¬ d.before.Accepts d.call ∧ d.result = -1 ∧ d.released = 2

structure Inv (live : Finset β) (s : SemHandlers τ β) : Prop where
  users : s.users.Inv
  owned : s.heap.Owned live s.held
  finished : ∀ d ∈ s.finished, d.Counted

/-- The calls under way are accepted: one that is not has returned at once. -/
def Accepted (s : SemHandlers τ β) : Prop := ∀ t p, s.place t = some p → p.entered.before.Accepts p.entered.call

omit [DecidableEq τ] in
theorem inv_init (live : Finset β) : Inv live (init live : SemHandlers τ β) :=
  ⟨SemUsers.inv_init, Heap.Owned.init live, fun _ hd => (nomatch hd)⟩

omit [DecidableEq β] in
theorem held_update (s : SemHandlers τ β) (t : τ) (o : Option (Place τ β)) :
    (fun u => (Function.update s.place t o u).map Place.name) = Function.update s.held t (o.map Place.name) := by
  funext u
  by_cases hu : u = t
  · subst hu
    rw [Function.update_self, Function.update_self]
  · rw [Function.update_of_ne hu, Function.update_of_ne hu]
    rfl

/-- The place of a thread changes, and it keeps its buffer. -/
theorem Inv.move (h : Inv live s) {t : τ} {f : Heap.Held β} (ht : s.held t = some f) {p : Place τ β}
    (hp : p.name = f) : Inv live { s with place := Function.update s.place t (some p) } := by
  refine ⟨h.users, ?_, h.finished⟩
  have hheld : ({ s with place := Function.update s.place t (some p) } : SemHandlers τ β).held = s.held := by
    calc _ = Function.update s.held t ((some p).map Place.name) := held_update s t (some p)
      _ = Function.update s.held t (s.held t) := by rw [Option.map_some, hp, ht]
      _ = s.held := Function.update_eq_self t s.held
  rw [hheld]
  exact h.owned

/-- The handler returns, with its buffer deleted `k` times in this step. -/
theorem Inv.ret (h : Inv live s) {t : τ} {f : Heap.Held β} (ht : s.held t = some f) {heap : Heap β} {k : ℕ}
    (hlive : heap.live = s.heap.live.erase f.buffer)
    (hlog : heap.log = s.heap.log ++ List.replicate k (.delete f.buffer)) (c : Entered τ) {result : ℤ}
    (hk : c.before.Accepts c.call ∧ result = 0 ∧ k = 1 ∨ ¬ c.before.Accepts c.call ∧ result = -1 ∧ k = 2) :
    Inv live { s with
      heap := heap
      place := Function.update s.place t none
      finished := s.finished ++ [⟨c, t, result, f.buffer, heap.releasedSince f.buffer f.start⟩] } := by
  obtain ⟨howned, hcount⟩ := h.owned.release ht hlive hlog
  have hheld : _ = Function.update s.held t none := held_update s t none
  refine ⟨h.users, ?_, fun d hd => ?_⟩
  · rw [← hheld] at howned
    exact howned
  · rcases List.mem_append.mp hd with hd | hd
    · exact h.finished d hd
    · rw [List.mem_singleton.mp hd, Finished.Counted, hcount]
      exact hk

theorem Inv.finish (h : Inv live s) {t : τ} {f : Heap.Held β} (ht : s.held t = some f) {c : Entered τ}
    (hacc : c.before.Accepts c.call) : Inv live (s.finish t f c 0) :=
  h.ret ht rfl rfl c (Or.inl ⟨hacc, rfl, rfl⟩)

theorem Inv.goOn (h : Inv live s) {t : τ} {f : Heap.Held β} (ht : s.held t = some f) {c : Entered τ} {a : Option ℤ}
    (ha : a = some (-1) ↔ ¬ c.before.Accepts c.call) : Inv live (s.goOn t f c a) := by
  cases a with
  | none => exact h.move ht rfl
  | some res =>
    show Inv live (s.sysReturn t f c res)
    unfold sysReturn
    split
    · -- `Sys*` and the handler both delete the buffer
      rename_i hres
      refine h.ret ht ?_ ?_ c (Or.inr ⟨ha.mp (congrArg some hres), rfl, rfl⟩)
      · exact Finset.erase_idem
      · exact List.append_assoc ..
    · exact h.move ht rfl

theorem goOn_place (s : SemHandlers τ β) (t : τ) (o : Option (Place τ β)) (f : Heap.Held β) (c : Entered τ)
    (a : Option ℤ) : { s with place := Function.update s.place t o }.goOn t f c a = s.goOn t f c a := by
  cases a with
  | none => simp only [goOn, Function.update_idem]
  | some res => simp only [goOn, sysReturn, finish, Function.update_idem]

omit [DecidableEq β] in
theorem accepted_update {t : τ} {o : Option (Place τ β)} (h : Accepted s)
    (ho : ∀ p, o = some p → p.entered.before.Accepts p.entered.call) (users : SemUsers τ) (heap : Heap β)
    (finished : List (Finished τ β)) : Accepted ⟨users, heap, Function.update s.place t o, finished⟩ := by
  intro u q hq
  have hq' : Function.update s.place t o u = some q := hq
  by_cases hu : u = t
  · rw [hu, Function.update_self] at hq'
    exact ho q hq'
  · rw [Function.update_of_ne hu] at hq'
    exact h u q hq'

theorem Accepted.goOn (h : Accepted s) (t : τ) (f : Heap.Held β) {c : Entered τ} {a : Option ℤ}
    (ha : a = some (-1) ↔ ¬ c.before.Accepts c.call) : Accepted (s.goOn t f c a) := by
  cases a with
  | none =>
    refine accepted_update h (fun p hp => ?_) _ _ _
    rw [← Option.some.inj hp]
    exact not_not.mp fun hno => nomatch ha.mpr hno
  | some res =>
    show Accepted (s.sysReturn t f c res)
    unfold sysReturn
    split
    · exact accepted_update h (fun _ hp => absurd hp (Option.some_ne_none _).symm) _ _ _
    · rename_i hres
      refine accepted_update h (fun p hp => ?_) _ _ _
      rw [← Option.some.inj hp]
      exact not_not.mp fun hno => hres (Option.some.inj (ha.mpr hno))

theorem inv_step {e : Event τ β} (h : Inv live s) (hacc : Accepted s) (hs : s.step e = some s') :
    Inv live s' ∧ Accepted s' := by
  cases e with
  | call t b unset c =>
    simp only [step] at hs
    split at hs
    · cases hs
    · rename_i hplace
      obtain ⟨heap, hnew, hs⟩ := Option.bind_eq_some_iff.mp hs
      obtain ⟨u, hu, rfl⟩ := Option.map_eq_some_iff.mp hs
      have ht : s.held t = none := held_of_place (not_not.mp hplace)
      have hanswer := answer_call h.users hu
      refine ⟨?_, ?_⟩
      · -- first the thread is in the call with its buffer, and then the table answers
        let p : Place τ β := .inside ⟨b, s.heap.log.length⟩ ⟨c, s.users.table⟩
        have hheld : _ = Function.update s.held t (some ⟨b, s.heap.log.length⟩) := held_update s t (some p)
        have howned := h.owned.take ht hnew
        rw [← hheld] at howned
        have henter : Inv live { s with users := u, heap := heap, place := Function.update s.place t (some p) } :=
          ⟨SemUsers.inv_step h.users (SemUsers.step_cases h.users hu), howned, h.finished⟩
        rw [← goOn_place _ t (some p)]
        exact henter.goOn ((congrFun hheld t).trans (Function.update_self ..)) hanswer
      · have hsame : Accepted { s with users := u, heap := heap } := hacc
        exact hsame.goOn t _ hanswer
  | resume t =>
    simp only [step] at hs
    split at hs
    · rename_i f c hplace
      obtain ⟨u, hu, rfl⟩ := Option.map_eq_some_iff.mp hs
      have hsame : Inv live { s with users := u } :=
        ⟨SemUsers.inv_step h.users (SemUsers.step_cases h.users hu), h.owned, h.finished⟩
      have hsame' : Accepted { s with users := u } := hacc
      have hanswer : s.users.answer u = some (-1) ↔ ¬ c.before.Accepts c.call :=
        iff_of_false (answer_resume hu) (not_not_intro (hacc t _ hplace))
      exact ⟨hsame.goOn (held_of_place hplace) hanswer, hsame'.goOn t f hanswer⟩
    · cases hs
  | leave t =>
    simp only [step] at hs
    split at hs
    · rename_i f c hplace
      obtain rfl := Option.some.inj hs
      exact ⟨h.finish (held_of_place hplace) (hacc t _ hplace), accepted_update hacc (fun _ hp => absurd hp (Option.some_ne_none _).symm) _ _ _⟩
    · cases hs

theorem inv_exec (live : Finset β) (es : List (Event τ β)) (s : SemHandlers τ β)
    (h : exec step (init live) es = some s) : Inv live s :=
  (@exec_induction _ _ _ _ (fun _ s => Inv live s ∧ Accepted s) ⟨inv_init live, fun _ _ hp => nomatch hp⟩
    (fun _ _ _ _ hi hs => inv_step hi.1 hi.2 hs) es s h).1

/-- In every run of any threads and with any buffers that the allocator gives them, the buffer of a call that has
returned was deleted exactly once if and only if the table at the call accepted it, which is when it returned 0; and
the buffers that are live are those that were live before and those of the calls under way. -/
theorem released_once_iff (live : Finset β) (es : List (Event τ β)) (s : SemHandlers τ β)
    (h : exec step (init live) es = some s) :
    (∀ d ∈ s.finished, (d.released = 1 ↔ d.before.Accepts d.call) ∧ (d.result = 0 ↔ d.before.Accepts d.call)) ∧
      ∀ b, b ∈ s.heap.live ↔ b ∈ live ∨ ∃ t f, s.held t = some f ∧ f.buffer = b := by
  have hi := inv_exec live es s h
  refine ⟨fun d hd => ?_, hi.owned.live_iff⟩
  rcases hi.finished d hd with ⟨hacc, hr, hk⟩ | ⟨hno, hr, hk⟩
  · exact ⟨iff_of_true hk hacc, iff_of_true hr hacc⟩
  · exact ⟨iff_of_false (by omega) hno, iff_of_false (by omega) hno⟩

/-- A semaphore is created and waited for; the second call gets the buffer of the first one. -/
def createThenWait : List (Event Bool ℕ) :=
  [.call false 0 (Bytes.pad 50 []) (.create SemUsers.nameS 1), .leave false,
    .call true 0 (Bytes.pad 50 []) (.wait SemUsers.nameS), .leave true]

theorem released_once_createThenWait : ∃ s, exec step (init ∅) createThenWait = some s ∧
    s.finished.map (fun d => (d.result, d.released)) = [(0, 1), (0, 1)] ∧
    (∀ d ∈ s.finished, (d.released = 1 ↔ d.before.Accepts d.call) ∧ (d.result = 0 ↔ d.before.Accepts d.call)) ∧
      ∀ b, b ∈ s.heap.live ↔ b ∈ (∅ : Finset ℕ) ∨ ∃ t f, s.held t = some f ∧ f.buffer = b := by
  have hrun : (exec step (init ∅) createThenWait).map (fun s => s.finished.map fun d => (d.result, d.released)) =
      some [(0, 1), (0, 1)] := by decide +kernel
  obtain ⟨s, hs, hd⟩ := Option.map_eq_some_iff.mp hrun
  exact ⟨s, hs, hd, released_once_iff ∅ createThenWait s hs⟩

/-- `Wait` and `Signal` on a name that is not known, and a name that is created twice. -/
def failingCalls : List (Event Bool ℕ) :=
  [.call false 0 (Bytes.pad 50 []) (.wait SemUsers.nameS), .call false 0 (Bytes.pad 50 []) (.signal SemUsers.nameS),
    .call false 0 (Bytes.pad 50 []) (.create SemUsers.nameS 1), .leave false,
    .call false 0 (Bytes.pad 50 []) (.create SemUsers.nameS 1)]

/-- Each of the three handlers deletes the buffer twice when the call fails. -/
theorem failed_call_releases_twice : ∃ s, exec step (init ∅) failingCalls = some s ∧
    s.finished.map (fun d => (d.call, d.result, d.released)) = [(.wait SemUsers.nameS, -1, 2),
      (.signal SemUsers.nameS, -1, 2), (.create SemUsers.nameS 1, 0, 1), (.create SemUsers.nameS 1, -1, 2)] :=
  Option.map_eq_some_iff.mp (by decide +kernel)

end SemHandlers

end Nachos
