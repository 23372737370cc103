/-
# Drivers that keep one request outstanding

`SynchDisk` of `filesys/synchdisk.cc` over `machine/disk.cc`, and `SynchConsoleOutput`
of `userprog/synchconsole.cc` over `machine/console.cc`. Their calls are alike: a
lock, a request to the device, a `P` that waits for the interrupt, and the release of
the lock. The device carries the request out at once, and is busy until its interrupt,
whose handler does the `V`.

`Driver` is such a driver for any number of threads. Each statement and each pass
through the loop of `P` is a step of its own, the assertions of a request and its
transfer together are one; the interrupt of a request can come at any time after it
has been scheduled. The requests are numbered in the order in which the device gets
them (`issued`).

* `inv_exec`: in every run the thread inside the lock is alone with the device, and its
  place tells what the device does.
* `drivers_one_request`: a request never finds the device busy, a call returns after
  the interrupt of its own request, and the device has seen the requests one by one.

Key definitions: `Driver`, `Driver.step`, `Driver.Inv`, `SynchDisk`, `SynchConsoleOutput`.
-/
import NachosNet.Filesys.Disk
import NachosNet.Threads.Synch

namespace Nachos

open Basis

namespace Driver

/-- The semaphore of the lock, and the one that the interrupt signals. -/
inductive Sem
  | lock
  | done
  deriving DecidableEq

/-- The next statement of a thread. After its request this has a number and a result. -/
inductive Pc (ρ β : Type*)
  | idle
  /-- `P` on the semaphore of the lock. -/
  | acquire (r : ρ)
  /-- `lockHolder = kernel->currentThread` -/
  | hold (r : ρ)
  /-- The assertions of the request and the transfer. -/
  | request (r : ρ)
  /-- `active = TRUE`, `putBusy = TRUE` -/
  | busy (k : ℕ) (r : ρ) (b : β)
  /-- `kernel->interrupt->Schedule(this, ticks, ...)` -/
  | schedule (k : ℕ) (r : ρ) (b : β)
  /-- `P` on the semaphore of the interrupt. -/
  | await (k : ℕ) (r : ρ) (b : β)
  /-- `lockHolder = NULL` -/
  | release (k : ℕ) (r : ρ) (b : β)
  /-- `V` on the semaphore of the lock, and the return. -/
  | unlock (k : ℕ) (r : ρ) (b : β)

inductive Event (τ ρ : Type*)
  /-- Thread `t` makes the call for the request `r`. -/
  | call (t : τ) (r : ρ)
  | run (t : τ)
  /-- The interrupt of request `k`. -/
  | interrupt (k : ℕ)

/-- A request that has been made, and its result. -/
structure Issue (τ ρ β : Type*) where
  thread : τ
  request : ρ
  result : β

/-- The call that made the request. -/
def Issue.call {τ ρ β : Type*} (i : Issue τ ρ β) : τ × ρ := (i.thread, i.request)

namespace Pc

variable {ρ β : Type*}

/-- Between `lock->Acquire` and `lock->Release`. -/
def inside : Pc ρ β → Bool
  | .idle | .acquire _ => false
  | _ => true

/-- `lockHolder` is the thread. -/
def holds : Pc ρ β → Bool
  | .idle | .acquire _ | .hold _ | .unlock _ _ _ => false
  | _ => true

theorem inside_of_holds {p : Pc ρ β} (h : p.holds = true) : p.inside = true := by
  cases p with
  | idle => exact h
  | acquire r => exact h
  | _ => rfl

end Pc

end Driver

/-- A driver: threads `τ`, requests `ρ` with results `β`, and a device with contents `δ`. -/
structure Driver (τ ρ β δ : Type*) where
  sleepers : Sleepers τ Driver.Sem
  lockHolder : Option τ
  /-- `active` of the disk, `putBusy` of the display. -/
  active : Bool
  contents : δ
  /-- The interrupts that have been scheduled, by the numbers of their requests. -/
  pending : List ℕ
  pc : τ → Driver.Pc ρ β
  /-- The calls in the order in which they got the lock. -/
  entered : List (τ × ρ)
  /-- The requests in the order in which the device got them. -/
  issued : List (Driver.Issue τ ρ β)
  /-- The requests whose interrupt has come. -/
  completed : List ℕ
  /-- The calls that have returned, with the number of the request. -/
  returned : List (ℕ × Driver.Issue τ ρ β)

namespace Driver

variable {τ ρ β δ : Type*}

section Statements

variable [DecidableEq τ]

/-- Thread `t` goes on to `p`. -/
def goto (s : Driver τ ρ β δ) (t : τ) (p : Pc ρ β) : Driver τ ρ β δ := { s with pc := Function.update s.pc t p }

/-- A pass of thread `t` through the loop of `P`, and on to `p` when it returns. -/
def passP (s : Driver τ ρ β δ) (t : τ) (l : Sem) (p : Pc ρ β) : Driver τ ρ β δ :=
  { s with sleepers := (s.sleepers.pass t l s.pc p).1, pc := (s.sleepers.pass t l s.pc p).2 }

-- `transfer` is what the device does at once: its new contents and the result, or
-- `none` when the assertion on the request fails
variable (transfer : δ → ρ → Option (δ × β))

/-- The next statement of thread `t`. `none` when the thread has none or is asleep,
and when an assertion fails. -/
def run (s : Driver τ ρ β δ) (t : τ) : Option (Driver τ ρ β δ) :=
  if s.sleepers.asleep t then none
  else match s.pc t with
  | .idle => none
  | .acquire r => some (s.passP t .lock (.hold r))
  | .hold r => some ({ s with lockHolder := some t, entered := s.entered ++ [(t, r)] }.goto t (.request r))
  | .request r =>
    -- `ASSERT(!active)`, `ASSERT(putBusy == FALSE)`
    if s.active then none
    else (transfer s.contents r).map fun x =>
      { s with contents := x.1, issued := s.issued ++ [Issue.mk t r x.2] }.goto t (.busy s.issued.length r x.2)
  | .busy k r b => some ({ s with active := true }.goto t (.schedule k r b))
  | .schedule k r b => some ({ s with pending := s.pending ++ [k] }.goto t (.await k r b))
  | .await k r b => some (s.passP t .done (.release k r b))
  | .release k r b =>
    if s.lockHolder ≠ some t then none else some ({ s with lockHolder := none }.goto t (.unlock k r b))
  | .unlock k r b => some ({ s with
      sleepers := s.sleepers.V .lock
      returned := s.returned ++ [(k, Issue.mk t r b)] }.goto t .idle)

/-- `Disk::CallBack`, `ConsoleOutput::CallBack`: the handler of the interrupt of request `k`. -/
def callBack (s : Driver τ ρ β δ) (k : ℕ) : Driver τ ρ β δ :=
  { s with
    pending := s.pending.erase k
    active := false
    sleepers := s.sleepers.V .done
    completed := s.completed ++ [k] }

def step (s : Driver τ ρ β δ) : Event τ ρ → Option (Driver τ ρ β δ)
  | .call t r =>
    match s.pc t with
    | .idle => some (s.goto t (.acquire r))
    | _ => none
  | .run t => s.run transfer t
  | .interrupt k => if k ∈ s.pending then some (s.callBack k) else none

end Statements

/-- The driver over a device with these contents. -/
def init (d₀ : δ) : Driver τ ρ β δ where
  sleepers := ⟨fun l => .mk0 (if l = .lock then 1 else 0), fun _ => false⟩
  lockHolder := none
  active := false
  contents := d₀
  pending := []
  pc _ := .idle
  entered := []
  issued := []
  completed := []
  returned := []

/-! ### The invariant -/

/-- What the device is doing: `done` interrupts have come, and `back` calls have returned. -/
structure Device (s : Driver τ ρ β δ) (active : Bool) (pending : List ℕ) (value : ℤ) (done back : ℕ) : Prop where
  active : s.active = active
  pending : s.pending = pending
  value : (s.sleepers.sem .done).value = value
  completed : s.completed = List.range done
  returned : s.returned.map Prod.fst = List.range back

/-- The device has nothing to do, and `next` is inside the lock before its request. -/
structure Free (s : Driver τ ρ β δ) (next : List (τ × ρ)) : Prop where
  device : s.Device false [] 0 s.issued.length s.issued.length
  entered : s.entered = s.issued.map Issue.call ++ next

/-- The last request is `i`, with the number `k`, and nobody has got the lock since. -/
structure Last (s : Driver τ ρ β δ) (k : ℕ) (i : Issue τ ρ β) : Prop where
  issued : ∃ l, s.issued = l ++ [i] ∧ l.length = k
  entered : s.entered = s.issued.map Issue.call

/-- What the place of a thread tells of the device. -/
def Phase (s : Driver τ ρ β δ) (t : τ) : Pc ρ β → Prop
  | .idle | .acquire _ => True
  | .hold _ => s.Free []
  | .request r => s.Free [(t, r)]
  | .busy k r b => s.Last k ⟨t, r, b⟩ ∧ s.Device false [] 0 k k
  | .schedule k r b => s.Last k ⟨t, r, b⟩ ∧ s.Device true [] 0 k k
  | .await k r b => s.Last k ⟨t, r, b⟩ ∧ (s.Device true [k] 0 k k ∨ s.Device false [] 1 (k + 1) k)
  | .release k r b | .unlock k r b => s.Last k ⟨t, r, b⟩ ∧ s.Device false [] 0 (k + 1) k

/-- The contents after these requests. -/
def after (transfer : δ → ρ → Option (δ × β)) (d₀ : δ) (l : List (Issue τ ρ β)) : Option δ :=
  l.foldlM (fun d i => (transfer d i.request).map Prod.fst) d₀

/-- The device has carried out the requests one after the other. -/
structure Log (transfer : δ → ρ → Option (δ × β)) (d₀ : δ) (s : Driver τ ρ β δ) : Prop where
  contents : after transfer d₀ s.issued = some s.contents
  result : ∀ l i l', s.issued = l ++ i :: l' →
    ∃ d d', after transfer d₀ l = some d ∧ transfer d i.request = some (d', i.result)
  returned : ∀ x ∈ s.returned, s.issued[x.1]? = some x.2

structure Inv (transfer : δ → ρ → Option (δ × β)) (d₀ : δ) (s : Driver τ ρ β δ) : Prop where
  lock : Locked (fun t => (s.pc t).inside = true) (s.sleepers.sem .lock).value
  holder : ∀ t, (s.pc t).holds = true → s.lockHolder = some t
  phase : ∀ t, s.Phase t (s.pc t)
  quiet : (∀ t, (s.pc t).inside = false) → s.Free []
  log : s.Log transfer d₀

variable {transfer : δ → ρ → Option (δ × β)} {d₀ : δ} {s s' : Driver τ ρ β δ} {t : τ} {p : Pc ρ β}

theorem inv_init : Inv transfer d₀ (init d₀ : Driver τ ρ β δ) where
  lock := Or.inl ⟨rfl, fun _ h => by cases h⟩
  holder _ h := by cases h
  phase _ := trivial
  quiet _ := ⟨⟨rfl, rfl, rfl, rfl, rfl⟩, rfl⟩
  log := ⟨rfl, fun l i l' h => absurd h (by simp [init]), fun _ h => by cases h⟩

theorem phase_of_outside (hp : p.inside = false) : s.Phase t p := by
  cases p with
  | idle => trivial
  | acquire r => trivial
  | _ => cases hp

theorem Phase.congr (h : s.Phase t p) (hi : s'.issued = s.issued) (he : s'.entered = s.entered)
    (hd : ∀ {a q v m n}, s.Device a q v m n → s'.Device a q v m n) : s'.Phase t p := by
  have hfree : ∀ {next}, s.Free next → s'.Free next := fun hf =>
    ⟨by rw [hi]; exact hd hf.device, by rw [hi, he]; exact hf.entered⟩
  have hlast : ∀ {k i}, s.Last k i → s'.Last k i := fun hl =>
    ⟨by rw [hi]; exact hl.issued, by rw [hi, he]; exact hl.entered⟩
  cases p with
  | idle => trivial
  | acquire r => trivial
  | hold r => exact hfree h
  | request r => exact hfree h
  | await k r b => exact ⟨hlast h.1, h.2.imp hd hd⟩
  | _ => exact ⟨hlast h.1, hd h.2⟩

theorem Log.congr (h : Log transfer d₀ s) (hc : s'.contents = s.contents) (hi : s'.issued = s.issued)
    (hr : s'.returned = s.returned) : Log transfer d₀ s' :=
  ⟨by rw [hi, hc]; exact h.contents, by rw [hi]; exact h.result, by rw [hi, hr]; exact h.returned⟩

theorem Inv.phase_at (h : Inv transfer d₀ s) (hp : s.pc t = p) : s.Phase t p := hp ▸ h.phase t

/-- A thread goes from one place outside to another, or a thread falls asleep. Only the
values of the semaphores count. -/
theorem Inv.outer (h : Inv transfer d₀ s) {sl : Sleepers τ Sem} {pc : τ → Pc ρ β}
    (hv : ∀ l, (sl.sem l).value = (s.sleepers.sem l).value)
    (hpc : ∀ u, pc u = s.pc u ∨ (s.pc u).inside = false ∧ (pc u).inside = false) :
    Inv transfer d₀ { s with sleepers := sl, pc := pc } := by
  have hdev : ∀ {a q v m n}, s.Device a q v m n → ({ s with sleepers := sl, pc := pc }).Device a q v m n :=
    fun hd => ⟨hd.active, hd.pending, (hv .done).trans hd.value, hd.completed, hd.returned⟩
  have hinside : ∀ u, (pc u).inside = (s.pc u).inside := by
    intro u
    rcases hpc u with hu | ⟨h1, h2⟩
    · rw [hu]
    · rw [h1, h2]
  refine ⟨?_, fun u hu => ?_, fun u => ?_, fun hno => ?_, h.log.congr rfl rfl rfl⟩
  · show Locked (fun u => (pc u).inside = true) (sl.sem .lock).value
    rw [hv .lock]
    exact h.lock.congr fun u => by rw [hinside u]
  · rcases hpc u with heq | ⟨-, hout⟩
    · exact h.holder u (heq ▸ hu)
    · exact absurd (Pc.inside_of_holds hu) (by simp [hout])
  · rcases hpc u with heq | ⟨-, hout⟩
    · show Phase _ u (pc u)
      rw [heq]
      exact (h.phase u).congr rfl rfl hdev
    · exact phase_of_outside hout
  · have hfree := h.quiet fun u => (hinside u).symm.trans (hno u)
    exact ⟨hdev hfree.device, hfree.entered⟩

theorem after_concat (l : List (Issue τ ρ β)) (i : Issue τ ρ β) :
    after transfer d₀ (l ++ [i]) = (after transfer d₀ l).bind fun d => (transfer d i.request).map Prod.fst := by
  simp [after, List.foldlM_append]

theorem Log.issue (h : Log transfer d₀ s) {i : Issue τ ρ β} {d : δ}
    (ht : transfer s.contents i.request = some (d, i.result)) (hi : s'.issued = s.issued ++ [i])
    (hc : s'.contents = d) (hr : s'.returned = s.returned) : Log transfer d₀ s' := by
  refine ⟨?_, fun l j l' hl => ?_, fun x hx => ?_⟩
  · rw [hi, hc, after_concat, h.contents, Option.bind_some, ht, Option.map_some]
  · rw [hi] at hl
    rcases List.eq_nil_or_concat l' with rfl | ⟨m, y, rfl⟩
    · obtain ⟨rfl, hij⟩ := List.append_inj' hl rfl
      obtain rfl : i = j := by simpa using hij
      exact ⟨s.contents, d, h.contents, ht⟩
    · rw [List.concat_eq_append, ← List.cons_append, ← List.append_assoc] at hl
      exact h.result l j m (List.append_inj_left' hl rfl)
  · rw [hr] at hx
    have hx := h.returned x hx
    rw [hi, List.getElem?_append_left (List.getElem?_eq_some_iff.mp hx).1]
    exact hx

/-! ### What the invariant gives -/

/-- One request at a time. -/
structure OneRequest (s : Driver τ ρ β δ) : Prop where
  /-- The assertion that the device is not busy holds where it is made. -/
  idle : ∀ t r, s.pc t = .request r → s.active = false
  /-- A call that has returned had the result of its own request, whose interrupt had come. -/
  own : ∀ x ∈ s.returned, s.issued[x.1]? = some x.2 ∧ x.1 ∈ s.completed
  /-- No request has two interrupts. -/
  completed : s.completed.Nodup
  /-- No two calls return for one request. -/
  returned : (s.returned.map Prod.fst).Nodup
  /-- The requests are those of the calls in the order in which they got the lock; only the
  last one of these may still be before its request. -/
  entered : s.entered = s.issued.map Issue.call ∨
    ∃ t r, s.pc t = .request r ∧ s.entered = s.issued.map Issue.call ++ [(t, r)]

/-- An awake thread goes on with a request that passes the assertion on it. -/
def GoesOn [DecidableEq τ] (transfer : δ → ρ → Option (δ × β)) (s : Driver τ ρ β δ) : Prop :=
  ∀ t r, s.pc t = .request r → s.sleepers.asleep t = false → (transfer s.contents r).isSome → (s.run transfer t).isSome

theorem Inv.inspect (h : Inv transfer d₀ s) : (∃ a q v m n, s.Device a q v m n ∧ n ≤ m) ∧
    (s.entered = s.issued.map Issue.call ∨
      ∃ t r, s.pc t = .request r ∧ s.entered = s.issued.map Issue.call ++ [(t, r)]) := by
  by_cases hsome : ∃ t, (s.pc t).inside = true
  · obtain ⟨t, ht⟩ := hsome
    have hphase := h.phase t
    cases hp : s.pc t with
    | idle => simp [hp, Pc.inside] at ht
    | acquire r => simp [hp, Pc.inside] at ht
    | hold r =>
      rw [hp] at hphase
      exact ⟨⟨_, _, _, _, _, hphase.device, le_rfl⟩, Or.inl (hphase.entered.trans (List.append_nil _))⟩
    | request r =>
      rw [hp] at hphase
      exact ⟨⟨_, _, _, _, _, hphase.device, le_rfl⟩, Or.inr ⟨t, r, hp, hphase.entered⟩⟩
    | await k r b =>
      rw [hp] at hphase
      refine ⟨?_, Or.inl hphase.1.entered⟩
      rcases hphase.2 with hdev | hdev
      · exact ⟨_, _, _, _, _, hdev, le_rfl⟩
      · exact ⟨_, _, _, _, _, hdev, Nat.le_succ k⟩
    | _ =>
      rw [hp] at hphase
      exact ⟨⟨_, _, _, _, _, hphase.2, by omega⟩, Or.inl hphase.1.entered⟩
  · have hfree := h.quiet fun t => by simpa using fun ht => hsome ⟨t, ht⟩
    exact ⟨⟨_, _, _, _, _, hfree.device, le_rfl⟩, Or.inl (hfree.entered.trans (List.append_nil _))⟩

theorem Inv.oneRequest (h : Inv transfer d₀ s) : s.OneRequest := by
  obtain ⟨⟨a, q, v, m, n, hdev, hle⟩, hentered⟩ := h.inspect
  refine ⟨fun t r hp => ?_, fun x hx => ⟨h.log.returned x hx, ?_⟩, ?_, ?_, hentered⟩
  · have hfree : s.Free [(t, r)] := h.phase_at hp
    exact hfree.device.active
  · have hmem : x.1 ∈ s.returned.map Prod.fst := List.mem_map_of_mem hx
    rw [hdev.returned, List.mem_range] at hmem
    rw [hdev.completed, List.mem_range]
    exact hmem.trans_le hle
  · rw [hdev.completed]
    exact List.nodup_range
  · rw [hdev.returned]
    exact List.nodup_range

variable [DecidableEq τ]

theorem OneRequest.goesOn (h : s.OneRequest) : s.GoesOn transfer := by
  intro t r hp hawake hr
  unfold run
  rw [if_neg (by simp [hawake])]
  simp only [hp]
  rw [if_neg (by simp [h.idle t r hp]), Option.isSome_map]
  exact hr

/-- A step of the thread inside that leaves it inside. It is alone there, so the other
threads are at places that tell nothing of the device. -/
theorem Inv.inner (h : Inv transfer d₀ s) (ht : (s.pc t).inside = true) (hpc : s'.pc = Function.update s.pc t p)
    (hp : p.inside = true) (hv : (s'.sleepers.sem .lock).value = (s.sleepers.sem .lock).value)
    (hholder : p.holds = true → s'.lockHolder = some t) (hphase : s'.Phase t p) (hlog : s'.Log transfer d₀) :
    Inv transfer d₀ s' := by
  have hself : s'.pc t = p := by rw [hpc, Function.update_self]
  have hother : ∀ u, u ≠ t → s'.pc u = s.pc u := fun u hu => by rw [hpc, Function.update_of_ne hu]
  have halone : ∀ u, (s'.pc u).inside = true → u = t := fun u hu =>
    h.lock.alone (f := fun _ p => Pc.inside p = true) ht (hpc ▸ hu)
  refine ⟨?_, fun u hu => ?_, fun u => ?_, fun hno => ?_, hlog⟩
  · rw [hv, hpc]
    exact h.lock.move (f := fun _ p => Pc.inside p = true) (iff_of_true hp ht)
  · obtain rfl := halone u (Pc.inside_of_holds hu)
    exact hholder (hself ▸ hu)
  · rcases eq_or_ne u t with rfl | hu
    · rwa [hself]
    · apply phase_of_outside
      by_contra hin
      exact hu (halone u (by simpa using hin))
  · have := hno t
    rw [hself, hp] at this
    cases this

theorem inv_call (h : Inv transfer d₀ s) {r : ρ} (hp : s.pc t = .idle) : Inv transfer d₀ (s.goto t (.acquire r)) := by
  refine h.outer (fun _ => rfl) fun u => ?_
  rcases eq_or_ne u t with rfl | hu
  · right
    rw [hp, Function.update_self]
    exact ⟨rfl, rfl⟩
  · left
    rw [Function.update_of_ne hu]

theorem inv_sleep (h : Inv transfer d₀ s) {l : Sem} (hv : (s.sleepers.sem l).value = 0) :
    Inv transfer d₀ { s with sleepers := (s.sleepers.P t l).1 } :=
  h.outer (Sleepers.value_sleep hv) fun _ => Or.inl rfl

/-! ### The steps of a call -/

theorem inv_enter (h : Inv transfer d₀ s) {r : ρ} (hv : (s.sleepers.sem .lock).value ≠ 0) :
    Inv transfer d₀ ({ s with sleepers := (s.sleepers.P t .lock).1 }.goto t (.hold r)) := by
  have hval := Sleepers.value_P (s := s.sleepers) (t := t) hv
  have hout : ∀ u, (s.pc u).inside = false := fun u => by simpa using h.lock.outside hv u
  have hother : ∀ u, u ≠ t → Function.update s.pc t (.hold r) u = s.pc u := fun u hu => Function.update_of_ne hu ..
  have hfree := h.quiet hout
  have hdone : ((s.sleepers.P t .lock).1.sem .done).value = 0 := by
    rw [hval .done]
    exact (Int.sub_zero _).trans hfree.device.value
  have hself : Function.update s.pc t (.hold r) t = .hold r := Function.update_self ..
  refine ⟨?_, fun u hu => ?_, fun u => ?_, fun hno => ?_, h.log.congr rfl rfl rfl⟩
  · show Locked (fun u => (Function.update s.pc t (.hold r) u).inside = true)
      ((s.sleepers.P t .lock).1.sem .lock).value
    rw [hval .lock, if_pos rfl]
    exact h.lock.moveIn (f := fun _ p => Pc.inside p = true) hv rfl
  · have hin : (Function.update s.pc t (.hold r) u).holds = true := hu
    rcases eq_or_ne u t with rfl | hu
    · rw [hself] at hin
      cases hin
    · rw [hother u hu] at hin
      exact absurd (Pc.inside_of_holds hin) (by simp [hout u])
  · show Phase _ u (Function.update s.pc t (.hold r) u)
    rcases eq_or_ne u t with rfl | hu
    · rw [hself]
      exact ⟨⟨hfree.device.active, hfree.device.pending, hdone, hfree.device.completed, hfree.device.returned⟩,
        hfree.entered⟩
    · rw [hother u hu]
      exact phase_of_outside (hout u)
  · have hin : (Function.update s.pc t (.hold r) t).inside = false := hno t
    rw [hself] at hin
    cases hin

theorem inv_hold (h : Inv transfer d₀ s) {r : ρ} (hp : s.pc t = .hold r) : Inv transfer d₀
    ({ s with lockHolder := some t, entered := s.entered ++ [(t, r)] }.goto t (.request r)) := by
  obtain ⟨⟨ha, hq, hv, hc, hr⟩, he⟩ := h.phase_at hp
  refine h.inner (t := t) (by rw [hp]; rfl) rfl rfl rfl (fun _ => rfl) ?_
    (h.log.congr rfl rfl rfl)
  refine ⟨⟨ha, hq, hv, hc, hr⟩, ?_⟩
  show s.entered ++ [(t, r)] = s.issued.map Issue.call ++ [(t, r)]
  rw [he, List.append_nil]

theorem inv_request (h : Inv transfer d₀ s) {r : ρ} {x : δ × β} (hp : s.pc t = .request r)
    (hx : transfer s.contents r = some x) : Inv transfer d₀
    ({ s with contents := x.1, issued := s.issued ++ [Issue.mk t r x.2] }.goto t (.busy s.issued.length r x.2)) := by
  obtain ⟨⟨ha, hq, hv, hc, hr⟩, he⟩ := h.phase_at hp
  refine h.inner (t := t) (by rw [hp]; rfl) rfl rfl rfl (fun _ => h.holder t (by rw [hp]; rfl)) ?_
    (h.log.issue (i := ⟨t, r, x.2⟩) hx rfl rfl rfl)
  refine ⟨⟨⟨s.issued, rfl, rfl⟩, ?_⟩, ⟨ha, hq, hv, hc, hr⟩⟩
  show s.entered = (s.issued ++ [Issue.mk t r x.2]).map Issue.call
  rw [he, List.map_append]
  rfl

theorem Inv.innerGoto (h : Inv transfer d₀ s) {act : Bool} {pend : List ℕ} {holder : Option τ}
    (ht : (s.pc t).inside = true) (hp : p.inside = true) (hholder : p.holds = true → holder = some t)
    (hphase : ({ s with active := act, pending := pend, lockHolder := holder }.goto t p).Phase t p) :
    Inv transfer d₀ ({ s with active := act, pending := pend, lockHolder := holder }.goto t p) :=
  h.inner ht rfl hp rfl hholder hphase (h.log.congr rfl rfl rfl)

theorem inv_busy (h : Inv transfer d₀ s) {k : ℕ} {r : ρ} {b : β} (hp : s.pc t = .busy k r b) :
    Inv transfer d₀ ({ s with active := true }.goto t (.schedule k r b)) := by
  obtain ⟨⟨hi, he⟩, -, hq, hv, hc, hr⟩ := h.phase_at hp
  exact h.innerGoto (by rw [hp]; rfl) rfl (fun _ => h.holder t (by rw [hp]; rfl)) ⟨⟨hi, he⟩, rfl, hq, hv, hc, hr⟩

theorem inv_schedule (h : Inv transfer d₀ s) {k : ℕ} {r : ρ} {b : β} (hp : s.pc t = .schedule k r b) :
    Inv transfer d₀ ({ s with pending := s.pending ++ [k] }.goto t (.await k r b)) := by
  obtain ⟨⟨hi, he⟩, ha, hq, hv, hc, hr⟩ := h.phase_at hp
  refine h.innerGoto (by rw [hp]; rfl) rfl (fun _ => h.holder t (by rw [hp]; rfl)) ⟨⟨hi, he⟩, Or.inl ?_⟩
  exact ⟨ha, congrArg (· ++ [k]) hq, hv, hc, hr⟩

theorem inv_await (h : Inv transfer d₀ s) {k : ℕ} {r : ρ} {b : β} (hp : s.pc t = .await k r b)
    (hv : (s.sleepers.sem .done).value ≠ 0) :
    Inv transfer d₀ ({ s with sleepers := (s.sleepers.P t .done).1 }.goto t (.release k r b)) := by
  have hval := Sleepers.value_P (s := s.sleepers) (t := t) hv
  obtain ⟨⟨hi, he⟩, hdev⟩ := h.phase_at hp
  rcases hdev with hdev | ⟨ha, hq, hone, hc, hr⟩
  · exact absurd hdev.value hv
  · refine h.inner (t := t) (by rw [hp]; rfl) rfl rfl ?_ (fun _ => h.holder t (by rw [hp]; rfl))
      ⟨⟨hi, he⟩, ha, hq, ?_, hc, hr⟩ (h.log.congr rfl rfl rfl)
    · exact (hval .lock).trans (Int.sub_zero _)
    · calc ((s.sleepers.P t .done).1.sem .done).value
          = (s.sleepers.sem .done).value - 1 := hval .done
        _ = 0 := by rw [hone]; rfl

theorem inv_release (h : Inv transfer d₀ s) {k : ℕ} {r : ρ} {b : β} (hp : s.pc t = .release k r b) :
    Inv transfer d₀ ({ s with lockHolder := none }.goto t (.unlock k r b)) := by
  obtain ⟨⟨hi, he⟩, ha, hq, hv, hc, hr⟩ := h.phase_at hp
  exact h.innerGoto (by rw [hp]; rfl) rfl (fun hh => by cases hh) ⟨⟨hi, he⟩, ha, hq, hv, hc, hr⟩

theorem inv_unlock (h : Inv transfer d₀ s) {k : ℕ} {r : ρ} {b : β} (hp : s.pc t = .unlock k r b) :
    Inv transfer d₀ ({ s with
      sleepers := s.sleepers.V .lock
      returned := s.returned ++ [(k, Issue.mk t r b)] }.goto t .idle) := by
  have hval := Sleepers.value_V (s := s.sleepers) (l := Sem.lock)
  have hin : (s.pc t).inside = true := by rw [hp]; rfl
  obtain ⟨⟨⟨l, hi, hk⟩, he⟩, ha, hq, hv, hc, hr⟩ := h.phase_at hp
  have hlen : s.issued.length = k + 1 := by rw [hi, List.length_append, hk, List.length_singleton]
  have hout : ∀ u, (Function.update s.pc t .idle u).inside = false := by
    intro u
    rcases eq_or_ne u t with rfl | hu
    · rw [Function.update_self]
      rfl
    · rw [Function.update_of_ne hu]
      by_contra hinu
      exact hu (h.lock.unique hin (by simpa using hinu))
  refine ⟨?_, fun u hu => ?_, fun u => phase_of_outside (hout u), fun _ => ⟨⟨ha, hq, ?_, ?_, ?_⟩, ?_⟩,
    ⟨h.log.contents, h.log.result, fun x hx => ?_⟩⟩
  · show Locked (fun u => (Function.update s.pc t .idle u).inside = true) ((s.sleepers.V .lock).sem .lock).value
    rw [hval .lock, if_pos rfl]
    exact h.lock.moveOut (f := fun _ p => Pc.inside p = true) hin (by simp [Pc.inside])
  · exact absurd (Pc.inside_of_holds hu) (by simp [goto, hout u])
  · calc ((s.sleepers.V .lock).sem .done).value
        = (s.sleepers.sem .done).value + 0 := hval .done
      _ = 0 := by rw [hv]; rfl
  · show s.completed = List.range s.issued.length
    rw [hlen, hc]
  · show (s.returned ++ [_]).map Prod.fst = List.range s.issued.length
    rw [hlen, List.map_append, hr, List.range_succ]
    rfl
  · show s.entered = s.issued.map Issue.call ++ []
    rw [List.append_nil, he]
  · rcases List.mem_append.mp hx with hx | hx
    · exact h.log.returned x hx
    · rw [List.mem_singleton.mp hx]
      show s.issued[k]? = _
      rw [hi, ← hk, List.getElem?_concat_length]

theorem inv_callBack (h : Inv transfer d₀ s) {k : ℕ} (hk : k ∈ s.pending) : Inv transfer d₀ (s.callBack k) := by
  have hval := Sleepers.value_V (s := s.sleepers) (l := Sem.done)
  have hsome : ∃ t, (s.pc t).inside = true := by
    by_contra hno
    have hfree := h.quiet fun u => by simpa using fun hu => hno ⟨u, hu⟩
    rw [hfree.device.pending] at hk
    cases hk
  obtain ⟨t, ht⟩ := hsome
  have hphase := h.phase t
  have hnil : s.pending ≠ [] := List.ne_nil_of_mem hk
  have hlog : (s.callBack k).Log transfer d₀ := h.log.congr rfl rfl rfl
  refine h.inner ht (Function.update_eq_self t s.pc).symm ht ?_ (h.holder t) ?_ hlog
  · exact (hval .lock).trans (Int.add_zero _)
  · cases hp : s.pc t with
    | idle => trivial
    | acquire r => trivial
    | await j r b =>
      rw [hp] at hphase
      obtain ⟨⟨hi, he⟩, hdev⟩ := hphase
      rcases hdev with ⟨ha, hq, hv, hc, hr⟩ | hdev
      · obtain rfl : k = j := by simpa [hq] using hk
        refine ⟨⟨hi, he⟩, Or.inr ⟨rfl, ?_, ?_, ?_, hr⟩⟩
        · show s.pending.erase k = []
          rw [hq, List.erase_cons_head]
        · calc ((s.sleepers.V .done).sem .done).value
              = (s.sleepers.sem .done).value + 1 := hval .done
            _ = 1 := by rw [hv]; rfl
        · show s.completed ++ [k] = List.range (k + 1)
          rw [hc, List.range_succ]
      · exact absurd hdev.pending hnil
    | hold r => rw [hp] at hphase; exact absurd hphase.device.pending hnil
    | request r => rw [hp] at hphase; exact absurd hphase.device.pending hnil
    | _ => rw [hp] at hphase; exact absurd hphase.2.pending hnil

/-! ### Runs -/

theorem inv_run (h : Inv transfer d₀ s) (hs : s.run transfer t = some s') : Inv transfer d₀ s' := by
  unfold run at hs
  split at hs
  · cases hs
  cases hp : s.pc t with
  | idle => simp [hp] at hs
  | acquire r =>
    simp only [hp, Option.some.injEq] at hs
    subst hs
    by_cases hv : (s.sleepers.sem .lock).value = 0
    · rw [passP, Sleepers.pass_sleep hv]
      exact inv_sleep h hv
    · rw [passP, Sleepers.pass_take hv]
      exact inv_enter h hv
  | hold r =>
    simp only [hp, Option.some.injEq] at hs
    subst hs
    exact inv_hold h hp
  | request r =>
    simp only [hp] at hs
    split at hs
    · cases hs
    · obtain ⟨x, hx, rfl⟩ := Option.map_eq_some_iff.mp hs
      exact inv_request h hp hx
  | busy k r b =>
    simp only [hp, Option.some.injEq] at hs
    subst hs
    exact inv_busy h hp
  | schedule k r b =>
    simp only [hp, Option.some.injEq] at hs
    subst hs
    exact inv_schedule h hp
  | await k r b =>
    simp only [hp, Option.some.injEq] at hs
    subst hs
    by_cases hv : (s.sleepers.sem .done).value = 0
    · rw [passP, Sleepers.pass_sleep hv]
      exact inv_sleep h hv
    · rw [passP, Sleepers.pass_take hv]
      exact inv_await h hp hv
  | release k r b =>
    simp only [hp] at hs
    split at hs
    · cases hs
    · cases hs
      exact inv_release h hp
  | unlock k r b =>
    simp only [hp, Option.some.injEq] at hs
    subst hs
    exact inv_unlock h hp

theorem inv_step {e : Event τ ρ} (h : Inv transfer d₀ s) (hs : s.step transfer e = some s') : Inv transfer d₀ s' := by
  cases e with
  | call t r =>
    simp only [step] at hs
    split at hs
    · next hp =>
      cases hs
      exact inv_call h hp
    · cases hs
  | run t => exact inv_run h hs
  | interrupt k =>
    simp only [step] at hs
    split at hs
    · next hk =>
      cases hs
      exact inv_callBack h hk
    · cases hs

theorem inv_exec {es : List (Event τ ρ)} (hs : exec (step transfer) (init d₀) es = some s) : Inv transfer d₀ s :=
  exec_induction (P := fun _ s => Inv transfer d₀ s) inv_init (fun _ _ _ _ => inv_step) es s hs

end Driver

/-! ### The disk -/

open Driver

/-- The requests to the disk; `data` is what is in the buffer of the caller. -/
inductive DiskRequest
  | readRequest (sectorNumber : ℤ)
  | writeRequest (sectorNumber : ℤ) (data : ℕ → Byte)

/-- `Disk::ReadRequest` and `Disk::WriteRequest` between the assertion that the disk is not
active and `active = TRUE`. The result is what is in the buffer of the caller then. -/
def DiskRequest.transfer (d : OnDisk.Disk) : DiskRequest → Option (OnDisk.Disk × (ℕ → Byte))
  | .readRequest n => (OnDisk.readSector d n).map fun data => (d, data)
  | .writeRequest n data => (OnDisk.writeSector d n data).map fun d' => (d', data)

/-- `SynchDisk`, with the calls of `ReadSector` and `WriteSector`. -/
abbrev SynchDisk (τ : Type*) := Driver τ DiskRequest (ℕ → Byte) OnDisk.Disk

namespace SynchDisk

variable {τ : Type*}

/-- What a request writes to sector `n`. -/
def written (n : ℤ) (i : Issue τ DiskRequest (ℕ → Byte)) : Option (ℕ → Byte) :=
  match i.request with
  | .readRequest _ => none
  | .writeRequest m data => if m = n then some data else none

/-- What the last of these requests that writes sector `n` writes there; the initial
content when there is none. -/
def lastWritten (d₀ : OnDisk.Disk) (n : ℤ) (l : List (Issue τ DiskRequest (ℕ → Byte))) : ℕ → Byte :=
  (l.reverse.findSome? (written n)).getD (d₀ n.toNat)

theorem lastWritten_concat (d₀ : OnDisk.Disk) (n : ℤ) (l : List (Issue τ DiskRequest (ℕ → Byte)))
    (i : Issue τ DiskRequest (ℕ → Byte)) :
    lastWritten d₀ n (l ++ [i]) = (written n i).getD (lastWritten d₀ n l) := by
  unfold lastWritten
  rw [List.reverse_concat, List.findSome?_cons]
  cases written n i with
  | none => rfl
  | some data => rfl

theorem transfer_sector {d d' : OnDisk.Disk} {i : Issue τ DiskRequest (ℕ → Byte)} {b : ℕ → Byte}
    (h : DiskRequest.transfer d i.request = some (d', b)) {n : ℤ} (hn : 0 ≤ n) :
    d' n.toNat = (written n i).getD (d n.toNat) := by
  obtain ⟨t, r, b'⟩ := i
  cases r with
  | readRequest m =>
    obtain ⟨data, -, he⟩ := Option.map_eq_some_iff.mp h
    obtain ⟨rfl, -⟩ := Prod.mk.inj he
    rfl
  | writeRequest m data =>
    obtain ⟨e, hw, he⟩ := Option.map_eq_some_iff.mp h
    obtain ⟨rfl, -⟩ := Prod.mk.inj he
    unfold OnDisk.writeSector at hw
    split at hw
    · next hm =>
      obtain rfl := Option.some.inj hw
      unfold written
      dsimp only
      by_cases hmn : m = n
      · rw [if_pos hmn, hmn, Function.update_self]
        rfl
      · rw [if_neg hmn, Function.update_of_ne (by omega)]
        rfl
    · cases hw

theorem after_sector {d₀ : OnDisk.Disk} {n : ℤ} (hn : 0 ≤ n) (l : List (Issue τ DiskRequest (ℕ → Byte))) :
    ∀ d, after DiskRequest.transfer d₀ l = some d → d n.toNat = lastWritten d₀ n l := by
  induction l using List.reverseRecOn with
  | nil =>
    intro d h
    obtain rfl := Option.some.inj h
    rfl
  | append_singleton l i ih =>
    intro d h
    rw [after_concat, Option.bind_eq_some_iff] at h
    obtain ⟨d', hd', h⟩ := h
    obtain ⟨x, hx, rfl⟩ := Option.map_eq_some_iff.mp h
    calc x.1 n.toNat
        = (written n i).getD (d' n.toNat) := transfer_sector (b := x.2) hx hn
      _ = (written n i).getD (lastWritten d₀ n l) := by rw [ih d' hd']
      _ = lastWritten d₀ n (l ++ [i]) := (lastWritten_concat d₀ n l i).symm

theorem read_result {d₀ : OnDisk.Disk} {s : SynchDisk τ} (h : s.Log DiskRequest.transfer d₀)
    {l l' : List (Issue τ DiskRequest (ℕ → Byte))} {i : Issue τ DiskRequest (ℕ → Byte)} {n : ℤ}
    (hl : s.issued = l ++ i :: l') (hi : i.request = .readRequest n) : i.result = lastWritten d₀ n l := by
  obtain ⟨d, d', hd, ht⟩ := h.result l i l' hl
  rw [hi] at ht
  obtain ⟨data, hr, he⟩ := Option.map_eq_some_iff.mp ht
  unfold OnDisk.readSector at hr
  split at hr
  · next hn =>
    calc i.result
        = data := (Prod.mk.inj he).2.symm
      _ = d n.toNat := (Option.some.inj hr).symm
      _ = lastWritten d₀ n l := after_sector hn.1 l d hd
  · cases hr

end SynchDisk

/-! ### The display -/

/-- `ConsoleOutput::PutChar` between its assertion and `putBusy = TRUE`; the contents are
the characters on the display. -/
def putChar (display : List Byte) (ch : Byte) : Option (List Byte × Unit) := some (display ++ [ch], ())

/-- `SynchConsoleOutput`, with the calls of `PutChar`. -/
abbrev SynchConsoleOutput (τ : Type*) := Driver τ Byte Unit (List Byte)

theorem after_putChar {τ : Type*} (d₀ : List Byte) (l : List (Issue τ Byte Unit)) :
    after putChar d₀ l = some (d₀ ++ l.map Issue.request) := by
  induction l using List.reverseRecOn with
  | nil => rw [List.map_nil, List.append_nil]; rfl
  | append_singleton l i ih =>
    rw [after_concat, ih, List.map_append, ← List.append_assoc]
    rfl

/-- Any number of threads use the disk or the display, and the interrupts come at any time. A
request never finds the device busy, so that its thread goes on, and each call returns after the
interrupt of its own request. `ReadSector` gives what the last `WriteSector` before it wrote to the sector, and the
characters are on the display in the order in which their calls got the lock. -/
theorem drivers_one_request {τ : Type*} [DecidableEq τ] :
    (∀ (d₀ : OnDisk.Disk) (es : List (Event τ DiskRequest)) (s : SynchDisk τ),
      exec (step DiskRequest.transfer) (init d₀) es = some s →
      s.OneRequest ∧ s.GoesOn DiskRequest.transfer ∧ ∀ l i l' n, s.issued = l ++ i :: l' → i.request = .readRequest n →
        i.result = SynchDisk.lastWritten d₀ n l) ∧
    ∀ (d₀ : List Byte) (es : List (Event τ Byte)) (s : SynchConsoleOutput τ),
      exec (step putChar) (init d₀) es = some s →
      s.OneRequest ∧ s.GoesOn putChar ∧ s.contents = d₀ ++ s.issued.map Issue.request := by
  refine ⟨fun d₀ es s hs => ?_, fun d₀ es s hs => ?_⟩
  · have h := inv_exec hs
    exact ⟨h.oneRequest, h.oneRequest.goesOn, fun l i l' n hl hi => SynchDisk.read_result h.log hl hi⟩
  · have h := inv_exec hs
    refine ⟨h.oneRequest, h.oneRequest.goesOn, ?_⟩
    have hc := h.log.contents
    rw [after_putChar] at hc
    exact (Option.some.inj hc).symm

/-- One thread makes a request while another waits for the lock with its own. The first interrupt
wakes its thread, and the second one comes before the `P`. -/
def twoCalls {ρ : Type*} (r r' : ρ) : List (Event Bool ρ) :=
  [.call false r, .call true r', .run false, .run true,
    .run false, .run false, .run false, .run false, .run false, .interrupt 0, .run false, .run false, .run false,
    .run true, .run true, .run true, .run true, .run true, .interrupt 1, .run true, .run true, .run true]

/-- Sector 3 is written and then read, and two characters are put on the display. -/
theorem drivers_one_request_twoCalls :
    (∃ s : SynchDisk Bool, exec (step DiskRequest.transfer) (init fun _ _ => 0)
        (twoCalls (.writeRequest 3 fun _ => 7) (.readRequest 3)) = some s ∧
      s.returned.map (fun x => (x.1, x.2.thread, x.2.result 0)) = [(0, false, 7), (1, true, 7)] ∧ s.OneRequest) ∧
    ∃ s : SynchConsoleOutput Bool, exec (step putChar) (init []) (twoCalls 72 105) = some s ∧
      s.returned.map (fun x => (x.1, x.2.thread)) = [(0, false), (1, true)] ∧ s.OneRequest ∧
      s.contents = [] ++ s.issued.map Issue.request ∧ s.contents = [72, 105] := by
  have hdisk : (exec (step DiskRequest.transfer) (init fun _ _ => 0)
      (twoCalls (.writeRequest 3 fun _ => 7) (.readRequest 3))).map
      (fun s => s.returned.map fun x => (x.1, x.2.thread, x.2.result 0)) = some [(0, false, 7), (1, true, 7)] := by
    decide +kernel
  have hdisplay : (exec (step putChar) (init []) (twoCalls 72 105)).map
      (fun s => (s.returned.map fun x => (x.1, x.2.thread), s.contents)) =
        some ([(0, false), (1, true)], [72, 105]) := by
    decide +kernel
  obtain ⟨s, hs, hr⟩ := Option.map_eq_some_iff.mp hdisk
  obtain ⟨u, hu, hput⟩ := Option.map_eq_some_iff.mp hdisplay
  have hone := drivers_one_request.2 _ (twoCalls 72 105) u hu
  exact ⟨⟨s, hs, hr, (drivers_one_request.1 _ _ s hs).1⟩, u, hu, congrArg Prod.fst hput, hone.1, hone.2.2,
    congrArg Prod.snd hput⟩

end Nachos
