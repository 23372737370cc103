/-
# Join returns the exit code

The steps of processes that join each of their children once and exit after
that keep a family a family (`family_step`). So no PCB is used after its
deletion and each join returns the code of its child
(`join_returns_exit_code`). No join can hang either: while nobody makes a new
call the processes take a bounded number of steps (`work_run`), and where they
stop, every join of a child that called `Exit` has returned.
-/
import NachosNet.Basis.Queues
import NachosNet.Threads.Family

namespace Nachos

open Basis

namespace PTable

variable {n : ℕ} [NeZero n] {s s' : PTable n} {t : Fin n} {k : Pc n}

omit [NeZero n] in
theorem SameCalls.of_eq {u : Fin n} (hc : s'.called = s.called) (hr : s'.returned = s.returned) :
    SameCalls s s' u :=
  ⟨fun _ => by rw [hc], fun _ => by rw [hc], fun _ _ => by rw [hr]⟩

omit [NeZero n] in
theorem Same.of_eq (hs : s'.slot = s.slot) (hp : s'.pcb = s.pcb) (hc : s'.called = s.called)
    (hr : s'.returned = s.returned) (hst : s'.status = s.status) : Same s s' t :=
  ⟨fun _ => by rw [hs], fun _ => by rw [hp], fun _ => by rw [hp], fun _ _ => .of_eq hc hr, hst⟩

/-! ### The two semaphores -/

theorem hands_joinWait (h : Family s) {c : Fin n} (hpc : s.pc t = .join c .wait)
    (hv : (s.sync.sem (.joinsem c)).value ≠ 0) :
    Hands ((s.goto t (s.pc t).passed).setSync (s.sync.P t (.joinsem c)).1) := by
  have hval := Sleepers.value_P (t := t) hv
  have hE : ∀ d, (((s.goto t (s.pc t).passed).setSync (s.sync.P t (.joinsem c)).1).pc d).exitStage =
      (s.pc d).exitStage :=
    fun d => exitStage_congr (t := t) (k := (s.pc t).passed) rfl (by simp [hpc, Pc.passed, Pc.exitStage])
  refine h.hands.of_one c (fun _ => Iff.rfl) (fun _ => rfl) (fun p d hd => ?_) (fun d _ => hE d) (fun d hd => ?_)
    (fun d _ => ?_) fun p hp hh => ?_
  · have hdc : ((c : ℕ) : ℤ) ≠ (d : ℕ) := fun he => hd (Fin.ext (by omega))
    refine joinStage_other (t := t) (k := (s.pc t).passed) ?_ ?_ ?_ ?_
    · rfl
    · exact fun _ _ => Iff.rfl
    · simp [hpc, Pc.joining, hdc]
    · simp [hpc, Pc.passed, Pc.joining, hdc]
  · simp [setSync, hval, hd]
  · simp [setSync, hval]
  · obtain rfl := h.parent_of_joining (t := t) (c := c) (by simp [hpc, Pc.joining]) hp
    have hJ : s.joinStage t c = 1 := by simp [joinStage, hpc, Pc.joining, Pc.passedJoin]
    rw [hJ] at hh
    rw [hE]
    simpa [joinStage, hpc, goto, setSync, Pc.passed, Pc.joining, Pc.passedJoin, hval] using hh.joinWait hv

omit [NeZero n] in
theorem hands_exitWait (h : Hands s) {v : ℤ} (hpc : s.pc t = .exit v .wait)
    (hv : (s.sync.sem (.exitsem t)).value ≠ 0) :
    Hands ((s.goto t (s.pc t).passed).setSync (s.sync.P t (.exitsem t)).1) := by
  have hval := Sleepers.value_P (t := t) hv
  have hJ : ∀ p d, joinStage ((s.goto t (s.pc t).passed).setSync (s.sync.P t (.exitsem t)).1) p d =
      s.joinStage p d :=
    joinStage_congr (t := t) (k := (s.pc t).passed) rfl (fun _ _ => Iff.rfl) (by simp [hpc, Pc.passed, Pc.joining])
      (by simp [hpc, Pc.passed, Pc.passedJoin])
  refine h.of_one t (fun _ => Iff.rfl) (fun _ => rfl) (fun p d _ => hJ p d) (fun d hd => ?_) (fun d _ => ?_)
    (fun d hd => ?_) fun p hp hh => ?_
  · simp [goto, setSync, hd]
  · simp [setSync, hval]
  · simp [setSync, hval, hd]
  · rw [hJ]
    simp only [hpc, Pc.exitStage] at hh
    simpa [goto, setSync, hpc, Pc.passed, Pc.exitStage, hval] using hh.exitWait hv

omit [NeZero n] in
theorem hands_joinRelease (h : Hands s) {v : ℤ} (hpc : s.pc t = .exit v .release) :
    Hands ((s.atV (.joinsem t)).goto t (s.pc t).signalled) := by
  have hval := Sleepers.value_V (s := s.sync) (l := .joinsem t)
  have hJ : ∀ p d, ((s.atV (.joinsem t)).goto t (s.pc t).signalled).joinStage p d = s.joinStage p d :=
    joinStage_congr (t := t) (k := (s.pc t).signalled) rfl (fun _ _ => Iff.rfl)
      (by simp [hpc, Pc.signalled, Pc.joining]) (by simp [hpc, Pc.signalled, Pc.passedJoin])
  refine h.of_one t (fun _ => Iff.rfl) (fun _ => rfl) (fun p d _ => hJ p d) (fun d hd => ?_) (fun d hd => ?_)
    (fun d _ => ?_) fun p hp hh => ?_
  · simp [goto, atV, setSync, hd]
  · simp [goto, atV, setSync, hval, hd]
  · simp [goto, atV, setSync, hval]
  · rw [hJ]
    simp only [hpc, Pc.exitStage] at hh
    simpa [goto, atV, setSync, hpc, Pc.signalled, Pc.exitStage, hval] using hh.joinRelease

theorem hands_exitRelease (h : Family s) {c : Fin n} {v : ℤ} (hpc : s.pc t = .join c (.release v)) :
    Hands ((s.atV (.exitsem c)).ret t (.join c) v) := by
  have hval := Sleepers.value_V (s := s.sync) (l := .exitsem c)
  have hE : ∀ d, (((s.atV (.exitsem c)).ret t (.join c) v).pc d).exitStage = (s.pc d).exitStage :=
    fun d => exitStage_congr (t := t) (k := .user) rfl (by simp [hpc, Pc.exitStage])
  refine h.hands.of_one c (fun _ => Iff.rfl) (fun _ => rfl) (fun p d hd => ?_) (fun d _ => hE d) (fun d hd => ?_)
    (fun d hd => ?_) fun p hp hh => ?_
  · have hdc : ((c : ℕ) : ℤ) ≠ (d : ℕ) := fun he => hd (Fin.ext (by omega))
    refine joinStage_other (t := t) (k := .user) ?_ ?_ ?_ ?_
    · rfl
    · exact fun _ _ => Iff.rfl
    · simp [hpc, Pc.joining, hdc]
    · simp [Pc.joining]
  · simp [ret, goto, atV, setSync, hval]
  · simp [ret, goto, atV, setSync, hval, hd]
  · obtain rfl := h.parent_of_joining (t := t) (c := c) (by simp [hpc, Pc.joining]) hp
    have hcalled := (h.places t).joining c (by simp [hpc, Pc.joining])
    have hJ : s.joinStage t c = 2 := by simp [joinStage, hpc, Pc.joining, Pc.passedJoin]
    rw [hJ] at hh
    rw [hE]
    simpa [joinStage, ret, goto, atV, setSync, Pc.joining, hcalled, hval] using hh.exitRelease

/-! ### The steps -/

theorem family_sleep (h : Family s) {l : Loc n} (hw : (s.pc t).waits t = some l) (ha : s.sync.asleep t = false)
    (hv : (s.sync.sem l).value = 0) : Family (s.setSync (s.sync.P t l).1) := by
  have hval := Sleepers.value_sleep (t := t) hv
  have hupd : (s.setSync (s.sync.P t l).1).pc = Function.update s.pc t (s.pc t) :=
    (Function.update_eq_self t s.pc).symm
  have hs : Same s (s.setSync (s.sync.P t l).1) t := .of_eq rfl rfl rfl rfl rfl
  have hc : SameCalls s (s.setSync (s.sync.P t l).1) t := .of_eq rfl rfl
  exact h.move hs hupd (fun _ hm => .inl hm) (hs.at_congr (h.places t) hc)
    (h.hands.quiet hs hc hupd rfl rfl rfl (fun _ => hval _) fun _ => hval _) (h.syncs.sleep hw ha hv)

theorem family_pass (h : Family s) {l : Loc n} (hw : (s.pc t).waits t = some l) (ha : s.sync.asleep t = false)
    (hv : (s.sync.sem l).value ≠ 0) : Family ((s.goto t (s.pc t).passed).setSync (s.sync.P t l).1) := by
  refine h.keeps (.of_eq rfl rfl rfl rfl rfl) (.of_eq rfl rfl) rfl (Pc.keeps_passed hw) ?_ (h.syncs.pass hw ha hv)
  have hval := Sleepers.value_P (t := t) hv
  by_cases hj : ∃ c, l = .joinsem c
  · obtain ⟨c, rfl⟩ := hj
    exact hands_joinWait h (Pc.eq_of_waits_joinsem hw) hv
  by_cases he : ∃ c, l = .exitsem c
  · obtain ⟨c, rfl⟩ := he
    obtain ⟨rfl, v, hpc⟩ := Pc.eq_of_waits_exitsem hw
    exact hands_exitWait h.hands hpc hv
  have hj' : ∀ c, l ≠ .joinsem c := fun c hc => hj ⟨c, hc⟩
  have he' : ∀ c, l ≠ .exitsem c := fun c hc => he ⟨c, hc⟩
  have hq := Pc.quiet_passed hw hj' he'
  refine h.hands.quiet (.of_eq rfl rfl rfl rfl rfl) (.of_eq rfl rfl) rfl hq.joining hq.passedJoin hq.exitStage
    (fun c => ?_) fun c => ?_
  · simp [setSync, hval, Ne.symm (hj' c)]
  · simp [setSync, hval, Ne.symm (he' c)]

theorem family_signal (h : Family s) {l : Loc n} (hs : (s.pc t).signals t = some l) :
    Family ((s.atV l).goto t (s.pc t).signalled) := by
  refine h.keeps (.of_eq rfl rfl rfl rfl rfl) (.of_eq rfl rfl) rfl (Pc.keeps_signalled hs) ?_ (h.syncs.signalled hs)
  have hval := Sleepers.value_V (s := s.sync) (l := l)
  by_cases hj : ∃ c, l = .joinsem c
  · obtain ⟨c, rfl⟩ := hj
    obtain ⟨rfl, v, hpc⟩ := Pc.eq_of_signals_joinsem hs
    exact hands_joinRelease h.hands hpc
  have hj' : ∀ c, l ≠ .joinsem c := fun c hc => hj ⟨c, hc⟩
  have hq := Pc.quiet_signalled hs hj'
  refine h.hands.quiet (.of_eq rfl rfl rfl rfl rfl) (.of_eq rfl rfl) rfl hq.joining hq.passedJoin hq.exitStage
    (fun c => ?_) fun c => ?_
  · simp [goto, atV, setSync, hval, Ne.symm (hj' c)]
  · simp [goto, atV, setSync, hval, Ne.symm (Pc.signals_ne_exitsem (i := c) hs)]

theorem family_count (h : Family s) {i : Fin n} {v : ℤ} (hc : (s.pc t).counts t = some (i, k)) :
    Family ((s.setPCB i { s.pcb i with numwait := v }).goto t k) := by
  obtain ⟨hw, hk⟩ := Pc.holds_counts hc
  refine h.quiet ⟨fun _ => Iff.rfl, fun c => ?_, fun c => ?_, fun _ _ => .of_eq rfl rfl, rfl⟩ (.of_eq rfl rfl) rfl
    (Pc.quiet_counts hc) (fun _ => rfl) (fun _ => rfl) (h.syncs.move hw hk)
  all_goals
    by_cases hci : c = i
    · subst hci
      simp [goto, setPCB]
    · simp [goto, setPCB, hci]

theorem family_goto (h : Family s) (hq : (s.pc t).Quiet k) (hw : (s.pc t).waits t = none)
    (hk : k.holds t = (s.pc t).holds t) : Family (s.goto t k) :=
  h.quiet (.of_eq rfl rfl rfl rfl rfl) (.of_eq rfl rfl) rfl hq (fun _ => rfl) (fun _ => rfl) (h.syncs.move hw hk)

theorem family_execReturn (h : Family s) {name : Option FileName} {v : ℤ} (hpc : s.pc t = .execDone name v) :
    Family ((s.atV .bmsem).ret t (.exec name) v) := by
  have hval := Sleepers.value_V (s := s.sync) (l := .bmsem)
  have hcalls : ∀ u, SameCalls s ((s.atV .bmsem).ret t (.exec name) v) u := fun u =>
    ⟨fun _ => Iff.rfl, fun _ => Iff.rfl, fun _ _ => by simp [ret, atV, setSync]⟩
  refine h.quiet (t := t) (k := .user) ⟨fun _ => Iff.rfl, fun _ => rfl, fun _ => rfl, fun u _ => hcalls u, rfl⟩ (hcalls t)
    rfl ?_ (fun _ => ?_) (fun _ => ?_)
    ((h.syncs.move (by simp [hpc, Pc.waits]) (by simp [hpc, Pc.holds])).signal (by simp))
  · rw [hpc]
    exact ⟨⟨fun _ he => (by cases he), rfl, rfl, rfl, fun _ => rfl, fun he => he, fun _ he => he⟩, rfl, rfl⟩
  all_goals simp [ret, goto, atV, setSync, hval]

theorem family_joinFound (h : Family s) {id : ℤ} {c : Fin n} (hpc : s.pc t = .joinCheck id)
    (hid : slotOf n id = some c) : Family (s.goto t (.join c .incP)) := by
  obtain ⟨d, rfl, -⟩ := h.called t id ((h.places t).joining id (by rw [hpc]; rfl))
  obtain rfl : d = c := by simpa [slotOf_cast] using hid
  refine family_goto h ?_ (by simp [hpc, Pc.waits]) (by simp [hpc, Pc.holds])
  rw [hpc]
  exact ⟨⟨fun _ he => he, rfl, rfl, rfl, fun _ => rfl, fun he => he, fun _ he => he⟩, rfl, rfl⟩

theorem family_read (h : Family s) {c : Fin n} (hpc : s.pc t = .join c .read) :
    Family (s.goto t (.join c (.release (s.pcb c).exitcode))) := by
  have hat := h.places t
  rw [hpc] at hat
  refine h.move (t := t) (k := .join c (.release (s.pcb c).exitcode)) (.of_eq rfl rfl rfl rfl rfl) rfl
    (fun _ hm => .inl hm) ⟨?_, hat.joining, ?_, ?_, hat.called, ?_, fun d v hd => ?_, hat.returned⟩ ?_
    (h.syncs.move (by simp [hpc, Pc.waits]) (by simp [hpc, Pc.holds]))
  · simp [Pc.made]
  · simp [Pc.exits]
  · simp [Pc.decs]
  · simp [Pc.exitStage]
  · simp only [Pc.got, Option.some.injEq, Prod.mk.injEq] at hd
    rw [← hd.2, hd.1]
    rfl
  · exact h.hands.quiet (.of_eq rfl rfl rfl rfl rfl) (.of_eq rfl rfl) rfl (by simp [hpc, Pc.joining])
      (by simp [hpc, Pc.passedJoin]) (by simp [hpc, Pc.exitStage]) (fun _ => rfl) fun _ => rfl

theorem family_release (h : Family s) {c : Fin n} {v : ℤ} (hpc : s.pc t = .join c (.release v)) :
    Family ((s.atV (.exitsem c)).ret t (.join c) v) := by
  have hat := h.places t
  rw [hpc] at hat
  have hret : ∀ u (id w : ℤ), (u, Call.join id, w) ∈ ((s.atV (.exitsem c)).ret t (.join c) v).returned ↔
      (u, .join id, w) ∈ s.returned ∨ u = t ∧ id = c ∧ w = v := by
    simp [ret, atV, setSync]
  refine h.move (t := t) (k := .user) ⟨fun _ => Iff.rfl, fun _ => rfl, fun _ => rfl, fun u hu => ?_, rfl⟩ rfl
    (fun _ hm => .inl hm) ⟨?_, ?_, ?_, ?_, hat.called, ?_, ?_, fun id w => ?_⟩ (hands_exitRelease h hpc)
    ((h.syncs.move (t := t) (by simp [hpc, Pc.waits]) (by simp [hpc, Pc.holds])).signal (by simp))
  · exact ⟨fun _ => Iff.rfl, fun _ => Iff.rfl, fun id w => by simp [hret, hu]⟩
  · simp [Pc.made]
  · simp [Pc.joining]
  · simp [Pc.exits]
  · simp [Pc.decs]
  · simp [Pc.exitStage]
  · simp [Pc.got]
  · rw [hret, hat.returned]
    by_cases hid : id = c
    · subst hid
      -- this join was still on its way
      have hcalled := hat.joining c rfl
      have hv := hat.got c v rfl
      simp only [Pc.joining, ne_eq, not_true, false_and, and_false, true_and, false_or]
      refine ⟨fun hw => ⟨hcalled, by simp, c, rfl, hw.trans hv⟩, ?_⟩
      rintro ⟨-, -, d, hd, hw⟩
      obtain rfl : c = d := Fin.ext (by omega)
      exact hw.trans hv.symm
    · simp [hid, Pc.joining, Ne.symm hid, ret, atV, goto, setSync]

theorem family_remove (h : Family s) {v : ℤ} (hpc : s.pc t = .exit v .remove) (hlive : s.slot t = .live) :
    Family ({ s with slot := Function.update s.slot t .freed }.goto t .finished) := by
  have hat := h.places t
  rw [hpc] at hat
  have hcode : some v = some (s.pcb t).exitcode := hat.set (by simp [Pc.exitStage])
  have hs : Same s ({ s with slot := Function.update s.slot t .freed }.goto t .finished) t := by
    refine ⟨fun c => ?_, fun _ => rfl, fun _ => rfl, fun _ _ => .of_eq rfl rfl, rfl⟩
    by_cases hc : c = t
    · subst hc
      simp [goto, hlive]
    · simp [goto, hc]
  refine h.move hs rfl (fun _ hm => .inl hm) ⟨?_, ?_, fun _ => ?_, ?_, fun w => ?_, fun _ => rfl, ?_, hat.returned⟩ ?_
    (h.syncs.move (by simp [hpc, Pc.waits]) (by simp [hpc, Pc.holds]))
  · simp [Pc.made]
  · simp [Pc.joining]
  · refine ⟨(hat.exits rfl).1, fun c hc => (hat.exits rfl).2 c ((hs.child t c).mp hc)⟩
  · simp [Pc.decs]
  · exact (hat.called w).trans (by rw [Pc.exitValue, Pc.exitValue, hcode]; rfl)
  · simp [Pc.got]
  · exact h.hands.quiet hs (.of_eq rfl rfl) rfl (by simp [hpc, Pc.joining]) (by simp [hpc, Pc.passedJoin])
      (by simp [hpc, Pc.exitStage]) (fun _ => rfl) fun _ => rfl

theorem Family.joinStage_lt (h : Family s) {p : Fin n} (hc : s.IsChild p t) (hE : (s.pc t).exitStage < 2) :
    s.joinStage p t < 2 := by
  by_contra hJ
  have := (h.hands p t hc).exited (by omega)
  omega

/-- `SetExitCode`: no join has read the field before. -/
theorem family_set (h : Family s) {v : ℤ} {q : Fin n} (hpc : s.pc t = .exit v .set)
    (hp : (s.pcb t).parentID = some q) :
    Family ((s.setPCB t { s.pcb t with exitcode := v }).goto t (.exit v (.decP q))) := by
  have hat := h.places t
  rw [hpc] at hat
  have hpcb : ∀ c, ((s.setPCB t { s.pcb t with exitcode := v }).goto t (.exit v (.decP q))).pcb c =
      if c = t then { s.pcb t with exitcode := v } else s.pcb c := fun c => by
    simp [goto, setPCB, Function.update_apply]
  have hpar : ∀ c, (((s.setPCB t { s.pcb t with exitcode := v }).goto t (.exit v (.decP q))).pcb c).parentID =
      (s.pcb c).parentID := fun c => by
    rw [hpcb]
    split
    · subst c
      rfl
    · rfl
  have hchild : ∀ p c, ((s.setPCB t { s.pcb t with exitcode := v }).goto t (.exit v (.decP q))).IsChild p c ↔
      s.IsChild p c := fun p c => and_congr Iff.rfl (by rw [hpar])
  have hne : ∀ c, c ≠ t → (((s.setPCB t { s.pcb t with exitcode := v }).goto t (.exit v (.decP q))).pcb c).exitcode =
      (s.pcb c).exitcode := fun c hc => by rw [hpcb, if_neg hc]
  have hunread : ∀ u c : Fin n, (u, .join c) ∈ s.called →
      ((s.pc u).joining = some (c : ℤ) → (s.pc u).passedJoin = true) → c ≠ t := by
    rintro u c hm hj rfl
    obtain ⟨d, hd, hc⟩ := h.called u c hm
    obtain rfl : c = d := Fin.ext (by omega)
    have hlt := h.joinStage_lt hc (by simp [hpc, Pc.exitStage])
    unfold joinStage at hlt
    split at hlt
    · simp [hj ‹_›] at hlt
    · omega
  refine ⟨fun c hc h0 => ?_, fun u id hm => ?_, At.update rfl (fun u hu => ?_) ⟨?_, ?_,
    fun _ => ⟨(hat.exits rfl).1, fun c hc => (hat.exits rfl).2 c ((hchild t c).mp hc)⟩, fun r hr => ?_, fun w => ?_,
    fun _ => ?_, ?_, fun id w => ?_⟩, ?_, h.syncs.move (by simp [hpc, Pc.waits]) (by simp [hpc, Pc.holds]),
    h.status⟩
  · rw [hpar]
    exact h.parent c hc h0
  · obtain ⟨c, hid, hc⟩ := h.called u id hm
    exact ⟨c, hid, (hchild u c).mpr hc⟩
  · exact (h.places u).congr (.of_eq rfl rfl) (hchild u) (fun _ _ => hpar u)
      (hne u hu) fun c hm hj => hne c (hunread u c hm hj)
  · simp [Pc.made]
  · simp [Pc.joining]
  · rw [hpar, hp]
    exact hr
  · exact hat.called w
  · simp [Pc.exitValue, hpcb]
  · simp [Pc.got]
  · refine (hat.returned id w).trans (and_congr_right fun hm => and_congr_right fun hj => exists_congr fun c =>
      and_congr_right fun hid => ?_)
    rw [hne c (hunread t c (hid ▸ hm) (by simp [hpc, Pc.joining]))]
  · have hJ : ∀ p d, ((s.setPCB t { s.pcb t with exitcode := v }).goto t (.exit v (.decP q))).joinStage p d =
        s.joinStage p d :=
      joinStage_congr (t := t) (k := .exit v (.decP q)) rfl (fun _ _ => Iff.rfl) (by simp [hpc, Pc.joining])
        (by simp [hpc, Pc.passedJoin])
    refine h.hands.of_one t (fun _ => Iff.rfl) hpar (fun p d _ => hJ p d) (fun d hd => ?_) (fun _ _ => rfl)
      (fun _ _ => rfl) fun p _ hh => ?_
    · simp [goto, setPCB, hd]
    · rw [hJ]
      simp only [hpc, Pc.exitStage] at hh
      simpa [goto, setPCB, Pc.exitStage] using hh.setCode

/-- `Join` is called on a child for the first time. -/
theorem family_callJoin (h : Family s) (hpc : s.pc t = .user) {c : Fin n} (hc : s.IsChild t c)
    (hnew : (t, .join c) ∉ s.called) :
    Family { s.goto t (.joinCheck c) with called := s.called ++ [(t, .join c)] } := by
  have hat := h.places t
  rw [hpc] at hat
  refine h.move (t := t) (k := .joinCheck c) ⟨fun _ => Iff.rfl, fun _ => rfl, fun _ => rfl, fun u hu => ?_, rfl⟩ rfl
    (fun id hm => ?_) ⟨?_, fun id hid => ?_, ?_, ?_, fun w => ?_, ?_, ?_, fun id w => ?_⟩ ?_
    (h.syncs.move (by simp [hpc, Pc.waits]) (by simp [hpc, Pc.holds]))
  · exact ⟨fun _ => by simp [hu], fun _ => by simp, fun _ _ => Iff.rfl⟩
  · rcases List.mem_append.mp hm with hm | hm
    · exact .inl hm
    · exact .inr ⟨c, by simpa using hm, hc⟩
  · simp [Pc.made]
  · simp only [Pc.joining, Option.some.injEq] at hid
    simp [← hid]
  · simp [Pc.exits]
  · simp [Pc.decs]
  · simpa [Pc.exitValue] using hat.called w
  · simp [Pc.exitStage]
  · simp [Pc.got]
  · refine (hat.returned id w).trans ?_
    by_cases hid : id = c
    · subst hid
      simp [hnew, Pc.joining]
    · simp [hid, Ne.symm hid, Pc.joining, goto]
  · have hE : ∀ d, ((s.goto t (.joinCheck c)).pc d).exitStage = (s.pc d).exitStage :=
      fun d => exitStage_congr (t := t) (k := .joinCheck c) rfl (by simp [hpc, Pc.exitStage])
    refine h.hands.of_one c (fun _ => Iff.rfl) (fun _ => rfl) (fun p d hd => ?_) (fun d _ => hE d) (fun _ _ => rfl)
      (fun _ _ => rfl) fun p hp hh => ?_
    · have hdc : ((c : ℕ) : ℤ) ≠ (d : ℕ) := fun he => hd (Fin.ext (by omega))
      by_cases hpt : p = t
      · subst hpt
        simp [joinStage, hpc, Pc.joining, hdc, Ne.symm hdc, goto]
      · simp [joinStage, hpt, goto]
    · obtain rfl : p = t := Option.some.inj (hp.2.symm.trans hc.2)
      have hJ : s.joinStage p c = 0 := by simp [joinStage, hpc, Pc.joining, hnew]
      rw [hJ] at hh
      show Hand _ ((s.goto p (.joinCheck c)).pc c).exitStage _ _
      rw [hE]
      simpa [joinStage, goto, Pc.joining, Pc.passedJoin] using hh.join

/-- `Exit` is called by a process that has joined its children. -/
theorem family_callExit (h : Family s) (hpc : s.pc t = .user) (v : ℤ) (h0 : t ≠ 0)
    (hall : ∀ c, s.IsChild t c → (t, .join c) ∈ s.called) :
    Family { s.goto t (.exit v .set) with called := s.called ++ [(t, .exit v)] } := by
  have hat := h.places t
  rw [hpc] at hat
  have hcalled : ∀ (u : Fin n) (id : ℤ), (u, .join id) ∈ s.called ++ [(t, .exit v)] ↔ (u, .join id) ∈ s.called := by
    simp
  refine h.move (t := t) (k := .exit v .set) ⟨fun _ => Iff.rfl, fun _ => rfl, fun _ => rfl, fun u hu => ?_, rfl⟩ rfl
    (fun id hm => .inl ((hcalled t id).mp hm)) ⟨?_, ?_, fun _ => ⟨h0, fun c hc => ?_⟩, ?_, fun w => ?_, ?_, ?_,
      fun id w => ?_⟩ (fun p c hc => ?_) (h.syncs.move (by simp [hpc, Pc.waits]) (by simp [hpc, Pc.holds]))
  · exact ⟨hcalled u, fun _ => by simp [hu], fun _ _ => Iff.rfl⟩
  · simp [Pc.made]
  · simp [Pc.joining]
  · exact (hcalled t c).mpr (hall c hc)
  · simp [Pc.decs]
  · have hno : (t, .exit w) ∉ s.called := fun hm => by simpa [Pc.exitValue] using (hat.called w).mp hm
    simp [Pc.exitValue, hno, eq_comm]
  · simp [Pc.exitStage]
  · simp [Pc.got]
  · refine (hat.returned id w).trans ?_
    rw [hcalled]
    exact Iff.rfl
  · rw [joinStage_congr (s := s) (t := t) (k := .exit v .set) rfl hcalled (by simp [hpc, Pc.joining])
      (by simp [hpc, Pc.passedJoin]), exitStage_congr (s := s) (t := t) (k := .exit v .set) rfl
      (by simp [hpc, Pc.exitStage])]
    exact h.hands p c hc

/-- `new PCB` in `ExecUpdate`. -/
theorem family_new (h : Family s) (hi : Inv s) {name : FileName} {i : Fin n} (hpc : s.pc t = .exec name (.new i)) :
    Family ((s.newPCB i t).goto t (.exec name (.fork i))) := by
  have hat := h.places t
  rw [hpc] at hat
  have hnull : s.slot i = .null := hi.chosen t i (by simp [hpc, Pc.chosen])
  have hpci := hi.null i hnull
  have htlive := live_self (t := t) hi (by simp [hpc, Pc.active])
  have hti : t ≠ i := fun he => by simp [← he, hpc] at hpci
  have hslot := slot_newPCB s i t (.exec name (.fork i))
  have hpcb := pcb_newPCB s i t (.exec name (.fork i))
  have hchild := isChild_newPCB s i t (.exec name (.fork i))
  have hcode : ∀ c, (((s.newPCB i t).goto t (.exec name (.fork i))).pcb c).exitcode = (s.pcb c).exitcode := fun c => by
    rw [hpcb]
    split
    · subst c
      rfl
    · rfl
  -- the pid has not been used
  have hfresh : ∀ p : Fin n, (p, .join i) ∉ s.called := by
    intro p hm
    obtain ⟨c, hc, hpc⟩ := h.called p i hm
    obtain rfl : i = c := Fin.ext (by omega)
    exact hpc.1 hnull
  have hold : ∀ p c, s.IsChild p c → c ≠ i := fun p c hc he => hc.1 (he ▸ hnull)
  refine ⟨fun c hc h0 => ?_, fun u id hm => ?_, At.update rfl (fun u hu => ?_) ⟨fun j hj => ?_, ?_, ?_, ?_, hat.called, ?_,
    ?_, fun id w => ?_⟩, fun p c hc => ?_, ?_, h.status⟩
  · simp only [hslot, hpcb] at hc ⊢
    by_cases hci : c = i
    · exact ⟨t, by simp [hci], by simp [hti, htlive]⟩
    · rw [if_neg hci] at hc
      obtain ⟨p, hp, hps⟩ := h.parent c hc h0
      refine ⟨p, by simp [hci, hp], ?_⟩
      split
      · simp
      · exact hps
  · obtain ⟨c, hid, hc⟩ := h.called u id hm
    exact ⟨c, hid, (hchild u c).mpr (.inr ⟨hold u c hc, hc⟩)⟩
  · refine (h.places u).congr (.of_eq rfl rfl) (fun c => ?_) (fun q hq => ?_)
      (hcode u) fun c _ _ => hcode c
    · rw [hchild]
      refine ⟨fun hc => ?_, fun hc => .inr ⟨hold u c hc, hc⟩⟩
      rcases hc with ⟨-, he⟩ | ⟨-, hc⟩
      · exact absurd he hu
      · exact hc
    · have hui : u ≠ i := by
        rintro rfl
        simp [hpci, Pc.decs] at hq
      rw [hpcb, if_neg hui]
  · simp only [Pc.made, Option.some.injEq] at hj
    subst hj
    exact ⟨(hchild t i).mpr (.inl ⟨rfl, rfl⟩), hfresh t⟩
  · simp [Pc.joining]
  · simp [Pc.exits]
  · simp [Pc.decs]
  · simp [Pc.exitStage]
  · simp [Pc.got]
  · refine (hat.returned id w).trans ?_
    simp only [hcode]
    exact Iff.rfl
  · have hJ : ∀ p c, ((s.newPCB i t).goto t (.exec name (.fork i))).joinStage p c = s.joinStage p c :=
      joinStage_congr (t := t) (k := .exec name (.fork i)) rfl (fun _ _ => Iff.rfl) (by simp [hpc, Pc.joining])
        (by simp [hpc, Pc.passedJoin])
    have hE : (((s.newPCB i t).goto t (.exec name (.fork i))).pc c).exitStage = (s.pc c).exitStage :=
      exitStage_congr (t := t) (k := .exec name (.fork i)) rfl (by simp [hpc, Pc.exitStage])
    rw [hJ, hE]
    rcases (hchild p c).mp hc with ⟨rfl, rfl⟩ | ⟨hci, hc⟩
    · have hJ0 : s.joinStage p c = 0 := by simp [joinStage, hpc, Pc.joining, hfresh p]
      rw [hJ0]
      simpa [hpci, Pc.exitStage, goto, newPCB, Sleepers.fresh, Semaphore.mk0] using Hand.start
    · simpa [goto, newPCB, Sleepers.fresh, hci] using h.hands p c hc
  · refine (h.syncs.newPCB fun u hu => ?_).move (by simp [hpc, Pc.waits]) (by simp [hpc, Pc.holds])
    simp [h.live_of_uses hi hu] at hnull

/-- `new Thread` in `PCB::Exec`: the new process starts, and the one that made it goes on. -/
theorem family_thread (h : Family s) (hi : Inv s) {name : FileName} {i : Fin n}
    (hpc : s.pc t = .exec name (.thread i)) :
    Family ((s.newThread i t name).goto t (.exec name (.unlock i))) := by
  obtain ⟨-, hpci⟩ := hi.creating t i (by simp [hpc, Pc.creating])
  have hti : t ≠ i := fun he => by simp [← he, hpc] at hpci
  have hpar := ((h.places t).made i (by simp [hpc, Pc.made])).1.2
  have hpcb : (s.newThread i t name).pcb = s.pcb := by
    funext c
    by_cases hc : c = i
    · subst hc
      simp [newThread, setPCB, goto, ← hpar]
    · simp [newThread, setPCB, goto, hc]
  have h1 : Family (s.newThread i t name) := by
    refine h.quiet (t := i) (k := .user) (.of_eq rfl hpcb rfl rfl rfl)
      (.of_eq rfl rfl) rfl ?_ (fun _ => rfl) (fun _ => rfl)
      (h.syncs.move (by simp [hpci, Pc.waits]) (by simp [hpci, Pc.holds]))
    rw [hpci]
    exact ⟨⟨fun _ he => he, rfl, rfl, rfl, fun _ => rfl, fun he => he, fun _ he => he⟩, rfl, rfl⟩
  have hpct : (s.newThread i t name).pc t = .exec name (.thread i) := by
    simp [newThread, goto, setPCB, hti, hpc]
  refine family_goto h1 ?_ (by simp [hpct, Pc.waits]) (by simp [hpct, Pc.holds])
  rw [hpct]
  exact ⟨⟨fun _ he => he, rfl, rfl, rfl, fun _ => rfl, fun he => he, fun _ he => he⟩, rfl, rfl⟩

theorem family_run (h : Family s) (hi : Inv s) (ha : s.sync.asleep t = false) (hs : Step s t s') : Family s' := by
  cases hs with
  | fault hu hl => exact absurd (h.live_of_uses hi hu) hl
  | orphan hpc hp =>
    have hlive := live_self (t := t) hi (by simp [hpc, Pc.active])
    obtain ⟨p, hq, -⟩ := h.parent t (by simp [hlive]) ((h.places t).exits (by simp [hpc, Pc.exits])).1
    simp [hp] at hq
  | sleep hw hv => exact family_sleep h hw ha hv
  | pass hw hv => exact family_pass h hw ha hv
  | signal hs => exact family_signal h hs
  | count hc => exact family_count h hc
  | execFail hpc | execFound hpc =>
    refine family_goto h ?_ (by simp [hpc, Pc.waits]) (by simp [hpc, Pc.holds])
    rw [hpc]
    exact ⟨⟨fun _ he => (by cases he), rfl, rfl, rfl, fun _ => rfl, fun he => he, fun _ he => he⟩, rfl, rfl⟩
  | new hpc => exact family_new h hi hpc
  | thread hpc => exact family_thread h hi hpc
  | execReturn hpc => exact family_execReturn h hpc
  | joinFail hpc hno =>
    obtain ⟨c, rfl, hc⟩ := h.called t _ ((h.places t).joining _ (by rw [hpc]; rfl))
    have hlive := h.live_of_uses hi (t := t) (i := c) (by simp [hpc, Pc.uses, slotOf_cast])
    exact absurd hc.2 (hno c (slotOf_cast c) hlive)
  | joinFound hpc hid => exact family_joinFound h hpc hid
  | read hpc => exact family_read h hpc
  | release hpc => exact family_release h hpc
  | exitFail hpc hnull => simp [live_self (t := t) hi (by simp [hpc, Pc.active])] at hnull
  | set hpc hp => exact family_set h hpc hp
  | remove hpc => exact family_remove h hpc (live_self hi (by simp [hpc, Pc.active]))

/-- Each process joins each of its children once at most, and calls `Exit`
only when it has joined all of them; `Exit` of process 0 would halt the machine. -/
def JoinEach (s : PTable n) : Event n → Prop
  | .call t (.join id) => (∃ c : Fin n, id = c ∧ s.IsChild t c) ∧ (t, .join id) ∉ s.called
  | .call t (.exit _) => t ≠ 0 ∧ ∀ c, s.IsChild t c → (t, .join c) ∈ s.called
  | _ => True

instance (s : PTable n) : ∀ e, Decidable (JoinEach s e)
  | .call t (.join id) => inferInstanceAs (Decidable ((∃ c : Fin n, id = c ∧ s.IsChild t c) ∧ (t, .join id) ∉ s.called))
  | .call t (.exit _) => inferInstanceAs (Decidable (t ≠ 0 ∧ ∀ c, s.IsChild t c → (t, .join c) ∈ s.called))
  | .call _ (.exec _) | .run _ => isTrue trivial

theorem family_init (unset : Fin n → PCB n) (name : FileName) : Family (init unset name) := by
  have hpc := pc_init unset name
  have hchild : ∀ p c, ¬ (init unset name).IsChild p c := by
    rintro p c ⟨hs, hp⟩
    by_cases hc : c = 0
    · subst hc
      simp [init] at hp
    · simp [init, hc] at hs
  have hat : ∀ (u : Fin n) (a : Pc n), a = .user ∨ a = .none → At (init unset name) u a := by
    rintro u a (rfl | rfl)
    all_goals
      refine ⟨?_, ?_, ?_, ?_, ?_, ?_, ?_, ?_⟩ <;>
        simp [init, Pc.made, Pc.joining, Pc.exits, Pc.decs, Pc.exitValue, Pc.exitStage, Pc.got]
  have hno : ∀ u : Fin n, ((init unset name).pc u).waits u = none ∧ ((init unset name).pc u).holds u = none := by
    intro u
    rw [hpc]
    split <;> exact ⟨rfl, rfl⟩
  refine ⟨fun c hc h0 => ?_, fun u id hu => ?_, fun u => hat u _ ?_, fun p c hc => absurd hc (hchild p c),
    ⟨⟨fun u l => ?_, fun l => ?_, fun l hl => ?_, fun u hu => ?_⟩, fun i => .inl ⟨rfl, fun u hu => ?_⟩⟩, rfl⟩
  · simp [init, h0] at hc
  · simp [init] at hu
  · rw [hpc]
    split
    · exact .inl rfl
    · exact .inr rfl
  · cases l <;> simp [init, Semaphore.mk0]
  · cases l <;> simp [init, Semaphore.mk0]
  · cases l <;> simp [init, Semaphore.mk0] at hl
  · simp [init] at hu
  · simp [(hno u).2] at hu

theorem family_call (h : Family s) {c : Call} (hpc : s.pc t = .user) (hj : JoinEach s (.call t c)) :
    Family { s.call t c with called := s.called ++ [(t, c)] } := by
  unfold call
  cases c with
  | exec name =>
    have hcalls : ∀ u, SameCalls s { s.goto t (.execLock name) with called := s.called ++ [(t, .exec name)] } u :=
      fun u => ⟨fun _ => by simp, fun _ => by simp, fun _ _ => Iff.rfl⟩
    refine h.quiet (t := t) (k := .execLock name) ⟨fun _ => Iff.rfl, fun _ => rfl, fun _ => rfl, fun u _ => hcalls u, rfl⟩
      (hcalls t) rfl ?_ (fun _ => rfl) (fun _ => rfl) (h.syncs.move (by simp [hpc, Pc.waits]) (by simp [hpc, Pc.holds]))
    rw [hpc]
    exact ⟨⟨fun _ he => he, rfl, rfl, rfl, fun _ => rfl, fun he => he, fun _ he => he⟩, rfl, rfl⟩
  | join id =>
    obtain ⟨⟨c, rfl, hc⟩, hnew⟩ := hj
    exact family_callJoin h hpc hc hnew
  | exit v =>
    obtain ⟨h0, hall⟩ := hj
    simp only [h0, if_false]
    exact family_callExit h hpc v h0 hall

theorem family_step {e : Event n} (hi : Inv s) (h : Family s) (hj : JoinEach s e) (hs : s.step e = some s') :
    Inv s' ∧ Family s' := by
  refine ⟨inv_step hi hs, ?_⟩
  cases e with
  | call t c =>
    obtain ⟨hpc, rfl⟩ := step_call hs
    exact family_call h hpc hj
  | run t =>
    obtain ⟨ha, hs⟩ := step_run hs
    exact family_run h hi ha hs

/-! ### No join hangs -/

/-- Twice the steps left in the calls under way, and the processes awake. -/
def work (s : PTable n) : ℕ := 2 * ∑ t, (s.pc t).rank + s.sync.awake.card

omit [NeZero n] in
theorem work_lt (hpc : s'.pc = Function.update s.pc t k) (hk : k.rank < (s.pc t).rank)
    (haw : s'.sync.awake.card ≤ s.sync.awake.card + 1) : s'.work < s.work := by
  have hsum := sum_weight_update Pc.rank s.pc t k
  unfold work
  rw [hpc]
  omega

omit [NeZero n] in
theorem work_thread {name : FileName} {i : Fin n} (hpc : s.pc t = .exec name (.thread i)) (hpci : s.pc i = .none) :
    ((s.newThread i t name).goto t (.exec name (.unlock i))).work < s.work := by
  have hti : t ≠ i := fun he => by simp [← he, hpc] at hpci
  have hpct : (s.newThread i t name).pc t = .exec name (.thread i) := by
    simp [newThread, PTable.goto, setPCB, hti, hpc]
  have h1 : (s.newThread i t name).work = s.work := by
    have hsum := sum_weight_update Pc.rank s.pc i .user
    rw [hpci, show (Pc.none : Pc n).rank = 0 from rfl, show (Pc.user : Pc n).rank = 0 from rfl] at hsum
    show 2 * (∑ u, (Function.update s.pc i .user u).rank) + s.sync.awake.card = _
    unfold work
    omega
  rw [← h1]
  exact work_lt rfl (by simp [hpct, Pc.rank]) (Nat.le_succ _)

/-- Every step in the kernel brings the calls nearer to their end. -/
theorem work_run (h : Family s) (hi : Inv s) (ha : s.sync.asleep t = false) (hs : Step s t s') : s'.work < s.work := by
  cases hs with
  | fault hu hl => exact absurd (h.live_of_uses hi hu) hl
  | orphan hpc hp =>
    have h1 : ({ s with status := .fault } : PTable n).status = .running := (family_run h hi ha (.orphan hpc hp)).status
    cases h1
  | sleep hw hv =>
    have hcard := Sleepers.card_awake_sleep ha hv
    show 2 * (∑ u, (s.pc u).rank) + (s.sync.P t _).1.awake.card < _
    unfold work
    omega
  | pass hw hv =>
    refine work_lt rfl (Pc.rank_passed hw) ?_
    show (s.sync.P t _).1.awake.card ≤ _
    rw [Sleepers.awake_take hv]
    omega
  | signal hs => exact work_lt rfl (Pc.rank_signalled hs) (Sleepers.card_awake_V _)
  | count hc => exact work_lt rfl (Pc.rank_counts hc) (Nat.le_succ _)
  | thread hpc =>
    obtain ⟨-, hpci⟩ := hi.creating t _ (by rw [hpc]; rfl)
    exact work_thread hpc hpci
  | execReturn hpc | release hpc =>
    exact work_lt (k := .user) rfl (by simp [hpc, Pc.rank]) (Sleepers.card_awake_V _)
  | execFail hpc | execFound hpc | new hpc | joinFound hpc | read hpc | set hpc | remove hpc | joinFail hpc =>
    exact work_lt rfl (by simp [hpc, Pc.rank]) (Nat.le_succ _)
  | exitFail hpc hnull =>
    simp [live_self (t := t) hi (by simp [hpc, Pc.active])] at hnull

omit [NeZero n] in
theorem called_run (h : Step s t s') : s'.called = s.called := by
  cases h <;> rfl

/-- A stretch of a run without new calls. -/
theorem runs (hi : Inv s) (h : Family s) : ∀ (ts : List (Fin n)) (s' : PTable n),
    exec step s (ts.map .run) = some s' →
      Inv s' ∧ Family s' ∧ s'.called = s.called ∧ ts.length + s'.work ≤ s.work := by
  intro ts
  induction ts generalizing s with
  | nil =>
    intro s' hs
    obtain rfl : s = s' := by simpa using hs
    exact ⟨hi, h, rfl, by simp⟩
  | cons t ts ih =>
    intro s' hs
    rw [List.map_cons, exec_cons, Option.bind_eq_some_iff] at hs
    obtain ⟨s₁, h1, hs⟩ := hs
    obtain ⟨hi1, hf1⟩ := family_step (e := .run t) hi h trivial h1
    obtain ⟨hi', hf', hcalled, hwork⟩ := ih hi1 hf1 s' hs
    obtain ⟨ha, hrun⟩ := step_run h1
    have hlt := work_run h hi ha hrun
    refine ⟨hi', hf', hcalled.trans (called_run hrun), ?_⟩
    rw [List.length_cons]
    omega

omit [NeZero n] in
theorem exists_run (ht : 0 < (s.pc t).rank) : ∃ s', s.run t = some s' := by
  cases hpc : s.pc t with
  | none | user | finished => simp [hpc, Pc.rank] at ht
  | execCheck name =>
    simp only [run, hpc]
    split
    · exact ⟨_, rfl⟩
    · split <;> exact ⟨_, rfl⟩
  | joinCheck id =>
    simp only [run, hpc]
    split
    · exact ⟨_, rfl⟩
    · split <;> exact ⟨_, rfl⟩
  | _ => simp [run, hpc]

section

variable (h : Family s) (hstuck : ∀ t, s.step (.run t) = none)
include h hstuck

/-- Where nothing can run, a process in the kernel is asleep at a semaphore. -/
theorem asleep_of_stuck (ht : 0 < (s.pc t).rank) : s.sync.asleep t = true ∧ ∃ l, (s.pc t).waits t = some l := by
  have ha : s.sync.asleep t = true := by
    by_contra ha
    obtain ⟨s', hs'⟩ := exists_run ht
    have hnone := hstuck t
    simp only [step, h.status, true_and, Bool.not_eq_true] at hnone ha
    rw [if_pos ha, hs'] at hnone
    cases hnone
  exact ⟨ha, Option.ne_none_iff_exists'.mp (h.syncs.queued.waiting t ha)⟩

/-- A semaphore at which one waits then is not free. -/
theorem value_le_of_stuck {l : Loc n} (hw : (s.pc t).waits t = some l) : (s.sync.sem l).value ≤ 0 := by
  have hrank : ∀ u, (s.pc u).waits u = some l → s.sync.asleep u = true := fun u hu =>
    (asleep_of_stuck h hstuck (Nat.zero_lt_of_lt (Pc.rank_passed hu))).1
  exact h.syncs.queued.value_le hw (hrank t hw) hrank

/-- Nobody waits for a `multex`: who holds it could go on. -/
theorem waits_ne_multex {i : Fin n} : (s.pc t).waits t ≠ some (.multex i) := by
  intro hw
  obtain ⟨u, hu⟩ := (h.syncs.multex i).exists_inside (value_le_of_stuck h hstuck hw)
  obtain ⟨hnone, -, hrank⟩ := Pc.waits_of_holds hu
  obtain ⟨-, l, hl⟩ := asleep_of_stuck h hstuck hrank
  simp [hnone] at hl

/-- A child that has called `Exit` has signalled its parent. -/
theorem exitStage_of_stuck {v : ℤ} (hx : (t, .exit v) ∈ s.called) : 2 ≤ (s.pc t).exitStage := by
  by_contra hE
  have hval := ((h.places t).called v).mp hx
  have hrank : 0 < (s.pc t).rank := by
    cases hpc : s.pc t with
    | exit w k => cases k <;> simp [Pc.rank]
    | finished => simp [hpc, Pc.exitStage] at hE
    | _ => simp [hpc, Pc.exitValue] at hval
  obtain ⟨-, l, hl⟩ := asleep_of_stuck h hstuck hrank
  have hno := fun i => waits_ne_multex h hstuck (t := t) (i := i)
  cases hpc : s.pc t with
  | exit w k =>
    rw [hpc] at hl hno hE
    cases k <;> simp [Pc.waits, Pc.exitStage] at hl hno hE
  | finished => simp [hpc, Pc.exitStage] at hE
  | _ => simp [hpc, Pc.exitValue] at hval

/-- No join of such a child is on its way. -/
theorem not_joining_of_stuck {c : Fin n} {v : ℤ} (hx : (c, .exit v) ∈ s.called) :
    (s.pc t).joining ≠ some (c : ℤ) := by
  intro hj
  have hrank : 0 < (s.pc t).rank := by
    cases hpc : s.pc t with
    | joinCheck id => simp [Pc.rank]
    | join d k => cases k <;> simp [Pc.rank]
    | _ => simp [hpc, Pc.joining] at hj
  obtain ⟨-, l, hl⟩ := asleep_of_stuck h hstuck hrank
  have hno := fun i => waits_ne_multex h hstuck (t := t) (i := i)
  have hpc : s.pc t = .join c .wait := by
    cases hpc : s.pc t with
    | join d k =>
      obtain rfl : d = c := by
        simp only [hpc, Pc.joining, Option.some.injEq] at hj
        exact Fin.ext (by omega)
      rw [hpc] at hl hno
      cases k <;> simp [Pc.waits] at hl hno
      rfl
    | joinCheck id => simp [hpc, Pc.waits] at hl
    | _ => simp [hpc, Pc.joining] at hj
  have hle := value_le_of_stuck h hstuck (t := t) (l := .joinsem c) (by rw [hpc]; rfl)
  have hhand := (h.hands t c (h.child_of_joining hj).1).joinsem
  have hE := exitStage_of_stuck h hstuck hx
  have hJ : s.joinStage t c = 1 := by simp [joinStage, hpc, Pc.joining, Pc.passedJoin]
  rw [if_pos hE, hJ] at hhand
  simp at hhand
  omega

end

/-- In a family the join of a child that returned gave its code. -/
theorem Family.code_of_returned (h : Family s) {p c : Fin n} (hm : (p, .join c) ∈ s.called)
    (hj : (s.pc p).joining ≠ some (c : ℤ)) (v : ℤ) : (c, .exit v) ∈ s.called ↔ v = (s.pcb c).exitcode := by
  obtain ⟨d, hd, hc⟩ := h.called p c hm
  obtain rfl : c = d := Fin.ext (by omega)
  have hJ : s.joinStage p c = 3 := by simp [joinStage, hj, hm]
  have hE := (h.hands p c hc).exited (by omega)
  rw [(h.places c).called, (h.places c).set (by omega), Option.some.injEq, eq_comm]

/-- For every run in which processes join each child once and exit after
that, and file names fit into `PCB::filename`: no step uses a PCB that is not there, in particular no join does after
the deletion; what a join returned is the one code that its child passed to
`Exit` before; and the calls under way come to an end, when nothing but they
runs, with every join of a child that called `Exit` returned. -/
theorem join_returns_exit_code (unset : Fin n → PCB n) (name : FileName) (es : List (Event n)) (s : PTable n)
    (hj : Along step JoinEach (init unset name) es) (h : exec step (init unset name) es = some s) :
    s.status = .running ∧
    (∀ (p c : Fin n), (s.pc p).joining = some (c : ℤ) → s.slot c = .live) ∧
    (∀ (p : Fin n) (id v : ℤ), (p, .join id, v) ∈ s.returned →
      ∃ c : Fin n, id = c ∧ ∀ w, (c, .exit w) ∈ s.called ↔ w = v) ∧
    ∀ (ts : List (Fin n)) (s' : PTable n), exec step s (ts.map .run) = some s' →
      ts.length ≤ s.work ∧ ((∀ t, s'.step (.run t) = none) →
        ∀ (p c : Fin n) (v : ℤ), (p, .join c) ∈ s.called → (c, .exit v) ∈ s.called →
          (p, .join c, v) ∈ s'.returned) := by
  obtain ⟨hi, hf⟩ := exec_induction_along (P := fun _ s => Inv s ∧ Family s)
    ⟨inv_init unset name, family_init unset name⟩ (fun _ _ _ _ hP hC hs => family_step hP.1 hP.2 hC hs) es s hj h
  refine ⟨hf.status, fun p c hpc => ?_, fun p id v hm => ?_, fun ts s' hs => ?_⟩
  · obtain ⟨hc, hJ⟩ := hf.child_of_joining hpc
    exact hf.live_child hi hc hJ
  · obtain ⟨hcalled, hne, c, rfl, rfl⟩ := ((hf.places p).returned id v).mp hm
    exact ⟨c, rfl, hf.code_of_returned hcalled hne⟩
  · obtain ⟨-, hf', hcalled, hwork⟩ := runs hi hf ts s' hs
    refine ⟨by omega, fun hstuck p c v hm hx => ?_⟩
    rw [← hcalled] at hm hx
    have hne := not_joining_of_stuck hf' hstuck (t := p) hx
    exact ((hf'.places p).returned c v).mpr ⟨hm, hne, c, rfl, (hf'.code_of_returned hm hne v).mp hx⟩

/-- Process 0 joins process 1 before it exits and process 2 after. -/
def familyRun : List (Event MAX_PROCESS) :=
  joinRun 1 ++ execRun ++ (.call 2 (.exit (-3)) :: List.replicate 6 (.run 2)) ++
    (.call 0 (.join 2) :: List.replicate 7 (.run 0)) ++ List.replicate 2 (.run 2)

theorem join_returns_exit_code_familyRun : ∃ s, exec step initMain familyRun = some s ∧
    (0, .join 1, 7) ∈ s.returned ∧ (0, .join 2, -3) ∈ s.returned ∧ s.status = .running ∧
    ∀ w, (2, .exit w) ∈ s.called ↔ w = -3 := by
  have hj : Along step JoinEach initMain familyRun := by decide +kernel
  have hrun : ((exec step initMain familyRun).bind fun s =>
      some (decide ((0, .join 1, 7) ∈ s.returned ∧ (0, .join 2, -3) ∈ s.returned))) = some true := by
    decide +kernel
  obtain ⟨s, hs, h⟩ := Option.bind_eq_some_iff.mp hrun
  obtain ⟨h1, h2⟩ : (0, .join 1, 7) ∈ s.returned ∧ (0, .join 2, -3) ∈ s.returned := by simpa using h
  obtain ⟨hstatus, -, hcode, -⟩ := join_returns_exit_code _ _ familyRun s hj hs
  obtain ⟨c, hc, hw⟩ := hcode 0 2 (-3) h2
  have h2c : ((2 : Fin MAX_PROCESS) : ℕ) = 2 := rfl
  obtain rfl : c = 2 := Fin.ext (by omega)
  exact ⟨s, hs, h1, h2, hstatus, hw⟩

end PTable

end Nachos
