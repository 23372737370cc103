/-
# Parents, children and the semaphores between them

What holds of the process table while processes join each of their children
once, and exit only after that. Between a parent `p` and a child `c` two
semaphores go back and forth: `c` sets its exit code, signals `joinsem` and
waits for `exitsem`; `p` waits for `joinsem`, reads the exit code and signals
`exitsem`; then `c` deletes the PCB. `Hand` ties the values of the two to how
far `p` and `c` are, for each pair on its own. `At` says what the place of a
process tells about the table, `Syncs` that no wake-up of a semaphore is lost
and each `multex` has one holder; `Family` is all of it together.

In a family no step uses a PCB that is not there (`Family.live_of_uses`).
-/
import NachosNet.Threads.Process

namespace Nachos

open Basis

namespace Pc

variable {n : ℕ}

/-- The child whose PCB the process made in the call of `Exec` it is in. -/
def made : Pc n → Option (Fin n)
  | .exec _ (.fork i) | .exec _ (.thread i) | .exec _ (.unlock i) => some i
  | _ => Option.none

/-- The pid it is joining. -/
def joining : Pc n → Option ℤ
  | .joinCheck id => some id
  | .join c _ => some c
  | _ => Option.none

/-- It has passed `JoinWait`. -/
def passedJoin : Pc n → Bool
  | .join _ .read | .join _ (.release _) => true
  | _ => false

/-- The exit code it has read. -/
def got : Pc n → Option (Fin n × ℤ)
  | .join c (.release v) => some (c, v)
  | _ => Option.none

/-- It has called `Exit`. -/
def exits : Pc n → Bool
  | .exit _ _ | .finished => true
  | _ => false

/-- How far it is in `ExitUpdate`: 1 when the exit code is set, 2 after
`JoinRelease`, 3 after `ExitWait`. -/
def exitStage : Pc n → ℕ
  | .exit _ .set => 0
  | .exit _ .wait => 2
  | .exit _ .remove => 3
  | .exit _ _ => 1
  | .finished => 3
  | _ => 0

/-- The parent in whose `DecNumWait` it is. -/
def decs : Pc n → Option (Fin n)
  | .exit _ (.decP q) | .exit _ (.dec q) | .exit _ (.decV q) => some q
  | _ => Option.none

/-- What it passed to `Exit`, where `exitcode` is in its PCB. -/
def exitValue (exitcode : ℤ) : Pc n → Option ℤ
  | .exit v _ => some v
  | .finished => some exitcode
  | _ => Option.none

/-- The PCB whose `multex` process `t` holds. -/
def holds (t : Fin n) : Pc n → Option (Fin n)
  | .exec _ (.thread i) | .exec _ (.unlock i) => some i
  | .join _ .inc | .join _ .incV => some t
  | .exit _ (.dec q) | .exit _ (.decV q) => some q
  | _ => Option.none

/-- The steps left in the call. -/
def rank : Pc n → ℕ
  | .execLock _ | .joinCheck _ | .exit _ .set => 7
  | .execCheck _ | .join _ .incP | .exit _ (.decP _) => 6
  | .exec _ (.new _) | .join _ .inc | .exit _ (.dec _) => 5
  | .exec _ (.fork _) | .join _ .incV | .exit _ (.decV _) => 4
  | .exec _ (.thread _) | .join _ .wait | .exit _ .release => 3
  | .exec _ (.unlock _) | .join _ .read | .exit _ .wait => 2
  | .execDone _ _ | .join _ (.release _) | .exit _ .remove => 1
  | _ => 0

/-- A move from `a` to `k` that leaves what a process has made, joined and passed to `Exit`. -/
structure Keeps (a k : Pc n) : Prop where
  made : ∀ i, k.made = some i → a.made = some i
  joining : k.joining = a.joining
  got : k.got = Option.none
  exits : k.exits = a.exits
  exitValue : ∀ v, k.exitValue v = a.exitValue v
  set : 1 ≤ k.exitStage → 1 ≤ a.exitStage
  decs : ∀ q, k.decs = some q → a.decs = some q

/-- Its stages in joining and exiting stay as well. -/
structure Quiet (a k : Pc n) : Prop extends Keeps a k where
  passedJoin : k.passedJoin = a.passedJoin
  exitStage : k.exitStage = a.exitStage

section

variable {a k : Pc n} {t i : Fin n} {l : Loc n}

theorem keeps_passed (hw : a.waits t = some l) : a.Keeps a.passed := by
  unfold waits at hw
  split at hw <;> cases hw <;>
    exact ⟨fun _ h => h, rfl, rfl, rfl, fun _ => rfl, (by simp [passed, exitStage]), fun _ h => h⟩

theorem quiet_passed (hw : a.waits t = some l) (hj : ∀ c, l ≠ .joinsem c) (he : ∀ c, l ≠ .exitsem c) :
    a.Quiet a.passed := by
  refine ⟨keeps_passed hw, ?_, ?_⟩
  all_goals
    unfold waits at hw
    split at hw <;> cases hw <;> first | rfl | exact absurd rfl (hj _) | exact absurd rfl (he _)

theorem keeps_signalled (hs : a.signals t = some l) : a.Keeps a.signalled := by
  unfold signals at hs
  split at hs <;> cases hs <;>
    exact ⟨fun _ h => (by cases h), rfl, rfl, rfl, fun _ => rfl, (by simp [signalled, exitStage]), fun _ h => (by cases h)⟩

theorem quiet_signalled (hs : a.signals t = some l) (hj : ∀ c, l ≠ .joinsem c) : a.Quiet a.signalled := by
  refine ⟨keeps_signalled hs, ?_, ?_⟩
  all_goals
    unfold signals at hs
    split at hs <;> cases hs <;> first | rfl | exact absurd rfl (hj _)

theorem quiet_counts (hc : a.counts t = some (i, k)) : a.Quiet k := by
  unfold counts at hc
  split at hc <;> cases hc <;>
    exact ⟨⟨fun _ h => h, rfl, rfl, rfl, fun _ => rfl, fun h => h, fun _ h => h⟩, rfl, rfl⟩

theorem holds_passed (hw : a.waits t = some l) :
    a.holds t = Option.none ∧ ∀ i, a.passed.holds t = some i ↔ l = .multex i := by
  unfold waits at hw
  split at hw <;> cases hw <;> simp [holds, passed]

theorem holds_signals (hs : a.signals t = some l) :
    a.waits t = Option.none ∧ a.signalled.holds t = Option.none ∧ ∀ i, a.holds t = some i ↔ l = .multex i := by
  unfold signals at hs
  split at hs <;> cases hs <;> simp [holds, signalled, waits]

theorem holds_counts (hc : a.counts t = some (i, k)) : a.waits t = Option.none ∧ k.holds t = a.holds t := by
  unfold counts at hc
  split at hc <;> cases hc <;> exact ⟨rfl, rfl⟩

theorem waits_of_holds (h : a.holds t = some i) : a.waits t = Option.none ∧ a.uses t = some i ∧ 0 < a.rank := by
  unfold holds at h
  split at h <;> cases h <;> simp [waits, uses, rank]

theorem uses_of_waits (hw : a.waits t = some l) (hl : l = .joinsem i ∨ l = .exitsem i ∨ l = .multex i) :
    a.uses t = some i := by
  unfold waits at hw
  split at hw <;> cases hw <;> simp_all [uses]

theorem eq_of_waits_joinsem (hw : a.waits t = some (.joinsem i)) : a = .join i .wait := by
  unfold waits at hw
  split at hw <;> cases hw
  rfl

theorem eq_of_waits_exitsem (hw : a.waits t = some (.exitsem i)) : i = t ∧ ∃ v, a = .exit v .wait := by
  unfold waits at hw
  split at hw <;> cases hw
  exact ⟨rfl, _, rfl⟩

theorem eq_of_signals_joinsem (hs : a.signals t = some (.joinsem i)) : i = t ∧ ∃ v, a = .exit v .release := by
  unfold signals at hs
  split at hs <;> cases hs
  exact ⟨rfl, _, rfl⟩

theorem signals_ne_exitsem (hs : a.signals t = some l) : l ≠ .exitsem i := by
  unfold signals at hs
  split at hs <;> cases hs <;> simp

theorem rank_passed (hw : a.waits t = some l) : a.passed.rank < a.rank := by
  unfold waits at hw
  split at hw <;> cases hw <;> simp [passed, rank]

theorem rank_signalled (hs : a.signals t = some l) : a.signalled.rank < a.rank := by
  unfold signals at hs
  split at hs <;> cases hs <;> simp [signalled, rank]

theorem rank_counts (hc : a.counts t = some (i, k)) : k.rank < a.rank := by
  unfold counts at hc
  split at hc <;> cases hc <;> simp [rank]

end

end Pc

/-! ### Two semaphores between a parent and a child -/

/-- The values `jv` of `joinsem` and `ev` of `exitsem` where the parent is at
`J` (1 joining, 2 past `JoinWait`, 3 returned) and the child at `E`. -/
structure Hand (J E : ℕ) (jv ev : ℤ) : Prop where
  joinsem : jv = (if 2 ≤ E then 1 else 0) - if 2 ≤ J then 1 else 0
  exitsem : ev = (if 3 ≤ J then 1 else 0) - if 3 ≤ E then 1 else 0
  exited : 2 ≤ J → 2 ≤ E
  joined : 3 ≤ E → 3 ≤ J

namespace Hand

variable {J E : ℕ} {jv ev : ℤ}

theorem start : Hand 0 0 0 0 := ⟨rfl, rfl, by omega, by omega⟩

theorem join (h : Hand 0 E jv ev) : Hand 1 E jv ev := by
  obtain ⟨h1, h2, h3, h4⟩ := h
  exact ⟨by simpa using h1, by simpa using h2, by omega, by omega⟩

theorem joinWait (h : Hand 1 E jv ev) (hv : jv ≠ 0) : Hand 2 E (jv - 1) ev := by
  obtain ⟨h1, h2, h3, h4⟩ := h
  have hE : 2 ≤ E := by
    by_contra hE
    simp [hE] at h1
    exact hv h1
  refine ⟨?_, by simpa using h2, fun _ => hE, by omega⟩
  simp only [hE, if_true] at h1 ⊢
  simp only [h1]
  decide

theorem exitRelease (h : Hand 2 E jv ev) : Hand 3 E jv (ev + 1) := by
  obtain ⟨h1, h2, h3, h4⟩ := h
  refine ⟨by simpa using h1, ?_, fun _ => h3 le_rfl, fun _ => le_rfl⟩
  have hE : ¬ 3 ≤ E := by omega
  simp [hE] at h2 ⊢
  omega

theorem setCode (h : Hand J 0 jv ev) : Hand J 1 jv ev := by
  obtain ⟨h1, h2, h3, h4⟩ := h
  exact ⟨by simpa using h1, by simpa using h2, by omega, by omega⟩

theorem joinRelease (h : Hand J 1 jv ev) : Hand J 2 (jv + 1) ev := by
  obtain ⟨h1, h2, h3, h4⟩ := h
  refine ⟨?_, by simpa using h2, fun _ => le_rfl, by omega⟩
  have hJ : ¬ 2 ≤ J := by omega
  simp [hJ] at h1 ⊢
  omega

theorem exitWait (h : Hand J 2 jv ev) (hv : ev ≠ 0) : Hand J 3 jv (ev - 1) := by
  obtain ⟨h1, h2, h3, h4⟩ := h
  have hJ : 3 ≤ J := by
    by_contra hJ
    simp [hJ] at h2
    exact hv h2
  refine ⟨by simpa using h1, ?_, by omega, fun _ => hJ⟩
  simp [hJ] at h2 ⊢
  omega

end Hand

namespace PTable

variable {n : ℕ} {s s' : PTable n} {t : Fin n} {k : Pc n}

def IsChild (s : PTable n) (p c : Fin n) : Prop := s.slot c ≠ .null ∧ (s.pcb c).parentID = some p

instance (s : PTable n) (p c : Fin n) : Decidable (s.IsChild p c) := inferInstanceAs (Decidable (_ ∧ _))

/-- The process of a new PCB is a child of the one that made it. -/
theorem isChild_newPCB (s : PTable n) (i t : Fin n) (k : Pc n) (p c : Fin n) :
    ((s.newPCB i t).goto t k).IsChild p c ↔ (c = i ∧ p = t) ∨ (c ≠ i ∧ s.IsChild p c) := by
  unfold IsChild
  rw [slot_newPCB, pcb_newPCB]
  by_cases hc : c = i
  · simp [hc, eq_comm]
  · simp [hc]

/-- How far `p` is in joining `c`. -/
def joinStage (s : PTable n) (p c : Fin n) : ℕ :=
  if (s.pc p).joining = some (c : ℤ) then if (s.pc p).passedJoin then 2 else 1
  else if (p, .join c) ∈ s.called then 3 else 0

/-! ### What the place of a process tells -/

/-- Process `u` at `a`: which children it has made and joined, the argument of
its `Exit`, the codes it has read and those its joins returned. -/
structure At [NeZero n] (s : PTable n) (u : Fin n) (a : Pc n) : Prop where
  made : ∀ i, a.made = some i → s.IsChild u i ∧ (u, .join i) ∉ s.called
  joining : ∀ id : ℤ, a.joining = some id → (u, .join id) ∈ s.called
  exits : a.exits = true → u ≠ 0 ∧ ∀ c, s.IsChild u c → (u, .join c) ∈ s.called
  decs : ∀ q, a.decs = some q → (s.pcb u).parentID = some q
  called : ∀ v, (u, .exit v) ∈ s.called ↔ a.exitValue (s.pcb u).exitcode = some v
  set : 1 ≤ a.exitStage → a.exitValue (s.pcb u).exitcode = some (s.pcb u).exitcode
  got : ∀ c v, a.got = some (c, v) → v = (s.pcb c).exitcode
  returned : ∀ id v : ℤ, (u, .join id, v) ∈ s.returned ↔
    (u, .join id) ∈ s.called ∧ a.joining ≠ some id ∧ ∃ c : Fin n, id = c ∧ v = (s.pcb c).exitcode

/-- Process `u` has made the same calls of `Join` and `Exit`, and its joins returned the same. -/
structure SameCalls (s s' : PTable n) (u : Fin n) : Prop where
  joins : ∀ id : ℤ, (u, .join id) ∈ s'.called ↔ (u, .join id) ∈ s.called
  exits : ∀ v : ℤ, (u, .exit v) ∈ s'.called ↔ (u, .exit v) ∈ s.called
  returned : ∀ id v : ℤ, (u, .join id, v) ∈ s'.returned ↔ (u, .join id, v) ∈ s.returned

theorem At.congr [NeZero n] {u : Fin n} {a : Pc n} (h : At s u a) (hs : SameCalls s s' u)
    (hchild : ∀ c, s'.IsChild u c ↔ s.IsChild u c)
    (hpar : ∀ q, a.decs = some q → (s'.pcb u).parentID = (s.pcb u).parentID)
    (hcode : (s'.pcb u).exitcode = (s.pcb u).exitcode)
    (hread : ∀ c : Fin n, (u, .join c) ∈ s.called → (a.joining = some (c : ℤ) → a.passedJoin = true) →
      (s'.pcb c).exitcode = (s.pcb c).exitcode) : At s' u a where
  made i hi := by
    rw [hchild, hs.joins]
    exact h.made i hi
  joining id hid := by
    rw [hs.joins]
    exact h.joining id hid
  exits ha := by
    refine ⟨(h.exits ha).1, fun c hc => ?_⟩
    rw [hs.joins]
    exact (h.exits ha).2 c ((hchild c).mp hc)
  decs q hq := (hpar q hq).trans (h.decs q hq)
  called v := by
    rw [hs.exits, hcode]
    exact h.called v
  set ha := by
    rw [hcode]
    exact h.set ha
  got c v hv := by
    have hj : a.joining = some (c : ℤ) ∧ a.passedJoin = true := by
      unfold Pc.got at hv
      split at hv <;> cases hv
      exact ⟨rfl, rfl⟩
    rw [hread c (h.joining c hj.1) fun _ => hj.2]
    exact h.got c v hv
  returned id v := by
    rw [hs.returned, hs.joins, h.returned]
    refine and_congr_right fun hm => and_congr_right fun hj => exists_congr fun c => and_congr_right fun hid => ?_
    rw [hread c (hid ▸ hm) fun he => absurd (hid ▸ he) hj]

theorem At.keeps [NeZero n] {u : Fin n} {a : Pc n} (h : At s u a) (hk : a.Keeps k) : At s u k where
  made i hi := h.made i (hk.made i hi)
  joining id hid := h.joining id (hk.joining ▸ hid)
  exits ha := h.exits (hk.exits ▸ ha)
  decs q hq := h.decs q (hk.decs q hq)
  called v := by
    rw [hk.exitValue]
    exact h.called v
  set ha := by
    rw [hk.exitValue]
    exact h.set (hk.set ha)
  got c v hv := by
    rw [hk.got] at hv
    cases hv
  returned id v := by
    rw [hk.joining]
    exact h.returned id v

/-- One process moves. -/
theorem At.update [NeZero n] (hpc : s'.pc = Function.update s.pc t k) (hother : ∀ u, u ≠ t → At s' u (s.pc u))
    (hself : At s' t k) (u : Fin n) : At s' u (s'.pc u) := by
  rw [hpc]
  by_cases hu : u = t
  · subst hu
    simpa using hself
  · simpa [hu] using hother u hu

/-! ### The semaphores of each pair -/

/-- `Hand` for every parent and child. -/
def Hands (s : PTable n) : Prop := ∀ p c, s.IsChild p c →
  Hand (s.joinStage p c) (s.pc c).exitStage (s.sync.sem (.joinsem c)).value (s.sync.sem (.exitsem c)).value

section

variable (hpc : s'.pc = Function.update s.pc t k)
  (hcalled : ∀ (u : Fin n) (id : ℤ), (u, .join id) ∈ s'.called ↔ (u, .join id) ∈ s.called)
include hpc

theorem exitStage_congr (hstage : k.exitStage = (s.pc t).exitStage) {c : Fin n} :
    (s'.pc c).exitStage = (s.pc c).exitStage := by
  rw [hpc]
  by_cases hct : c = t
  · subst hct
    simpa using hstage
  · simp [hct]

include hcalled

theorem joinStage_congr (hjoin : k.joining = (s.pc t).joining) (hpass : k.passedJoin = (s.pc t).passedJoin)
    (p c : Fin n) : s'.joinStage p c = s.joinStage p c := by
  simp only [joinStage, hcalled]
  rw [hpc]
  by_cases hpt : p = t
  · subst hpt
    simp [hjoin, hpass]
  · simp [hpt]

/-- Children that the process neither joins before nor after. -/
theorem joinStage_other {c : Fin n} (ha : (s.pc t).joining ≠ some (c : ℤ)) (hk : k.joining ≠ some (c : ℤ))
    {p : Fin n} : s'.joinStage p c = s.joinStage p c := by
  simp only [joinStage, hcalled]
  rw [hpc]
  by_cases hpt : p = t
  · subst hpt
    simp [ha, hk]
  · simp [hpt]

end

/-- A step that concerns the child `c₀` only. -/
theorem Hands.of_one (h : Hands s) (c₀ : Fin n) (hslot : ∀ c, s'.slot c = .null ↔ s.slot c = .null)
    (hpar : ∀ c, (s'.pcb c).parentID = (s.pcb c).parentID)
    (hJ : ∀ p c, c ≠ c₀ → s'.joinStage p c = s.joinStage p c)
    (hE : ∀ c, c ≠ c₀ → (s'.pc c).exitStage = (s.pc c).exitStage)
    (hjv : ∀ c, c ≠ c₀ → (s'.sync.sem (.joinsem c)).value = (s.sync.sem (.joinsem c)).value)
    (hev : ∀ c, c ≠ c₀ → (s'.sync.sem (.exitsem c)).value = (s.sync.sem (.exitsem c)).value)
    (hc : ∀ p, s.IsChild p c₀ →
      Hand (s.joinStage p c₀) (s.pc c₀).exitStage (s.sync.sem (.joinsem c₀)).value (s.sync.sem (.exitsem c₀)).value →
      Hand (s'.joinStage p c₀) (s'.pc c₀).exitStage (s'.sync.sem (.joinsem c₀)).value
        (s'.sync.sem (.exitsem c₀)).value) : Hands s' := by
  intro p c hpc
  have hchild : s.IsChild p c := ⟨fun he => hpc.1 ((hslot c).mpr he), (hpar c).symm.trans hpc.2⟩
  by_cases hcc : c = c₀
  · subst hcc
    exact hc p hchild (h p c hchild)
  · rw [hJ p c hcc, hE c hcc, hjv c hcc, hev c hcc]
    exact h p c hchild

/-! ### Locks and queues -/

structure Syncs (pc : Fin n → Pc n) (sync : Sleepers (Fin n) (Loc n)) : Prop where
  queued : sync.WellQueued fun u => (pc u).waits u
  multex : ∀ i, Locked (fun u => (pc u).holds u = some i) (sync.sem (.multex i)).value

namespace Syncs

variable {pc : Fin n → Pc n} {sync : Sleepers (Fin n) (Loc n)} {l : Loc n}

theorem waits_update (pc : Fin n → Pc n) (t : Fin n) (k : Pc n) :
    (fun u => (Function.update pc t k u).waits u) = Function.update (fun u => (pc u).waits u) t (k.waits t) := by
  ext u : 1
  by_cases hu : u = t
  · subst hu
    simp
  · simp [hu]

theorem sleep (h : Syncs pc sync) (hw : (pc t).waits t = some l) (ha : sync.asleep t = false)
    (hv : (sync.sem l).value = 0) : Syncs pc (sync.P t l).1 := by
  refine ⟨h.queued.sleep hw ha hv, fun i => ?_⟩
  rw [Sleepers.value_sleep hv]
  exact h.multex i

theorem pass (h : Syncs pc sync) (hw : (pc t).waits t = some l) (ha : sync.asleep t = false)
    (hv : (sync.sem l).value ≠ 0) : Syncs (Function.update pc t (pc t).passed) (sync.P t l).1 := by
  obtain ⟨hno, hholds⟩ := Pc.holds_passed hw
  refine ⟨?_, fun i => ?_⟩
  · rw [waits_update]
    exact h.queued.take hw ha hv _
  · rw [Sleepers.value_P hv]
    by_cases hl : l = .multex i
    · subst hl
      rw [if_pos rfl]
      exact (h.multex i).moveIn (f := fun u k => Pc.holds u k = some i) hv ((hholds i).mpr rfl)
    · rw [if_neg (Ne.symm hl), Int.sub_zero]
      refine (h.multex i).move (f := fun u k => Pc.holds u k = some i) ?_
      simp [hholds, hl, hno]

theorem move (h : Syncs pc sync) (hw : (pc t).waits t = none) (hk : k.holds t = (pc t).holds t) :
    Syncs (Function.update pc t k) sync := by
  refine ⟨?_, fun i => (h.multex i).move (f := fun u k => Pc.holds u k = some i) (by rw [hk])⟩
  rw [waits_update]
  exact h.queued.move hw _

theorem signal (h : Syncs pc sync) (hl : ∀ i, l ≠ .multex i) : Syncs pc (sync.V l) := by
  refine ⟨h.queued.V l, fun i => ?_⟩
  rw [Sleepers.value_V, if_neg (Ne.symm (hl i)), Int.add_zero]
  exact h.multex i

theorem signalled (h : Syncs pc sync) (hs : (pc t).signals t = some l) :
    Syncs (Function.update pc t (pc t).signalled) (sync.V l) := by
  obtain ⟨hw, hno, hholds⟩ := Pc.holds_signals hs
  refine ⟨?_, fun i => ?_⟩
  · rw [waits_update]
    exact (h.queued.move hw _).V l
  · rw [Sleepers.value_V]
    by_cases hl : l = .multex i
    · subst hl
      rw [if_pos rfl]
      exact (h.multex i).moveOut (f := fun u k => Pc.holds u k = some i) ((hholds i).mpr rfl) (by simp [hno])
    · rw [if_neg (Ne.symm hl), Int.add_zero]
      refine (h.multex i).move (f := fun u k => Pc.holds u k = some i) ?_
      simp [hno, hholds, hl]

/-- The semaphores of a new PCB, at which nobody is. -/
theorem newPCB (h : Syncs pc sync) {i : Fin n} (hno : ∀ u, (pc u).uses u ≠ some i) :
    Syncs pc (((sync.fresh (.joinsem i) 0).fresh (.exitsem i) 0).fresh (.multex i) 1) := by
  have hw : ∀ (u : Fin n) (l : Loc n), l = .joinsem i ∨ l = .exitsem i ∨ l = .multex i → (pc u).waits u ≠ some l :=
    fun u l hl hu => hno u (Pc.uses_of_waits hu hl)
  refine ⟨((h.queued.fresh (fun u => hw u _ (.inl rfl)) 0).fresh (fun u => hw u _ (.inr (.inl rfl))) 0).fresh
    (fun u => hw u _ (.inr (.inr rfl))) 1, fun j => ?_⟩
  by_cases hj : j = i
  · subst hj
    refine .inl ⟨by simp [Sleepers.fresh, Semaphore.mk0], fun u hu => hno u (Pc.waits_of_holds hu).2.1⟩
  · simpa [Sleepers.fresh, hj] using h.multex j

end Syncs

/-! ### Families -/

/-- A process that makes a system call or takes a step in one has its PCB. -/
theorem live_self (hi : Inv s) (ht : (s.pc t).active = true) : s.slot t = .live := by
  have h1 := hi.finished t
  have h2 := hi.null t
  cases hs : s.slot t with
  | live => rfl
  | null => simp [h2 hs, Pc.active] at ht
  | freed => simp [h1.mpr hs, Pc.active] at ht

theorem slotOf_cast (c : Fin n) : slotOf n (c : ℤ) = some c := by
  simp [slotOf]

section

variable [NeZero n]

structure Family (s : PTable n) : Prop where
  parent : ∀ c, s.slot c ≠ .null → c ≠ 0 → ∃ p, (s.pcb c).parentID = some p ∧ s.slot p ≠ .null
  called : ∀ (u : Fin n) (id : ℤ), (u, .join id) ∈ s.called → ∃ c : Fin n, id = c ∧ s.IsChild u c
  places : ∀ u, At s u (s.pc u)
  hands : Hands s
  syncs : Syncs s.pc s.sync
  status : s.status = .running

/-- A child whose join has not returned has its PCB. -/
theorem Family.live_child (h : Family s) (hi : Inv s) {p c : Fin n} (hc : s.IsChild p c) (hJ : s.joinStage p c < 3) :
    s.slot c = .live := by
  have hE : (s.pc c).exitStage < 3 := by
    by_contra hE
    have := (h.hands p c hc).joined (by omega)
    omega
  cases hs : s.slot c with
  | live => rfl
  | null => exact absurd hs hc.1
  | freed => simp [(hi.finished c).mpr hs, Pc.exitStage] at hE

theorem Family.child_of_joining (h : Family s) {c : Fin n} (hj : (s.pc t).joining = some (c : ℤ)) :
    s.IsChild t c ∧ s.joinStage t c < 3 := by
  obtain ⟨d, hd, hchild⟩ := h.called t c ((h.places t).joining c hj)
  have hcd : c = d := Fin.ext (by exact_mod_cast hd)
  refine ⟨hcd ▸ hchild, ?_⟩
  simp only [joinStage, hj, if_true]
  split <;> omega

/-- The parent of a child that a process joins is that process. -/
theorem Family.parent_of_joining (h : Family s) {p c : Fin n} (hj : (s.pc t).joining = some (c : ℤ))
    (hp : s.IsChild p c) : t = p :=
  Option.some.inj ((h.child_of_joining hj).1.2.symm.trans hp.2)

/-- The parent in whose `DecNumWait` a process is has its PCB: had it exited,
it would have joined the process before. -/
theorem Family.live_parent (h : Family s) (hi : Inv s) {q : Fin n} (hd : (s.pc t).decs = some q) : s.slot q = .live := by
  have hstage : (s.pc t).exitStage = 1 ∧ (s.pc t).exits = true ∧ (s.pc t).active = true := by
    unfold Pc.decs at hd
    split at hd <;> cases hd <;> simp_all [Pc.exitStage, Pc.exits, Pc.active]
  have hpar := (h.places t).decs q hd
  have htlive := live_self hi hstage.2.2
  have hchild : s.IsChild q t := ⟨by simp [htlive], hpar⟩
  obtain ⟨p, hp, hpnull⟩ := h.parent t hchild.1 ((h.places t).exits hstage.2.1).1
  obtain rfl : q = p := Option.some.inj (hpar.symm.trans hp)
  cases hs : s.slot q with
  | live => rfl
  | null => exact absurd hs hpnull
  | freed =>
    have hfin := (hi.finished q).mpr hs
    have hjoined := ((h.places q).exits (by simp [hfin, Pc.exits])).2 t hchild
    have hJ : s.joinStage q t = 3 := by simp [joinStage, hfin, Pc.joining, hjoined]
    have := (h.hands q t hchild).exited (by omega)
    omega

/-- No step uses a PCB that is not there. -/
theorem Family.live_of_uses (h : Family s) (hi : Inv s) {i : Fin n} (hu : (s.pc t).uses t = some i) : s.slot i = .live := by
  have hmade : (s.pc t).made = some i → s.slot i = .live := by
    intro hm
    obtain ⟨hc, hno⟩ := (h.places t).made i hm
    have hj : (s.pc t).joining = none := by
      unfold Pc.made at hm
      split at hm <;> cases hm <;> simp_all [Pc.joining]
    exact h.live_child hi hc (by simp [joinStage, hj, hno])
  have hjoin : ∀ c : Fin n, (s.pc t).joining = some (c : ℤ) → s.slot c = .live := fun c hc =>
    h.live_child hi (h.child_of_joining hc).1 (h.child_of_joining hc).2
  cases hpc : s.pc t with
  | joinCheck id =>
    simp only [hpc, Pc.uses] at hu
    obtain ⟨c, rfl, -⟩ := h.called t id ((h.places t).joining id (by simp [hpc, Pc.joining]))
    rw [slotOf_cast, Option.some.injEq] at hu
    exact hu ▸ hjoin c (by simp [hpc, Pc.joining])
  | exec name k =>
    refine hmade ?_
    cases k <;> simp_all [Pc.uses, Pc.made]
  | join c k =>
    have hself := live_self (t := t) hi (by simp [hpc, Pc.active])
    have hc := hjoin c (by simp [hpc, Pc.joining])
    cases k <;> simp_all [Pc.uses]
  | exit v k =>
    have hself := live_self (t := t) hi (by simp [hpc, Pc.active])
    have hq := h.live_parent hi (t := t) (q := i)
    cases k <;> simp_all [Pc.uses, Pc.decs]
  | _ => simp [hpc, Pc.uses] at hu

/-- The tables of `s'` are those of `s`, but for the calls of process `t`. -/
structure Same (s s' : PTable n) (t : Fin n) : Prop where
  slot : ∀ c, s'.slot c = .null ↔ s.slot c = .null
  parentID : ∀ c, (s'.pcb c).parentID = (s.pcb c).parentID
  exitcode : ∀ c, (s'.pcb c).exitcode = (s.pcb c).exitcode
  calls : ∀ u, u ≠ t → SameCalls s s' u
  status : s'.status = s.status

omit [NeZero n] in
theorem Same.child (hs : Same s s' t) (p c : Fin n) : s'.IsChild p c ↔ s.IsChild p c := by
  simp only [IsChild, ne_eq, hs.slot, hs.parentID]

theorem Same.at_congr (hs : Same s s' t) {u : Fin n} {a : Pc n} (h : At s u a) (hc : SameCalls s s' u) : At s' u a :=
  h.congr hc (hs.child u) (fun _ _ => hs.parentID u) (hs.exitcode u) fun c _ _ => hs.exitcode c

/-- Process `t` moves to `k`, and the tables stay for the others. -/
theorem Family.move (h : Family s) (hs : Same s s' t) (hpc : s'.pc = Function.update s.pc t k)
    (hcalled : ∀ id : ℤ, (t, .join id) ∈ s'.called → (t, .join id) ∈ s.called ∨ ∃ c : Fin n, id = c ∧ s.IsChild t c)
    (hat : At s' t k) (hands : Hands s') (hsync : Syncs s'.pc s'.sync) : Family s' where
  parent c hc h0 := by
    obtain ⟨p, hp, hp'⟩ := h.parent c (fun he => hc ((hs.slot c).mpr he)) h0
    exact ⟨p, (hs.parentID c).trans hp, fun he => hp' ((hs.slot p).mp he)⟩
  called u id hm := by
    have hold : (u, .join id) ∈ s.called ∨ ∃ c : Fin n, id = c ∧ s.IsChild u c := by
      by_cases hu : u = t
      · subst hu
        exact hcalled id hm
      · exact .inl (((hs.calls u hu).joins id).mp hm)
    obtain ⟨c, hid, hc⟩ := hold.elim (h.called u id) fun hc => hc
    exact ⟨c, hid, (hs.child u c).mpr hc⟩
  places := At.update hpc (fun u hu => hs.at_congr (h.places u) (hs.calls u hu)) hat
  hands := hands
  syncs := hsync
  status := hs.status.trans h.status

theorem Family.keeps (h : Family s) (hs : Same s s' t) (ht : SameCalls s s' t)
    (hpc : s'.pc = Function.update s.pc t k) (hk : (s.pc t).Keeps k) (hands : Hands s')
    (hsync : Syncs s'.pc s'.sync) : Family s' :=
  h.move hs hpc (fun id hm => .inl ((ht.joins id).mp hm)) (hs.at_congr ((h.places t).keeps hk) ht) hands hsync

omit [NeZero n] in
theorem Hands.quiet (h : Hands s) (hs : Same s s' t) (ht : SameCalls s s' t)
    (hpc : s'.pc = Function.update s.pc t k) (hjoin : k.joining = (s.pc t).joining)
    (hpass : k.passedJoin = (s.pc t).passedJoin) (hstage : k.exitStage = (s.pc t).exitStage)
    (hjv : ∀ c, (s'.sync.sem (.joinsem c)).value = (s.sync.sem (.joinsem c)).value)
    (hev : ∀ c, (s'.sync.sem (.exitsem c)).value = (s.sync.sem (.exitsem c)).value) : Hands s' := by
  have hcalled : ∀ (u : Fin n) (id : ℤ), (u, .join id) ∈ s'.called ↔ (u, .join id) ∈ s.called := by
    intro u id
    by_cases hu : u = t
    · subst hu
      exact ht.joins id
    · exact (hs.calls u hu).joins id
  intro p c hc
  rw [joinStage_congr hpc hcalled hjoin hpass, exitStage_congr hpc hstage, hjv, hev]
  exact h p c ((hs.child p c).mp hc)

theorem Family.quiet (h : Family s) (hs : Same s s' t) (ht : SameCalls s s' t)
    (hpc : s'.pc = Function.update s.pc t k) (hq : (s.pc t).Quiet k)
    (hjv : ∀ c, (s'.sync.sem (.joinsem c)).value = (s.sync.sem (.joinsem c)).value)
    (hev : ∀ c, (s'.sync.sem (.exitsem c)).value = (s.sync.sem (.exitsem c)).value)
    (hsync : Syncs s'.pc s'.sync) : Family s' :=
  h.keeps hs ht hpc hq.toKeeps (h.hands.quiet hs ht hpc hq.joining hq.passedJoin hq.exitStage hjv hev) hsync

end

end PTable

end Nachos
