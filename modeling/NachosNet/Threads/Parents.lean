/-
# The parent of a process that exits

`ExitUpdate` calls `DecNumWait` of `pcb[pcb[id]->parentID]`. In every run of
`Exec`, `Join` and `Exit` the field names the process whose `Exec` made the
caller (`Parents`), and its slot has not been used again. But nothing keeps the
PCB there: it is there exactly while the parent has not finished
(`parent_record_iff`), and a parent that is joined while a child of its own
still runs leaves that child with a deleted one (`orphan_uses_deleted_pcb`).
Processes that join all their children before they exit are safe.
-/
import NachosNet.Threads.Join

namespace Nachos

open Basis

namespace Pc

variable {n : ℕ} {a k : Pc n} {t i : Fin n} {l : Loc n}

/-- The pid that the call of `Exec` in which the process is will return, once it is fixed. -/
def execs : Pc n → Option ℤ
  | .exec _ (.fork i) | .exec _ (.thread i) | .exec _ (.unlock i) => some i
  | .execDone _ result => some result
  | _ => Option.none

theorem execs_passed (hw : a.waits t = some l) : a.passed.execs = a.execs := by
  unfold waits at hw
  split at hw <;> first | rfl | cases hw

theorem execs_signalled (hs : a.signals t = some l) : a.signalled.execs = a.execs := by
  unfold signals at hs
  split at hs <;> first | rfl | cases hs

theorem execs_counts (hc : a.counts t = some (i, k)) : k.execs = a.execs := by
  unfold counts at hc
  split at hc <;> cases hc <;> rfl

end Pc

namespace PTable

variable {n : ℕ} {s s' : PTable n} {t : Fin n} {k : Pc n}

/-- The `Exec` that made `c` was called by `p`. -/
def ExecdBy (s : PTable n) (p c : Fin n) : Prop :=
  (s.pc p).execs = some (c : ℤ) ∨ ∃ name, (p, .exec name, (c : ℤ)) ∈ s.returned

/-- The `parentID` of a process is that of the process whose `Exec` made it. -/
structure Parents [NeZero n] (s : PTable n) : Prop where
  child : ∀ p c, s.IsChild p c ↔ s.ExecdBy p c
  parent : ∀ c, c ≠ 0 → s.slot c ≠ .null → ∃ p, (s.pcb c).parentID = some p ∧ s.slot p ≠ .null
  decs : ∀ u q, (s.pc u).decs = some q → (s.pcb u).parentID = some q
  exits : ∀ u, (s.pc u).exits = true → u ≠ 0

variable [NeZero n]

theorem Parents.congr (h : Parents s) (hslot : ∀ c, s'.slot c = .null ↔ s.slot c = .null)
    (hpar : ∀ c, (s'.pcb c).parentID = (s.pcb c).parentID) (hexec : ∀ p c, s'.ExecdBy p c ↔ s.ExecdBy p c)
    (hdecs : ∀ u q, (s'.pc u).decs = some q → (s.pcb u).parentID = some q)
    (hexits : ∀ u, (s'.pc u).exits = true → u ≠ 0) : Parents s' where
  child p c := by
    rw [hexec, ← h.child]
    unfold IsChild
    rw [ne_eq, hslot, hpar]
  parent c h0 hc := by
    obtain ⟨p, hp, hs⟩ := h.parent c h0 (fun hn => hc ((hslot c).mpr hn))
    exact ⟨p, (hpar c).trans hp, fun hn => hs ((hslot p).mp hn)⟩
  decs u q hq := (hpar u).trans (hdecs u q hq)
  exits := hexits

/-- One process moves, and no `Exec` returns. -/
theorem Parents.move (h : Parents s) (hslot : ∀ c, s'.slot c = .null ↔ s.slot c = .null)
    (hpar : ∀ c, (s'.pcb c).parentID = (s.pcb c).parentID)
    (hret : ∀ u name v, (u, .exec name, v) ∈ s'.returned ↔ (u, .exec name, v) ∈ s.returned)
    (hpc : s'.pc = Function.update s.pc t k)
    (hk : ∀ c : Fin n, k.execs = some (c : ℤ) ↔ (s.pc t).execs = some (c : ℤ))
    (hdecs : ∀ q, k.decs = some q → (s.pcb t).parentID = some q) (hexits : k.exits = true → t ≠ 0) : Parents s' := by
  refine h.congr hslot hpar (fun p c => ?_) (fun u q hq => ?_) (fun u hu => ?_)
  · unfold ExecdBy
    simp only [hret, hpc]
    by_cases hp : p = t
    · subst hp
      simp only [Function.update_self, hk]
    · simp only [Function.update_of_ne hp]
  · rw [hpc] at hq
    by_cases ht : u = t
    · subst ht
      exact hdecs q (by simpa using hq)
    · exact h.decs u q (by simpa [ht] using hq)
  · rw [hpc] at hu
    by_cases ht : u = t
    · subst ht
      exact hexits (by simpa using hu)
    · exact h.exits u (by simpa [ht] using hu)

theorem parents_init (unset : Fin n → PCB n) (name : FileName) : Parents (init unset name) := by
  have hpc : ∀ u : Fin n, (init unset name).pc u = .user ∨ (init unset name).pc u = .none := by
    intro u
    rw [pc_init]
    exact ite_eq_or_eq ..
  refine ⟨fun p c => ?_, fun c h0 hc => ?_, fun u q hq => ?_, fun u hu => ?_⟩
  · have hno : ¬ (init unset name).ExecdBy p c := by
      rintro (he | ⟨nm, hm⟩)
      · rcases hpc p with hp | hp <;> rw [hp] at he <;> cases he
      · simp [init] at hm
    refine iff_of_false (fun hc => ?_) hno
    by_cases h0 : c = 0
    · subst h0
      simpa [init] using hc.2
    · simpa [init, h0] using hc.1
  · simp [init, h0] at hc
  · rcases hpc u with hp | hp <;> rw [hp] at hq <;> cases hq
  · rcases hpc u with hp | hp <;> rw [hp] at hu <;> cases hu

theorem parents_new (h : Parents s) (hi : Inv s) {name : FileName} {i : Fin n} (hpc : s.pc t = .exec name (.new i)) :
    Parents ((s.newPCB i t).goto t (.exec name (.fork i))) := by
  have hnull : s.slot i = .null := hi.chosen t i (by rw [hpc]; rfl)
  have hold : ∀ p, ¬ s.ExecdBy p i := fun p he => ((h.child p i).mpr he).1 hnull
  have hpcs := pc_newPCB s i t (.exec name (.fork i))
  have hslot := slot_newPCB s i t (.exec name (.fork i))
  have hpcb := pcb_newPCB s i t (.exec name (.fork i))
  -- the process that makes a call of `Exec` is there
  have htlive : s.slot t = .live := live_self hi (by simp [hpc, Pc.active])
  refine ⟨fun p c => ?_, fun c h0 hc => ?_, fun u q hq => ?_, fun u hu => ?_⟩
  · have hexec : ((s.newPCB i t).goto t (.exec name (.fork i))).ExecdBy p c ↔
        (c = i ∧ p = t) ∨ s.ExecdBy p c := by
      unfold ExecdBy
      rw [hpcs]
      by_cases hp : p = t
      · subst hp
        have hcast : (i : ℤ) = (c : ℤ) ↔ c = i := by
          rw [Fin.ext_iff]
          omega
        simp only [hpc, if_true, Pc.execs, Option.some.injEq, hcast, and_true]
        simp [goto, newPCB]
      · simp only [hp, if_false, and_false, false_or]
        rfl
    rw [hexec, isChild_newPCB, h.child p c]
    refine or_congr_right ⟨And.right, fun he => ⟨?_, he⟩⟩
    rintro rfl
    exact hold p he
  · have hkeep : ∀ p, s.slot p ≠ .null → ((s.newPCB i t).goto t (.exec name (.fork i))).slot p ≠ .null := by
      intro p hp
      rw [hslot]
      split
      · simp
      · exact hp
    rw [hpcb]
    by_cases hci : c = i
    · exact ⟨t, by rw [if_pos hci], hkeep t (by simp [htlive])⟩
    · rw [hslot, if_neg hci] at hc
      obtain ⟨p, hp, hs⟩ := h.parent c h0 hc
      exact ⟨p, by rw [if_neg hci, hp], hkeep p hs⟩
  · rw [hpcs] at hq
    split at hq
    · cases hq
    · have hui : u ≠ i := by
        rintro rfl
        simp [hi.null u hnull, Pc.decs] at hq
      rw [hpcb, if_neg hui]
      exact h.decs u q hq
  · rw [hpcs] at hu
    split at hu
    · cases hu
    · exact h.exits u hu

theorem parents_thread (h : Parents s) (hi : Inv s) {name : FileName} {i : Fin n}
    (hpc : s.pc t = .exec name (.thread i)) :
    Parents ((s.newThread i t name).goto t (.exec name (.unlock i))) := by
  obtain ⟨-, hpci⟩ := hi.creating t i (by rw [hpc]; rfl)
  have hchild : s.IsChild t i := (h.child t i).mpr (.inl (by rw [hpc]; rfl))
  have hne : i ≠ t := by
    rintro rfl
    simp [hpci] at hpc
  have hpcs := pc_newThread s i t name (.exec name (.unlock i))
  refine h.congr (fun _ => Iff.rfl) (fun c => ?_) (fun p c => ?_) (fun u q hq => ?_) (fun u hu => ?_)
  · by_cases hc : c = i
    · subst hc
      simpa [goto, newThread, setPCB] using hchild.2.symm
    · simp [goto, newThread, setPCB, hc]
  · unfold ExecdBy
    refine or_congr ?_ Iff.rfl
    rw [hpcs]
    by_cases hpt : p = t
    · simp [hpt, hpc, Pc.execs]
    · by_cases hpi : p = i
      · simp [hpi, hne, hpci, Pc.execs]
      · simp [hpt, hpi]
  · rw [hpcs] at hq
    split at hq
    · cases hq
    · split at hq
      · cases hq
      · exact h.decs u q hq
  · rw [hpcs] at hu
    split at hu
    · cases hu
    · split at hu
      · cases hu
      · exact h.exits u hu

theorem parents_execReturn (h : Parents s) {name : Option FileName} {v : ℤ} (hpc : s.pc t = .execDone name v) :
    Parents ((s.atV .bmsem).ret t (.exec name) v) := by
  have hself : ((s.atV .bmsem).ret t (.exec name) v).pc t = .user := by simp [ret, goto]
  have hother : ∀ u, u ≠ t → ((s.atV .bmsem).ret t (.exec name) v).pc u = s.pc u :=
    fun u hu => by simp [ret, goto, atV, setSync, hu]
  have hret : ((s.atV .bmsem).ret t (.exec name) v).returned = s.returned ++ [(t, .exec name, v)] := rfl
  refine h.congr (fun _ => Iff.rfl) (fun _ => rfl) (fun p c => ?_) (fun u q hq => ?_) (fun u hu => ?_)
  · unfold ExecdBy
    simp only [hret, List.mem_append, List.mem_singleton, Prod.mk.injEq, Call.exec.injEq, exists_or]
    by_cases hp : p = t
    · subst hp
      simp [hself, hpc, Pc.execs, or_comm, eq_comm]
    · simp [hother p hp, hp]
  · by_cases hut : u = t
    · rw [hut, hself] at hq
      cases hq
    · exact h.decs u q (hother u hut ▸ hq)
  · by_cases hut : u = t
    · rw [hut, hself] at hu
      cases hu
    · exact h.exits u (hother u hut ▸ hu)

theorem parents_run (h : Parents s) (hi : Inv s) (hs : Step s t s') : Parents s' := by
  have hkeeps : ∀ {k : Pc n}, (s.pc t).Keeps k → (∀ q, k.decs = some q → (s.pcb t).parentID = some q) ∧
      (k.exits = true → t ≠ 0) :=
    fun hk => ⟨fun q hq => h.decs t q (hk.decs q hq), fun he => h.exits t (hk.exits ▸ he)⟩
  cases hs with
  | fault | orphan | sleep => exact ⟨h.child, h.parent, h.decs, h.exits⟩
  | pass hw =>
    exact h.move (fun _ => Iff.rfl) (fun _ => rfl) (fun _ _ _ => Iff.rfl) rfl (fun c => by rw [Pc.execs_passed hw])
      (hkeeps (Pc.keeps_passed hw)).1 (hkeeps (Pc.keeps_passed hw)).2
  | signal hs =>
    exact h.move (fun _ => Iff.rfl) (fun _ => rfl) (fun _ _ _ => Iff.rfl) rfl
      (fun c => by rw [Pc.execs_signalled hs]) (hkeeps (Pc.keeps_signalled hs)).1 (hkeeps (Pc.keeps_signalled hs)).2
  | @count i k v hc =>
    refine h.move (fun _ => Iff.rfl) (fun c => ?_) (fun _ _ _ => Iff.rfl) rfl (fun c => by rw [Pc.execs_counts hc])
      (hkeeps (Pc.quiet_counts hc).toKeeps).1 (hkeeps (Pc.quiet_counts hc).toKeeps).2
    by_cases hci : c = i
    · subst hci
      simp [goto, setPCB]
    · simp [goto, setPCB, hci]
  | execFail hpc =>
    refine h.move (fun _ => Iff.rfl) (fun _ => rfl) (fun _ _ _ => Iff.rfl) rfl (fun c => ?_)
      (fun q hq => by cases hq) (fun he => by cases he)
    rw [hpc]
    simp only [Pc.execs, Option.some.injEq, reduceCtorEq]
  | execFound hpc =>
    exact h.move (fun _ => Iff.rfl) (fun _ => rfl) (fun _ _ _ => Iff.rfl) rfl (fun c => by rw [hpc]; rfl)
      (fun q hq => by cases hq) (fun he => by cases he)
  | new hpc => exact parents_new h hi hpc
  | thread hpc => exact parents_thread h hi hpc
  | execReturn hpc => exact parents_execReturn h hpc
  | joinFail hpc | release hpc | exitFail hpc =>
    exact h.move (k := .user) (fun _ => Iff.rfl) (fun _ => rfl) (fun _ _ _ => by simp [ret, goto, atV, setSync]) rfl
      (fun c => by rw [hpc]; rfl) (fun q hq => by cases hq) (fun he => by cases he)
  | joinFound hpc | read hpc =>
    exact h.move (fun _ => Iff.rfl) (fun _ => rfl) (fun _ _ _ => Iff.rfl) rfl (fun c => by rw [hpc]; rfl)
      (fun q hq => by cases hq) (fun he => by cases he)
  | @set v q hpc hp =>
    refine h.move (fun _ => Iff.rfl) (fun c => ?_) (fun _ _ _ => Iff.rfl) rfl (fun c => by rw [hpc]; rfl)
      (fun q' hq => ?_) (fun _ => h.exits t (by rw [hpc]; rfl))
    · by_cases hct : c = t
      · subst hct
        simp [goto, setPCB]
      · simp [goto, setPCB, hct]
    · exact hp.trans hq
  | remove hpc =>
    have hlive : s.slot t = .live := live_self hi (by rw [hpc]; rfl)
    refine h.move (fun c => ?_) (fun _ => rfl) (fun _ _ _ => Iff.rfl) rfl (fun c => by rw [hpc]; rfl)
      (fun q hq => by cases hq) (fun _ => h.exits t (by rw [hpc]; rfl))
    by_cases hct : c = t
    · subst hct
      simp [goto, hlive]
    · simp [goto, hct]

theorem parents_call (h : Parents s) (hpc : s.pc t = .user) (c : Call) :
    Parents { s.call t c with called := s.called ++ [(t, c)] } := by
  have hmove : ∀ k : Pc n, k.execs = none → k.decs = none → (k.exits = true → t ≠ 0) →
      Parents { s.goto t k with called := s.called ++ [(t, c)] } := fun k h1 h2 h3 =>
    h.move (k := k) (fun _ => Iff.rfl) (fun _ => rfl) (fun _ _ _ => Iff.rfl) rfl (fun c => by rw [hpc, h1]; rfl)
      (fun q hq => by rw [h2] at hq; cases hq) h3
  unfold call
  cases c with
  | exec name => exact hmove (.execLock name) rfl rfl (fun he => by cases he)
  | join id => exact hmove (.joinCheck id) rfl rfl (fun he => by cases he)
  | exit v =>
    by_cases ht : t = 0
    · simp only [ht, if_true]
      exact ⟨h.child, h.parent, h.decs, h.exits⟩
    · simp only [ht, if_false]
      exact hmove (.exit v .set) rfl rfl (fun _ => ht)

theorem parents_step {e : Event n} (hi : Inv s) (h : Parents s) (hs : s.step e = some s') : Parents s' := by
  cases e with
  | call t c =>
    obtain ⟨hpc, rfl⟩ := step_call hs
    exact parents_call h hpc c
  | run t => exact parents_run h hi (step_run hs).2

theorem parents_exec (unset : Fin n → PCB n) (name : FileName) (es : List (Event n)) (s : PTable n)
    (h : exec step (init unset name) es = some s) : Inv s ∧ Parents s :=
  exec_induction (P := fun _ s => Inv s ∧ Parents s) ⟨inv_init unset name, parents_init unset name⟩
    (fun _ _ _ _ hP hs => ⟨inv_step hP.1 hs, parents_step hP.1 hP.2 hs⟩) es s h

/-- In every run with file names that fit into `PCB::filename`, a process that executes `ExitUpdate` has in `parentID` the
one process whose `Exec` made it, whose slot still has its PCB exactly when it
has not finished; and in `DecNumWait` it has its PCB when each process joins
its children before it exits. -/
theorem parent_record_iff (unset : Fin n → PCB n) (name : FileName) (es : List (Event n)) (s : PTable n)
    (h : exec step (init unset name) es = some s) (id : Fin n) (v : ℤ) (k : ExitPc n) (hpc : s.pc id = .exit v k) :
    ∃ q, (s.pcb id).parentID = some q ∧ (∀ p, s.ExecdBy p id ↔ p = q) ∧
      (s.slot q = .live ↔ s.pc q ≠ .finished) ∧
      (Along step JoinEach (init unset name) es → (s.pc id).decs ≠ none → s.slot q = .live) := by
  obtain ⟨hi, hp⟩ := parents_exec unset name es s h
  have hlive : s.slot id = .live := live_self hi (by rw [hpc]; rfl)
  obtain ⟨q, hq, hqs⟩ := hp.parent id (hp.exits id (by rw [hpc]; rfl)) (by simp [hlive])
  refine ⟨q, hq, fun p => ?_, ?_, fun hj hd => ?_⟩
  · rw [← hp.child, IsChild, hq, hlive]
    simp [eq_comm]
  · rw [ne_eq, hi.finished q]
    cases hs : s.slot q with
    | null => exact absurd hs hqs
    | live => simp
    | freed => simp
  · obtain ⟨hi, hf⟩ := exec_induction_along (P := fun _ s => Inv s ∧ Family s)
      ⟨inv_init unset name, family_init unset name⟩ (fun _ _ _ _ hP hC hs => family_step hP.1 hP.2 hC hs) es s hj h
    obtain ⟨q', hq'⟩ := Option.ne_none_iff_exists'.mp hd
    obtain rfl : q = q' := Option.some.inj (hq.symm.trans (hp.decs id q' hq'))
    exact hf.live_parent hi hq'

/-- Process 0 executes `a`, which executes `b` as process 2; process 0 joins `a`, and then 2 calls `Exit`. -/
def orphanRun : List (Event MAX_PROCESS) :=
  execRun ++ (.call 1 (.exec (some ⟨[0x62], by decide⟩)) :: List.replicate 7 (.run 1)) ++
    (.call 0 (.join 1) :: List.replicate 5 (.run 0)) ++ (.call 1 (.exit 7) :: List.replicate 6 (.run 1)) ++
    List.replicate 3 (.run 0) ++ List.replicate 2 (.run 1) ++ [.call 2 (.exit 0), .run 2]

/-- Process 2 is about to call `DecNumWait` of process 1, whose PCB has been deleted, and the next step uses it. -/
theorem orphan_uses_deleted_pcb : ∃ s, exec step initMain orphanRun = some s ∧
    s.pc 2 = .exit 0 (.decP 1) ∧ (s.pcb 2).parentID = some 1 ∧ s.ExecdBy 1 2 ∧ s.slot 1 = .freed ∧
    (s.step (.run 2)).map (fun s' => s'.status) = some .fault := by
  have hrun : ((exec step initMain orphanRun).bind fun s => some (decide
      (s.pc 2 = .exit 0 (.decP 1) ∧ (s.pcb 2).parentID = some 1 ∧
        (1, .exec (some ⟨[0x62], by decide⟩), 2) ∈ s.returned ∧ s.slot 1 = .freed ∧
        (s.step (.run 2)).map (fun s' => s'.status) = some .fault))) = some true := by
    decide +kernel
  obtain ⟨s, hs, h⟩ := Option.bind_eq_some_iff.mp hrun
  obtain ⟨h1, h2, h3, h4, h5⟩ := of_decide_eq_true (Option.some.inj h)
  exact ⟨s, hs, h1, h2, .inr ⟨_, h3⟩, h4, h5⟩

/-- Process 0 executes `a`, which executes `b` as process 2, and 2 calls `Exit` while process 1 runs. -/
def nestedRun : List (Event MAX_PROCESS) :=
  execRun ++ (.call 1 (.exec (some ⟨[0x62], by decide⟩)) :: List.replicate 7 (.run 1)) ++
    [.call 2 (.exit 0), .run 2]

theorem parent_record_nestedRun : ∃ s, exec step initMain nestedRun = some s ∧
    ∃ q, (s.pcb 2).parentID = some q ∧ s.ExecdBy q 2 ∧ s.slot q = .live := by
  have hj : Along step JoinEach initMain nestedRun := by decide +kernel
  have hrun : ((exec step initMain nestedRun).bind fun s => some (decide (s.pc 2 = .exit 0 (.decP 1)))) =
      some true := by
    decide +kernel
  obtain ⟨s, hs, h⟩ := Option.bind_eq_some_iff.mp hrun
  have hpc : s.pc 2 = .exit 0 (.decP 1) := by simpa using h
  obtain ⟨q, hq, hexec, -, hlive⟩ := parent_record_iff _ _ nestedRun s hs 2 0 (.decP 1) hpc
  exact ⟨s, hs, q, hq, (hexec q).mpr rfl, hlive hj (by simp [hpc, Pc.decs])⟩

end PTable

end Nachos
