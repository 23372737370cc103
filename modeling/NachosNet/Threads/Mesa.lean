/-
# What a monitor is

`Mesa` is the monitor that `Lock` and `Condition` are made for: one thread is inside, a
wait leaves the monitor and joins the queue of its condition at once, a signal lets the
first thread of the queue compete for the monitor again, and a broadcast all of them.

The implementation releases the lock and sleeps in several steps, and takes the waiters
of a broadcast out one by one; seen through `mesa` each of its steps is one of `Mesa`, the
one that `linearize` says, or none (`Inv.follows`).

Key definitions: `Mesa`, `Mesa.step`, `Monitor.mesa`, `Monitor.linearize`.

Key theorem: `monitor_refines_mesa`.
-/
import NachosNet.Basis.Stutter
import NachosNet.Threads.Monitor

namespace Nachos

open Basis

/-! ### The monitor as it is meant -/

/-- Where a thread is: it competes for the monitor for the first time (`entering`), or after it has waited (`woken`). -/
inductive Mesa.Place (κ : Type*)
  | outside
  | entering
  | inside
  | waiting (c : κ)
  | woken
  deriving DecidableEq

inductive Mesa.Event (τ κ : Type*)
  /-- The thread wants to enter. -/
  | call (t : τ)
  | enter (t : τ)
  | wait (t : τ) (c : κ)
  | signal (t : τ) (c : κ)
  | broadcast (t : τ) (c : κ)
  | leave (t : τ)
  deriving DecidableEq

@[ext] structure Mesa (τ κ : Type*) where
  place : τ → Mesa.Place κ
  queue : κ → List τ

namespace Mesa

variable {τ κ : Type*}

def init : Mesa τ κ := ⟨fun _ => .outside, fun _ => []⟩

variable [DecidableEq τ]

def goto (a : Mesa τ κ) (t : τ) (p : Place κ) : Mesa τ κ := { a with place := Function.update a.place t p }

variable [DecidableEq κ]

/-- The first `n` threads in the queue of `c` are woken. -/
def wake (a : Mesa τ κ) (c : κ) (n : ℕ) : Mesa τ κ where
  place u := if u ∈ (a.queue c).take n then .woken else a.place u
  queue := Function.update a.queue c ((a.queue c).drop n)

/-- One step; `none` when the thread may not make it. -/
def step [Fintype τ] (a : Mesa τ κ) : Event τ κ → Option (Mesa τ κ)
  | .call t => if a.place t = .outside then some (a.goto t .entering) else none
  | .enter t =>
    if (a.place t = .entering ∨ a.place t = .woken) ∧ ∀ u, a.place u ≠ .inside then some (a.goto t .inside) else none
  | .wait t c =>
    if a.place t = .inside then
      some { a.goto t (.waiting c) with queue := Function.update a.queue c (a.queue c ++ [t]) }
    else none
  | .signal t c => if a.place t = .inside then some (a.wake c 1) else none
  | .broadcast t c => if a.place t = .inside then some (a.wake c (a.queue c).length) else none
  | .leave t => if a.place t = .inside then some (a.goto t .outside) else none

section Steps

variable [Fintype τ] {a : Mesa τ κ} {t : τ}

theorem step_call (h : a.place t = .outside) : a.step (.call t) = some (a.goto t .entering) := if_pos h

theorem step_enter (h : a.place t = .entering ∨ a.place t = .woken) (hfree : ∀ u, a.place u ≠ .inside) :
    a.step (.enter t) = some (a.goto t .inside) := if_pos ⟨h, hfree⟩

theorem step_wait (h : a.place t = .inside) (c : κ) : a.step (.wait t c) =
    some { a.goto t (.waiting c) with queue := Function.update a.queue c (a.queue c ++ [t]) } := if_pos h

theorem step_signal (h : a.place t = .inside) (c : κ) : a.step (.signal t c) = some (a.wake c 1) := if_pos h

theorem step_broadcast (h : a.place t = .inside) (c : κ) :
    a.step (.broadcast t c) = some (a.wake c (a.queue c).length) := if_pos h

theorem step_leave (h : a.place t = .inside) : a.step (.leave t) = some (a.goto t .outside) := if_pos h

end Steps

end Mesa

/-! ### The monitor that is implemented -/

namespace Monitor

namespace Pc

variable {τ κ : Type*}

/-- The condition of a `Broadcast`. -/
def loops : Pc τ κ → Option κ
  | .broadcast c | .signal c true | .post _ c true => some c
  | _ => none

def isSleep : Pc τ κ → Bool
  | .sleep _ => true
  | _ => false

/-- Where the thread is in the monitor, when it is in the queues of `w`. -/
def place (w : κ → Prop) [DecidablePred w] : Pc τ κ → Mesa.Place κ
  | .idle => .outside
  | .acquire false => .entering
  | .acquire true => .woken
  | .sleep c => if w c then .waiting c else .woken
  | _ => .inside

theorem inside_of_loops {p : Pc τ κ} {c : κ} (h : p.loops = some c) : p.inside = true := by
  cases p <;> simp_all [loops, inside]

theorem isSleep_of_inside {p : Pc τ κ} (h : p.inside = true) : p.isSleep = false := by
  cases p <;> simp_all [inside, isSleep]

theorem place_eq_inside {p : Pc τ κ} (w : κ → Prop) [DecidablePred w] : p.place w = .inside ↔ p.inside = true := by
  cases p with
  | acquire again => cases again <;> simp [place, inside]
  | sleep c => by_cases hw : w c <;> simp [place, inside, hw]
  | _ => simp [place, inside]

end Pc

variable {τ κ : Type*}

/-- What the next statement of thread `t` is in the monitor. -/
def linearizeRun (s : Monitor τ κ) (t : τ) : Option (Mesa.Event τ κ) :=
  match s.pc t with
  | .acquire _ => if (s.sleepers.sem none).value = 0 then none else some (.enter t)
  | .signal c false => some (.signal t c)
  | .unlock none => some (.leave t)
  | .unlock (some c) => some (.wait t c)
  | _ => none

/-- What a step is in the monitor. -/
def linearize (s : Monitor τ κ) : Event τ κ → Option (Mesa.Event τ κ)
  | .acquire t => some (.call t)
  | .call t (.broadcast c) => some (.broadcast t c)
  | .call _ _ => none
  | .run t => s.linearizeRun t

variable [DecidableEq τ]

/-- The monitor with these queues, when the threads are at `pc` and a `Broadcast` for each condition of `B` has begun.
A thread waits until it has been taken out of the queue or such a `Broadcast` has begun. A thread with the lock has not
left yet, though `Wait` has put it into the queue. -/
def mesaOf (pc : τ → Pc τ κ) (waitQueue : κ → List τ) (B : κ → Prop) [DecidablePred B] : Mesa τ κ where
  place u := (pc u).place fun c => u ∈ waitQueue c ∧ ¬ B c
  queue c := if B c then [] else (waitQueue c).filter fun u => (pc u).isSleep

variable {pc : τ → Pc τ κ} {q : κ → List τ} {B B' : κ → Prop} [DecidablePred B] [DecidablePred B'] {c : κ} {t : τ}

theorem mesaOf_congr (h : ∀ c, B c ↔ B' c) : mesaOf pc q B = mesaOf pc q B' := by
  obtain rfl : B = B' := funext fun c => propext (h c)
  congr

theorem mesaOf_inside {p : Pc τ κ} (ht : (pc t).inside = true) (hp : p.inside = true) :
    mesaOf (Function.update pc t p) q B = mesaOf pc q B := by
  refine Mesa.ext (funext fun u => ?_) (funext fun c => ?_)
  · unfold mesaOf
    dsimp only
    obtain rfl | hu := eq_or_ne u t
    · rw [Function.update_self, (Pc.place_eq_inside _).mpr hp, (Pc.place_eq_inside _).mpr ht]
    · rw [Function.update_of_ne hu]
  · unfold mesaOf
    dsimp only
    congr 1
    refine List.filter_congr fun u _ => ?_
    obtain rfl | hu := eq_or_ne u t
    · rw [Function.update_self, Pc.isSleep_of_inside hp, Pc.isSleep_of_inside ht]
    · rw [Function.update_of_ne hu]

theorem mesaOf_update {p : Pc τ κ} {P : Mesa.Place κ} (hP : p.place (fun c => t ∈ q c ∧ ¬ B c) = P)
    (hsleep : ∀ c, t ∈ q c → p.isSleep = (pc t).isSleep) :
    mesaOf (Function.update pc t p) q B = (mesaOf pc q B).goto t P := by
  refine Mesa.ext (funext fun u => ?_) (funext fun c => ?_)
  · unfold mesaOf Mesa.goto
    dsimp only
    obtain rfl | hu := eq_or_ne u t
    · rw [Function.update_self, Function.update_self, hP]
    · rw [Function.update_of_ne hu, Function.update_of_ne hu]
  · unfold mesaOf Mesa.goto
    dsimp only
    congr 1
    refine List.filter_congr fun u hu => ?_
    obtain rfl | hut := eq_or_ne u t
    · rw [Function.update_self, hsleep c hu]
    · rw [Function.update_of_ne hut]

variable [DecidableEq κ]

theorem mesaOf_broadcast (hc : B c) (l : List τ) : mesaOf pc (Function.update q c l) B = mesaOf pc q B := by
  refine Mesa.ext (funext fun u => ?_) (funext fun c' => ?_)
  · unfold mesaOf
    dsimp only
    congr 1
    funext c'
    obtain rfl | hc' := eq_or_ne c' c
    · simp [hc]
    · rw [Function.update_of_ne hc']
  · unfold mesaOf
    dsimp only
    obtain rfl | hc' := eq_or_ne c' c
    · rw [if_pos hc, if_pos hc]
    · rw [Function.update_of_ne hc']

variable [Fintype τ]

/-- A thread is in `Broadcast` for the condition. -/
def Broadcasting (s : Monitor τ κ) (c : κ) : Prop := ∃ t, (s.pc t).loops = some c

instance (s : Monitor τ κ) : DecidablePred s.Broadcasting := fun _ => inferInstanceAs (Decidable (∃ _, _))

/-- The monitor that is implemented. -/
def mesa (s : Monitor τ κ) : Mesa τ κ := mesaOf s.pc s.waitQueue s.Broadcasting

/-! ### Every step -/

variable {s s' : Monitor τ κ}

omit [DecidableEq κ] in
theorem Inv.broadcasting_iff (h : Inv s) (ht : (s.pc t).inside = true) (c : κ) :
    s.Broadcasting c ↔ (s.pc t).loops = some c := by
  refine ⟨fun ⟨u, hu⟩ => ?_, fun hc => ⟨t, hc⟩⟩
  obtain rfl := h.unique ht (Pc.inside_of_loops hu)
  exact hu

theorem Inv.mesa_inside (h : Inv s) (ht : (s.pc t).inside = true) :
    s.mesa = mesaOf s.pc s.waitQueue fun c => (s.pc t).loops = some c := mesaOf_congr (h.broadcasting_iff ht)

/-- The monitor after a step inside. -/
theorem Inv.mesa_inner {p : Pc τ κ} (h' : Inv s') (ht : (s.pc t).inside = true)
    (hpc : s'.pc = Function.update s.pc t p) (hp : p.inside = true) :
    s'.mesa = mesaOf s.pc s'.waitQueue fun c => p.loops = some c := by
  have hself : s'.pc t = p := by rw [hpc, Function.update_self]
  rw [h'.mesa_inside (hself ▸ hp), hself, hpc]
  exact mesaOf_inside ht hp

/-- A step inside that changes nothing in the monitor. -/
theorem Inv.mesa_quiet {p : Pc τ κ} (h : Inv s) (h' : Inv s') (ht : (s.pc t).inside = true)
    (hpc : s'.pc = Function.update s.pc t p) (hp : p.inside = true) (hq : s'.waitQueue = s.waitQueue)
    (hloops : p.loops = (s.pc t).loops) : s'.mesa = s.mesa := by
  rw [h'.mesa_inner ht hpc hp, h.mesa_inside ht, hq, hloops]

theorem place_inside (ht : (s.pc t).inside = true) : s.mesa.place t = .inside := (Pc.place_eq_inside _).mpr ht

/-- The monitor while no thread is inside. -/
theorem mesa_free (hfree : ∀ u, ¬ (s.pc u).inside = true) : s.mesa = mesaOf s.pc s.waitQueue fun _ => False :=
  mesaOf_congr fun _ => iff_false_intro fun ⟨u, hu⟩ => hfree u (Pc.inside_of_loops hu)

/-- While no `Broadcast` is going on, a thread inside is like no thread inside. -/
theorem Inv.mesa_not_loops (h : Inv s) (ht : (s.pc t).inside = true) (hl : (s.pc t).loops = none) :
    s.mesa = mesaOf s.pc s.waitQueue fun _ => False := by
  refine (h.mesa_inside ht).trans (mesaOf_congr fun c => iff_false_intro ?_)
  rw [hl]
  simp

theorem Inv.follows_enter (h : Inv s) {again : Bool} (hp : s.pc t = .acquire again)
    (hv : (s.sleepers.sem none).value ≠ 0)
    (h' : Inv ({ s with sleepers := (s.sleepers.P t none).1 }.goto t (.hold again))) :
    s.mesa.step (.enter t) = some ({ s with sleepers := (s.sleepers.P t none).1 }.goto t (.hold again)).mesa := by
  have hfree := h.lock.outside hv
  have hnot : ∀ c, t ∉ s.waitQueue c := h.notMem_of_queuedAt (by rw [hp]; rfl)
  have hself : ({ s with sleepers := (s.sleepers.P t none).1 }.goto t (.hold again) : Monitor τ κ).pc t = .hold again :=
    Function.update_self _ _ _
  have hplace : s.mesa.place t = .entering ∨ s.mesa.place t = .woken := by
    unfold mesa mesaOf
    dsimp only
    rw [hp]
    cases again
    · exact Or.inl rfl
    · exact Or.inr rfl
  have hout : ∀ u, s.mesa.place u ≠ .inside := fun u hu => hfree u ((Pc.place_eq_inside _).mp hu)
  rw [Mesa.step_enter hplace hout, h'.mesa_not_loops (by rw [hself]; rfl) (by rw [hself]; rfl), mesa_free hfree]
  refine congrArg some (Eq.symm ?_)
  exact mesaOf_update (p := .hold again) rfl fun c hc => absurd hc (hnot c)

theorem Inv.follows_leave (h : Inv s) (hp : s.pc t = .unlock none) :
    s.mesa.step (.leave t) = some ({ s with sleepers := s.sleepers.V none }.goto t .idle).mesa := by
  have ht : (s.pc t).inside = true := by rw [hp]; rfl
  have hnot : ∀ c, t ∉ s.waitQueue c := h.notMem_of_queuedAt (by rw [hp]; rfl)
  have hfree : ∀ u, ¬ (Function.update s.pc t .idle u).inside = true := by
    intro u hu
    obtain rfl | hut := eq_or_ne u t
    · rw [Function.update_self] at hu
      cases hu
    · rw [Function.update_of_ne hut] at hu
      exact hut (h.unique ht hu)
  have hmesa : ({ s with sleepers := s.sleepers.V none }.goto t .idle).mesa =
      mesaOf (Function.update s.pc t .idle) s.waitQueue fun _ => False := mesa_free hfree
  rw [Mesa.step_leave (place_inside ht), hmesa, h.mesa_not_loops ht (by rw [hp]; rfl)]
  refine congrArg some (Eq.symm ?_)
  exact mesaOf_update (p := .idle) rfl fun c hc => absurd hc (hnot c)

theorem Inv.follows_wait (h : Inv s) {c : κ} (hp : s.pc t = .unlock (some c)) :
    s.mesa.step (.wait t c) = some ({ s with sleepers := s.sleepers.V none }.goto t (.sleep c)).mesa := by
  have ht : (s.pc t).inside = true := by rw [hp]; rfl
  obtain ⟨q, hq⟩ := h.last t c (by rw [hp]; rfl)
  have hnodup := h.nodup c
  rw [hq, List.nodup_append] at hnodup
  have htq : t ∉ q := fun hm => hnodup.2.2 t hm t (List.mem_singleton_self t) rfl
  have hother : ∀ c', c' ≠ c → t ∉ s.waitQueue c' := by
    intro c' hc hm
    have hat := (h.queue c' t hm).1
    rw [hp] at hat
    exact hc (Option.some.inj hat).symm
  have hfree : ∀ u, ¬ (Function.update s.pc t (.sleep c) u).inside = true := by
    intro u hu
    obtain rfl | hut := eq_or_ne u t
    · rw [Function.update_self] at hu
      cases hu
    · rw [Function.update_of_ne hut] at hu
      exact hut (h.unique ht hu)
  have hsleep : ∀ u, u ≠ t → (Function.update s.pc t (.sleep c) u).isSleep = (s.pc u).isSleep :=
    fun u hu => by rw [Function.update_of_ne hu]
  have hmesa : ({ s with sleepers := s.sleepers.V none }.goto t (.sleep c)).mesa =
      mesaOf (Function.update s.pc t (.sleep c)) s.waitQueue fun _ => False := mesa_free hfree
  rw [Mesa.step_wait (place_inside ht), hmesa, h.mesa_not_loops ht (by rw [hp]; rfl)]
  refine congrArg some (Mesa.ext (funext fun u => ?_) (funext fun c' => ?_))
  · change Function.update (mesaOf s.pc s.waitQueue fun _ => False).place t (.waiting c) u =
      ((Function.update s.pc t (.sleep c)) u).place _
    obtain rfl | hut := eq_or_ne u t
    · have hm : u ∈ s.waitQueue c := by rw [hq]; simp
      rw [Function.update_self, Function.update_self]
      exact (if_pos ⟨hm, not_false⟩).symm
    · rw [Function.update_of_ne hut, Function.update_of_ne hut]
      rfl
  · change Function.update (fun c => (s.waitQueue c).filter fun u => (s.pc u).isSleep) c
      ((s.waitQueue c).filter (fun u => (s.pc u).isSleep) ++ [t]) c' =
        (s.waitQueue c').filter fun u => (Function.update s.pc t (.sleep c) u).isSleep
    obtain rfl | hc := eq_or_ne c' c
    · rw [Function.update_self, hq, List.filter_append, List.filter_append]
      have hbefore : [t].filter (fun u => (s.pc u).isSleep) = [] := by simp [hp, Pc.isSleep]
      have hafter : [t].filter (fun u => (Function.update s.pc t (.sleep c') u).isSleep) = [t] := by simp [Pc.isSleep]
      rw [hbefore, hafter, List.append_nil]
      refine congrArg (· ++ [t]) (List.filter_congr fun u hu => (hsleep u ?_).symm)
      rintro rfl
      exact htq hu
    · rw [Function.update_of_ne hc]
      refine List.filter_congr fun u hu => (hsleep u ?_).symm
      rintro rfl
      exact hother c' hc hu

omit [DecidableEq κ] in
/-- The threads in a queue outside of a `Broadcast`, while another thread is inside. -/
theorem Inv.filter_queue (h : Inv s) (ht : (s.pc t).inside = true) (hnot : ∀ c, t ∉ s.waitQueue c) (c : κ) :
    (s.waitQueue c).filter (fun u => (s.pc u).isSleep) = s.waitQueue c := by
  refine List.filter_eq_self.mpr fun u hu => ?_
  rw [h.eq_sleep ht hu fun he => hnot c (he ▸ hu)]
  rfl

theorem Inv.follows_signal (h : Inv s) {c : κ} (hp : s.pc t = .signal c false) {u : τ} {q : List τ}
    (hq : s.waitQueue c = u :: q)
    (h' : Inv ({ s with waitQueue := Function.update s.waitQueue c q }.goto t (.post u c false))) :
    s.mesa.step (.signal t c) =
      some ({ s with waitQueue := Function.update s.waitQueue c q }.goto t (.post u c false)).mesa := by
  have ht : (s.pc t).inside = true := by rw [hp]; rfl
  have hnot : ∀ c, t ∉ s.waitQueue c := h.notMem_of_queuedAt (by rw [hp]; rfl)
  have hu : u ∈ s.waitQueue c := by rw [hq]; exact List.mem_cons_self
  have hsleep := h.eq_sleep ht hu fun he => hnot c (he ▸ hu)
  have hnodup := h.nodup c
  rw [hq, List.nodup_cons] at hnodup
  rw [Mesa.step_signal (place_inside ht), h'.mesa_inner ht rfl rfl, h.mesa_not_loops ht (by rw [hp]; rfl)]
  refine congrArg some (Mesa.ext (funext fun x => ?_) (funext fun c' => ?_))
  · change (if x ∈ ((s.waitQueue c).filter _).take 1 then _ else _) = _
    rw [h.filter_queue ht hnot, hq, List.take_one, List.head?_cons, Option.toList_some]
    obtain rfl | hx := eq_or_ne x u
    · have hout : ¬ (x ∈ Function.update s.waitQueue c q c ∧ ¬ (Pc.post x c false : Pc τ κ).loops = some c) := by
        rw [Function.update_self]
        exact fun hm => hnodup.1 hm.1
      rw [if_pos (List.mem_singleton_self x)]
      unfold mesaOf
      dsimp only
      rw [hsleep]
      exact (if_neg hout).symm
    · rw [if_neg fun hm => hx (List.mem_singleton.mp hm)]
      unfold mesaOf
      dsimp only
      congr 1
      funext c'
      change (x ∈ s.waitQueue c' ∧ ¬ False) = (x ∈ Function.update s.waitQueue c q c' ∧ _)
      obtain rfl | hc := eq_or_ne c' c
      · rw [Function.update_self, hq, List.mem_cons]
        simp [hx, Pc.loops]
      · rw [Function.update_of_ne hc]
        simp [Pc.loops]
  · change Function.update (fun c => (s.waitQueue c).filter fun u => (s.pc u).isSleep) c
      (((s.waitQueue c).filter fun u => (s.pc u).isSleep).drop 1) c' =
        (Function.update s.waitQueue c q c').filter fun u => (s.pc u).isSleep
    obtain rfl | hc := eq_or_ne c' c
    · rw [Function.update_self, Function.update_self, hq, List.filter_cons_of_pos (by rw [hsleep]; rfl), List.drop_one,
        List.tail_cons]
    · rw [Function.update_of_ne hc, Function.update_of_ne hc]

theorem Inv.follows_broadcast (h : Inv s) (hp : s.pc t = .body) (c : κ) (h' : Inv (s.goto t (.broadcast c))) :
    s.mesa.step (.broadcast t c) = some (s.goto t (.broadcast c)).mesa := by
  have ht : (s.pc t).inside = true := by rw [hp]; rfl
  have hnot : ∀ c, t ∉ s.waitQueue c := h.notMem_of_queuedAt (by rw [hp]; rfl)
  rw [Mesa.step_broadcast (place_inside ht), h'.mesa_inner ht rfl rfl, h.mesa_not_loops ht (by rw [hp]; rfl)]
  refine congrArg some (Mesa.ext (funext fun x => ?_) (funext fun c' => ?_))
  · change (if x ∈ ((s.waitQueue c).filter _).take ((s.waitQueue c).filter _).length then _ else _) = _
    rw [List.take_length, h.filter_queue ht hnot]
    unfold mesaOf
    dsimp only
    by_cases hx : x ∈ s.waitQueue c
    · rw [if_pos hx, h.eq_sleep ht hx fun he => hnot c (he ▸ hx)]
      exact (if_neg fun hm => hm.2 rfl).symm
    · rw [if_neg hx]
      congr 1
      funext c'
      change (x ∈ s.waitQueue c' ∧ ¬ False) = (x ∈ s.waitQueue c' ∧ ¬ some c = some c')
      obtain rfl | hc := eq_or_ne c' c
      · simp [hx]
      · simp [Ne.symm hc]
  · change Function.update (fun c => (s.waitQueue c).filter fun u => (s.pc u).isSleep) c
      (((s.waitQueue c).filter _).drop ((s.waitQueue c).filter _).length) c' =
        if some c = some c' then [] else (s.waitQueue c').filter fun u => (s.pc u).isSleep
    rw [List.drop_length]
    obtain rfl | hc := eq_or_ne c' c
    · rw [Function.update_self, if_pos rfl]
    · rw [Function.update_of_ne hc, if_neg (by simpa using Ne.symm hc)]

/-- The end of `Broadcast`: its queue is empty. -/
theorem Inv.mesa_broadcasted (h : Inv s) {c : κ} (hp : s.pc t = .broadcast c) (hq : s.waitQueue c = [])
    (h' : Inv (s.goto t .body)) : (s.goto t .body).mesa = s.mesa := by
  have ht : (s.pc t).inside = true := by rw [hp]; rfl
  rw [h'.mesa_inner ht rfl rfl, h.mesa_inside ht]
  refine Mesa.ext (funext fun x => ?_) (funext fun c' => ?_)
  · unfold mesaOf
    dsimp only
    congr 1
    funext c'
    change (x ∈ s.waitQueue c' ∧ _) = (x ∈ s.waitQueue c' ∧ _)
    rw [hp]
    obtain rfl | hc := eq_or_ne c' c
    · simp [hq]
    · simp [Pc.loops, Ne.symm hc]
  · change (if (Pc.body : Pc τ κ).loops = some c' then [] else (s.waitQueue c').filter _) =
      if (s.pc t).loops = some c' then [] else (s.waitQueue c').filter _
    rw [hp]
    obtain rfl | hc := eq_or_ne c' c
    · simp [hq]
    · simp [Pc.loops, Ne.symm hc]

/-- Nobody waits for a signal. -/
theorem Inv.follows_signalNone (h : Inv s) {c : κ} (hp : s.pc t = .signal c false) (hq : s.waitQueue c = []) :
    s.mesa.step (.signal t c) = some s.mesa := by
  have ht : (s.pc t).inside = true := by rw [hp]; rfl
  have hempty : s.mesa.queue c = [] := by
    rw [h.mesa_not_loops ht (by rw [hp]; rfl)]
    change (s.waitQueue c).filter _ = []
    rw [hq]
    rfl
  rw [Mesa.step_signal (place_inside ht)]
  refine congrArg some (Mesa.ext (funext fun u => if_neg ?_) ?_)
  · rw [hempty]
    exact List.not_mem_nil
  · change Function.update s.mesa.queue c ((s.mesa.queue c).drop 1) = s.mesa.queue
    rw [hempty, List.drop_nil, ← hempty, Function.update_eq_self]

/-- A thread that has been signalled goes on to the lock. -/
theorem Inv.mesa_woken (h : Inv s) {c : κ} (hp : s.pc t = .sleep c) (hv : (s.sleepers.sem (some t)).value ≠ 0) :
    ({ s with sleepers := (s.sleepers.P t (some t)).1 }.goto t (.acquire true)).mesa = s.mesa := by
  have hnot : ∀ c, t ∉ s.waitQueue c := fun c hc => hv (h.queue c t hc).2
  have hB : ∀ c, Broadcasting ({ s with sleepers := (s.sleepers.P t (some t)).1 }.goto t (.acquire true)) c ↔
      s.Broadcasting c := by
    intro c'
    refine exists_congr fun u => ?_
    change (Function.update s.pc t (.acquire true) u).loops = some c' ↔ _
    obtain rfl | hut := eq_or_ne u t
    · rw [Function.update_self, hp]
      simp [Pc.loops]
    · rw [Function.update_of_ne hut]
  calc ({ s with sleepers := (s.sleepers.P t (some t)).1 }.goto t (.acquire true)).mesa
    _ = mesaOf (Function.update s.pc t (.acquire true)) s.waitQueue s.Broadcasting := mesaOf_congr hB
    _ = s.mesa.goto t .woken := mesaOf_update rfl fun c hc => absurd hc (hnot c)
    _ = s.mesa := by
      have hplace : s.mesa.place t = .woken := by
        change (s.pc t).place _ = _
        rw [hp]
        exact if_neg fun hm => hnot c hm.1
      unfold Mesa.goto
      rw [← hplace, Function.update_eq_self]

theorem Inv.follows_call (h : Inv s) (hp : s.pc t = .idle) :
    s.mesa.step (.call t) = some (s.goto t (.acquire false)).mesa := by
  have hnot : ∀ c, t ∉ s.waitQueue c := h.notMem_of_queuedAt (by rw [hp]; rfl)
  have hB : ∀ c, (s.goto t (.acquire false)).Broadcasting c ↔ s.Broadcasting c := by
    intro c
    refine exists_congr fun u => ?_
    change (Function.update s.pc t (.acquire false) u).loops = some c ↔ _
    obtain rfl | hut := eq_or_ne u t
    · rw [Function.update_self, hp]
      simp [Pc.loops]
    · rw [Function.update_of_ne hut]
  have hplace : s.mesa.place t = .outside := by
    change (s.pc t).place _ = _
    rw [hp]
    rfl
  rw [Mesa.step_call hplace]
  refine congrArg some (Eq.symm ?_)
  calc (s.goto t (.acquire false)).mesa
    _ = mesaOf (Function.update s.pc t (.acquire false)) s.waitQueue s.Broadcasting := mesaOf_congr hB
    _ = s.mesa.goto t .entering := mesaOf_update rfl fun c hc => absurd hc (hnot c)

theorem Inv.follows_ran (h : Inv s) (h' : Inv s') (hr : Ran s t s') :
    Follows Mesa.step s.mesa (s.linearizeRun t) s'.mesa := by
  -- a statement that changes nothing in the monitor
  have hstays : s.linearizeRun t = none → s'.mesa = s.mesa →
      Follows Mesa.step s.mesa (s.linearizeRun t) s'.mesa := by
    intro hl hm
    rw [hl, hm]
    rfl
  have hevent : ∀ e, s.linearizeRun t = some e → s.mesa.step e = some s'.mesa →
      Follows Mesa.step s.mesa (s.linearizeRun t) s'.mesa := by
    intro e hl hm
    rw [hl]
    exact hm
  cases hr with
  | @blocked l hw hv =>
    refine hstays ?_ rfl
    unfold linearizeRun
    cases hp : s.pc t with
    | acquire again =>
      rw [hp] at hw
      obtain rfl : none = l := Option.some.inj hw
      exact if_pos hv
    | sleep c => rfl
    | _ => exact absurd hw (by rw [hp]; simp [Pc.waits])
  | enter hp hv =>
    refine hevent (.enter t) ?_ (h.follows_enter hp hv h')
    unfold linearizeRun
    rw [hp]
    exact if_neg hv
  | @hold again hp =>
    refine hstays (by unfold linearizeRun; rw [hp]) (h.mesa_quiet h' (by rw [hp]; rfl) rfl ?_ rfl ?_)
    all_goals cases again <;> simp [hp, Pc.inside, Pc.loops]
  | delete hp =>
    exact hstays (by unfold linearizeRun; rw [hp]) (h.mesa_quiet h' (by rw [hp]; rfl) rfl rfl rfl (by rw [hp]; rfl))
  | @wait c hp =>
    have ht : (s.pc t).inside = true := by rw [hp]; rfl
    refine hstays (by unfold linearizeRun; rw [hp]) ?_
    rw [h'.mesa_inner ht rfl rfl, h.mesa_inside ht, hp]
    refine Mesa.ext (funext fun u => ?_) (funext fun c' => ?_)
    · unfold mesaOf
      dsimp only
      obtain rfl | hut := eq_or_ne u t
      · rw [(Pc.place_eq_inside _).mpr ht, (Pc.place_eq_inside _).mpr ht]
      · congr 1
        funext c'
        change (u ∈ Function.update s.waitQueue c (s.waitQueue c ++ [t]) c' ∧ _) = _
        obtain rfl | hc := eq_or_ne c' c
        · simp [hut, Pc.loops]
        · simp [hc, Pc.loops]
    · change (Function.update s.waitQueue c (s.waitQueue c ++ [t]) c').filter _ = (s.waitQueue c').filter _
      obtain rfl | hc := eq_or_ne c' c
      · rw [Function.update_self, List.filter_append]
        simp [hp, Pc.isSleep]
      · rw [Function.update_of_ne hc]
  | @broadcast c hp =>
    refine hstays (by unfold linearizeRun; rw [hp]) ?_
    by_cases hq : s.waitQueue c = []
    · have hbody : (if (s.waitQueue c).isEmpty then .body else .signal c true : Pc τ κ) = .body := by simp [hq]
      rw [hbody] at h' ⊢
      exact h.mesa_broadcasted hp hq h'
    · have hsignal : (if (s.waitQueue c).isEmpty then .body else .signal c true : Pc τ κ) = .signal c true := by simp [hq]
      rw [hsignal] at h' ⊢
      exact h.mesa_quiet h' (by rw [hp]; rfl) rfl rfl rfl (by rw [hp]; rfl)
  | @signalNone c loop hp hq =>
    have hquiet := h.mesa_quiet h' (p := .afterSignal c loop) (by rw [hp]; rfl) rfl (by cases loop <;> rfl) rfl
      (by rw [hp]; cases loop <;> rfl)
    cases loop with
    | true => exact hstays (by unfold linearizeRun; rw [hp]) hquiet
    | false =>
      refine hevent (.signal t c) (by unfold linearizeRun; rw [hp]) ?_
      rw [hquiet]
      exact h.follows_signalNone hp hq
  | @signal c loop u q hp hq =>
    cases loop with
    | true =>
      have ht : (s.pc t).inside = true := by rw [hp]; rfl
      refine hstays (by unfold linearizeRun; rw [hp]) ?_
      rw [h'.mesa_inner ht rfl rfl, h.mesa_inside ht, hp]
      exact mesaOf_broadcast (B := fun c' => (Pc.post u c true : Pc τ κ).loops = some c') rfl q
    | false => exact hevent (.signal t c) (by unfold linearizeRun; rw [hp]) (h.follows_signal hp hq h')
  | @post u c loop hp =>
    refine hstays (by unfold linearizeRun; rw [hp]) (h.mesa_quiet h' (by rw [hp]; rfl) rfl ?_ rfl ?_)
    all_goals cases loop <;> simp [hp, Pc.afterSignal, Pc.inside, Pc.loops]
  | release hp =>
    exact hstays (by unfold linearizeRun; rw [hp]) (h.mesa_quiet h' (by rw [hp]; rfl) rfl rfl rfl (by rw [hp]; rfl))
  | @unlock c hp =>
    cases c with
    | none => exact hevent (.leave t) (by unfold linearizeRun; rw [hp]) (h.follows_leave hp)
    | some c => exact hevent (.wait t c) (by unfold linearizeRun; rw [hp]) (h.follows_wait hp)
  | woken hp hv => exact hstays (by unfold linearizeRun; rw [hp]) (h.mesa_woken hp hv)

theorem Inv.follows (h : Inv s) {e : Event τ κ} (hs : s.step e = some s') :
    Follows Mesa.step s.mesa (s.linearize e) s'.mesa := by
  have h' := h.step hs
  cases e with
  | acquire t =>
    obtain ⟨hp, he⟩ := Option.ite_none_right_eq_some.mp hs
    obtain rfl := Option.some.inj he
    exact h.follows_call hp
  | call t k =>
    obtain ⟨hp, he⟩ := Option.ite_none_right_eq_some.mp hs
    obtain rfl := Option.some.inj he
    have ht : (s.pc t).inside = true := by rw [hp]; rfl
    cases k with
    | broadcast c => exact h.follows_broadcast hp c h'
    | wait c => exact congrArg some (h.mesa_quiet h' ht rfl rfl rfl (by rw [hp]; rfl)).symm
    | signal c => exact congrArg some (h.mesa_quiet h' ht rfl rfl rfl (by rw [hp]; rfl)).symm
    | release => exact congrArg some (h.mesa_quiet h' ht rfl rfl rfl (by rw [hp]; rfl)).symm
  | run t => exact h.follows_ran h' (ran_of_run hs).2

theorem mesa_init : (init : Monitor τ κ).mesa = Mesa.init := mesa_free fun _ => Bool.false_ne_true

/-- **Locks and conditions make a monitor.** In every run of threads that acquire the lock and wait, signal and
broadcast while they hold it, the steps of the monitor follow one another as `Mesa` has them: one thread is inside, a
wait leaves and joins the queue at once, and a signal wakes the thread that has waited longest, a broadcast all of
them. No assertion fails on the way, and no wake-up is lost: if no thread can go on, each one waits in a queue. -/
theorem monitor_refines_mesa (es : List (Event τ κ)) (s : Monitor τ κ) (h : exec step init es = some s) :
    exec Mesa.step Mesa.init (trace step linearize init es) = some s.mesa ∧
    (∀ t u, s.mesa.place t = .inside → s.mesa.place u = .inside → u = t) ∧
    (∀ t, s.sleepers.asleep t = false → s.pc t ≠ .idle → s.pc t ≠ .body → (s.run t).isSome = true) ∧
    ((∀ t, s.pc t ≠ .idle → s.sleepers.asleep t = true) → ∀ t, s.pc t ≠ .idle → ∃ c, t ∈ s.mesa.queue c) := by
  have hInv : Inv s := exec_induction (P := fun _ s => Inv s) inv_init (fun _ _ _ _ h hs => h.step hs) es s h
  refine ⟨?_, fun t u ht hu => ?_, fun t => hInv.run_isSome, fun hall t ht => ?_⟩
  · rw [← mesa_init]
    exact exec_trace (I := Inv) (fun _ _ _ h hs => h.step hs) (fun _ _ _ h hs => h.follows hs) es _ s inv_init h
  · exact hInv.unique ((Pc.place_eq_inside _).mp ht) ((Pc.place_eq_inside _).mp hu)
  · obtain ⟨c, hp, hq⟩ := hInv.all_waiting hall ht
    have hfree : ∀ u, ¬ (s.pc u).inside = true := by
      intro u hu
      have hidle : s.pc u ≠ .idle := fun he => by rw [he] at hu; cases hu
      obtain ⟨c', hu', -⟩ := hInv.all_waiting hall hidle
      rw [hu'] at hu
      cases hu
    refine ⟨c, ?_⟩
    rw [mesa_free hfree]
    exact List.mem_filter.mpr ⟨hq, by rw [hp]; rfl⟩

/-- Two threads wait, the third one broadcasts and leaves, and the first one enters again. -/
def waitWaitBroadcast (t u v : τ) : List (Event τ Unit) :=
  let wait (x : τ) : List (Event τ Unit) :=
    [.acquire x, .run x, .run x, .call x (.wait ()), .run x, .run x, .run x, .run x]
  wait t ++ wait u ++ [.acquire v, .run v, .run v, .call v (.broadcast ())] ++ List.replicate 7 (.run v) ++
    [.call v .release, .run v, .run v, .run t, .run t]

theorem monitor_refines_mesa_broadcast : ∃ s : Monitor (Fin 3) Unit, exec step init (waitWaitBroadcast 0 1 2) = some s ∧
    exec Mesa.step Mesa.init [.call 0, .enter 0, .wait 0 (), .call 1, .enter 1, .wait 1 (), .call 2, .enter 2,
      .broadcast 2 (), .leave 2, .enter 0] = some s.mesa := by
  have hrun : (exec step init (waitWaitBroadcast (0 : Fin 3) 1 2)).isSome = true := by decide +kernel
  obtain ⟨s, hs⟩ := Option.isSome_iff_exists.mp hrun
  have htrace : trace step linearize init (waitWaitBroadcast (0 : Fin 3) 1 2) = [.call 0, .enter 0, .wait 0 (), .call 1,
      .enter 1, .wait 1 (), .call 2, .enter 2, .broadcast 2 (), .leave 2, .enter 0] := by decide +kernel
  have hmesa := (monitor_refines_mesa (waitWaitBroadcast 0 1 2) s hs).1
  rw [htrace] at hmesa
  exact ⟨s, hs, hmesa⟩

end Monitor

end Nachos
