/-
# Named semaphores

`threads/stable.cc` and `threads/sem.cc`: a table of ten semaphores with names,
and a bitmap of the slots that are taken. `Create`, `Wait` and `Signal` search
the slots for a name. No switch can come in before the `P` or `V` that they
call, so each is one step up to there; a thread that sleeps in `P` comes back
to the head of its loop with the semaphore it had found.

In every run the bitmap is that of the table, no two slots have the same name,
and each call does what it is to do (`sTable_serves`). A semaphore lets in as
many as its value and the signals allow when its value is not negative at the
start (`waits_limited`); `CreateSemaphore` takes a negative one too, and then
`P`, which waits for 0 only, lets everybody in (`negative_lets_in`).
-/
import NachosNet.Basis.CString
import NachosNet.Basis.Int32
import NachosNet.Lib.Bitmap
import NachosNet.Threads.Synch

namespace Nachos

open Basis

def MAX_SEMAPHORE : ℕ := 10

variable {τ : Type*}

/-- A semaphore with its name in an array. -/
structure Sem (τ : Type*) where
  name : Bytes 50
  sem : Semaphore τ

namespace Sem

/-- `Sem(na, i)`; `unset` is what the array holds before. -/
def make (unset : Bytes 50) (na : CString) (i : ℤ) : Option (Sem τ) :=
  (strcpy unset na.1).map fun name => ⟨name, .mk0 i⟩

def getName (s : Sem τ) : List Byte := cstr s.name.1

/-- A pass of thread `t` through the loop of `P`. -/
def wait (s : Sem τ) (t : τ) : Sem τ × Bool := ({ s with sem := (s.sem.P t).1.wrap }, (s.sem.P t).2)

def signal (s : Sem τ) : Sem τ := { s with sem := s.sem.V.1.wrap }

theorem name_wait (a : Sem τ) (t : τ) : (a.wait t).1.name = a.name := rfl

theorem name_signal (a : Sem τ) : a.signal.name = a.name := rfl

theorem wait_zero {a : Sem τ} (h : a.sem.value = 0) (t : τ) :
    (a.wait t).2 = false ∧ (a.wait t).1.sem.value = 0 := by
  unfold wait
  rw [Semaphore.P_zero h]
  refine ⟨rfl, ?_⟩
  simp only [Semaphore.wrap, h]
  rfl

theorem wait_ne {a : Sem τ} (h : a.sem.value ≠ 0) (t : τ) :
    (a.wait t).2 = true ∧ (a.wait t).1.sem.value = toInt (a.sem.value - 1) := by
  unfold wait
  rw [Semaphore.P_ne h]
  exact ⟨rfl, rfl⟩

theorem value_signal (a : Sem τ) : a.signal.sem.value = toInt (a.sem.value + 1) := rfl

end Sem

structure STable (τ : Type*) where
  bm : Bitmap MAX_SEMAPHORE
  semTab : ℕ → Option (Sem τ)

namespace STable

def init : STable τ := ⟨.init _, fun _ => none⟩

/-- The loop over the slots for a name; `none` when it uses a slot that is NULL. -/
def searchIn (s : STable τ) (name : CString) : List ℕ → Option (Option ℕ)
  | [] => some none
  | i :: is =>
    if s.bm.test i then
      match s.semTab i with
      | none => none
      | some sem => if name.1 = sem.getName then some (some i) else searchIn s name is
    else searchIn s name is

def search (s : STable τ) (name : CString) : Option (Option ℕ) := s.searchIn name (List.range MAX_SEMAPHORE)

/-- `Create`: the result and the table afterwards. -/
def create (s : STable τ) (unset : Bytes 50) (name : CString) (init : ℤ) : Option (ℤ × STable τ) :=
  match s.search name with
  | none => none
  | some (some _) => some (-1, s)
  | some none =>
    let (id, bm) := s.bm.findAndSet
    if id < 0 then some (-1, ⟨bm, s.semTab⟩)
    else (Sem.make unset name init).map fun sem => (0, ⟨bm, Function.update s.semTab id.toNat (some sem)⟩)

def setSem (s : STable τ) (i : ℕ) (a : Sem τ) : STable τ := { s with semTab := Function.update s.semTab i (some a) }

end STable

/-- A call of a process. -/
inductive SemCall
  | create (name : CString) (semval : ℤ)
  | wait (name : CString)
  | signal (name : CString)
  deriving DecidableEq

/-- The table, the threads that sleep in `Wait` or have been woken there, and
the calls that have returned. -/
structure SemUsers (τ : Type*) where
  table : STable τ
  inWait : τ → Option (CString × ℕ)
  returned : List (τ × SemCall × ℤ)

namespace SemUsers

inductive Event (τ : Type*)
  | create (t : τ) (unset : Bytes 50) (name : CString) (semval : ℤ)
  | wait (t : τ) (name : CString)
  | signal (t : τ) (name : CString)
  /-- Thread `t` comes back from `Sleep`. -/
  | resume (t : τ)

def init : SemUsers τ := ⟨.init, fun _ => none, []⟩

def ret (s : SemUsers τ) (t : τ) (c : SemCall) (v : ℤ) : SemUsers τ := { s with returned := s.returned ++ [(t, c, v)] }

variable [DecidableEq τ]

/-- A pass of thread `t` through the loop of `P` on the semaphore of slot `i`. -/
def pass (s : SemUsers τ) (t : τ) (name : CString) (i : ℕ) (a : Sem τ) : SemUsers τ :=
  let s' := { s with table := s.table.setSem i (a.wait t).1 }
  if (a.wait t).2 then { s' with inWait := Function.update s.inWait t none }.ret t (.wait name) 0
  else { s' with inWait := Function.update s.inWait t (some (name, i)) }

/-- What happens next; `none` also when the thread cannot do this or a slot that is NULL is used. -/
def step (s : SemUsers τ) : Event τ → Option (SemUsers τ)
  | .create t unset name semval =>
    if s.inWait t ≠ none then none
    else (s.table.create unset name semval).map fun r => { s with table := r.2 }.ret t (.create name semval) r.1
  | .wait t name =>
    if s.inWait t ≠ none then none
    else (s.table.search name).bind fun
      | none => some (s.ret t (.wait name) (-1))
      | some i => (s.table.semTab i).map fun a => s.pass t name i a
  | .signal t name =>
    if s.inWait t ≠ none then none
    else (s.table.search name).bind fun
      | none => some (s.ret t (.signal name) (-1))
      | some i => (s.table.semTab i).map fun a =>
          { s with table := s.table.setSem i a.signal }.ret t (.signal name) 0
  | .resume t =>
    (s.inWait t).bind fun (name, i) => (s.table.semTab i).bind fun a =>
      if t ∈ a.sem.queue then none else some (s.pass t name i a)

end SemUsers

/-! ### The table -/

namespace STable

/-- Slot `i` has the semaphore of that name. -/
def Named (s : STable τ) (name : CString) (i : ℕ) : Prop := ∃ a, s.semTab i = some a ∧ a.getName = name.1

/-- The slots that are taken. -/
def occupied (s : STable τ) : Finset ℕ := (Finset.range MAX_SEMAPHORE).filter fun i => (s.semTab i).isSome = true

/-- The calls that the table can do: a new name with room for it, a known name. -/
def Accepts (s : STable τ) : SemCall → Prop
  | .create name _ => (∀ i, ¬ s.Named name i) ∧ s.occupied.card < MAX_SEMAPHORE
  | .wait name | .signal name => ∃ i, s.Named name i

structure Inv (s : STable τ) : Prop where
  bits : ∀ i < MAX_SEMAPHORE, s.bm.test i = true ↔ s.semTab i ≠ none
  names : ∀ i j a b, s.semTab i = some a → s.semTab j = some b → a.getName = b.getName → i = j
  range : ∀ i, s.semTab i ≠ none → i < MAX_SEMAPHORE

variable {s : STable τ} {name : CString} {i : ℕ}

theorem inv_init : Inv (init : STable τ) where
  bits i _ := by simp [init, Bitmap.test_init]
  names i j a b h := by simp [init] at h
  range i h := by simp [init] at h

theorem Inv.named_unique (h : Inv s) {j : ℕ} (hi : s.Named name i) (hj : s.Named name j) : i = j := by
  obtain ⟨a, ha, hna⟩ := hi
  obtain ⟨b, hb, hnb⟩ := hj
  exact h.names i j a b ha hb (hna.trans hnb.symm)

theorem Inv.searchIn (h : Inv s) (name : CString) : ∀ is : List ℕ, (∀ i ∈ is, i < MAX_SEMAPHORE) →
    (∃ i, s.searchIn name is = some (some i) ∧ s.Named name i) ∨
    s.searchIn name is = some none ∧ ∀ i ∈ is, ¬ s.Named name i
  | [], _ => .inr ⟨rfl, by simp⟩
  | i :: is, his => by
    obtain ⟨hi, his⟩ := List.forall_mem_cons.mp his
    have ih := h.searchIn name is his
    unfold STable.searchIn
    by_cases hb : s.bm.test i = true
    · obtain ⟨a, ha⟩ := Option.ne_none_iff_exists'.mp ((h.bits i hi).mp hb)
      simp only [hb, if_true, ha]
      by_cases hn : name.1 = a.getName
      · rw [if_pos hn]
        exact .inl ⟨i, rfl, a, ha, hn.symm⟩
      · rw [if_neg hn]
        have hno : ¬ s.Named name i := by
          rintro ⟨b, hb', hnb⟩
          rw [ha] at hb'
          exact hn (Option.some.inj hb' ▸ hnb.symm)
        exact ih.imp_right fun ⟨h1, h2⟩ => ⟨h1, List.forall_mem_cons.mpr ⟨hno, h2⟩⟩
    · rw [if_neg hb]
      have hno : ¬ s.Named name i := by
        rintro ⟨a, ha, -⟩
        exact hb ((h.bits i hi).mpr (by simp [ha]))
      exact ih.imp_right fun ⟨h1, h2⟩ => ⟨h1, List.forall_mem_cons.mpr ⟨hno, h2⟩⟩

theorem Inv.search (h : Inv s) (name : CString) :
    (∃ i, s.search name = some (some i) ∧ s.Named name i) ∨ s.search name = some none ∧ ∀ i, ¬ s.Named name i := by
  refine (h.searchIn name (List.range MAX_SEMAPHORE) fun i hi => List.mem_range.mp hi).imp_right fun ⟨h1, h2⟩ =>
    ⟨h1, fun i hn => h2 i ?_ hn⟩
  obtain ⟨a, ha, -⟩ := hn
  exact List.mem_range.mpr (h.range i (by simp [ha]))

theorem Inv.search_named (h : Inv s) (hn : s.Named name i) : s.search name = some (some i) := by
  rcases h.search name with ⟨j, hj, hjn⟩ | ⟨-, hno⟩
  · rw [hj, h.named_unique hn hjn]
  · exact absurd hn (hno i)

theorem Inv.numClear_pos (h : Inv s) : 0 < s.bm.numClear ↔ s.occupied.card < MAX_SEMAPHORE := by
  have hclear : ((Finset.range MAX_SEMAPHORE).filter fun i => s.bm.test i = false) =
      (Finset.range MAX_SEMAPHORE).filter fun i => ¬ (s.semTab i).isSome = true := by
    refine Finset.filter_congr fun i hi => ?_
    have hb := h.bits i (Finset.mem_range.mp hi)
    rw [← Option.isSome_iff_ne_none] at hb
    rw [← hb, Bool.not_eq_true]
  have hsum := Finset.card_filter_add_card_filter_not (s := Finset.range MAX_SEMAPHORE) (fun i => (s.semTab i).isSome = true)
  rw [Bitmap.numClear_eq, hclear]
  rw [Finset.card_range] at hsum
  unfold occupied
  omega

theorem Inv.setSem (h : Inv s) {a b : Sem τ} (ha : s.semTab i = some a) (hb : b.name = a.name) : Inv (s.setSem i b) where
  bits j hj := by
    rw [show (s.setSem i b).bm = s.bm from rfl, h.bits j hj]
    by_cases hji : j = i
    · subst hji
      simp [STable.setSem, ha]
    · simp [STable.setSem, hji]
  names j k c d hc hd hcd := by
    -- the names are those of the semaphores before
    have hold : ∀ j c, (s.setSem i b).semTab j = some c → ∃ c', s.semTab j = some c' ∧ c'.getName = c.getName := by
      intro j c hc
      by_cases hji : j = i
      · subst hji
        simp only [STable.setSem, Function.update_self, Option.some.injEq] at hc
        subst hc
        exact ⟨a, ha, by rw [Sem.getName, Sem.getName, hb]⟩
      · simp only [STable.setSem, Function.update_of_ne hji] at hc
        exact ⟨c, hc, rfl⟩
    obtain ⟨c', hc', hcn⟩ := hold j c hc
    obtain ⟨d', hd', hdn⟩ := hold k d hd
    exact h.names j k c' d' hc' hd' (hcn.trans (hcd.trans hdn.symm))
  range j hj := by
    by_cases hji : j = i
    · subst hji
      exact h.range j (by simp [ha])
    · exact h.range j (by simpa [STable.setSem, hji] using hj)

theorem named_setSem {a b : Sem τ} (ha : s.semTab i = some a) (hb : b.name = a.name) (name : CString) (j : ℕ) :
    (s.setSem i b).Named name j ↔ s.Named name j := by
  unfold Named STable.setSem
  by_cases hji : j = i
  · subst hji
    simp [ha, Sem.getName, hb]
  · simp [hji]

/-- `Create` with a name that fits. -/
theorem Inv.create (h : Inv s) (unset : Bytes 50) (name : CString) (semval : ℤ) (hlen : name.1.length ≤ 49) :
    (∃ i a, (∀ j, ¬ s.Named name j) ∧ s.occupied.card < MAX_SEMAPHORE ∧ s.semTab i = none ∧ a.getName = name.1 ∧
      a.sem = .mk0 semval ∧ ∃ s', s.create unset name semval = some (0, s') ∧
        s'.semTab = Function.update s.semTab i (some a) ∧ Inv s') ∨
    ((∃ j, s.Named name j) ∨ ¬ s.occupied.card < MAX_SEMAPHORE) ∧ s.create unset name semval = some (-1, s) := by
  unfold STable.create
  rcases h.search name with ⟨i, hi, hn⟩ | ⟨hnone, hno⟩
  · rw [hi]
    exact .inr ⟨.inl ⟨i, hn⟩, rfl⟩
  · rw [hnone]
    by_cases hc : 0 < s.bm.numClear
    · obtain ⟨i, hi, hclear, -, hset⟩ := s.bm.findAndSet_some hc
      obtain ⟨arr, harr⟩ : ∃ arr, strcpy unset name.1 = some arr :=
        Option.ne_none_iff_exists'.mp fun hn => by
          rw [strcpy_eq_none] at hn
          omega
      have hfree : s.semTab i = none := by
        by_contra hne
        rw [(h.bits i hi).mpr hne] at hclear
        cases hclear
      have hname := cstr_strcpy harr
      refine .inl ⟨i, ⟨arr, .mk0 semval⟩, hno, h.numClear_pos.mp hc, hfree, hname, rfl,
        ⟨s.bm.mark i, Function.update s.semTab i (some ⟨arr, .mk0 semval⟩)⟩, ?_, rfl, ?_⟩
      · simp only [hset]
        rw [if_neg (by omega), Int.toNat_natCast, Sem.make, harr]
        rfl
      · refine ⟨fun j hj => ?_, fun j k a b ha hb hab => ?_, fun j hj => ?_⟩
        · rw [Bitmap.test_mark _ hi, Bool.or_eq_true, decide_eq_true_eq, h.bits j hj]
          by_cases hji : j = i
          · simp [hji]
          · simp [hji]
        · -- the new name is none of the old ones
          have hold : ∀ j a, j ≠ i → Function.update s.semTab i (some ⟨arr, .mk0 semval⟩) j = some a →
              a.getName ≠ name.1 := fun j a hj ha hn =>
            hno j ⟨a, by simpa [hj] using ha, hn⟩
          have hnew : ∀ a, Function.update s.semTab i (some ⟨arr, .mk0 semval⟩) i = some a → a.getName = name.1 := by
            intro a ha
            rw [Function.update_self] at ha
            exact Option.some.inj ha ▸ hname
          by_cases hj : j = i <;> by_cases hk : k = i
          · rw [hj, hk]
          · exact absurd (hab.symm.trans (hnew a (hj ▸ ha))) (hold k b hk hb)
          · exact absurd (hab.trans (hnew b (hk ▸ hb))) (hold j a hj ha)
          · exact h.names j k a b (by simpa [hj] using ha) (by simpa [hk] using hb) hab
        · by_cases hji : j = i
          · rwa [hji]
          · exact h.range j (by simpa [hji] using hj)
    · have h0 : s.bm.numClear = 0 := by omega
      refine .inr ⟨.inr fun hlt => hc (h.numClear_pos.mpr hlt), ?_⟩
      rw [s.bm.findAndSet_none h0]
      rfl

end STable

/-! ### Runs -/

namespace SemUsers

variable [DecidableEq τ]

/-- What holds of the table and of the threads in `Wait`. -/
structure Inv (s : SemUsers τ) : Prop where
  table : s.table.Inv
  waiting : ∀ t name i, s.inWait t = some (name, i) → s.table.Named name i

variable {s s' : SemUsers τ}

theorem pass_table (s : SemUsers τ) (t : τ) (name : CString) (i : ℕ) (a : Sem τ) :
    (s.pass t name i a).table = s.table.setSem i (a.wait t).1 := by
  unfold pass
  split <;> rfl

theorem pass_returned (s : SemUsers τ) (t : τ) (name : CString) (i : ℕ) (a : Sem τ) :
    (s.pass t name i a).returned = s.returned ++ if (a.wait t).2 then [(t, .wait name, 0)] else [] := by
  unfold pass
  split
  · rfl
  · simp

theorem pass_inWait (s : SemUsers τ) (t : τ) (name : CString) (i : ℕ) (a : Sem τ) :
    (s.pass t name i a).inWait = Function.update s.inWait t (if (a.wait t).2 then none else some (name, i)) := by
  unfold pass
  split <;> rfl

theorem inv_pass (h : Inv s) (t : τ) {name : CString} {i : ℕ} {a : Sem τ} (ha : s.table.semTab i = some a)
    (hn : s.table.Named name i) : Inv (s.pass t name i a) where
  table := by
    rw [pass_table]
    exact h.table.setSem ha rfl
  waiting u nm j hu := by
    rw [pass_table, STable.named_setSem ha (a.name_wait t)]
    rw [pass_inWait] at hu
    by_cases hut : u = t
    · subst hut
      rw [Function.update_self] at hu
      split at hu
      · cases hu
      · obtain ⟨rfl, rfl⟩ := Prod.mk.inj (Option.some.inj hu)
        exact hn
    · rw [Function.update_of_ne hut] at hu
      exact h.waiting u nm j hu

/-- The call that a step begins. -/
def Event.call : Event τ → Option SemCall
  | .create _ _ name semval => some (.create name semval)
  | .wait _ name => some (.wait name)
  | .signal _ name => some (.signal name)
  | .resume _ => none

/-- What a step can do. -/
inductive Step (s : SemUsers τ) : Event τ → SemUsers τ → Prop
  | created {t : τ} {unset : Bytes 50} {name : CString} {semval : ℤ} {i : ℕ} {a : Sem τ} {table : STable τ}
    (hno : ∀ j, ¬ s.table.Named name j) (hroom : s.table.occupied.card < MAX_SEMAPHORE)
    (hfree : s.table.semTab i = none) (hname : a.getName = name.1) (hsem : a.sem = .mk0 semval)
    (htab : table.semTab = Function.update s.table.semTab i (some a)) (hinv : table.Inv) :
    Step s (.create t unset name semval) ({ s with table := table }.ret t (.create name semval) 0)
  | failed {e : Event τ} {t : τ} {c : SemCall} (hc : e.call = some c) (hnot : ¬ s.table.Accepts c) :
    Step s e (s.ret t c (-1))
  | pass {e : Event τ} {t : τ} {name : CString} {i : ℕ} {a : Sem τ} (hc : ∀ c, e.call = some c → c = .wait name)
    (ha : s.table.semTab i = some a) (hn : a.getName = name.1) : Step s e (s.pass t name i a)
  | signal {t : τ} {name : CString} {i : ℕ} {a : Sem τ} (ha : s.table.semTab i = some a) (hn : a.getName = name.1) :
    Step s (.signal t name) ({ s with table := s.table.setSem i a.signal }.ret t (.signal name) 0)

theorem step_cases {e : Event τ} (h : Inv s) (hs : s.step e = some s') : Step s e s' := by
  cases e with
  | create t unset name semval =>
    simp only [step] at hs
    split at hs
    · cases hs
    · obtain ⟨r, hr, rfl⟩ := Option.map_eq_some_iff.mp hs
      -- a name that is too long has no result, whatever the table
      by_cases hlen : name.1.length ≤ 49
      · rcases h.table.create unset name semval hlen with
          ⟨i, a, hno, hroom, hfree, hname, hsem, table, hc, htab, hinv⟩ | ⟨hnot, hc⟩
        · rw [hc] at hr
          obtain rfl := Option.some.inj hr
          exact .created hno hroom hfree hname hsem htab hinv
        · rw [hc] at hr
          obtain rfl := Option.some.inj hr
          exact .failed rfl fun hacc => hnot.elim (fun hj => hj.elim hacc.1) fun hfull => hfull hacc.2
      · unfold STable.create at hr
        rcases h.table.search name with ⟨i, hi, hn⟩ | ⟨hnone, -⟩
        · rw [hi] at hr
          obtain rfl := Option.some.inj hr
          exact .failed rfl fun hacc => hacc.1 i hn
        · rw [hnone] at hr
          have hover : strcpy unset name.1 = none := strcpy_eq_none.mpr (by omega)
          by_cases hc : 0 < s.table.bm.numClear
          · obtain ⟨i, -, -, -, hset⟩ := s.table.bm.findAndSet_some hc
            simp only [hset, Sem.make, hover] at hr
            rw [if_neg (by omega)] at hr
            cases hr
          · rw [s.table.bm.findAndSet_none (by omega)] at hr
            obtain rfl := Option.some.inj hr
            exact .failed rfl fun hacc => hc (h.table.numClear_pos.mpr hacc.2)
  | wait t name =>
    simp only [step] at hs
    split at hs
    · cases hs
    · rcases h.table.search name with ⟨i, hi, a, ha, hn⟩ | ⟨hnone, hno⟩
      · simp only [hi, Option.bind_some, ha, Option.map_some] at hs
        obtain rfl := Option.some.inj hs
        exact .pass (fun c hc => (Option.some.inj hc).symm) ha hn
      · rw [hnone, Option.bind_some] at hs
        obtain rfl := Option.some.inj hs
        exact .failed rfl fun hacc => hacc.elim hno
  | signal t name =>
    simp only [step] at hs
    split at hs
    · cases hs
    · rcases h.table.search name with ⟨i, hi, a, ha, hn⟩ | ⟨hnone, hno⟩
      · simp only [hi, Option.bind_some, ha, Option.map_some] at hs
        obtain rfl := Option.some.inj hs
        exact .signal ha hn
      · rw [hnone, Option.bind_some] at hs
        obtain rfl := Option.some.inj hs
        exact .failed rfl fun hacc => hacc.elim hno
  | resume t =>
    obtain ⟨⟨name, i⟩, hw, hs⟩ := Option.bind_eq_some_iff.mp hs
    obtain ⟨a, ha, hs⟩ := Option.bind_eq_some_iff.mp hs
    obtain ⟨b, hb, hn⟩ := h.waiting t name i hw
    obtain rfl : a = b := Option.some.inj (ha.symm.trans hb)
    split at hs
    · cases hs
    · obtain rfl := Option.some.inj hs
      exact .pass (fun c hc => (nomatch hc)) ha hn

theorem inv_step {e : Event τ} (h : Inv s) (hs : Step s e s') : Inv s' := by
  cases hs with
  | @created t unset name semval i a table hno hroom hfree hname hsem htab hinv =>
    refine ⟨hinv, fun u nm j hu => ?_⟩
    obtain ⟨b, hb, hn⟩ := h.waiting u nm j hu
    have hj : j ≠ i := by
      rintro rfl
      rw [hfree] at hb
      cases hb
    exact ⟨b, by simpa [ret, htab, hj] using hb, hn⟩
  | failed => exact ⟨h.table, h.waiting⟩
  | pass hc ha hn => exact inv_pass h _ ha ⟨_, ha, hn⟩
  | @signal t name i a ha hn =>
    exact ⟨h.table.setSem ha a.name_signal,
      fun u nm j hu => (STable.named_setSem ha a.name_signal nm j).mpr (h.waiting u nm j hu)⟩

omit [DecidableEq τ] in
theorem inv_init : Inv (init : SemUsers τ) := ⟨STable.inv_init, fun t name i h => by simp [init] at h⟩

theorem inv_exec (es : List (Event τ)) (s : SemUsers τ) (h : exec step init es = some s) : Inv s :=
  exec_induction (P := fun _ s => Inv s) inv_init (fun _ _ _ _ hi hs => inv_step hi (step_cases hi hs)) es s h

/-! ### The calls -/

/-- Thread `t` has made a pass through the loop of `P` on the semaphore `a` of slot `i`, which is `b` now:
at 0 it is the last one in the queue, and otherwise it has taken one and `Wait` has returned 0. -/
structure Passed (s s' : SemUsers τ) (t : τ) (name : CString) (i : ℕ) (a b : Sem τ) : Prop where
  table : s'.table = s.table.setSem i b
  sameName : b.name = a.name
  sleeps : a.sem.value = 0 → b.sem = ⟨0, a.sem.queue ++ [t]⟩ ∧ s'.inWait t = some (name, i) ∧
    s'.returned = s.returned
  takes : a.sem.value ≠ 0 → b.sem = ⟨toInt (a.sem.value - 1), a.sem.queue⟩ ∧ s'.inWait t = none ∧
    s'.returned = s.returned ++ [(t, .wait name, 0)]
  others : ∀ u, u ≠ t → s'.inWait u = s.inWait u

/-- Thread `t` has signalled the semaphore `a` of slot `i`, which is `b` now: its value is one more, and the
first thread of its queue is off it. -/
structure Signalled (s s' : SemUsers τ) (t : τ) (name : CString) (i : ℕ) (a b : Sem τ) : Prop where
  table : s'.table = s.table.setSem i b
  sameName : b.name = a.name
  value : b.sem.value = toInt (a.sem.value + 1)
  queue : b.sem.queue = a.sem.queue.tail
  returned : s'.returned = s.returned ++ [(t, .signal name, 0)]
  inWait : s'.inWait = s.inWait

theorem passed_pass (s : SemUsers τ) (t : τ) (name : CString) (i : ℕ) (a : Sem τ) :
    Passed s (s.pass t name i a) t name i a (a.wait t).1 where
  table := pass_table ..
  sameName := rfl
  sleeps hv := by
    rw [pass_inWait, pass_returned, (Sem.wait_zero hv t).1, Function.update_self]
    refine ⟨?_, rfl, by simp⟩
    unfold Sem.wait
    rw [Semaphore.P_zero hv]
    simp only [Semaphore.wrap, hv]
    rfl
  takes hv := by
    rw [pass_inWait, pass_returned, (Sem.wait_ne hv t).1, Function.update_self]
    refine ⟨?_, rfl, rfl⟩
    unfold Sem.wait
    rw [Semaphore.P_ne hv]
    rfl
  others u hu := by
    rw [pass_inWait, Function.update_of_ne hu]

/-- The bitmap is that of the table, no two slots have the same name, and what
each call of a thread that is not in `Wait` does: `Create` fills one slot or
fails and leaves the table; `Wait` and `Signal` act on the semaphore of the
name and on no other, or fail and leave all as it is; a thread that comes back
in `Wait` finds the semaphore of its name in the slot. -/
structure Serves (s : SemUsers τ) : Prop where
  bits : ∀ i < MAX_SEMAPHORE, s.table.bm.test i = true ↔ s.table.semTab i ≠ none
  names : ∀ i j a b, s.table.semTab i = some a → s.table.semTab j = some b → a.getName = b.getName → i = j
  create : ∀ t unset (name : CString) semval, s.inWait t = none → name.1.length ≤ 49 → ∃ s' r,
    s.step (.create t unset name semval) = some s' ∧ s'.returned = s.returned ++ [(t, .create name semval, r)] ∧
    (r = 0 ↔ (∀ i, ¬ s.table.Named name i) ∧ s.table.occupied.card < MAX_SEMAPHORE) ∧
    (r = 0 → ∃ i a, s.table.semTab i = none ∧ s'.table.semTab = Function.update s.table.semTab i (some a) ∧
      a.getName = name.1 ∧ a.sem = ⟨semval, []⟩) ∧
    (r ≠ 0 → r = -1 ∧ s'.table = s.table)
  wait : ∀ t (name : CString) i a, s.inWait t = none → s.table.semTab i = some a → a.getName = name.1 → ∃ s' b,
    s.step (.wait t name) = some s' ∧ Passed s s' t name i a b
  resume : ∀ t (name : CString) i, s.inWait t = some (name, i) → ∃ a, s.table.semTab i = some a ∧
    a.getName = name.1 ∧ (t ∉ a.sem.queue → ∃ s' b, s.step (.resume t) = some s' ∧ Passed s s' t name i a b)
  signal : ∀ t (name : CString) i a, s.inWait t = none → s.table.semTab i = some a → a.getName = name.1 → ∃ s' b,
    s.step (.signal t name) = some s' ∧ Signalled s s' t name i a b
  unknown : ∀ t (name : CString), s.inWait t = none → (∀ i, ¬ s.table.Named name i) →
    s.step (.wait t name) = some (s.ret t (.wait name) (-1)) ∧
    s.step (.signal t name) = some (s.ret t (.signal name) (-1))

theorem create_serves (h : Inv s) {t : τ} (ht : s.inWait t = none) (unset : Bytes 50) (name : CString) (semval : ℤ)
    (hlen : name.1.length ≤ 49) : ∃ s' r,
      s.step (.create t unset name semval) = some s' ∧ s'.returned = s.returned ++ [(t, .create name semval, r)] ∧
      (r = 0 ↔ (∀ i, ¬ s.table.Named name i) ∧ s.table.occupied.card < MAX_SEMAPHORE) ∧
      (r = 0 → ∃ i a, s.table.semTab i = none ∧ s'.table.semTab = Function.update s.table.semTab i (some a) ∧
        a.getName = name.1 ∧ a.sem = .mk0 semval) ∧
      (r ≠ 0 → r = -1 ∧ s'.table = s.table) := by
  simp only [step, ht, ne_eq, not_true, if_false]
  rcases h.table.create unset name semval hlen with ⟨i, a, hno, hcard, hfree, hname, hsem, table, hc, htab, -⟩ |
    ⟨hwhy, hc⟩
  · rw [hc]
    exact ⟨_, 0, rfl, rfl, iff_of_true rfl ⟨hno, hcard⟩, fun _ => ⟨i, a, hfree, htab, hname, hsem⟩,
      fun hne => absurd rfl hne⟩
  · rw [hc]
    refine ⟨_, -1, rfl, rfl, iff_of_false (by decide) fun ⟨hno, hcard⟩ => ?_, fun hne => absurd hne (by decide),
      fun _ => ⟨rfl, rfl⟩⟩
    rcases hwhy with ⟨i, hi⟩ | hfull
    · exact hno i hi
    · exact hfull hcard

/-- In every run of any number of threads, the table is in order and serves every call. -/
theorem sTable_serves (es : List (Event τ)) (s : SemUsers τ) (h : exec step init es = some s) : Serves s := by
  have hi := inv_exec es s h
  constructor
  · exact hi.table.bits
  · exact hi.table.names
  · intro t unset name semval ht hlen
    exact create_serves hi ht unset name semval hlen
  · intro t name i a ht ha hn
    refine ⟨s.pass t name i a, _, ?_, passed_pass s t name i a⟩
    simp [step, ht, hi.table.search_named ⟨a, ha, hn⟩, ha]
  · intro t name i ht
    obtain ⟨a, ha, hn⟩ := hi.waiting t name i ht
    refine ⟨a, ha, hn, fun hq => ⟨s.pass t name i a, _, ?_, passed_pass s t name i a⟩⟩
    simp [step, ht, ha, hq]
  · intro t name i a ht ha hn
    refine ⟨{ s with table := s.table.setSem i a.signal }.ret t (.signal name) 0, a.signal, ?_,
      ⟨rfl, rfl, rfl, rfl, rfl, rfl⟩⟩
    simp [step, ht, hi.table.search_named ⟨a, ha, hn⟩, ha]
  · intro t name ht hno
    rcases hi.table.search name with ⟨i, -, hn⟩ | ⟨hnone, -⟩
    · exact absurd hn (hno i)
    · simp [step, ht, hnone]

/-- The name `s`. -/
def nameS : CString := ⟨[0x73], by decide⟩

/-- A semaphore is created with the value 1 and two threads wait for it. -/
def twoWait : List (Event Bool) :=
  [.create false (Bytes.pad 50 []) nameS 1, .wait false nameS, .wait true nameS]

theorem sTable_serves_twoWait : ∃ s, exec step init twoWait = some s ∧
    s.returned = [(false, .create nameS 1, 0), (false, .wait nameS, 0)] ∧ Serves s := by
  have hrun : ((exec step init twoWait).bind fun s => some s.returned) =
      some [(false, .create nameS 1, 0), (false, .wait nameS, 0)] := by decide +kernel
  obtain ⟨s, hs, h⟩ := Option.bind_eq_some_iff.mp hrun
  exact ⟨s, hs, Option.some.inj h, sTable_serves twoWait s hs⟩

/-! ### How many are let in -/

/-- The calls of this kind that succeeded. -/
def count (s : SemUsers τ) (c : SemCall) : ℕ := s.returned.countP fun r => r.2 = (c, 0)

/-- The completed `Wait`s for a name. -/
def waits (s : SemUsers τ) (name : CString) : ℕ := s.count (.wait name)

/-- The `Signal`s for a name. -/
def signals (s : SemUsers τ) (name : CString) : ℕ := s.count (.signal name)

omit [DecidableEq τ] in
theorem count_ret (s : SemUsers τ) (t : τ) (c d : SemCall) (v : ℤ) :
    (s.ret t d v).count c = s.count c + if d = c ∧ v = 0 then 1 else 0 := by
  unfold count ret
  rw [List.countP_append, List.countP_singleton]
  simp only [Prod.mk.injEq, decide_eq_true_eq]

theorem count_pass (s : SemUsers τ) (t : τ) (name : CString) (i : ℕ) (a : Sem τ) (c : SemCall) :
    (s.pass t name i a).count c = s.count c + if .wait name = c ∧ (a.wait t).2 = true then 1 else 0 := by
  unfold count
  rw [pass_returned, List.countP_append]
  by_cases hp : (a.wait t).2 = true
  · rw [if_pos hp, List.countP_singleton]
    simp [hp]
  · rw [if_neg hp]
    simp [hp]

/-- No `Signal` of the semaphore `name` finds the largest `int`, as the calls since its creation with `v` count. -/
def Fits (name : CString) (v : ℤ) (s : SemUsers τ) : Event τ → Prop
  | .signal _ nm => nm = name → (∃ i, s.table.Named name i) → v + s.signals name - s.waits name < maxInt
  | .create .. | .wait .. | .resume _ => True

/-- The value of the semaphore `name` that was created with `v` counts the calls. -/
structure Counted (name : CString) (v : ℤ) (s : SemUsers τ) : Prop where
  created : ∀ t, (t, .create name v, 0) ∈ s.returned → ∃ i, s.table.Named name i
  fresh : (∀ i, ¬ s.table.Named name i) → s.waits name = 0 ∧ s.signals name = 0
  value : ∀ t, (t, .create name v, 0) ∈ s.returned → ∃ i a, s.table.semTab i = some a ∧ a.getName = name.1 ∧
    a.sem.value = v + s.signals name - s.waits name ∧ 0 ≤ a.sem.value ∧ a.sem.value ≤ maxInt

section Counting

variable {nm : CString} {v : ℤ}

omit [DecidableEq τ] in
theorem counted_created (h : Counted nm v s) (h0 : 0 ≤ v) (hmax : v ≤ maxInt) {t : τ} {name : CString} {semval : ℤ}
    {i : ℕ} {a : Sem τ} {table : STable τ} (hno : ∀ j, ¬ s.table.Named name j) (hfree : s.table.semTab i = none)
    (hname : a.getName = name.1) (hsem : a.sem = .mk0 semval)
    (htab : table.semTab = Function.update s.table.semTab i (some a)) :
    Counted nm v ({ s with table := table }.ret t (.create name semval) 0) := by
  have hkeep : ∀ j b, s.table.semTab j = some b → table.semTab j = some b := by
    intro j b hb
    have hj : j ≠ i := by
      rintro rfl
      rw [hfree] at hb
      cases hb
    rw [htab, Function.update_of_ne hj, hb]
  have hnew : table.semTab i = some a := by rw [htab, Function.update_self]
  have hw : ({ s with table := table }.ret t (.create name semval) 0).waits nm = s.waits nm :=
    (count_ret _ _ _ _ _).trans (by simp; rfl)
  have hs : ({ s with table := table }.ret t (.create name semval) 0).signals nm = s.signals nm :=
    (count_ret _ _ _ _ _).trans (by simp; rfl)
  refine ⟨fun u hm => ?_, fun hnm => ?_, fun u hm => ?_⟩
  · rcases List.mem_append.mp hm with hm | hm
    · obtain ⟨j, b, hb, hn⟩ := h.created u hm
      exact ⟨j, b, hkeep j b hb, hn⟩
    · obtain ⟨-, rfl, -⟩ : u = t ∧ nm = name ∧ v = semval := by simpa using hm
      exact ⟨i, a, hnew, hname⟩
  · rw [hw, hs]
    exact h.fresh fun j ⟨b, hb, hn⟩ => hnm j ⟨b, hkeep j b hb, hn⟩
  · rw [hw, hs]
    rcases List.mem_append.mp hm with hm | hm
    · obtain ⟨j, b, hb, hn, hv⟩ := h.value u hm
      exact ⟨j, b, hkeep j b hb, hn, hv⟩
    · obtain ⟨-, rfl, rfl⟩ : u = t ∧ nm = name ∧ v = semval := by simpa using hm
      obtain ⟨hw0, hs0⟩ := h.fresh hno
      refine ⟨i, a, hnew, hname, ?_, ?_⟩
      · rw [hsem, hw0, hs0]
        simp [Semaphore.mk0]
      · rw [hsem]
        exact ⟨h0, hmax⟩

omit [DecidableEq τ] in
/-- The semaphore of `name` changes with the number of calls for the name. -/
theorem Counted.setSem (h : Counted nm v s) (hi : Inv s) {name : CString} {i : ℕ} {a b : Sem τ}
    (ha : s.table.semTab i = some a) (hn : a.getName = name.1) (hb : b.name = a.name)
    (htab : s'.table = s.table.setSem i b)
    (hret : ∀ t, (t, .create nm v, 0) ∈ s'.returned ↔ (t, .create nm v, 0) ∈ s.returned)
    (hw : nm ≠ name → s'.waits nm = s.waits nm) (hs : nm ≠ name → s'.signals nm = s.signals nm)
    (hval : nm = name → a.sem.value = v + s.signals name - s.waits name → 0 ≤ a.sem.value → a.sem.value ≤ maxInt →
      b.sem.value = v + s'.signals name - s'.waits name ∧ 0 ≤ b.sem.value ∧ b.sem.value ≤ maxInt) :
    Counted nm v s' := by
  have hnamed : ∀ j, s'.table.Named nm j ↔ s.table.Named nm j := fun j => by
    rw [htab, STable.named_setSem ha hb]
  refine ⟨fun t hm => ?_, fun hnm => ?_, fun t hm => ?_⟩
  · obtain ⟨j, hj⟩ := h.created t ((hret t).mp hm)
    exact ⟨j, (hnamed j).mpr hj⟩
  · have hne : nm ≠ name := by
      rintro rfl
      exact hnm i ((hnamed i).mpr ⟨a, ha, hn⟩)
    rw [hw hne, hs hne]
    exact h.fresh fun j hj => hnm j ((hnamed j).mpr hj)
  · obtain ⟨j, c, hc, hcn, hcv, hcpos, hcmax⟩ := h.value t ((hret t).mp hm)
    by_cases hne : nm = name
    · subst hne
      obtain rfl : i = j := hi.table.named_unique ⟨a, ha, hn⟩ ⟨c, hc, hcn⟩
      obtain rfl : a = c := Option.some.inj (ha.symm.trans hc)
      refine ⟨i, b, by simp [htab, STable.setSem], ?_, hval rfl hcv hcpos hcmax⟩
      rw [← hn, Sem.getName, Sem.getName, hb]
    · have hji : j ≠ i := by
        rintro rfl
        obtain rfl : a = c := Option.some.inj (ha.symm.trans hc)
        exact hne (Subtype.ext (hcn.symm.trans hn))
      refine ⟨j, c, by simpa [htab, STable.setSem, hji] using hc, hcn, ?_, hcpos, hcmax⟩
      rw [hw hne, hs hne]
      exact hcv

omit [DecidableEq τ] in
theorem counted_failed (h : Counted nm v s) (t : τ) (c : SemCall) : Counted nm v (s.ret t c (-1)) := by
  have hw : (s.ret t c (-1)).waits nm = s.waits nm := (count_ret _ _ _ _ _).trans (by simp; rfl)
  have hg : (s.ret t c (-1)).signals nm = s.signals nm := (count_ret _ _ _ _ _).trans (by simp; rfl)
  have hret : ∀ u, (u, .create nm v, 0) ∈ (s.ret t c (-1)).returned → (u, .create nm v, 0) ∈ s.returned := by
    intro u hm
    simpa [ret] using hm
  refine ⟨fun u hm => h.created u (hret u hm), fun hnm => ?_, fun u hm => ?_⟩
  · rw [hw, hg]
    exact h.fresh hnm
  · rw [hw, hg]
    exact h.value u (hret u hm)

theorem counted_pass (h : Counted nm v s) (hi : Inv s) {t : τ} {name : CString} {i : ℕ} {a : Sem τ}
    (ha : s.table.semTab i = some a) (hn : a.getName = name.1) : Counted nm v (s.pass t name i a) := by
  have hsig : ∀ n, (s.pass t name i a).signals n = s.signals n := fun n =>
    (count_pass _ _ _ _ _ _).trans (by simp; rfl)
  have hw : (s.pass t name i a).waits name = s.waits name + if (a.wait t).2 = true then 1 else 0 :=
    (count_pass _ _ _ _ _ _).trans (by simp; rfl)
  refine h.setSem hi ha hn (a.name_wait t) (pass_table ..) (fun u => ?_) (fun hne => ?_) (fun _ => hsig nm)
    fun _ hv hpos hle => ?_
  · rw [pass_returned]
    split <;> simp
  · exact (count_pass _ _ _ _ _ _).trans (by simp [Ne.symm hne]; rfl)
  · rw [hsig, hw]
    by_cases hz : a.sem.value = 0
    · obtain ⟨hp, hval⟩ := Sem.wait_zero hz t
      rw [hp, hval]
      simp only [Bool.false_eq_true, if_false]
      omega
    · obtain ⟨hp, hval⟩ := Sem.wait_ne hz t
      have hmin : minInt ≤ a.sem.value - 1 := by
        unfold minInt
        omega
      rw [hp, hval, toInt_eq hmin (by omega)]
      simp only [if_true]
      omega

omit [DecidableEq τ] in
theorem counted_signal (h : Counted nm v s) (hi : Inv s) {t : τ} {name : CString} {i : ℕ} {a : Sem τ}
    (ha : s.table.semTab i = some a) (hn : a.getName = name.1) (hfit : Fits nm v s (.signal t name)) :
    Counted nm v ({ s with table := s.table.setSem i a.signal }.ret t (.signal name) 0) := by
  have hsig : ({ s with table := s.table.setSem i a.signal }.ret t (.signal name) 0).signals name =
      s.signals name + 1 := (count_ret _ _ _ _ _).trans (by simp; rfl)
  have hw : ∀ n, ({ s with table := s.table.setSem i a.signal }.ret t (.signal name) 0).waits n = s.waits n :=
    fun n => (count_ret _ _ _ _ _).trans (by simp; rfl)
  refine h.setSem hi ha hn a.name_signal rfl (fun u => by simp [ret]) (fun _ => hw nm) (fun hne => ?_)
    fun heq hv hpos hle => ?_
  · exact (count_ret _ _ _ _ _).trans (by simp [Ne.symm hne]; rfl)
  · subst heq
    have hlt := hfit rfl ⟨i, a, ha, hn⟩
    have hmin : minInt ≤ a.sem.value + 1 := by
      unfold minInt
      omega
    rw [hsig, hw, Sem.value_signal, toInt_eq hmin (by omega)]
    omega

theorem counted_step (h : Counted nm v s) (h0 : 0 ≤ v) (hmax : v ≤ maxInt) (hi : Inv s) {e : Event τ}
    (hfit : Fits nm v s e) (hs : s.step e = some s') : Counted nm v s' := by
  cases step_cases hi hs with
  | created hno hroom hfree hname hsem htab => exact counted_created h h0 hmax hno hfree hname hsem htab
  | failed => exact counted_failed h _ _
  | pass hc ha hn => exact counted_pass h hi ha hn
  | signal ha hn => exact counted_signal h hi ha hn hfit

end Counting

/-- For every semaphore that was created with a value that is not negative, in
every run in which no `Signal` makes it overflow: as many `Wait`s have been
completed as the value and the `Signal`s allow, and its value is not negative. -/
theorem waits_limited (es : List (Event τ)) (s : SemUsers τ) (h : exec step init es = some s) (t : τ)
    (name : CString) (semval : ℤ) (hc : (t, .create name semval, 0) ∈ s.returned) (h0 : 0 ≤ semval)
    (hmax : semval ≤ maxInt) (hfit : Along step (Fits name semval) init es) :
    (s.waits name : ℤ) ≤ max semval 0 + s.signals name ∧
    ∃ i a, s.table.semTab i = some a ∧ a.getName = name.1 ∧ 0 ≤ a.sem.value := by
  have hinit : Counted name semval (init : SemUsers τ) :=
    ⟨fun _ hm => by simp [init] at hm, fun _ => ⟨rfl, rfl⟩, fun _ hm => by simp [init] at hm⟩
  have hboth : Inv s ∧ Counted name semval s := exec_induction_along (P := fun _ s => Inv s ∧ Counted name semval s)
    ⟨inv_init, hinit⟩
    (fun _ _ _ _ hP hf hs => ⟨inv_step hP.1 (step_cases hP.1 hs), counted_step hP.2 h0 hmax hP.1 hf hs⟩) es s hfit h
  obtain ⟨i, a, ha, hn, hv, hpos, -⟩ := hboth.2.value t hc
  exact ⟨by omega, i, a, ha, hn, hpos⟩

theorem waits_limited_twoWait : ∃ s, exec step init twoWait = some s ∧ s.waits nameS = 1 ∧
    (s.waits nameS : ℤ) ≤ max 1 0 + s.signals nameS := by
  have hrun : ((exec step init twoWait).bind fun s => some (s.returned, s.waits nameS)) =
      some ([(false, .create nameS 1, 0), (false, .wait nameS, 0)], 1) := by decide +kernel
  obtain ⟨s, hs, h⟩ := Option.bind_eq_some_iff.mp hrun
  simp only [Option.some.injEq, Prod.mk.injEq] at h
  obtain ⟨hret, hw⟩ := h
  have hfit : Along step (Fits nameS 1) init twoWait :=
    ⟨trivial, fun _ _ => ⟨trivial, fun _ _ => ⟨trivial, fun _ _ => trivial⟩⟩⟩
  exact ⟨s, hs, hw, (waits_limited twoWait s hs false nameS 1 (by simp [hret]) (by decide) (by decide) hfit).1⟩

/-- A semaphore that starts at -1 is created, and a `Wait` is completed with no `Signal` before it. -/
theorem negative_lets_in : ∃ s : SemUsers (Fin 1),
    exec step init [.create 0 (Bytes.pad 50 []) nameS (-1), .wait 0 nameS] = some s ∧
    (0, .create nameS (-1), 0) ∈ s.returned ∧ max (-1) 0 + (s.signals nameS : ℤ) < s.waits nameS ∧
    (s.table.semTab 0).map (fun a => (a.getName, a.sem.value)) = some (nameS.1, -2) := by
  have hrun : ((exec step (init : SemUsers (Fin 1))
      [.create 0 (Bytes.pad 50 []) nameS (-1), .wait 0 nameS]).bind fun s =>
        some (decide ((0, .create nameS (-1), 0) ∈ s.returned ∧ max (-1) 0 + (s.signals nameS : ℤ) < s.waits nameS ∧
          (s.table.semTab 0).map (fun a => (a.getName, a.sem.value)) = some (nameS.1, -2)))) = some true := by
    decide +kernel
  obtain ⟨s, hs, h⟩ := Option.bind_eq_some_iff.mp hrun
  exact ⟨s, hs, of_decide_eq_true (Option.some.inj h)⟩

end SemUsers

end Nachos
