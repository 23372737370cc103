/-
# Code with checked arrays

A run of code that uses arrays is done with a value, stops (the machine halts,
or it waits), or makes an access that is out of bounds. `x.Ensures Q` is that
`x` makes no such access and that its value, when it is done, has `Q`; it goes
through the code step by step (`ensures_bind`, `ensures_check`).

Key definitions: `Access.InBounds`, `Checked`, `Checked.Ensures`, `Checked.Safe`.
-/
import NachosNet.Basis.Bytes

namespace Basis

inductive Access
  /-- An array of `count` elements is allocated. -/
  | alloc (count : ℤ)
  /-- Element `i` of an array of `size` elements. -/
  | index (size : ℕ) (i : ℤ)
  /-- The first `count` of the `size` elements of an array. -/
  | block (size : ℕ) (count : ℤ)
  deriving DecidableEq

def Access.InBounds : Access → Prop
  | alloc count => 0 ≤ count
  | index size i => 0 ≤ i ∧ i < size
  | block size count => 0 ≤ count ∧ count ≤ size

instance : ∀ a : Access, Decidable a.InBounds
  | .alloc _ => inferInstanceAs (Decidable (_ ≤ _))
  | .index _ _ => inferInstanceAs (Decidable (_ ∧ _))
  | .block _ _ => inferInstanceAs (Decidable (_ ∧ _))

inductive Checked (α : Type*)
  | done (a : α)
  | stopped
  | fault (a : Access)
  deriving DecidableEq

namespace Checked

variable {α β ε : Type*}

def bind : Checked α → (α → Checked β) → Checked β
  | done a, f => f a
  | stopped, _ => stopped
  | fault a, _ => fault a

def map (f : α → β) (x : Checked α) : Checked β := x.bind fun a => done (f a)

def ofOption : Option α → Checked α
  | some a => done a
  | none => stopped

def ofExcept : Except ε α → Checked α
  | .ok a => done a
  | .error _ => stopped

@[simp] theorem bind_done (a : α) (f : α → Checked β) : (done a).bind f = f a := rfl

@[simp] theorem map_done (f : α → β) (a : α) : (done a).map f = done (f a) := rfl

@[simp] theorem ofOption_some (a : α) : ofOption (some a) = done a := rfl

@[simp] theorem ofExcept_ok (a : α) : ofExcept (.ok a : Except ε α) = done a := rfl

theorem map_eq_done {x : Checked α} {f : α → β} {b : β} : x.map f = done b ↔ ∃ a, x = done a ∧ f a = b := by
  cases x <;> simp [map, bind]

theorem ofOption_map (o : Option α) (f : α → β) : (ofOption o).map f = ofOption (o.map f) := by
  cases o <;> rfl

theorem ofExcept_map (e : Except ε α) (f : α → β) : (ofExcept e).map f = ofExcept (e.map f) := by
  cases e <;> rfl

/-- The access is made. -/
def check (a : Access) : Checked Unit := if a.InBounds then done () else fault a

def assert (p : Prop) [Decidable p] : Checked Unit := if p then done () else stopped

/-- `new char[count]`, with zeros. -/
def alloc (count : ℤ) : Checked (List Byte) := (check (.alloc count)).map fun _ => List.replicate count.toNat 0

/-- `a[i] = c`. -/
def put (a : List Byte) (i : ℤ) (c : Byte) : Checked (List Byte) :=
  (check (.index a.length i)).map fun _ => a.set i.toNat c

/-- `a[i]`. -/
def get (a : List Byte) (i : ℤ) : Checked Byte := (check (.index a.length i)).map fun _ => a.getD i.toNat 0

/-- No access is out of bounds, and the value has `Q`. -/
def Ensures (Q : α → Prop) : Checked α → Prop
  | done a => Q a
  | stopped => True
  | fault _ => False

/-- No access is out of bounds. -/
def Safe (x : Checked α) : Prop := x.Ensures fun _ => True

variable {Q : α → Prop} {x : Checked α}

theorem ensures_bind {f : α → Checked β} {Q : β → Prop} :
    (x.bind f).Ensures Q ↔ x.Ensures fun a => (f a).Ensures Q := by
  cases x <;> exact Iff.rfl

theorem ensures_map {f : α → β} {Q : β → Prop} : (x.map f).Ensures Q ↔ x.Ensures fun a => Q (f a) := ensures_bind

theorem ensures_check {a : Access} {Q : Unit → Prop} : (check a).Ensures Q ↔ a.InBounds ∧ Q () := by
  unfold check
  split
  · exact (and_iff_right ‹_›).symm
  · exact ⟨False.elim, fun h => absurd h.1 ‹_›⟩

theorem ensures_alloc {count : ℤ} {Q : List Byte → Prop} :
    (alloc count).Ensures Q ↔ 0 ≤ count ∧ Q (List.replicate count.toNat 0) := ensures_map.trans ensures_check

theorem ensures_put {a : List Byte} {i : ℤ} {c : Byte} {Q : List Byte → Prop} :
    (put a i c).Ensures Q ↔ (0 ≤ i ∧ i < a.length) ∧ Q (a.set i.toNat c) := ensures_map.trans ensures_check

theorem Ensures.mono {R : α → Prop} (h : x.Ensures Q) (hQ : ∀ a, Q a → R a) : x.Ensures R := by
  cases x with
  | done a => exact hQ a h
  | stopped => trivial
  | fault a => exact h

theorem safe_map {f : α → β} : (x.map f).Safe ↔ x.Safe := ensures_map

/-- A string and its terminator fit into an array. -/
theorem safe_check_string {size len : ℕ} : (check (.block size (len + 1))).Safe ↔ len < size := by
  unfold Safe
  rw [ensures_check, and_true]
  exact ⟨fun h => by have := h.2; omega, fun h => ⟨by omega, by omega⟩⟩

theorem safe_ofOption (o : Option α) : (ofOption o).Safe := by
  cases o <;> trivial

theorem safe_ofExcept (e : Except ε α) : (ofExcept e).Safe := by
  cases e <;> trivial

theorem ensures_ofOption {o : Option α} : (ofOption o).Ensures Q ↔ ∀ a, o = some a → Q a := by
  cases o with
  | none => exact ⟨fun _ _ h => (nomatch h), fun _ => trivial⟩
  | some a => exact ⟨fun h b hb => Option.some.inj hb ▸ h, fun h => h a rfl⟩

theorem ensures_ofExcept {e : Except ε α} : (ofExcept e).Ensures Q ↔ ∀ a, e = .ok a → Q a := by
  cases e with
  | error e => exact ⟨fun _ _ h => (nomatch h), fun _ => trivial⟩
  | ok a => exact ⟨fun h b hb => Except.ok.inj hb ▸ h, fun h => h a rfl⟩

theorem check_index {size : ℕ} {i : ℤ} (h0 : 0 ≤ i) (h : i < size) : check (.index size i) = done () :=
  if_pos ⟨h0, h⟩

theorem check_block {size : ℕ} {count : ℤ} (h : 0 ≤ count ∧ count ≤ size) : check (.block size count) = done () :=
  if_pos h

theorem assert_eq {p : Prop} [Decidable p] (h : p) : assert p = done () := if_pos h

theorem alloc_eq (n : ℕ) : alloc n = done (List.replicate n 0) :=
  congrArg (Checked.map _) (if_pos (Int.natCast_nonneg n))

theorem put_eq {a : List Byte} {i : ℕ} (h : i < a.length) (c : Byte) : put a i c = done (a.set i c) := by
  unfold put
  rw [check_index (Int.natCast_nonneg i) (Int.ofNat_lt.mpr h)]
  rfl

theorem get_eq {a : List Byte} {i : ℕ} (h : i < a.length) : get a i = done (a.getD i 0) := by
  unfold get
  rw [check_index (Int.natCast_nonneg i) (Int.ofNat_lt.mpr h)]
  rfl

end Checked

end Basis
