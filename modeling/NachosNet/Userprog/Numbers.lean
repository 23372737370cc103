/-
# Numbers on the console

`SysReadNum` and `SysPrintNum` of `userprog/ksyscall.h`, with `readUntilBlank` and
`compareNumAndString` of `userprog/ksyscallhelper.h`. Both keep their digits in one
global array, `_numberBuffer`, and both wait for the console while they use it.

A call runs from one wait to the next: for the lock of the console, and for the
interrupt of the device. `PutChar` waits for the lock with its character, and then
for the character to be written; `GetChar` waits for the lock, and then for a key.
Calls of different processes that do not use the array at the same time print their
own number and read their own characters (`numbers_apart`); otherwise they mix
(`numbers_mix`).

Key definitions: `numberOf`, `NumberCalls`, `NumberCalls.step`,
`NumberCalls.Exclusive`.
-/
import Mathlib.Data.Nat.Digits.Lemmas
import NachosNet.Basis.Bytes
import NachosNet.Basis.Int32
import NachosNet.Basis.Run

namespace Nachos

open Basis

/-! ### The number in a string -/

/-- The loop of `compareNumAndString` over the characters from the last one on;
`sign` of them stand in front of the digits. `none` when it reads before the
string. -/
def compareDigits (sign : ℕ) : List Byte → ℕ → Option Bool
  | [], integer => if integer = 0 then some (sign == 0) else none
  | c :: s, integer =>
    if integer = 0 then some (s.length + 1 == sign)
    else if c.toInt - 48 ≠ (integer % 10 : ℕ) then some false
    else compareDigits sign s (integer / 10)

def compareNumAndString (integer : ℤ) (s : List Byte) : Option Bool :=
  if integer = 0 then some (s == [48])
  else if integer < 0 ∧ s.head? ≠ some 45 then some false
  else if integer < 0 then compareDigits 1 s.reverse (toInt (-integer)).toNat
  else compareDigits 0 s.reverse integer.toNat

/-- The loop of `SysReadNum`: the leading zeros and the number, unless there is a
character that is not a digit. -/
def readDigits : List Byte → ℕ → Bool → ℤ → Option (ℕ × ℤ)
  | [], zeros, _, num => some (zeros, num)
  | c :: s, zeros, isLeading, num =>
    if c.toInt < 48 ∨ 57 < c.toInt then none
    else
      let leading := c == 48 && isLeading
      readDigits s (if leading then zeros + 1 else zeros) leading (toInt (toInt (num * 10) + (c.toInt - 48)))

def maxNumLength : ℕ := 11

/-- "-2147483648" -/
def minIntChars : List Byte := [45, 50, 49, 52, 55, 52, 56, 51, 54, 52, 56]

/-- What `SysReadNum` returns when the string `s` is in the array. `none` when
`compareNumAndString` reads before the string. -/
def numberOf (s : List Byte) : Option ℤ :=
  if s = [] then some 0
  else if s = minIntChars then some minInt
  else
    let nega := s.head? == some 45
    match readDigits (if nega then s.tail else s) 0 true 0 with
    | none => some 0
    | some (zeros, num) =>
      if 1 < zeros ∨ zeros ≠ 0 ∧ (num ≠ 0 ∨ nega = true) then some 0
      else
        let num := if nega then toInt (-num) else num
        if s.length ≤ maxNumLength - 2 then some num
        else (compareNumAndString num s).map fun equal => if equal then num else 0

/-! ### The array -/

abbrev NumberBuffer := Bytes (maxNumLength + 2)

namespace NumberBuffer

/-- `memset(_numberBuffer, 0, sizeof(_numberBuffer))` -/
def zero : NumberBuffer := ⟨List.replicate 13 0, rfl⟩

def store (b : NumberBuffer) (n : ℕ) (c : Byte) : NumberBuffer := ⟨b.1.set n c, by rw [List.length_set, b.2]⟩

/-- The string in the array. -/
def chars (b : NumberBuffer) : List Byte := b.1.takeWhile (· ≠ 0)

/-- The digits of `num` from the last one on, stored from `n` on, and the index
after them. -/
def storeDigits (num n : ℕ) (b : NumberBuffer) : NumberBuffer × ℕ :=
  if num = 0 then (b, n) else storeDigits (num / 10) (n + 1) (b.store n (BitVec.ofNat 8 (num % 10)))
termination_by num
decreasing_by omega

end NumberBuffer

/-- The digits of `m`, the first one first. -/
def digitChars (m : ℕ) : List Byte := ((Nat.digits 10 m).map fun d => BitVec.ofNat 8 d + 48).reverse

/-- The decimal form of a number. -/
def decimal (v : ℤ) : List Byte :=
  if v = 0 then [48] else if v < 0 then 45 :: digitChars v.natAbs else digitChars v.natAbs

theorem decimal_minInt : decimal minInt = minIntChars := by decide +kernel

namespace NumberBuffer

theorem storeDigits_spec (num n : ℕ) (b : NumberBuffer) (h : n + (Nat.digits 10 num).length ≤ 13) :
    (b.storeDigits num n).1.1 =
        b.1.take n ++ (Nat.digits 10 num).map (BitVec.ofNat 8) ++ b.1.drop (n + (Nat.digits 10 num).length) ∧
      (b.storeDigits num n).2 = n + (Nat.digits 10 num).length := by
  induction num using Nat.strongRecOn generalizing n b with
  | ind num ih =>
    unfold storeDigits
    split
    · rename_i h0
      simp [h0]
    · rename_i h0
      have hd := Nat.digits_def' (b := 10) (by decide) (Nat.pos_of_ne_zero h0)
      rw [hd, List.length_cons] at h ⊢
      obtain ⟨h1, h2⟩ := ih (num / 10) (by omega) (n + 1) (b.store n (BitVec.ofNat 8 (num % 10))) (by omega)
      have hn : n < b.1.length := by rw [b.2]; show n < 13; omega
      refine ⟨?_, by rw [h2]; omega⟩
      rw [h1]
      show (b.1.set n _).take (n + 1) ++ _ ++ (b.1.set n _).drop _ = _
      have htake : (b.1.set n (BitVec.ofNat 8 (num % 10))).take (n + 1) =
          b.1.take n ++ [BitVec.ofNat 8 (num % 10)] := by
        rw [List.take_succ_eq_append_getElem (by simpa using hn), List.getElem_set_self,
          List.take_set_of_le (le_refl n)]
      rw [htake, List.drop_set_of_lt (by omega)]
      simp [Nat.add_assoc, Nat.add_comm 1]

end NumberBuffer

def isBlank (c : Byte) : Bool := c == 10 || c == 13 || c == 9 || c == 32

/-- `(char)EOF` -/
def eof : Byte := 255

/-! ### The calls -/

inductive NumberCall
  | printNum (num : BitVec 32)
  | readNum
  deriving DecidableEq

namespace NumberCalls

/-- What is left of `SysPrintNum` after the present character. -/
inductive Rest
  /-- These characters. -/
  | chars (cs : List Byte)
  /-- Storing the digits of `num`, and printing them. -/
  | store (num : ℕ)
  /-- Printing the digits below `i`. -/
  | digits (i : ℕ)
  deriving DecidableEq

/-- Where a call waits. -/
inductive Wait
  /-- `PutChar(c)`, for the lock. -/
  | put (c : Byte) (k : Rest)
  /-- `PutChar`, for the interrupt. -/
  | putting (k : Rest)
  /-- `GetChar` with `n` characters stored, for the lock. -/
  | get (n : ℕ)
  /-- `GetChar` with `n` characters stored, for a key. -/
  | getting (n : ℕ)
  deriving DecidableEq

/-- A call under way, with the characters it has written and read. -/
structure Running where
  call : NumberCall
  wait : Wait
  emitted : List Byte
  consumed : List Byte
  deriving DecidableEq

/-- A call that has returned. -/
structure Returned (ι : Type*) where
  proc : ι
  call : NumberCall
  emitted : List Byte
  consumed : List Byte
  value : Option ℤ
  deriving DecidableEq

inductive Event (ι : Type*)
  | call (p : ι) (c : NumberCall)
  /-- `p` gets the lock of the display, and its character is written. -/
  | emit (p : ι)
  /-- The interrupt of the display for `p`. -/
  | written (p : ι)
  /-- `p` gets the lock of the keyboard. -/
  | acquire (p : ι)
  /-- The key for `p`. -/
  | key (p : ι) (c : Byte)

end NumberCalls

structure NumberCalls (ι : Type*) where
  buffer : NumberBuffer
  outHolder : Option ι
  inHolder : Option ι
  running : ι → Option NumberCalls.Running
  returned : List (NumberCalls.Returned ι)

namespace NumberCalls

variable {ι : Type*} [DecidableEq ι]

/-- The loop that prints the digits below `i`, up to the next wait. -/
def printDigits (b : NumberBuffer) : ℕ → Option Wait
  | 0 => none
  | i + 1 => some (.put (b.1.getD i 0 + 48) (.digits i))

/-- `SysPrintNum` up to the next wait; `none` when it returns. -/
def resume (b : NumberBuffer) : Rest → NumberBuffer × Option Wait
  | .chars [] => (b, none)
  | .chars (c :: cs) => (b, some (.put c (.chars cs)))
  | .store num =>
    let r := b.storeDigits num 0
    (r.1, printDigits r.1 r.2)
  | .digits i => (b, printDigits b i)

/-- A call up to its first wait. -/
def start (b : NumberBuffer) : NumberCall → NumberBuffer × Option Wait
  | .printNum num =>
    if num = 0 then resume b (.chars [48])
    else if num.toInt = minInt then resume b (.chars minIntChars)
    else if num.toInt < 0 then (b, some (.put 45 (.store (-num).toNat)))
    else resume b (.store num.toNat)
  | .readNum => (NumberBuffer.zero, some (.get 0))

/-- `readUntilBlank` from the return of `GetChar` to the next wait; `none` when it returns. -/
def receive (b : NumberBuffer) (n : ℕ) (c : Byte) : NumberBuffer × Option Wait :=
  if isBlank c || c == eof then (b, none)
  else if n + 1 > maxNumLength then (b.store n c, none)
  else (b.store n c, some (.get (n + 1)))

/-- Process `p` goes on to its next wait, or returns. -/
def goOn (s : NumberCalls ι) (p : ι) (r : Running) (next : NumberBuffer × Option Wait) : NumberCalls ι :=
  match next.2 with
  | some w => { s with buffer := next.1, running := Function.update s.running p (some { r with wait := w }) }
  | none =>
    { s with
      buffer := next.1
      running := Function.update s.running p none
      returned := s.returned ++ [⟨p, r.call, r.emitted, r.consumed,
        match r.call with
        | .printNum _ => none
        | .readNum => numberOf next.1.chars⟩] }

def step (s : NumberCalls ι) : Event ι → Option (NumberCalls ι)
  | .call p c =>
    match s.running p with
    | some _ => none
    | none => some (s.goOn p ⟨c, .get 0, [], []⟩ (start s.buffer c))
  | .emit p =>
    match s.running p, s.outHolder with
    | some ⟨call, .put c k, emitted, consumed⟩, none =>
      some { s with
        outHolder := some p
        running := Function.update s.running p (some ⟨call, .putting k, emitted ++ [c], consumed⟩) }
    | _, _ => none
  | .written p =>
    match s.running p with
    | some ⟨call, .putting k, emitted, consumed⟩ =>
      if s.outHolder = some p then
        some ({ s with outHolder := none }.goOn p ⟨call, .putting k, emitted, consumed⟩ (resume s.buffer k))
      else none
    | _ => none
  | .acquire p =>
    match s.running p, s.inHolder with
    | some ⟨call, .get n, emitted, consumed⟩, none =>
      some { s with
        inHolder := some p
        running := Function.update s.running p (some ⟨call, .getting n, emitted, consumed⟩) }
    | _, _ => none
  | .key p c =>
    match s.running p with
    | some ⟨call, .getting n, emitted, consumed⟩ =>
      if s.inHolder = some p then
        some ({ s with inHolder := none }.goOn p ⟨call, .getting n, emitted, consumed ++ [c]⟩ (receive s.buffer n c))
      else none
    | _ => none

def init (b : NumberBuffer) : NumberCalls ι where
  buffer := b
  outHolder := none
  inHolder := none
  running _ := none
  returned := []

/-- The value that the characters read by a `SysReadNum` determine: that of the
string before the first blank. -/
def tokenValue (consumed : List Byte) : Option ℤ :=
  numberOf ((consumed.takeWhile fun c => !(isBlank c || c == eof)).takeWhile (· ≠ 0))

/-! ### Calls that use the array alone -/

/-- The call still reads the array. -/
def Wait.uses : Wait → Bool
  | .put _ (.digits i) | .putting (.digits i) => i ≠ 0
  | .get _ | .getting _ => true
  | _ => false

def Event.proc : Event ι → ι
  | .call p _ | .emit p | .written p | .acquire p | .key p _ => p

/-- The step changes the array only when no other call still reads it. -/
def Exclusive (s : NumberCalls ι) (e : Event ι) : Prop :=
  ∀ s' ∈ s.step e, s'.buffer = s.buffer ∨ ∀ q, q ≠ e.proc → ∀ r ∈ s.running q, r.wait.uses = false

instance [Fintype ι] (s : NumberCalls ι) (e : Event ι) : Decidable (Exclusive s e) :=
  inferInstanceAs (Decidable (∀ s' ∈ s.step e, s'.buffer = s.buffer ∨
    ∀ q, q ≠ e.proc → ∀ r ∈ s.running q, r.wait.uses = false))

/-- The characters that are still to be written. -/
def Rest.toWrite (b : NumberBuffer) : Rest → List Byte
  | .chars cs => cs
  | .store num => digitChars num
  | .digits i => ((b.1.take i).map (· + 48)).reverse

def Rest.Ok : Rest → Prop
  | .chars _ => True
  | .store num => num < 10 ^ 10
  | .digits i => i ≤ 13

def Wait.toWrite (b : NumberBuffer) : Wait → List Byte
  | .put c k => c :: k.toWrite b
  | .putting k => k.toWrite b
  | .get _ | .getting _ => []

/-- A wait of `SysPrintNum`. -/
def Wait.Prints : Wait → Prop
  | .put _ k | .putting k => k.Ok
  | .get _ | .getting _ => False

/-- A wait of `SysReadNum` that has stored `cs` in the array. -/
def Wait.Reads (b : NumberBuffer) (cs : List Byte) : Wait → Prop
  | .put _ _ | .putting _ => False
  | .get n | .getting n => n = cs.length ∧ n ≤ maxNumLength ∧ (∀ c ∈ cs, (isBlank c || c == eof) = false) ∧
      b.1 = cs ++ List.replicate (13 - n) 0

/-- The call has written the beginning of its number, and will write the rest; or
what it has read is in the array. -/
def Good (b : NumberBuffer) (r : Running) : Prop :=
  match r.call with
  | .printNum num => r.wait.Prints ∧ r.emitted ++ r.wait.toWrite b = decimal num.toInt
  | .readNum => r.wait.Reads b r.consumed

/-- The call has written its number, or returned the value of what it has read. -/
def Returned.Right (d : Returned ι) : Prop :=
  match d.call with
  | .printNum num => d.emitted = decimal num.toInt
  | .readNum => d.value = tokenValue d.consumed

theorem Rest.toWrite_congr {k : Rest} (hk : ∀ i, k = .digits i → i = 0) (b b' : NumberBuffer) :
    k.toWrite b' = k.toWrite b := by
  cases k with
  | digits i =>
    obtain rfl := hk i rfl
    rfl
  | _ => rfl

theorem Good.congr {b b' : NumberBuffer} {r : Running} (h : Good b r) (hu : r.wait.uses = false) : Good b' r := by
  obtain ⟨call, wait, emitted, consumed⟩ := r
  cases call with
  | readNum => cases wait <;> simp_all [Good, Wait.Reads, Wait.uses]
  | printNum num =>
    obtain ⟨hp, hw⟩ := h
    refine ⟨hp, hw ▸ congrArg _ ?_⟩
    cases wait with
    | get n => rfl
    | getting n => rfl
    | put c k => exact congrArg (c :: ·) (Rest.toWrite_congr (fun i hi => by simpa [hi, Wait.uses] using hu) b b')
    | putting k => exact Rest.toWrite_congr (fun i hi => by simpa [hi, Wait.uses] using hu) b b'

/-- What `goOn` does with the next wait of a printing call. -/
structure Continues (b : NumberBuffer) (cs : List Byte) (next : NumberBuffer × Option Wait) : Prop where
  wait : ∀ w, next.2 = some w → w.Prints ∧ w.toWrite next.1 = cs
  done : next.2 = none → cs = []

theorem printDigits_continues (b : NumberBuffer) {i : ℕ} (hi : i ≤ 13) :
    Continues b ((b.1.take i).map (· + 48)).reverse (b, printDigits b i) := by
  cases i with
  | zero => exact ⟨fun w hw => (by cases hw), fun _ => rfl⟩
  | succ i =>
    have hlt : i < b.1.length := by rw [b.2]; exact hi
    refine ⟨fun w hw => ?_, fun hn => (by cases hn)⟩
    obtain rfl := Option.some.inj hw
    refine ⟨Nat.le_of_succ_le hi, ?_⟩
    have hget : b.1.getD i 0 = b.1[i] := by simp [hlt]
    rw [List.take_succ_eq_append_getElem hlt, List.map_append, List.reverse_append, Wait.toWrite, hget]
    rfl

theorem length_digits_le {m : ℕ} (hm : m < 10 ^ 10) : (Nat.digits 10 m).length ≤ 10 :=
  (Nat.digits_length_le_iff (by decide) m).mpr hm

theorem resume_continues (b : NumberBuffer) {k : Rest} (hk : k.Ok) : Continues b (k.toWrite b) (resume b k) := by
  cases k with
  | chars cs =>
    cases cs with
    | nil => exact ⟨fun w hw => (by cases hw), fun _ => rfl⟩
    | cons c cs =>
      refine ⟨fun w hw => ?_, fun hn => (by cases hn)⟩
      obtain rfl := Option.some.inj hw
      exact ⟨trivial, rfl⟩
  | digits i => exact printDigits_continues b hk
  | store num =>
    have hlen := length_digits_le hk
    obtain ⟨hb, hn⟩ := b.storeDigits_spec num 0 (by omega)
    have htake : (b.storeDigits num 0).1.1.take (b.storeDigits num 0).2 =
        (Nat.digits 10 num).map (BitVec.ofNat 8) := by
      rw [hb, hn]
      simp
    have hdigits := printDigits_continues (b.storeDigits num 0).1 (i := (b.storeDigits num 0).2) (by omega)
    rw [htake, List.map_map] at hdigits
    exact ⟨hdigits.wait, hdigits.done⟩

theorem start_continues (b : NumberBuffer) (num : BitVec 32) :
    Continues b (decimal num.toInt) (start b (.printNum num)) := by
  have hlt : num.toNat < 2 ^ 32 := num.isLt
  have hcond := BitVec.toInt_eq_toNat_cond num
  have hneg : (-num).toNat = (2 ^ 32 - num.toNat) % 2 ^ 32 := BitVec.toNat_neg num
  simp only [start]
  split
  · rename_i h0
    subst h0
    exact resume_continues b (k := .chars [48]) trivial
  rename_i h0
  split
  · rename_i hmin
    rw [hmin, decimal_minInt]
    exact resume_continues b (k := .chars minIntChars) trivial
  have hne : num.toNat ≠ 0 := fun h => h0 (BitVec.eq_of_toNat_eq h)
  unfold decimal
  rw [if_neg (by split at hcond <;> omega)]
  split
  · have habs : num.toInt.natAbs = (-num).toNat := by split at hcond <;> omega
    refine ⟨fun w hw => ?_, fun hn => (by cases hn)⟩
    obtain rfl := Option.some.inj hw
    refine ⟨?_, by rw [habs]; rfl⟩
    show (-num).toNat < 10 ^ 10
    omega
  · have habs : num.toInt.natAbs = num.toNat := by split at hcond <;> omega
    rw [habs]
    exact resume_continues b (k := .store num.toNat) (show num.toNat < 10 ^ 10 by omega)

theorem chars_eq {b : NumberBuffer} {cs : List Byte} {k : ℕ} (h : b.1 = cs ++ List.replicate k 0) :
    b.chars = cs.takeWhile (· ≠ 0) := by
  unfold NumberBuffer.chars
  rw [h]
  clear h
  induction cs with
  | nil => cases k <;> simp [List.replicate_succ]
  | cons c cs ih =>
    rw [List.cons_append, List.takeWhile_cons, List.takeWhile_cons, ih]

theorem takeWhile_token {cs : List Byte} (hcs : ∀ c ∈ cs, (isBlank c || c == eof) = false) (l : List Byte) :
    (cs ++ l).takeWhile (fun c => !(isBlank c || c == eof)) = cs ++ l.takeWhile fun c => !(isBlank c || c == eof) :=
  List.takeWhile_append_of_pos fun c hc => by rw [hcs c hc]; rfl

theorem receive_reads {b : NumberBuffer} {n : ℕ} {cs : List Byte} (c : Byte) (h : (Wait.getting n).Reads b cs) :
    (∀ w, (receive b n c).2 = some w → w.Reads (receive b n c).1 (cs ++ [c])) ∧
      ((receive b n c).2 = none → numberOf (receive b n c).1.chars = tokenValue (cs ++ [c])) := by
  obtain ⟨rfl, hle, hcs, hb⟩ := h
  unfold receive
  by_cases hc : (isBlank c || c == eof) = true
  · rw [if_pos hc]
    refine ⟨fun w hw => (by cases hw), fun _ => ?_⟩
    rw [chars_eq hb, tokenValue, takeWhile_token hcs, List.takeWhile_cons_of_neg (by simp [hc]), List.append_nil]
  rw [if_neg hc]
  have hcs' : ∀ x ∈ cs ++ [c], (isBlank x || x == eof) = false := by
    intro x hx
    rcases List.mem_append.mp hx with hx | hx
    · exact hcs x hx
    · rw [List.mem_singleton.mp hx]
      simpa using hc
  have hb' : (b.store cs.length c).1 = (cs ++ [c]) ++ List.replicate (13 - (cs.length + 1)) 0 := by
    show b.1.set cs.length c = _
    have h11 : maxNumLength = 11 := rfl
    rw [hb, List.set_append_right _ _ (le_refl _), Nat.sub_self,
      show 13 - cs.length = 13 - (cs.length + 1) + 1 by omega, List.replicate_succ, List.set_cons_zero]
    simp
  split
  · refine ⟨fun w hw => (by cases hw), fun _ => ?_⟩
    have htoken := takeWhile_token hcs' []
    rw [List.append_nil] at htoken
    rw [chars_eq hb', tokenValue, htoken, List.takeWhile_nil, List.append_nil]
  · rename_i hlen
    refine ⟨fun w hw => ?_, fun hn => (by cases hn)⟩
    obtain rfl := Option.some.inj hw
    refine ⟨by simp, by omega, hcs', hb'⟩

/-- What holds after every run of calls that use the array alone. -/
structure Inv (s : NumberCalls ι) : Prop where
  running : ∀ p r, s.running p = some r → Good s.buffer r
  returned : ∀ d ∈ s.returned, d.Right

variable {s s' : NumberCalls ι}

theorem inv_goOn {p : ι} {r : Running} {next : NumberBuffer × Option Wait} (hret : ∀ d ∈ s.returned, d.Right)
    (hothers : ∀ q r', q ≠ p → s.running q = some r' → Good next.1 r')
    (hwait : ∀ w, next.2 = some w → Good next.1 { r with wait := w })
    (hdone : next.2 = none →
      match r.call with
      | .printNum num => r.emitted = decimal num.toInt
      | .readNum => numberOf next.1.chars = tokenValue r.consumed) : Inv (s.goOn p r next) := by
  unfold goOn
  cases hn : next.2 with
  | some w =>
    refine ⟨fun q r' hq => ?_, hret⟩
    rcases eq_or_ne q p with rfl | hqp
    · obtain rfl : _ = r' := by simpa using hq
      exact hwait w hn
    · exact hothers q r' hqp (by simpa [hqp] using hq)
  | none =>
    refine ⟨fun q r' hq => ?_, fun d hd => ?_⟩
    · rcases eq_or_ne q p with rfl | hqp
      · simp at hq
      · exact hothers q r' hqp (by simpa [hqp] using hq)
    · rcases List.mem_append.mp hd with hd | hd
      · exact hret d hd
      · obtain rfl := List.mem_singleton.mp hd
        have hr := hdone hn
        unfold Returned.Right
        cases hc : r.call with
        | printNum num =>
          rw [hc] at hr
          exact hr
        | readNum =>
          rw [hc] at hr
          simpa using hr

theorem Inv.others {e : Event ι} (h : Inv s) (hex : Exclusive s e) (hs : s.step e = some s') :
    ∀ q r, q ≠ e.proc → s.running q = some r → Good s'.buffer r := by
  intro q r hq hr
  rcases hex s' hs with hb | hu
  · rw [hb]
    exact h.running q r hr
  · exact (h.running q r hr).congr (hu q hq r hr)

theorem buffer_goOn {p : ι} {r : Running} {next : NumberBuffer × Option Wait} :
    (s.goOn p r next).buffer = next.1 := by
  unfold goOn
  split <;> rfl

theorem inv_call {p : ι} {c : NumberCall} (h : Inv s) (hex : Exclusive s (.call p c)) (hr : s.running p = none) :
    Inv (s.goOn p ⟨c, .get 0, [], []⟩ (start s.buffer c)) := by
  have hs : s.step (.call p c) = some (s.goOn p ⟨c, .get 0, [], []⟩ (start s.buffer c)) := by simp only [step, hr]
  have hothers := h.others hex hs
  rw [buffer_goOn] at hothers
  cases c with
  | printNum num =>
    have hc := start_continues s.buffer num
    refine inv_goOn h.returned hothers (fun w hw => ?_) fun hn => ?_
    · exact ⟨(hc.wait w hw).1, (hc.wait w hw).2⟩
    · exact (hc.done hn).symm
  | readNum =>
    refine inv_goOn h.returned hothers (fun w hw => ?_) fun hn => (by cases hn)
    obtain rfl := Option.some.inj hw
    exact ⟨rfl, Nat.zero_le _, by simp, rfl⟩

theorem inv_move {p : ι} {r r' : Running} (h : Inv s) (hbuffer : s'.buffer = s.buffer)
    (hreturned : s'.returned = s.returned) (hrunning : s'.running = Function.update s.running p (some r'))
    (hr : s.running p = some r) (hgood : Good s.buffer r → Good s.buffer r') : Inv s' := by
  refine ⟨fun q x hq => ?_, by rw [hreturned]; exact h.returned⟩
  rw [hbuffer]
  rw [hrunning] at hq
  rcases eq_or_ne q p with rfl | hqp
  · obtain rfl : r' = x := by simpa using hq
    exact hgood (h.running q r hr)
  · exact h.running q x (by simpa [hqp] using hq)

section

variable {b : NumberBuffer} {call : NumberCall} {k : Rest} {n : ℕ} {c : Byte} {emitted consumed : List Byte}

/-- The character that is written is no longer to be written. -/
theorem Good.emit (hg : Good b ⟨call, .put c k, emitted, consumed⟩) :
    Good b ⟨call, .putting k, emitted ++ [c], consumed⟩ := by
  cases call with
  | readNum => exact hg
  | printNum num =>
    obtain ⟨hp, hw⟩ := hg
    refine ⟨hp, ?_⟩
    rw [← hw]
    simp [Wait.toWrite]

theorem Good.acquire (hg : Good b ⟨call, .get n, emitted, consumed⟩) :
    Good b ⟨call, .getting n, emitted, consumed⟩ := by
  cases call with
  | readNum => exact hg
  | printNum num => exact hg.1.elim

theorem inv_written {p : ι} (h : Inv s) (hr : s.running p = some ⟨call, .putting k, emitted, consumed⟩)
    (hothers : ∀ q r, q ≠ p → s.running q = some r → Good (resume s.buffer k).1 r) :
    Inv ({ s with outHolder := none }.goOn p ⟨call, .putting k, emitted, consumed⟩ (resume s.buffer k)) := by
  have hg := h.running p _ hr
  cases call with
  | readNum => exact hg.elim
  | printNum num =>
    obtain ⟨hp, hw⟩ := hg
    have hc := resume_continues s.buffer hp
    refine inv_goOn h.returned hothers (fun w hw' => ?_) fun hn => ?_
    · refine ⟨(hc.wait w hw').1, ?_⟩
      rw [← hw]
      exact congrArg _ (hc.wait w hw').2
    · calc emitted = emitted ++ k.toWrite s.buffer := by rw [hc.done hn, List.append_nil]
        _ = decimal num.toInt := hw

theorem inv_key {p : ι} (h : Inv s) (hr : s.running p = some ⟨call, .getting n, emitted, consumed⟩)
    (hothers : ∀ q r, q ≠ p → s.running q = some r → Good (receive s.buffer n c).1 r) :
    Inv ({ s with inHolder := none }.goOn p ⟨call, .getting n, emitted, consumed ++ [c]⟩ (receive s.buffer n c)) := by
  have hg := h.running p _ hr
  cases call with
  | printNum num => exact hg.1.elim
  | readNum =>
    have hrec := receive_reads c hg
    exact inv_goOn h.returned hothers hrec.1 hrec.2

end

theorem inv_step {e : Event ι} (h : Inv s) (hex : Exclusive s e) (hs : s.step e = some s') : Inv s' := by
  have hothers := h.others hex hs
  cases e with
  | call p c =>
    simp only [step] at hs
    split at hs
    · cases hs
    · rename_i hr
      rw [← Option.some.inj hs]
      exact inv_call h hex hr
  | emit p =>
    simp only [step] at hs
    split at hs
    · rename_i hr _
      rw [← Option.some.inj hs]
      exact inv_move h rfl rfl rfl hr Good.emit
    · cases hs
  | written p =>
    simp only [step] at hs
    split at hs
    · rename_i hr
      split at hs
      · rw [← Option.some.inj hs, buffer_goOn] at hothers
        rw [← Option.some.inj hs]
        exact inv_written h hr hothers
      · cases hs
    · cases hs
  | acquire p =>
    simp only [step] at hs
    split at hs
    · rename_i hr _
      rw [← Option.some.inj hs]
      exact inv_move h rfl rfl rfl hr Good.acquire
    · cases hs
  | key p c =>
    simp only [step] at hs
    split at hs
    · rename_i hr
      split at hs
      · rw [← Option.some.inj hs, buffer_goOn] at hothers
        rw [← Option.some.inj hs]
        exact inv_key h hr hothers
      · cases hs
    · cases hs

omit [DecidableEq ι] in
theorem inv_init (b : NumberBuffer) : Inv (init b : NumberCalls ι) :=
  ⟨fun p r hr => (by cases hr), fun d hd => (by cases hd)⟩

/-- In every interleaving in which a call changes the array only when no other call
still reads it, every `SysPrintNum` that has returned has written the decimal form
of its number, one that is under way has written a beginning of it, and every
`SysReadNum` has returned the value of the characters that it has read. -/
theorem numbers_apart (b : NumberBuffer) (es : List (Event ι)) (s : NumberCalls ι)
    (h : exec step (init b) es = some s) (hex : Along step Exclusive (init b) es) :
    (∀ d ∈ s.returned, ∀ num, d.call = .printNum num → d.emitted = decimal num.toInt) ∧
    (∀ p r, s.running p = some r → ∀ num, r.call = .printNum num → r.emitted <+: decimal num.toInt) ∧
    ∀ d ∈ s.returned, d.call = .readNum → d.value = tokenValue d.consumed := by
  have hi := exec_induction_along (P := fun _ s => Inv s) (inv_init b) (fun _ _ _ _ hinv hc hs => inv_step hinv hc hs)
    es s hex h
  refine ⟨fun d hd num hc => ?_, fun p r hr num hc => ?_, fun d hd hc => ?_⟩
  · have hright := hi.returned d hd
    unfold Returned.Right at hright
    rw [hc] at hright
    exact hright
  · have hgood := hi.running p r hr
    unfold Good at hgood
    rw [hc] at hgood
    exact ⟨_, hgood.2⟩
  · have hright := hi.returned d hd
    unfold Returned.Right at hright
    rw [hc] at hright
    exact hright

/-- One process prints 12 while another prints 0. -/
def printPrint : List (Event Bool) :=
  [.call false (.printNum 12), .call true (.printNum 0), .emit false, .written false, .emit true, .written true,
    .emit false, .written false]

theorem numbers_apart_printPrint : ∃ s : NumberCalls Bool, exec step (init NumberBuffer.zero) printPrint = some s ∧
    ∀ d ∈ s.returned, ∀ num, d.call = .printNum num → d.emitted = decimal num.toInt := by
  have hrun : (exec step (init NumberBuffer.zero) printPrint).isSome = true := by decide +kernel
  obtain ⟨s, hs⟩ := Option.isSome_iff_exists.mp hrun
  exact ⟨s, hs, (numbers_apart NumberBuffer.zero printPrint s hs (by decide +kernel)).1⟩

/-- While 12 is printed, another process prints 34 and stores its digits over those of
12. -/
def mixedPrints : List (Event Bool) :=
  [.call false (.printNum 12), .emit false, .call true (.printNum 34), .written false, .emit false, .written false]

/-- While a 7 is read, another process prints 5. -/
def mixedRead : List (Event Bool) :=
  [.call false .readNum, .acquire false, .key false 55, .acquire false, .call true (.printNum 5), .key false 10]

/-- The first process prints 14; and it reads 0. -/
theorem numbers_mix :
    (∃ s, exec step (init NumberBuffer.zero) mixedPrints = some s ∧
      s.returned = [⟨false, .printNum 12, [49, 52], [], none⟩] ∧ decimal 12 = [49, 50]) ∧
    ∃ s, exec step (init NumberBuffer.zero) mixedRead = some s ∧
      s.returned = [⟨false, .readNum, [], [55, 10], some 0⟩] ∧ tokenValue [55, 10] = some 7 := by
  have hprint : ((exec step (init NumberBuffer.zero) mixedPrints).bind fun s => some s.returned) =
      some [⟨false, .printNum 12, [49, 52], [], none⟩] := by decide +kernel
  have hread : ((exec step (init NumberBuffer.zero) mixedRead).bind fun s => some s.returned) =
      some [⟨false, .readNum, [], [55, 10], some 0⟩] := by decide +kernel
  obtain ⟨s, hs, hd⟩ := Option.bind_eq_some_iff.mp hprint
  obtain ⟨s', hs', hd'⟩ := Option.bind_eq_some_iff.mp hread
  exact ⟨⟨s, hs, Option.some.inj hd, by decide +kernel⟩, s', hs', Option.some.inj hd', by decide +kernel⟩

end NumberCalls

end Nachos
