/-
# The switch

`Switch/switch.cpp`: the loop reads a frame at a port, records the port under
the frame's source address in `switchMap`, and then sends the frame to all
other ports (broadcast, or a destination it has not recorded) or to the port
recorded for the destination. Addresses are keys as texts of six decimal
numbers; different addresses have different texts (`macString_inj`).

`lastIngress` says what a learning switch should know after a history of
frames and `forwardPorts` where it should send the next one. The loop does
exactly that on every history (`switch_learns_and_forwards`).
-/
import NachosNet.Basis.Text
import NachosNet.Network.Packet
import Mathlib.Data.List.Induction
import Mathlib.Logic.Function.Basic

namespace Nachos

open Basis

abbrev Port := Fin 4

namespace Switch

abbrev SwitchMap := Text → Option Port

/-- The text of an address: five numbers with a dash behind, and the last. -/
def macString (mac : MAC) : Text :=
  ((mac.1.take 5).flatMap fun x => Nat.toDigits 10 x.toNat ++ ['-']) ++ Nat.toDigits 10 (mac.get 5).toNat

/-- `getString(eth, b)`: of the destination if `b`, else of the source. -/
def getString (eth : Frame) (b : Bool) : Text := macString (if b then Frame.destMAC eth else Frame.srcMAC eth)

/-- The ports `j` with `j != i`, in the order of the loop. -/
def others (i : Port) : List Port := (List.finRange 4).filter fun j => j ≠ i

/-- What the loop does with the frame `eth` read at port `i`: the map
afterwards, and the ports the frame is sent to. -/
def handle (switchMap : SwitchMap) (i : Port) (eth : Frame) : SwitchMap × List Port :=
  let switchMap := Function.update switchMap (getString eth false) (some i)
  let dest := getString eth true
  if dest = "255-255-255-255-255-255".toList then (switchMap, others i)
  else match switchMap dest with
    | some p => (switchMap, [p])
    | none => (switchMap, others i)

/-- `switchMap` after frames were handled, from an empty one. -/
def mapAfter (fs : List (Port × Frame)) : SwitchMap :=
  fs.foldl (fun m f => (handle m f.1 f.2).1) fun _ => none

/-! ### The texts of addresses -/

theorem macString_eq (mac : MAC) : macString mac = joinNums '-' (mac.1.map BitVec.toNat) := by
  obtain ⟨l, hl⟩ := mac
  obtain ⟨a, b, c, d, e, f, rfl⟩ : ∃ a b c d e f, l = [a, b, c, d, e, f] := by
    match l, hl with
    | [a, b, c, d, e, f], _ => exact ⟨a, b, c, d, e, f, rfl⟩
  simp [macString, joinNums, Bytes.get]

theorem macString_inj {m m' : MAC} (h : macString m = macString m') : m = m' := by
  rw [macString_eq, macString_eq] at h
  have hl : (m.1.map BitVec.toNat).length = (m'.1.map BitVec.toNat).length := by
    rw [List.length_map, List.length_map, m.2, m'.2]
  have hmap := joinNums_inj (by decide) hl h
  exact Subtype.ext (List.map_injective_iff.mpr (fun _ _ => BitVec.eq_of_toNat_eq) hmap)

/-- FF:FF:FF:FF:FF:FF. -/
def broadcast : MAC := ⟨List.replicate 6 255, rfl⟩

theorem getString_eq_broadcast (eth : Frame) :
    getString eth true = "255-255-255-255-255-255".toList ↔ Frame.destMAC eth = broadcast := by
  have hb : "255-255-255-255-255-255".toList = macString broadcast := by decide
  rw [hb]
  exact ⟨fun h => macString_inj h, fun h => congrArg macString h⟩

/-! ### A learning switch -/

/-- The port at which the last frame with source `m` came. -/
def lastIngress (fs : List (Port × Frame)) (m : MAC) : Option Port :=
  ((fs.filter fun f => Frame.srcMAC f.2 = m).getLast?).map Prod.fst

/-- Where a learning switch sends a frame that comes at port `i` after `fs`. -/
def forwardPorts (fs : List (Port × Frame)) (i : Port) (f : Frame) : List Port :=
  if Frame.destMAC f = broadcast then others i
  else match lastIngress (fs ++ [(i, f)]) (Frame.destMAC f) with
    | some p => [p]
    | none => others i

theorem lastIngress_concat (fs : List (Port × Frame)) (i : Port) (f : Frame) (m : MAC) :
    lastIngress (fs ++ [(i, f)]) m = if Frame.srcMAC f = m then some i else lastIngress fs m := by
  unfold lastIngress
  rw [List.filter_append]
  by_cases h : Frame.srcMAC f = m
  · simp [h]
  · simp [h]

/-! ### The loop -/

theorem handle_fst (m : SwitchMap) (i : Port) (f : Frame) :
    (handle m i f).1 = Function.update m (macString (Frame.srcMAC f)) (some i) := by
  simp only [handle]
  split
  · rfl
  · split <;> rfl

theorem mapAfter_concat (fs : List (Port × Frame)) (i : Port) (f : Frame) :
    mapAfter (fs ++ [(i, f)]) = Function.update (mapAfter fs) (macString (Frame.srcMAC f)) (some i) := by
  unfold mapAfter
  rw [List.foldl_append]
  exact handle_fst _ i f

theorem mapAfter_macString (fs : List (Port × Frame)) (m : MAC) :
    mapAfter fs (macString m) = lastIngress fs m := by
  induction fs using List.reverseRecOn with
  | nil => rfl
  | append_singleton fs x ih =>
    obtain ⟨i, f⟩ := x
    rw [mapAfter_concat, lastIngress_concat]
    by_cases h : Frame.srcMAC f = m
    · rw [if_pos h, h, Function.update_self]
    · rw [if_neg h, Function.update_of_ne (fun he => h (macString_inj he).symm), ih]

theorem mapAfter_key {fs : List (Port × Frame)} {key : Text} (h : mapAfter fs key ≠ none) :
    ∃ x ∈ fs, key = macString (Frame.srcMAC x.2) := by
  induction fs using List.reverseRecOn with
  | nil => exact absurd rfl h
  | append_singleton fs x ih =>
    obtain ⟨i, f⟩ := x
    rw [mapAfter_concat] at h
    by_cases hk : key = macString (Frame.srcMAC f)
    · exact ⟨(i, f), by simp, hk⟩
    · rw [Function.update_of_ne hk] at h
      obtain ⟨x, hx, he⟩ := ih h
      exact ⟨x, List.mem_append_left _ hx, he⟩

theorem handle_snd (fs : List (Port × Frame)) (i : Port) (f : Frame) :
    (handle (mapAfter fs) i f).2 = forwardPorts fs i f := by
  have hmap : Function.update (mapAfter fs) (getString f false) (some i) (getString f true) =
      lastIngress (fs ++ [(i, f)]) (Frame.destMAC f) := by
    rw [← mapAfter_macString, mapAfter_concat]
    rfl
  unfold handle forwardPorts
  by_cases hb : Frame.destMAC f = broadcast
  · rw [if_pos ((getString_eq_broadcast f).mpr hb), if_pos hb]
  · rw [if_neg (fun h => hb ((getString_eq_broadcast f).mp h)), if_neg hb, ← hmap]
    split <;> rfl

/-- **The switch is a learning switch.** On every sequence of frames each
frame goes where `forwardPorts` says, and `switchMap` holds, under the text of
each source address seen and of nothing else, the port where its last frame
came. -/
theorem switch_learns_and_forwards (fs : List (Port × Frame)) :
    (∀ pre i f post, fs = pre ++ (i, f) :: post → (handle (mapAfter pre) i f).2 = forwardPorts pre i f) ∧
    (∀ m, mapAfter fs (macString m) = lastIngress fs m) ∧
    ∀ key, mapAfter fs key ≠ none → ∃ x ∈ fs, key = macString (Frame.srcMAC x.2) :=
  ⟨fun pre i f _ _ => handle_snd pre i f, mapAfter_macString fs, fun _ => mapAfter_key⟩

end Switch

end Nachos
