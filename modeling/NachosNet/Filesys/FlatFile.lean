/-
# A file on the disk is an array of bytes

`ReadAt` and `WriteAt` of `filesys/openfile.cc` go through whole sectors, and read
the first and the last one before they write them in part. Seen through a header
whose data sectors are different and have room for the file, they are the reads and
writes of an array of bytes: `readAt_slice` and `writeAt_splice` for one call at any
position that is not negative, and `refines_flat_array` for a `ReadAt` after any
calls of `WriteAt`.

Key definitions: `FileHeader.content`, `FileHeader.WriteCall`.
-/
import NachosNet.Basis.Ranges
import NachosNet.Basis.Run
import NachosNet.Filesys.Disk

namespace Nachos

open Basis

namespace OnDisk

namespace FileHeader

variable {h : FileHeader} {d : Disk} {n p : ℤ}

/-- The bytes of the file. -/
def content (h : FileHeader) (d : Disk) : List Byte := (List.range h.numBytes.toNat).map (h.byteAt d)

/-! ### One call -/

theorem exists_nat_request (hp : 0 ≤ p) (hmax : p + n ≤ maxInt) (hc : h.Covers)
    (hr : ¬ (n ≤ 0 ∨ h.numBytes.toInt ≤ p)) : ∃ k q : ℕ, n = k ∧ p = q ∧ 0 < k ∧ q < h.numBytes.toNat ∧
      ((q + k : ℤ) ≤ maxInt) ∧ transferred h.numBytes.toInt n p = h.inFile k q := by
  rw [hc.toInt_numBytes] at *
  refine ⟨n.toNat, p.toNat, by omega, by omega, by omega, by omega, by omega, ?_⟩
  unfold transferred inFile
  omega

theorem transferred_of_refused (hr : n ≤ 0 ∨ h.numBytes.toInt ≤ p) : transferred h.numBytes.toInt n p = 0 := by
  unfold transferred
  omega

theorem readAt_slice (hc : h.Covers) (d : Disk) (unset : ℕ → Byte) (hp : 0 ≤ p) (hmax : p + n ≤ maxInt) :
    ∃ into, h.readAt d unset n p = some (transferred h.numBytes.toInt n p, into) ∧
      (List.range (transferred h.numBytes.toInt n p).toNat).map into = slice (h.content d) p.toNat n.toNat := by
  have hslice : slice (h.content d) p.toNat n.toNat =
      (List.range (transferred h.numBytes.toInt n p).toNat).map fun x => h.byteAt d (p.toNat + x) := by
    rw [hc.toInt_numBytes]
    exact slice_map_range _ _ hp
  rw [hslice]
  by_cases hr : n ≤ 0 ∨ h.numBytes.toInt ≤ p
  · refine ⟨unset, ?_, ?_⟩
    · rw [transferred_of_refused hr]
      exact if_pos hr
    · rw [transferred_of_refused hr]
      rfl
  · obtain ⟨k, q, rfl, rfl, hk, hq, hle, ht⟩ := exists_nat_request hp hmax hc hr
    obtain ⟨into, hrun, hbytes⟩ := @readAt_eq h d hc unset k q hk hq hle
    rw [ht]
    refine ⟨into, hrun, List.map_congr_left fun x hx => ?_⟩
    exact hbytes x (by simpa using hx)

theorem writeAt_splice (hc : h.Covers) (d : Disk) (unset source : ℕ → Byte) (hp : 0 ≤ p) (hmax : p + n ≤ maxInt) :
    ∃ d', h.writeAt d unset source n p = some (transferred h.numBytes.toInt n p, d') ∧
      h.content d' = splice (h.content d) source n p ∧ ∀ s, s ∉ h.sectors → d' s = d s := by
  have hsplice : splice (h.content d) source n p = (List.range h.numBytes.toNat).map fun i : ℕ =>
      if p ≤ i ∧ i < p + n then source (i - p).toNat else h.byteAt d i := splice_map_range _ _ _ _ _
  rw [hsplice]
  by_cases hr : n ≤ 0 ∨ h.numBytes.toInt ≤ p
  · refine ⟨d, ?_, List.map_congr_left fun i hi => ?_, fun _ _ => rfl⟩
    · rw [transferred_of_refused hr]
      exact if_pos hr
    · have hlt := List.mem_range.mp hi
      rw [hc.toInt_numBytes] at hr
      exact (if_neg (by omega)).symm
  · obtain ⟨k, q, rfl, rfl, hk, hq, hle, ht⟩ := exists_nat_request hp hmax hc hr
    obtain ⟨d', hrun, hother, hbytes⟩ := @writeAt_eq h d hc unset source k q hk hq hle
    rw [ht]
    refine ⟨d', hrun, List.map_congr_left fun i hi => ?_, hother⟩
    have hlt := List.mem_range.mp hi
    rw [hbytes i hlt]
    by_cases hin : q ≤ i ∧ i < q + k
    · rw [overlay_of_mem hin.1 (by unfold inFile; omega), if_pos (by omega)]
      congr 1
      omega
    · rw [overlay_of_notMem (by unfold inFile; omega), if_neg (by omega)]

/-! ### Any sequence of calls -/

/-- The arguments of a call of `WriteAt`, and what its buffer holds at first. -/
structure WriteCall where
  unset : ℕ → Byte
  source : ℕ → Byte
  numBytes : ℤ
  position : ℤ

/-- The range of the call is one of `int` positions that are not negative. -/
def WriteCall.Valid (w : WriteCall) : Prop := 0 ≤ w.position ∧ w.position + w.numBytes ≤ maxInt
deriving Decidable

/-- The disk after a call. -/
def write (h : FileHeader) (d : Disk) (w : WriteCall) : Option Disk :=
  (h.writeAt d w.unset w.source w.numBytes w.position).map Prod.snd

/-- The array after a call. -/
def WriteCall.apply (a : List Byte) (w : WriteCall) : List Byte := splice a w.source w.numBytes w.position

theorem write_apply (hc : h.Covers) {w : WriteCall} (hw : w.Valid) (d : Disk) :
    ∃ d', h.write d w = some d' ∧ h.content d' = WriteCall.apply (h.content d) w ∧
      ∀ s, s ∉ h.sectors → d' s = d s := by
  obtain ⟨d', hrun, hafter⟩ := writeAt_splice hc d w.unset w.source hw.1 hw.2
  refine ⟨d', ?_, hafter⟩
  unfold write
  rw [hrun]
  rfl

theorem exec_write (hc : h.Covers) (ws : List WriteCall) (hws : ∀ w ∈ ws, w.Valid) (d : Disk) :
    ∃ d', exec h.write d ws = some d' ∧ h.content d' = ws.foldl WriteCall.apply (h.content d) ∧
      ∀ s, s ∉ h.sectors → d' s = d s := by
  have hstep : ∀ (t : Disk) (a : List Byte) (w : WriteCall),
      (h.content t = a ∧ ∀ s, s ∉ h.sectors → t s = d s) → w.Valid →
        ∃ t', h.write t w = some t' ∧ h.content t' = WriteCall.apply a w ∧ ∀ s, s ∉ h.sectors → t' s = d s := by
    rintro t a w ⟨rfl, hother⟩ hw
    obtain ⟨t', hrun, hcontent, hsame⟩ := write_apply hc hw t
    exact ⟨t', hrun, hcontent, fun s hs => (hsame s hs).trans (hother s hs)⟩
  exact exec_simulates hstep ws d (h.content d) ⟨rfl, fun _ _ => rfl⟩ hws

/-- Access by sectors refines an array of bytes: a call of `WriteAt` or of `ReadAt` transfers the bytes of its range
that the file has, and a `ReadAt` after any calls of `WriteAt` gives what the array gives after the same calls. -/
theorem refines_flat_array (hc : h.Covers) :
    (∀ (d : Disk) (unset source : ℕ → Byte) (n p : ℤ), 0 ≤ p → p + n ≤ maxInt →
      ∃ d', h.writeAt d unset source n p = some (max 0 (min n (h.numBytes.toInt - p)), d') ∧
        h.content d' = splice (h.content d) source n p ∧ ∀ s, s ∉ h.sectors → d' s = d s) ∧
    (∀ (d : Disk) (unset : ℕ → Byte) (n p : ℤ), 0 ≤ p → p + n ≤ maxInt →
      ∃ into, h.readAt d unset n p = some (max 0 (min n (h.numBytes.toInt - p)), into) ∧
        (List.range (max 0 (min n (h.numBytes.toInt - p))).toNat).map into = slice (h.content d) p.toNat n.toNat) ∧
    ∀ (ws : List WriteCall) (d : Disk), (∀ w ∈ ws, w.Valid) →
      ∃ d', exec h.write d ws = some d' ∧ (∀ s, s ∉ h.sectors → d' s = d s) ∧
        ∀ (unset : ℕ → Byte) (n p : ℤ), 0 ≤ p → p + n ≤ maxInt →
          ∃ into, h.readAt d' unset n p = some (max 0 (min n (h.numBytes.toInt - p)), into) ∧
            (List.range (max 0 (min n (h.numBytes.toInt - p))).toNat).map into =
              slice (ws.foldl WriteCall.apply (h.content d)) p.toNat n.toNat := by
  refine ⟨fun d unset source n p hp hmax => writeAt_splice hc d unset source hp hmax,
    fun d unset n p hp hmax => readAt_slice hc d unset hp hmax, fun ws d hws => ?_⟩
  obtain ⟨d', hrun, hcontent, hsame⟩ := exec_write hc ws hws d
  refine ⟨d', hrun, hsame, fun unset n p hp hmax => ?_⟩
  rw [← hcontent]
  exact readAt_slice hc d' unset hp hmax

/-- A file of 200 bytes in the sectors 5 and 3. -/
def scattered : FileHeader := ⟨200, 2, ⟨5 :: 3 :: List.replicate 28 0, rfl⟩⟩

theorem scattered_covers : scattered.Covers := by
  constructor <;> decide

/-- 100 bytes written from 90 on, over the end of a sector, and 50 read from 170 on, over the end of the file. -/
theorem refines_flat_array_scattered : scattered.Covers ∧
    ∃ d', exec scattered.write (fun _ _ => 0) [⟨fun _ => 1, BitVec.ofNat 8, 100, 90⟩] = some d' ∧
      ∃ into, scattered.readAt d' (fun _ => 1) 50 170 = some (30, into) ∧
        (List.range 30).map into = (List.range 20).map (fun x => BitVec.ofNat 8 (80 + x)) ++ List.replicate 10 0 := by
  refine ⟨scattered_covers, ?_⟩
  obtain ⟨-, -, hall⟩ := refines_flat_array scattered_covers
  obtain ⟨d', hrun, -, hread⟩ := hall [⟨fun _ => 1, BitVec.ofNat 8, 100, 90⟩] (fun _ _ => 0) (by decide)
  obtain ⟨into, hinto, hbytes⟩ := hread (fun _ => 1) 50 170 (by decide) (by decide)
  exact ⟨d', hrun, into, hinto, hbytes.trans (by decide +kernel)⟩

end FileHeader

end OnDisk

end Nachos
