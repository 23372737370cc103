/-
# Starting a process

`StartProcess_2` of `threads/pcb.cc` makes the address space of a new process
and calls `AddrSpace::Execute`, which sets the registers and the page table and
runs the machine. The constructor has no way to report that there are too few
free pages. It leaves `numPages` at 0, so the first instruction of the program
is not in the space: `Machine::Translate` answers with an address error, and
`ExceptionHandler` halts the machine on it. (`pageTable` keeps what the memory
of the object held; if that is NULL, an assertion of `Translate` fails instead.)

Key definitions: `AddrSpace.initRegisters`, `startProcess`, `Outcome.stops`.
-/
import NachosNet.Machine.Mipssim
import NachosNet.Userprog.Loader

namespace Nachos

open Basis

def AddrSpace.initRegisters (numPages : ℕ) : Cpu where
  gpr := Function.update (fun _ => 0) 29 (BitVec.ofNat 32 (numPages * PageSize) - 16)
  hi := 0
  lo := 0
  pc := 0
  nextPC := 4
  prevPC := 0
  loadReg := 0
  loadValue := 0
  badVAddr := 0

/-- The machine stops for all processes: `ExceptionHandler` calls `SysHalt` for
every exception but a system call, and the simulator ends on the other two. -/
def Outcome.stops : Outcome → Bool
  | .done _ _ => false
  | .raised which _ _ => which ≠ .syscall
  | .divideError => true
  | .assertFalse => true

/-- `StartProcess_2` for process `id` up to the end of its first instruction:
the spaces and the memory then, and how the instruction ended. `unset` is what
the new `AddrSpace` holds before its constructor, `null` that its `pageTable`
is NULL; `content` is the program file. -/
def startProcess (s : Spaces) (mem : ℤ → Byte) (id : ℕ) (unset : AddrSpace) (null : Bool) (content : List Byte) :
    Option (Spaces × (ℤ → Byte) × Outcome) :=
  (AddrSpace.load s.bitmap unset content).map fun (space, bitmap, ws) =>
    let outcome :=
      if null ∧ s.bitmap.numClear < (NoffHeader.ofBytes content).numPages then .assertFalse
      else oneInstruction (AddrSpace.initRegisters space.numPages) ⟨fun a => writes mem ws a, space.pageTable⟩
    (⟨bitmap, Function.update s.live id (some space)⟩, writes mem ws, outcome)

theorem stops_of_no_pages (s : Cpu) (mem : Memory) : (oneInstruction s ⟨mem, []⟩).stops = true := by
  have hread : ∃ e, Machine.readMem ⟨mem, []⟩ s.pc .word = .error e ∧ e ≠ .syscall := by
    unfold Machine.readMem Machine.translate Machine.physAddr
    by_cases ha : s.pc.toNat % Width.word.bytes = 0
    · exact ⟨.addressError, by simp [ha], by decide⟩
    · exact ⟨.addressError, by simp [ha], by decide⟩
  obtain ⟨e, he, hne⟩ := hread
  unfold oneInstruction
  rw [he]
  simpa [Outcome.stops] using hne

theorem fetch_of_mapped {t : PageTable} (ht : Machine.Mapped t) (h0 : 0 < t.length) (mem : Memory) :
    ∃ raw m, Machine.readMem ⟨mem, t⟩ 0 .word = .ok (raw, m) := by
  obtain ⟨e, he⟩ : ∃ e, t[0]? = some e := ⟨t.get ⟨0, h0⟩, by simp [h0]⟩
  obtain ⟨hv, -, hp⟩ := ht.entry e (List.mem_of_getElem? he)
  have htr : (Machine.translate t 0 .word false).1 = .ok (e.physicalPage.toNat * PageSize) := by
    rw [Machine.translate_ok_iff]
    exact ⟨rfl, e, he, hv, by simp, hp, rfl⟩
  unfold Machine.readMem
  rcases hr : Machine.translate t 0 .word false with ⟨r, t'⟩
  rw [hr] at htr
  obtain rfl : r = _ := htr
  exact ⟨_, _, rfl⟩

/-- A process that is started when there are too few free pages stops the
machine, with all pages, page tables and the memory as they were. With enough
pages it comes to execute its first instruction; it takes free pages only, the
other page tables are as they were, and so is the memory outside of its pages
if what is left of the file for each copied page falls on them. -/
theorem start_short_of_pages (s : Spaces) (mem : ℤ → Byte) (id : ℕ) (unset : AddrSpace) (null : Bool)
    (content : List Byte) (hm : (NoffHeader.ofBytes content).noffMagic = NOFFMAGIC)
    (hp : (NoffHeader.ofBytes content).numPages ≤ NumPhysPages) :
    (s.bitmap.numClear < (NoffHeader.ofBytes content).numPages →
      ∃ o, startProcess s mem id unset null content =
          some (⟨s.bitmap, Function.update s.live id (some ⟨[], false⟩)⟩, mem, o) ∧ o.stops = true) ∧
    (0 < (NoffHeader.ofBytes content).numPages → (NoffHeader.ofBytes content).numPages ≤ s.bitmap.numClear →
      ∀ s' mem' o, startProcess s mem id unset null content = some (s', mem', o) →
        ∃ space, s'.live = Function.update s.live id (some space) ∧
          (∀ i ∈ space.frames, s.bitmap.test i = false) ∧
          (AddrSpace.Fits s.bitmap content.length (NoffHeader.ofBytes content) →
            ∀ a, ¬ AddrSpace.OwnByte space.pageTable a → mem' a = mem a) ∧
          ∃ raw m, Machine.readMem ⟨fun a => mem' a, space.pageTable⟩ 0 .word = .ok (raw, m) ∧
            o = perform (AddrSpace.initRegisters space.numPages) m
              (Cpu.action (.decode raw) (AddrSpace.initRegisters space.numPages))) := by
  have hc := AddrSpace.construct_eq s.bitmap unset hm rfl hp
  refine ⟨fun hshort => ?_, fun hpos hfit s' mem' o h => ?_⟩
  · rw [if_neg (Nat.not_le.mpr hshort)] at hc
    have hblocks : AddrSpace.loadBlocks content [] = some [] := by
      have hseg : ∀ seg, AddrSpace.copySegment content [] seg = some [] := fun seg => by
        unfold AddrSpace.copySegment
        split <;> rfl
      simp [AddrSpace.loadBlocks, hseg, AddrSpace.zeroPages]
    have hload : AddrSpace.load s.bitmap unset content = some (⟨[], false⟩, s.bitmap, []) := by
      rw [AddrSpace.load, hc, Option.bind_some, hblocks]
      rfl
    unfold startProcess
    rw [hload]
    refine ⟨_, rfl, ?_⟩
    split
    · rfl
    · exact stops_of_no_pages _ _
  · rw [if_pos hfit] at hc
    obtain ⟨⟨space, bitmap, ws⟩, hload, h⟩ := Option.map_eq_some_iff.mp h
    obtain ⟨ht, hpages, hws⟩ := AddrSpace.load_some hload
    have hown := AddrSpace.ownByte_of_fits ht hpages hws
    simp only [Prod.mk.injEq] at h
    obtain ⟨rfl, rfl, rfl⟩ := h
    rw [AddrSpace.load, hc, Option.bind_some] at hload
    generalize (NoffHeader.ofBytes content).numPages = k at *
    obtain ⟨hlen, -, hfree, -⟩ := AddrSpace.allocPages_spec s.bitmap k hfit
    -- the space is the one that the loop over the pages has made
    obtain rfl : space = ⟨(AddrSpace.allocPages s.bitmap k).1, true⟩ := by
      obtain ⟨ws', -, hload⟩ := Option.map_eq_some_iff.mp hload
      exact (Prod.mk.inj hload).1.symm
    refine ⟨⟨(AddrSpace.allocPages s.bitmap k).1, true⟩, rfl, fun i hi => (hfree i hi).2, fun hfits a ha => ?_, ?_⟩
    · refine writes_of_none fun w hw => ?_
      by_contra hne
      exact ha (hown hfits w hw a hne)
    · obtain ⟨raw, m, hread⟩ := fetch_of_mapped ht (by simpa [hlen] using hpos) fun a => writes mem ws a
      refine ⟨raw, m, hread, ?_⟩
      simp only [Nat.not_lt.mpr hfit, and_false, if_false]
      unfold oneInstruction
      rw [show (AddrSpace.initRegisters _).pc = 0 from rfl, hread]

/-- A program that needs 65 pages. -/
def program65 : List Byte := noffFile ⟨0, 52, 7296⟩ ⟨7296, 0, 0⟩ ⟨7296, 0, 0⟩ (List.replicate 7296 0)

theorem start_first : (AddrSpace.construct Spaces.init.bitmap ⟨[], false⟩ (some (NoffHeader.ofBytes program65))).isSome = true ∧
    ∀ s' mem' o, startProcess Spaces.init (fun _ => 0) 0 ⟨[], false⟩ false program65 = some (s', mem', o) →
      ∃ space, s'.live = Function.update Spaces.init.live 0 (some space) := by
  have hh : NoffHeader.ofBytes program65 = ⟨NOFFMAGIC, ⟨0, 52, 7296⟩, ⟨7296, 0, 0⟩, ⟨7296, 0, 0⟩⟩ := ofBytes_noffFile ..
  refine ⟨by rw [hh]; decide +kernel, fun s' mem' o h => ?_⟩
  obtain ⟨space, hlive, -⟩ := (start_short_of_pages Spaces.init (fun _ => 0) 0 ⟨[], false⟩ false program65
    (by rw [hh]) (by rw [hh]; decide)).2 (by rw [hh]; decide) (by rw [hh]; decide +kernel) s' mem' o h
  exact ⟨space, hlive⟩

/-- A second one finds 63 of the 65 it needs, and the machine halts. -/
theorem second_program_halts : (NoffHeader.ofBytes program65).numPages = 65 ∧
    ∃ s s' mem' o, exec Spaces.step .init [.construct 0 ⟨[], false⟩ (some (NoffHeader.ofBytes program65))] = some s ∧
      s.bitmap.numClear = 63 ∧ startProcess s (fun _ => 0) 1 ⟨[], false⟩ false program65 = some (s', mem', o) ∧
      o.stops = true := by
  have h : ((exec Spaces.step .init [.construct 0 ⟨[], false⟩ (some (NoffHeader.ofBytes program65))]).bind fun s =>
      (startProcess s (fun _ => 0) 1 ⟨[], false⟩ false program65).bind fun r =>
        some (s.bitmap.numClear, r.2.2.stops)) = some (63, true) := by decide +kernel
  obtain ⟨s, hs, h⟩ := Option.bind_eq_some_iff.mp h
  obtain ⟨⟨s', mem', o⟩, hstart, h⟩ := Option.bind_eq_some_iff.mp h
  simp only [Option.some.injEq, Prod.mk.injEq] at h
  exact ⟨by decide +kernel, s, s', mem', o, hs, h.1, hstart, h.2⟩

end Nachos
