/-
# User programs run on the architecture

The instructions of a program, executed one after the other as in `Machine::Run` of
`machine/mipssim.cc`, with an interrupt after some of them that carries out a load in progress. The
registers and the memory of the simulator show a state of the instruction set: the load in progress
is done there already, and the bytes of the pages are an array.

A step of the instruction set is a step of the simulator: `Isa.execute` is what the action of the
instruction does to the array (`Isa.execute_eq_denote`), and an action does to the machine what it
does to the array (`Shows.perform`). So a run of any length is one of the architecture
(`programs_follow_mips`), up to the first instruction of which it says nothing, and an exception is
raised where the architecture has one, with the state before the instruction.

Key definitions: `Isa.run`, `Isa.ofCpu`, `instructions`, `Shows`, `Meets`.
-/
import NachosNet.Machine.Isa

namespace Nachos

open Basis Machine Isa

/-- The results of `n` instructions of the architecture, or of the first that is not executed. -/
def Isa.run (t : PageTable) : ℕ → State → Result
  | 0, u => .next u
  | n + 1, u =>
    match Isa.step t u with
    | .next u' => Isa.run t n u'
    | r => r

/-- The loop of `Machine::Run`, up to an exception; an entry says if an interrupt comes after the
instruction. -/
def instructions : List Bool → Cpu → Machine → Outcome
  | [], s, m => .done s m
  | interrupted :: rest, s, m =>
    match oneInstruction s m with
    | .done s' m' => instructions rest (if interrupted then s'.delayedLoad 0 0 else s') m'
    | o => o

/-- The state that the registers and the memory stand for. -/
def Isa.ofCpu (s : Cpu) (m : Machine) : State where
  gpr := (s.delayedLoad 0 0).gpr
  hi := s.hi
  lo := s.lo
  pc := s.pc
  next := s.nextPC
  slot := s.loadReg
  mem := m.bytes

/-- The registers and the memory show the state `u`; a load that `u` has in its delay slot may have
been carried out. -/
structure Shows (t : PageTable) (u : State) (s : Cpu) (m : Machine) : Prop where
  gpr : u.gpr = (s.delayedLoad 0 0).gpr
  zero : s.gpr 0 = 0
  hi : u.hi = s.hi
  lo : u.lo = s.lo
  pc : u.pc = s.pc
  next : u.next = s.nextPC
  slot : s.loadReg = u.slot ∨ s.loadReg = 0
  mem : u.mem = m.bytes
  table : m.pageTable.map core = t.map core

/-- What the simulator makes of instructions for which the architecture has the result. -/
def Meets (t : PageTable) : Result → Outcome → Prop
  | .next u, .done s m => Shows t u s m
  | .trap which u, .raised which' s m => which' = which ∧ Shows t u s m
  | .undefined, _ => True
  | _, _ => False

theorem shows_ofCpu {s : Cpu} (m : Machine) (h0 : s.gpr 0 = 0) : Shows m.pageTable (Isa.ofCpu s m) s m :=
  ⟨rfl, h0, rfl, rfl, rfl, rfl, Or.inl rfl, rfl, rfl⟩

/-! ### Memory -/

namespace Machine

variable {m m' : Machine} {t : PageTable} {addr : Word} {size : Width} {p : ℕ}

theorem SameView.bytes_eq (h : SameView m m') : m'.bytes = m.bytes := by
  funext v
  unfold bytes
  rw [h.byteAt_eq]

theorem bytes_of_physAddr {v : Word} (h : physAddr m.pageTable v .byte false = .ok p) : m.bytes v = m.mainMemory p :=
  ((holding_bytes m).byte v p h).symm

theorem load_eq_loadBytes (h : physAddr m.pageTable addr size false = .ok p) :
    load m.mainMemory p size = loadBytes m.bytes addr size := by
  have hbyte : ∀ k < size.bytes, m.bytes (addr + BitVec.ofNat 32 k) = m.mainMemory (p + k) :=
    fun k hk => bytes_of_physAddr (physAddr_range h hk)
  have h0 : m.bytes addr = m.mainMemory p := by
    have hfirst := hbyte 0 (by cases size <;> decide)
    rwa [show addr + BitVec.ofNat 32 0 = addr from BitVec.add_zero addr] at hfirst
  cases size with
  | byte => rw [load, loadBytes, h0]
  | half =>
    rw [load, loadBytes, halfAt, h0]
    exact congrArg (fun b : Byte => (b ++ m.mainMemory p).setWidth 32) (hbyte 1 (by decide)).symm
  | word =>
    rw [loadBytes, wordAt_eq]
    apply eq_ofBytes
    intro k hk
    rw [byteOf_load _ _ .word k hk, hbyte k hk]

theorem bytes_of_store (hd : Distinct m.pageTable) (h : physAddr m.pageTable addr size true = .ok p) {value : Word}
    (hmem : m'.mainMemory = store m.mainMemory p size value) (hcore : m'.pageTable.map core = m.pageTable.map core) :
    m'.bytes = storeBytes m.bytes addr size value := by
  funext v
  cases hv : physAddr m.pageTable v .byte false with
  | ok q =>
    rw [bytes_of_physAddr (physAddr_congr hcore v .byte false ▸ hv), hmem, store_at hd h _ _ _ hv, storeBytes,
      bytes_of_physAddr hv]
  | error e =>
    have hnone : ∀ {n : Machine}, n.pageTable.map core = m.pageTable.map core → n.bytes v = 0 := by
      intro n hn
      rw [bytes, byteAt, physAddr_congr hn, hv, Option.getD_none]
    rw [hnone hcore, storeBytes, if_neg, hnone rfl]
    intro hlt
    have hplace := physAddr_range h hlt
    rw [BitVec.ofNat_toNat, BitVec.setWidth_eq, BitVec.add_comm, BitVec.sub_add_cancel, hv] at hplace
    cases hplace

theorem failure_of_ok {x : MemAccess} (h : physAddr t x.addr x.size x.writing = .ok p) : x.failure t = none := by
  obtain ⟨ha, e, he, hv, hr, -⟩ := physAddr_ok_iff.mp h
  unfold MemAccess.failure
  rw [if_neg (not_not_intro ha), he]
  dsimp only
  rw [if_neg (by simp [hv]), if_neg (by simpa using hr)]

theorem read_cases (hf : FramesFit t) (htable : m.pageTable.map core = t.map core) (addr : Word) (size : Width) :
    (∃ e, (MemAccess.read addr size).failure t = some e ∧ m.readMem addr size = .error e) ∨
      (MemAccess.read addr size).failure t = none ∧
        ∃ m', m.readMem addr size = .ok (loadBytes m.bytes addr size, m') ∧ SameView m m' := by
  cases hx : physAddr t addr size false with
  | error e =>
    have he := (physAddr_congr htable addr size false).trans hx
    refine Or.inl ⟨e, failure_of_error hf (.read addr size) hx, ?_⟩
    simp only [readMem, translate, he]
  | ok p =>
    have hp := (physAddr_congr htable addr size false).trans hx
    obtain ⟨m', hread, hview⟩ := readMem_of_physAddr hp
    exact Or.inr ⟨failure_of_ok (x := .read addr size) hx, m', load_eq_loadBytes hp ▸ hread, hview⟩

theorem write_cases (hd : Distinct t) (hf : FramesFit t) (htable : m.pageTable.map core = t.map core) (addr : Word)
    (size : Width) (value : Word) :
    (∃ e, (MemAccess.write addr size 0).failure t = some e ∧ m.writeMem addr size value = .error e) ∨
      (MemAccess.write addr size 0).failure t = none ∧ ∃ m', m.writeMem addr size value = .ok m' ∧
        m'.bytes = storeBytes m.bytes addr size value ∧ m'.pageTable.map core = m.pageTable.map core := by
  cases hx : physAddr t addr size true with
  | error e =>
    have he := (physAddr_congr htable addr size true).trans hx
    refine Or.inl ⟨e, failure_of_error hf (.write addr size 0) hx, ?_⟩
    simp only [writeMem, translate, he]
  | ok p =>
    have hp := (physAddr_congr htable addr size true).trans hx
    obtain ⟨m', hwrite, hmem, hcore⟩ := writeMem_of_physAddr hp value
    exact Or.inr ⟨failure_of_ok (x := .write addr size 0) hx, m', hwrite,
      bytes_of_store (hd.congr htable) hp hmem hcore, hcore⟩

theorem failure_write {e : ExceptionType} (h : (MemAccess.read addr size).failure t = some e) (value : Word) :
    (MemAccess.write addr size value).failure t = some e := by
  unfold MemAccess.failure at h ⊢
  simp only [MemAccess.addr, MemAccess.size, MemAccess.writing] at h ⊢
  split_ifs at h ⊢ with ha
  · exact h
  · cases he : t[addr.toNat / PageSize]? with
    | none =>
      rw [he] at h
      exact h
    | some entry =>
      rw [he] at h
      dsimp only at h ⊢
      by_cases hv : entry.valid = false
      · rwa [if_pos hv] at h ⊢
      · simp [hv] at h

end Machine

/-! ### An action -/

section Steps

variable {t : PageTable} {u : State} {s : Cpu} {m m' : Machine}

theorem gpr_advance_delayedLoad (s : Cpu) (r : Reg) (v pcAfter : Word) (q : Reg) :
    ((s.advance r v pcAfter).delayedLoad 0 0).gpr q =
      if q = 0 then 0 else if q = r then v else if q = s.loadReg then s.loadValue else s.gpr q := by
  rw [Cpu.gpr_delayedLoad]
  by_cases h0 : q = 0
  · rw [if_pos h0, if_pos h0]
  · rw [if_neg h0, if_neg h0]
    refine congrArg (ite _ v) ?_
    exact (Cpu.gpr_delayedLoad s r v q).trans (if_neg h0)

theorem Shows.gpr_apply (h : Shows t u s m) (q : Reg) :
    u.gpr q = if q = 0 then 0 else if q = s.loadReg then s.loadValue else s.gpr q := by
  rw [h.gpr, Cpu.gpr_delayedLoad]

theorem Shows.sameView (h : Shows t u s m) (hv : SameView m m') : Shows t u s m' :=
  { h with mem := h.mem.trans hv.bytes_eq.symm, table := hv.table.trans h.table }

/-- Writing a register and carrying out the load in progress, which is of another one. -/
theorem Shows.compute (h : Shows t u s m) {dest : Option (Reg × Word)}
    (hdest : ∀ d ∈ dest, s.loadReg ≠ 0 → s.loadReg ≠ d.1) (hilo : Option (Word × Word)) (after : Word) :
    Shows t ((u.put dest hilo).go after) ((s.put dest hilo).advance 0 0 after) m where
  gpr := by
    funext q
    rw [gpr_advance_delayedLoad]
    cases dest with
    | none =>
      refine (h.gpr_apply q).trans ?_
      by_cases h0 : q = 0
      · rw [if_pos h0, if_pos h0]
      · rw [if_neg h0, if_neg h0, if_neg h0]
        rfl
    | some d =>
      have hd := hdest d rfl
      simp only [State.go, State.put, Cpu.put, Option.elim_some, Function.update_apply, h.gpr_apply q]
      by_cases h0 : q = 0
      · rw [if_pos h0, if_pos h0]
      · by_cases hq : q = d.1
        · have hne : q ≠ s.loadReg := fun hl => hd (hl ▸ h0) (hl ▸ hq)
          simp only [if_neg h0, if_pos hq, if_neg hne]
        · simp only [if_neg h0, if_neg hq]
  zero := Cpu.gpr_zero_advance ..
  hi := by
    show hilo.elim u.hi Prod.fst = hilo.elim s.hi Prod.fst
    rw [h.hi]
  lo := by
    show hilo.elim u.lo Prod.snd = hilo.elim s.lo Prod.snd
    rw [h.lo]
  pc := h.next
  next := rfl
  slot := Or.inr rfl
  mem := h.mem
  table := h.table

/-- A load that is put aside, after the one in progress. -/
theorem Shows.load (h : Shows t u s m) (r : Reg) (v : Word) :
    Shows t { (u.put (some (r, v)) none).go (u.next + 4) with slot := r } (s.advance r v (s.nextPC + 4)) m where
  gpr := by
    funext q
    rw [gpr_advance_delayedLoad]
    simp only [State.go, State.put, Option.elim_some, Function.update_apply, h.gpr_apply q]
    by_cases h0 : q = 0
    · rw [if_pos h0, if_pos h0]
    · by_cases hq : q = r
      · simp only [if_neg h0, if_pos hq]
      · simp only [if_neg h0, if_neg hq]
  zero := Cpu.gpr_zero_advance ..
  hi := h.hi
  lo := h.lo
  pc := h.next
  next := congrArg (· + 4) h.next
  slot := Or.inl rfl
  mem := h.mem
  table := h.table

theorem Shows.store (h : Shows t u s m) {a : Word → Byte} (hm : m'.bytes = a)
    (htable : m'.pageTable.map core = m.pageTable.map core) :
    Shows t { u.go (u.next + 4) with mem := a } (s.advance 0 0 (s.nextPC + 4)) m' := by
  have hgo : Shows t ((u.put none none).go (u.next + 4)) _ m := h.compute (by simp) none (u.next + 4)
  exact { hgo with next := congrArg (· + 4) h.next, mem := hm.symm, table := htable.trans h.table }

/-- The handler of an exception finds the state before the instruction, with no load in progress. -/
theorem Shows.raise (h : Shows t u s m) (badVAddr : Word) :
    Shows t { u with slot := 0 } (s.raiseException badVAddr) m where
  gpr := h.gpr.trans (congrArg Cpu.gpr (Cpu.delayedLoad_delayedLoad { s with badVAddr := badVAddr })).symm
  zero := by simp [Cpu.raiseException, Cpu.delayedLoad]
  hi := h.hi
  lo := h.lo
  pc := h.pc
  next := h.next
  slot := Or.inr rfl
  mem := h.mem
  table := h.table

/-- An interrupt carries out the load in progress. -/
theorem Shows.interrupt (h : Shows t u s m) : Shows t u (s.delayedLoad 0 0) m where
  gpr := h.gpr.trans (congrArg Cpu.gpr (Cpu.delayedLoad_delayedLoad s)).symm
  zero := by simp [Cpu.delayedLoad]
  hi := h.hi
  lo := h.lo
  pc := h.pc
  next := h.next
  slot := Or.inr rfl
  mem := h.mem
  table := h.table

/-- An action does to the machine what it does to the array. -/
theorem Shows.perform (hd : Distinct t) (hf : FramesFit t) (h : Shows t u s m) {a : Action}
    (hdest : ∀ d hilo after, a = .compute (some d) hilo after → s.loadReg ≠ 0 → s.loadReg ≠ d.1) :
    Meets t (denote t u a) (Nachos.perform s m a) := by
  cases a with
  | compute dest hilo after =>
    refine h.compute (fun d hdd => ?_) hilo after
    cases hdd
    exact hdest d hilo after rfl
  | load addr size r value =>
    rcases read_cases hf h.table addr size with ⟨e, hfail, he⟩ | ⟨hfail, m', hread, hview⟩
    · simp only [denote, State.load, hfail, Nachos.perform, he]
      exact ⟨rfl, h.raise addr⟩
    · simp only [denote, State.load, hfail, Nachos.perform, hread, h.mem]
      exact (h.sameView hview).load r _
  | store addr size value =>
    rcases write_cases hd hf h.table addr size value with ⟨e, hfail, he⟩ | ⟨hfail, m', hwrite, hbytes, hcore⟩
    · simp only [denote, State.store, hfail, Nachos.perform, he]
      exact ⟨rfl, h.raise addr⟩
    · simp only [denote, State.store, hfail, Nachos.perform, hwrite, h.mem]
      exact h.store hbytes hcore
  | modify addr value =>
    rcases read_cases hf h.table addr .word with ⟨e, hfail, he⟩ | ⟨-, m', hread, hview⟩
    · simp only [denote, State.store, failure_write hfail, Nachos.perform, he]
      exact ⟨rfl, h.raise addr⟩
    have h' := h.sameView hview
    rcases write_cases hd hf h'.table addr .word (value (loadBytes m.bytes addr .word)) with
      ⟨e, hfail, he⟩ | ⟨hfail, m'', hwrite, hbytes, hcore⟩
    · simp only [denote, State.store, hfail, Nachos.perform, hread, he]
      exact ⟨rfl, h'.raise addr⟩
    · simp only [denote, State.store, hfail, Nachos.perform, hread, hwrite, h.mem]
      rw [hview.bytes_eq] at hbytes
      exact h'.store hbytes hcore
  | raise which badVAddr => exact ⟨rfl, h.raise badVAddr⟩
  | divideError => trivial
  | assertFalse => trivial

/-! ### An instruction -/

theorem Shows.views (h : Shows t u s m) : Views u (s.delayedLoad 0 0) where
  gpr := h.gpr
  hi := h.hi
  lo := h.lo
  next := h.next
  pending r := by
    by_cases hr : r = 0
    · subst hr
      rfl
    · exact if_neg (Ne.symm hr)

theorem denote_load_zero (addr : Word) (size : Width) (value value' : Word → Word) :
    denote t u (.load addr size 0 value) = denote t u (.load addr size 0 value') := by
  simp only [denote, State.load, State.put, Option.elim_some, Function.update_idem]

theorem Shows.denote_action (h : Shows t u s m) {i : Instruction} (hz : ¬ s.Hazard i) :
    denote t u ((s.delayedLoad 0 0).action i) = denote t u (s.action i) := by
  have h0 : (s.delayedLoad 0 0).gpr 0 = 0 := by simp [Cpu.delayedLoad]
  rcases Cpu.action_of_settled h.zero h0 rfl (Cpu.delayedLoad_delayedLoad s) hz with ha | ⟨addr, value, value', ha, ha'⟩
  · rw [ha]
  · rw [ha, ha']
    exact denote_load_zero ..

theorem Cpu.action_of_illegal {i : Instruction} (h : legal i.opCode = none) : s.action i = .raise .illegalInstr 0 := by
  unfold legal at h
  split_ifs at h with hcase
  unfold Cpu.action
  rcases hcase with hop | hop
  · rw [hop]
  · rw [hop]

theorem Shows.not_hazard (h : Shows t u s m) {op : OpCode} {value : Word} (hop : opOf value = some op)
    (hslot : ¬ (u.slot ≠ 0 ∧ u.slot ∈ uses op value)) : ¬ s.Hazard (.decode value) := by
  have hdec := opCode_decode_of_opOf hop
  rintro ⟨hne, hmem⟩
  have heq : s.loadReg = u.slot := h.slot.resolve_right hne
  refine hslot ⟨heq ▸ hne, ?_⟩
  rw [← heq, uses, ← hdec]
  exact List.mem_append.mpr hmem

/-- An instruction is executed as the architecture says. -/
theorem Shows.oneInstruction (hd : Distinct t) (hf : FramesFit t) (h : Shows t u s m) (hdev : ¬ Deviates u) :
    Meets t (Isa.step t u) (Nachos.oneInstruction s m) := by
  unfold Isa.step Nachos.oneInstruction
  rcases read_cases hf h.table s.pc .word with ⟨e, hfail, he⟩ | ⟨hfail, m', hread, hview⟩
  · rw [← h.pc] at hfail
    simp only [hfail, he]
    exact ⟨rfl, h.raise s.pc⟩
  have hvalue : loadBytes m.bytes s.pc .word = wordAt u.mem u.pc := by rw [h.mem, h.pc, loadBytes]
  rw [← h.pc] at hfail
  simp only [hfail, hread, hvalue]
  unfold Deviates at hdev
  generalize wordAt u.mem u.pc = value at hdev ⊢
  have h' := h.sameView hview
  cases hop : opOf value with
  | none =>
    rw [Cpu.action_of_illegal (opOf_eq value ▸ hop)]
    exact ⟨rfl, h'.raise 0⟩
  | some op =>
    by_cases hslot : u.slot ≠ 0 ∧ u.slot ∈ uses op value
    · simp only [if_pos hslot]
      trivial
    · have hz := h.not_hazard hop hslot
      simp only [if_neg hslot]
      rcases execute_eq_denote (t := t) h.views hop (fun hex => hdev ⟨op, hop, hex⟩) with hundef | hexec
      · rw [hundef]
        trivial
      · rw [hexec, h.denote_action hz]
        refine h'.perform hd hf fun d hilo after ha hne heq => hz ⟨hne, Or.inr ?_⟩
        exact heq ▸ Cpu.action_dest ha

/-! ### A program -/

/-- Every instruction of the run that the architecture executes is one the simulator executes so. -/
def Conforms (t : PageTable) (n : ℕ) (u : State) : Prop := ∀ k < n, ∀ v, Isa.run t k u = .next v → ¬ Deviates v

theorem Conforms.head {n : ℕ} (h : Conforms t (n + 1) u) : ¬ Deviates u := h 0 (Nat.succ_pos n) u rfl

theorem Conforms.tail {n : ℕ} {u' : State} (h : Conforms t (n + 1) u) (hstep : Isa.step t u = .next u') :
    Conforms t n u' := by
  intro k hk v hv
  refine h (k + 1) (Nat.succ_lt_succ hk) v ?_
  rw [Isa.run, hstep]
  exact hv

theorem conforms_succ_iff {n : ℕ} : Conforms t (n + 1) u ↔
    ¬ Deviates u ∧ match Isa.step t u with
      | .next u' => Conforms t n u'
      | _ => True := by
  constructor
  · intro h
    refine ⟨h.head, ?_⟩
    split
    · rename_i u' hstep
      exact h.tail hstep
    · trivial
  · rintro ⟨hdev, htail⟩ k hk v hv
    cases k with
    | zero => exact Result.next.inj hv ▸ hdev
    | succ k =>
      rw [Isa.run] at hv
      cases hstep : Isa.step t u with
      | next u' =>
        rw [hstep] at hv htail
        exact htail k (Nat.lt_of_succ_lt_succ hk) v hv
      | trap which u' => simp [hstep] at hv
      | undefined => simp [hstep] at hv

instance Conforms.decidable : ∀ (n : ℕ) (u : State), Decidable (Conforms t n u)
  | 0, _ => isTrue fun k hk => absurd hk (Nat.not_lt_zero k)
  | n + 1, u => by
    have htail : Decidable (match Isa.step t u with
        | .next u' => Conforms t n u'
        | _ => True) := by
      cases Isa.step t u with
      | next u' => exact Conforms.decidable n u'
      | trap which u' => exact instDecidableTrue
      | undefined => exact instDecidableTrue
    exact decidable_of_iff _ conforms_succ_iff.symm

/-- A run of a program, from any state. -/
theorem Shows.instructions (hd : Distinct t) (hf : FramesFit t) : ∀ (interrupts : List Bool) {u : State} {s : Cpu}
    {m : Machine}, Shows t u s m → Conforms t interrupts.length u →
    Meets t (Isa.run t interrupts.length u) (Nachos.instructions interrupts s m)
  | [], _, _, _, h, _ => h
  | interrupted :: rest, u, s, m, h, hconf => by
    have hone := h.oneInstruction hd hf hconf.head
    rw [List.length_cons, Isa.run, Nachos.instructions]
    cases hstep : Isa.step t u with
    | undefined => trivial
    | trap which v =>
      rw [hstep] at hone
      cases hout : Nachos.oneInstruction s m with
      | raised which' s' m' =>
        rw [hout] at hone
        exact hone
      | done s' m' => simp [hout, Meets] at hone
      | divideError => simp [hout, Meets] at hone
      | assertFalse => simp [hout, Meets] at hone
    | next v =>
      rw [hstep] at hone
      cases hout : Nachos.oneInstruction s m with
      | done s' m' =>
        rw [hout] at hone
        have hnext : Shows t v (if interrupted then s'.delayedLoad 0 0 else s') m' := by
          cases interrupted
          · exact hone
          · exact hone.interrupt
        exact Shows.instructions hd hf rest hnext (hconf.tail hstep)
      | raised which' s' m' => simp [hout, Meets] at hone
      | divideError => simp [hout, Meets] at hone
      | assertFalse => simp [hout, Meets] at hone

end Steps

/-- A user program runs as on the architecture, wherever interrupts come: the registers and the
memory show the state of the architecture after as many instructions, and an exception is raised
where it has one. -/
theorem programs_follow_mips (s : Cpu) (m : Machine) (h0 : s.gpr 0 = 0) (hd : Distinct m.pageTable)
    (hf : FramesFit m.pageTable) (interrupts : List Bool)
    (hconf : Conforms m.pageTable interrupts.length (Isa.ofCpu s m)) :
    Meets m.pageTable (Isa.run m.pageTable interrupts.length (Isa.ofCpu s m)) (instructions interrupts s m) :=
  (shows_ofCpu m h0).instructions hd hf interrupts hconf

/-- A page with a program, and a processor at its start. -/
def programPage (words : List Word) : Machine :=
  ⟨fun q => (words.getD (q / 4) 0).extractLsb' (8 * (q % 4)) 8, [⟨0, 0, true, false, false, false⟩]⟩

def atStart : Cpu where
  gpr _ := 0
  hi := 0
  lo := 0
  pc := 0
  nextPC := 4
  prevPC := 0
  loadReg := 0
  loadValue := 0
  badVAddr := 0

/-- `lw $1, 20($0)`, a branch over one instruction with `addiu $2, $0, 5` in its delay slot, and a
system call, whose handler finds both registers set. -/
theorem programs_follow_mips_branch : ∃ s m,
    instructions [false, true, false, false] atStart
      (programPage [0x8c010014, 0x10000002, 0x24020005, 0x24020006, 0x0000000c, 7]) = .raised .syscall s m ∧
    s.pc = 16 ∧ (s.delayedLoad 0 0).gpr 1 = 7 ∧ (s.delayedLoad 0 0).gpr 2 = 5 := by
  have h := programs_follow_mips atStart
    (programPage [0x8c010014, 0x10000002, 0x24020005, 0x24020006, 0x0000000c, 7]) rfl
    (distinct_of_nodup (by decide)) (by unfold FramesFit; decide) [false, true, false, false] (by decide +kernel)
  have hrun : (match Isa.run [⟨0, 0, true, false, false, false⟩] 4 (Isa.ofCpu atStart
      (programPage [0x8c010014, 0x10000002, 0x24020005, 0x24020006, 0x0000000c, 7])) with
      | .trap which u => some (which, u.pc, u.gpr 1, u.gpr 2)
      | _ => none) = some (.syscall, 16, 7, 5) := by decide +kernel
  generalize instructions _ atStart _ = o at h ⊢
  unfold programPage at h hrun
  dsimp only [List.length] at h
  generalize Isa.run _ 4 _ = r at h hrun
  cases r with
  | next u => simp at hrun
  | undefined => simp at hrun
  | trap which u =>
    simp only [Option.some.injEq, Prod.mk.injEq] at hrun
    obtain ⟨rfl, hpc, h1, h2⟩ := hrun
    cases o with
    | raised which' s m =>
      obtain ⟨rfl, hs⟩ := h
      exact ⟨s, m, rfl, hs.pc ▸ hpc, hs.gpr ▸ h1, hs.gpr ▸ h2⟩
    | done s m => exact h.elim
    | divideError => exact h.elim
    | assertFalse => exact h.elim

end Nachos
