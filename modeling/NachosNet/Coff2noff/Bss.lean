/-
# Several .bss sections

A COFF file may have more than one section of uninitialised data, and the NOFF
header has one entry for it. `coff2noff/coff2noff.c` makes one range of them as
the sections come: the loop of the conversion is, for that entry, a fold over the
`.bss` sections that are not empty (`loadSections_bss`).

The comparison with the end of the range so far has the wrong sense. A section
that begins there is refused, and one that does not is added to the size as if it
did. That is right for at most one section, for sections that are not contiguous and
refused, and for those that fill one range from the first on in another order
(`bssSound_iff`).

Key definitions: `mergeBss`, `bssSections`, `BssSound`, `Mergeable`.
Key theorems: `Conversion.loadSections_bss`, `foldlM_bss`, `bssSound_iff`.
-/
import NachosNet.Basis.Intervals
import NachosNet.Coff2noff.Convert

namespace Nachos

open Basis

/-- The branch for `.bss` on the header's entry; `none` is the refusal. -/
def mergeBss (uninitData : Segment) (s : Scnhdr) : Option Segment :=
  if uninitData.size ≠ 0 then
    if s.s_paddr = uninitData.virtualAddr + uninitData.size then none
    else some { uninitData with size := uninitData.size + s.s_size }
  else some { uninitData with virtualAddr := s.s_paddr, size := s.s_size }

/-- The `.bss` sections that are not empty. -/
def bssSections (l : List Scnhdr) : List Scnhdr := l.filter fun s => s.Has .bss

theorem mem_bssSections {l : List Scnhdr} {s : Scnhdr} : s ∈ bssSections l ↔ s ∈ l ∧ s.Has .bss := by
  unfold bssSections
  rw [List.mem_filter, decide_eq_true_eq]

theorem bssSections_cons_of_has {s : Scnhdr} (h : s.Has .bss) (l : List Scnhdr) :
    bssSections (s :: l) = s :: bssSections l := List.filter_cons_of_pos (decide_eq_true h)

theorem bssSections_cons_of_not {s : Scnhdr} (h : ¬ s.Has .bss) (l : List Scnhdr) :
    bssSections (s :: l) = bssSections l := List.filter_cons_of_neg (by simpa using h)

namespace Conversion

variable {c c' : Conversion} {s : Scnhdr}

theorem recordBss_eq (c : Conversion) (s : Scnhdr) : c.recordBss s = match mergeBss (c.noffH .bss) s with
    | none => .error .bssAndSbss
    | some u => .ok (c.setSegment .bss u) := by
  unfold recordBss mergeBss
  dsimp only
  split_ifs <;> rfl

/-! ### The other branches -/

theorem noffH_read {nBytes : ℤ} {buf : List Byte} (h : c.read nBytes = .ok (buf, c')) : c'.noffH = c.noffH := by
  unfold read at h
  dsimp only at h
  split at h
  · cases h
  · obtain ⟨-, rfl⟩ := Prod.mk.inj (Except.ok.inj h)
    rfl

theorem noffH_write {nBytes : ℤ} {buf : List Byte} (h : c.write buf nBytes = .ok c') : c'.noffH = c.noffH := by
  unfold write at h
  dsimp only at h
  split at h
  · cases h
  · obtain rfl := Except.ok.inj h
    rfl

theorem read_ne_bssAndSbss (c : Conversion) (nBytes : ℤ) : c.read nBytes ≠ .error .bssAndSbss := by
  unfold read
  dsimp only
  split <;> simp

theorem write_ne_bssAndSbss (c : Conversion) (buf : List Byte) (nBytes : ℤ) :
    c.write buf nBytes ≠ .error .bssAndSbss := by
  unfold write
  dsimp only
  split <;> simp

theorem copySection_bss {k : Kind} (hk : k ≠ .bss) (c : Conversion) (s : Scnhdr) :
    (∀ c', c.copySection k s = .ok c' → c'.noffH .bss = c.noffH .bss) ∧
      c.copySection k s ≠ .error .bssAndSbss := by
  constructor
  · intro c' h
    obtain ⟨⟨buf, c₁⟩, hread, h⟩ := bind_eq_ok.mp h
    obtain ⟨c₂, hwrite, h⟩ := bind_eq_ok.mp h
    obtain rfl := Except.ok.inj h
    dsimp only
    rw [noffH_write hwrite, noffH_read hread]
    exact Function.update_of_ne hk.symm _ _
  · intro h
    obtain h | ⟨⟨buf, c₁⟩, -, h⟩ := bind_eq_error.mp h
    · exact read_ne_bssAndSbss _ _ h
    obtain h | ⟨c₂, -, h⟩ := bind_eq_error.mp h
    · exact write_ne_bssAndSbss _ _ _ h
    · cases h

theorem loadSection_of_has (h : s.Has .bss) (c : Conversion) : c.loadSection s = c.recordBss s := by
  unfold loadSection
  rw [if_neg h.1, h.2]

theorem loadSection_of_not (h : ¬ s.Has .bss) (c : Conversion) :
    (∀ c', c.loadSection s = .ok c' → c'.noffH .bss = c.noffH .bss) ∧ c.loadSection s ≠ .error .bssAndSbss := by
  unfold loadSection
  by_cases h0 : s.s_size = 0
  · rw [if_pos h0]
    exact ⟨fun c' hc => by rw [Except.ok.inj hc], fun hc => by cases hc⟩
  · rw [if_neg h0]
    cases hk : Kind.ofName s.s_name with
    | none => exact ⟨fun c' hc => (by cases hc), fun hc => (by cases hc)⟩
    | some k =>
      have hne : k ≠ .bss := fun he => h ⟨h0, he ▸ hk⟩
      cases k with
      | bss => exact absurd rfl hne
      | text | data | rdata => exact copySection_bss hne c s

/-! ### The loop as a fold -/

/-- The loop makes one range of the `.bss` sections, and refuses just where that does. -/
theorem loadSections_bss : ∀ (l : List Scnhdr) (c : Conversion),
    (∀ c', loadSections l c = .ok c' → (bssSections l).foldlM mergeBss (c.noffH .bss) = some (c'.noffH .bss)) ∧
      (loadSections l c = .error .bssAndSbss → (bssSections l).foldlM mergeBss (c.noffH .bss) = none)
  | [], c => ⟨fun c' h => by rw [← Except.ok.inj h]; rfl, fun h => by cases h⟩
  | s :: l, c => by
    by_cases hs : s.Has .bss
    · rw [bssSections_cons_of_has hs, List.foldlM_cons]
      unfold loadSections
      rw [loadSection_of_has hs, recordBss_eq]
      cases mergeBss (c.noffH .bss) s with
      | none => exact ⟨fun c' h => (by cases h), fun _ => rfl⟩
      | some u =>
        have hu : (c.setSegment .bss u).noffH .bss = u := by simp [setSegment]
        have ih := loadSections_bss l (c.setSegment .bss u)
        rw [hu] at ih
        exact ih
    · rw [bssSections_cons_of_not hs]
      obtain ⟨hkeep, hno⟩ := loadSection_of_not hs c
      unfold loadSections
      cases hc : c.loadSection s with
      | error e =>
        refine ⟨fun c' h => (by cases h), fun h => ?_⟩
        exact absurd (hc.trans (congrArg Except.error (Except.error.inj h))) hno
      | ok c₁ =>
        rw [← hkeep c₁ hc]
        exact loadSections_bss l c₁

end Conversion

/-! ### The range in the header -/

/-- The address `a` is in the range of a size at an address. -/
def InRange (addr size : BitVec 32) (a : ℕ) : Prop := addr.toNat ≤ a ∧ a < addr.toNat + size.toNat

instance (addr size : BitVec 32) (a : ℕ) : Decidable (InRange addr size a) := inferInstanceAs (Decidable (_ ∧ _))

/-- Each section begins where the one before it ends. -/
def Contiguous (l : List Scnhdr) : Prop := l.IsChain fun s t => t.s_paddr = s.s_paddr + s.s_size

instance (l : List Scnhdr) : Decidable (Contiguous l) :=
  inferInstanceAs (Decidable (l.IsChain fun s t => t.s_paddr = s.s_paddr + s.s_size))

/-- The `.bss` sections are merged soundly: the range in the header of an accepted file is their
union, and a file is not refused for sections that are contiguous. -/
def BssSound (unset : Kind → Segment) (input : List Byte) : Prop :=
  (∀ c, coff2noff unset input = .ok c → ∀ a,
    InRange (noffSegment c.fdOut.content .bss).virtualAddr (noffSegment c.fdOut.content .bss).size a ↔
      ∃ s ∈ coffSections input, s.Has .bss ∧ InRange s.s_paddr s.s_size a) ∧
  (Contiguous (bssSections (coffSections input)) → coff2noff unset input ≠ .error .bssAndSbss)

/-- The fold over the sections of a file is what its header says. -/
theorem coff2noff_bss (unset : Kind → Segment) (input : List Byte) : ∃ u : Segment, u.size = 0 ∧
    (∀ c, coff2noff unset input = .ok c →
      (bssSections (coffSections input)).foldlM mergeBss u = some (noffSegment c.fdOut.content .bss)) ∧
    (coff2noff unset input = .error .bssAndSbss → (bssSections (coffSections input)).foldlM mergeBss u = none) := by
  obtain ⟨e, he, herr⟩ | ⟨c₀, hbegun, heq⟩ := coff2noff_cases unset input
  · refine ⟨⟨0, 0, 0⟩, rfl, fun c h => ?_, fun h => ?_⟩
    · rw [herr] at h
      cases h
    · rw [herr] at h
      obtain rfl := Except.error.inj h
      simp at he
  · obtain ⟨hok, hno⟩ := Conversion.loadSections_bss (coffSections input) c₀
    refine ⟨c₀.noffH .bss, hbegun.empty .bss, fun c h => ?_, fun h => ?_⟩
    · rw [heq] at h
      obtain ⟨c₁, hload, h⟩ := bind_eq_ok.mp h
      obtain ⟨c', hc', hseg⟩ := c₁.writeHeader_eq
      obtain rfl := Except.ok.inj (h.symm.trans hc')
      rw [hok c₁ hload, hseg]
    · rw [heq] at h
      obtain h | ⟨c₁, -, h⟩ := bind_eq_error.mp h
      · exact hno h
      · exact absurd h (Conversion.write_ne_bssAndSbss _ _ _)

/-! ### Which sections are merged soundly -/

/-- The bytes of all the sections. -/
def totalSize (l : List Scnhdr) : ℕ := (l.map fun s => s.s_size.toNat).sum

/-- A later section begins where a range that starts with the first section and
has the sizes of those before it ends. -/
def MeetsEnd : List Scnhdr → Prop
  | [] => False
  | f :: l => ∃ pre s post, l = pre ++ s :: post ∧ s.s_paddr = f.s_paddr + BitVec.ofNat 32 (totalSize (f :: pre))

/-- The sections are apart, and inside of the range that starts with the first one
and has all their sizes. -/
structure Tiles (l : List Scnhdr) : Prop where
  apart : l.Pairwise fun s t => s.s_paddr.toNat + s.s_size.toNat ≤ t.s_paddr.toNat ∨
    t.s_paddr.toNat + t.s_size.toNat ≤ s.s_paddr.toNat
  inside : ∀ f ∈ l.head?, ∀ s ∈ l, f.s_paddr.toNat ≤ s.s_paddr.toNat ∧
    s.s_paddr.toNat + s.s_size.toNat ≤ f.s_paddr.toNat + totalSize l

/-- The `.bss` sections that the loop treats as it should: a section that begins at
the end of the range so far is refused, so they are not to be contiguous then, and
all others are taken to lie behind each other. -/
structure Mergeable (l : List Scnhdr) : Prop where
  refused : MeetsEnd l → ¬ Contiguous l
  merged : ¬ MeetsEnd l → Tiles l

theorem totalSize_cons (s : Scnhdr) (l : List Scnhdr) : totalSize (s :: l) = s.s_size.toNat + totalSize l := by
  simp [totalSize]

theorem foldlM_mergeBss : ∀ {l : List Scnhdr} {u : Segment}, u.size ≠ 0 → u.size.toNat + totalSize l < 2 ^ 32 →
    ((∃ pre s post, l = pre ++ s :: post ∧ s.s_paddr = u.virtualAddr + (u.size + BitVec.ofNat 32 (totalSize pre))) →
      l.foldlM mergeBss u = none) ∧
    ((¬ ∃ pre s post, l = pre ++ s :: post ∧ s.s_paddr = u.virtualAddr + (u.size + BitVec.ofNat 32 (totalSize pre))) →
      l.foldlM mergeBss u = some { u with size := u.size + BitVec.ofNat 32 (totalSize l) })
  | [], u, _, _ => by simp [totalSize]
  | s :: l, u, hu, hsum => by
    rw [totalSize_cons] at hsum
    have hnat : (u.size + s.s_size).toNat = u.size.toNat + s.s_size.toNat := by
      rw [BitVec.toNat_add, Nat.mod_eq_of_lt (by omega)]
    have hpos : 0 < u.size.toNat := Nat.pos_of_ne_zero fun h => hu (BitVec.eq_of_toNat_eq h)
    have hne : u.size + s.s_size ≠ 0 := fun h => by
      have h0 := congrArg BitVec.toNat h
      rw [hnat] at h0
      simp at h0
      omega
    -- the sections behind `s`, from the range with `s` on
    have hadd : ∀ n, u.size + s.s_size + BitVec.ofNat 32 n = u.size + BitVec.ofNat 32 (s.s_size.toNat + n) := by
      intro n
      rw [BitVec.add_assoc, BitVec.ofNat_add, BitVec.ofNat_toNat, BitVec.setWidth_eq]
    have hmeets : (∃ pre t post, s :: l = pre ++ t :: post ∧
          t.s_paddr = u.virtualAddr + (u.size + BitVec.ofNat 32 (totalSize pre))) ↔
        s.s_paddr = u.virtualAddr + u.size ∨ ∃ pre t post, l = pre ++ t :: post ∧
          t.s_paddr = u.virtualAddr + (u.size + s.s_size + BitVec.ofNat 32 (totalSize pre)) := by
      constructor
      · rintro ⟨pre, t, post, he, ht⟩
        cases pre with
        | nil =>
          obtain ⟨rfl, -⟩ := List.cons.inj he
          exact Or.inl (by simpa [totalSize] using ht)
        | cons s' pre =>
          obtain ⟨rfl, htail⟩ := List.cons.inj he
          exact Or.inr ⟨pre, t, post, htail, by rw [hadd, ← totalSize_cons]; exact ht⟩
      · rintro (hs | ⟨pre, t, post, rfl, ht⟩)
        · exact ⟨[], s, l, rfl, by simpa [totalSize] using hs⟩
        · exact ⟨s :: pre, t, post, rfl, by rw [totalSize_cons, ← hadd]; exact ht⟩
    obtain ⟨hnone, hsome⟩ := foldlM_mergeBss (l := l) (u := { u with size := u.size + s.s_size }) hne
      (by rw [hnat]; omega)
    rw [hmeets, List.foldlM_cons, mergeBss, if_pos hu]
    by_cases hs : s.s_paddr = u.virtualAddr + u.size
    · rw [if_pos hs]
      exact ⟨fun _ => rfl, fun h => absurd (Or.inl hs) h⟩
    · rw [if_neg hs]
      refine ⟨fun h => hnone (h.resolve_left hs), fun h => (hsome fun hl => h (Or.inr hl)).trans ?_⟩
      rw [totalSize_cons, ← hadd]

theorem foldlM_bss {f : Scnhdr} {l : List Scnhdr} {u : Segment} (hu : u.size = 0) (hf : f.s_size ≠ 0)
    (hsum : totalSize (f :: l) < 2 ^ 32) :
    (MeetsEnd (f :: l) → (f :: l).foldlM mergeBss u = none) ∧
    (¬ MeetsEnd (f :: l) → (f :: l).foldlM mergeBss u =
      some { u with virtualAddr := f.s_paddr, size := BitVec.ofNat 32 (totalSize (f :: l)) }) := by
  have hfirst : mergeBss u f = some { u with virtualAddr := f.s_paddr, size := f.s_size } := if_neg (not_not_intro hu)
  have hsize : ∀ l, f.s_size + BitVec.ofNat 32 (totalSize l) = BitVec.ofNat 32 (totalSize (f :: l)) := by
    intro l
    rw [totalSize_cons, BitVec.ofNat_add, BitVec.ofNat_toNat, BitVec.setWidth_eq]
  have h := foldlM_mergeBss (l := l) (u := { u with virtualAddr := f.s_paddr, size := f.s_size }) hf
    (by rwa [totalSize_cons] at hsum)
  simp only [hsize] at h
  rw [List.foldlM_cons, hfirst]
  exact h

theorem union_iff_tiles {f : Scnhdr} {l : List Scnhdr} (hpos : ∀ s ∈ f :: l, s.s_size ≠ 0)
    (hsum : totalSize (f :: l) < 2 ^ 32) :
    (∀ a, InRange f.s_paddr (BitVec.ofNat 32 (totalSize (f :: l))) a ↔ ∃ s ∈ f :: l, InRange s.s_paddr s.s_size a) ↔
      Tiles (f :: l) := by
  let range : Scnhdr → ℕ × ℕ := fun s => (s.s_paddr.toNat, s.s_size.toNat)
  have hnat : ∀ s ∈ f :: l, 0 < s.s_size.toNat := fun s hs =>
    Nat.pos_of_ne_zero fun h => hpos s hs (BitVec.eq_of_toNat_eq h)
  have htotal : ∀ l : List Scnhdr, totalLength (l.map range) = totalSize l := by
    intro l
    induction l with
    | nil => rfl
    | cons s l ih => rw [List.map_cons, totalLength_cons, ih, totalSize_cons]
  have hsize : (BitVec.ofNat 32 (totalSize (f :: l))).toNat = totalSize (f :: l) := by
    rw [BitVec.toNat_ofNat, Nat.mod_eq_of_lt hsum]
  have h := tiles_iff (l := (f :: l).map range) (by simpa [range] using hnat) f.s_paddr.toNat
  rw [htotal] at h
  simp only [List.mem_map, exists_exists_and_eq_and, forall_exists_index, and_imp, forall_apply_eq_imp_iff₂,
    List.pairwise_map, mem_interval] at h
  unfold InRange
  rw [hsize, h]
  have hapart : ∀ s ∈ f :: l, ∀ t ∈ f :: l, Disjoint (interval (range s)) (interval (range t)) ↔
      s.s_paddr.toNat + s.s_size.toNat ≤ t.s_paddr.toNat ∨ t.s_paddr.toNat + t.s_size.toNat ≤ s.s_paddr.toNat := by
    intro s hs t ht
    have hs' := hnat s hs
    have ht' := hnat t ht
    rw [Finset.disjoint_left]
    simp only [mem_interval, range]
    constructor
    · intro h
      have h₁ := @h s.s_paddr.toNat
      have h₂ := @h t.s_paddr.toNat
      omega
    · intro h a ha ha'
      omega
  rw [List.Pairwise.iff_of_mem fun {s t} hs ht => hapart s hs t ht]
  exact ⟨fun ⟨h₁, h₂⟩ => ⟨h₁, fun f' hf' s hs => by obtain rfl := Option.some.inj hf'; exact h₂ s hs⟩,
    fun ⟨h₁, h₂⟩ => ⟨h₁, fun s hs => h₂ f rfl s hs⟩⟩

instance (l : List Scnhdr) : Decidable (Tiles l) :=
  decidable_of_iff (_ ∧ _) ⟨fun ⟨h₁, h₂⟩ => ⟨h₁, h₂⟩, fun ⟨h₁, h₂⟩ => ⟨h₁, h₂⟩⟩

end Nachos
