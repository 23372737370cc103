/-
# The files by their names

What `FileSystem` of `filesys/filesys.cc` is for: a store of arrays of bytes by name
(`Store`), with room for so many entries and so many sectors. The first nine bytes of a
name count. A call of `Create`, `Remove`, `Open`, `WriteAt`, `ReadAt` or `Length` does to
the store what `Store.Does` says; only what a new file holds is open, for `Create` leaves
in its sectors what was there.

On the disk a name goes through the directory, the header in a sector and the sectors
of the header. `store` reads the disk in this way, and every call on the disk is a call on
what it reads (`Inv.call`), with the same answer.

Key definitions: `Store`, `Store.Does`, `FileSystem.call`, `FileSystem.store`.
-/
import NachosNet.Basis.Slots
import NachosNet.Filesys.Consistency
import NachosNet.Filesys.FlatFile

namespace Nachos

open Basis

namespace OnDisk

/-! ### Arrays of bytes by name -/

/-- What counts of a name. -/
abbrev Key := List Byte

def keyOf (name : CString) : Key := name.1.take FileNameMaxLen

/-- The sectors of a file of `size` bytes, with that of its header. -/
def cost (size : ℕ) : ℕ := 1 + (size + (SectorSize - 1)) / SectorSize

@[ext] structure Store where
  content : Key → Option (List Byte)
  /-- The name of the file that is open. -/
  refers : OpenFile → Option Key
  /-- The sectors that are free. -/
  free : ℕ
  /-- The entries of the directory that are free. -/
  entries : ℕ

/-- What a call returns, and the bytes that it puts in the buffer of its caller. -/
structure Answer where
  value : ℤ
  bytes : List Byte
deriving DecidableEq

inductive Call
  | op (op : FileSystem.Op)
  | readAt (unset : ℕ → Byte) (file : OpenFile) (numBytes position : ℤ)
  | length (file : OpenFile)

namespace Store

/-- A disk after `FileSystem(TRUE)`. -/
def empty : Store := ⟨fun _ => none, fun _ => none, 1019, NumDirEntries⟩

variable (a : Store)

/-- The file has a name, an entry and sectors. -/
def put (k : Key) (c : List Byte) : Store where
  content := Function.update a.content k (some c)
  refers := a.refers
  free := a.free - cost c.length
  entries := a.entries - 1

/-- The file is gone, and no open file refers to it any more. -/
def drop (k : Key) (c : List Byte) : Store where
  content := Function.update a.content k none
  refers f := if a.refers f = some k then none else a.refers f
  free := a.free + cost c.length
  entries := a.entries + 1

def set (k : Key) (c : List Byte) : Store := { a with content := Function.update a.content k (some c) }

def link (f : OpenFile) (k : Key) : Store := { a with refers := Function.update a.refers f (some k) }

theorem refers_link_self (f : OpenFile) (k : Key) : (a.link f k).refers f = some k := by
  simp only [link, Function.update_self]

/-- There is room for a new file of this name and size. -/
structure Room (k : Key) (size : ℕ) : Prop where
  new : a.content k = none
  entry : 0 < a.entries
  sectors : cost size ≤ a.free

/-- `a.Does call answer a'`: what a call can answer, and the store after it. -/
inductive Does : Call → Answer → Store → Prop
  | created {unset name} {size : ℕ} (c : List Byte) (hroom : a.Room (keyOf name) size) (hc : c.length = size) :
      Does (.op (.create unset name size)) ⟨1, []⟩ (a.put (keyOf name) c)
  | notCreated {unset name} {size : ℕ} (hroom : ¬ a.Room (keyOf name) size) :
      Does (.op (.create unset name size)) ⟨0, []⟩ a
  | removed {unset name} {c : List Byte} (hc : a.content (keyOf name) = some c) :
      Does (.op (.remove unset name)) ⟨1, []⟩ (a.drop (keyOf name) c)
  | notRemoved {unset name} (hc : a.content (keyOf name) = none) : Does (.op (.remove unset name)) ⟨0, []⟩ a
  | opened {unset name} {c : List Byte} (f : OpenFile) (hc : a.content (keyOf name) = some c) :
      Does (.op (.openFile unset name)) ⟨1, []⟩ (a.link f (keyOf name))
  | notOpened {unset name} (hc : a.content (keyOf name) = none) : Does (.op (.openFile unset name)) ⟨0, []⟩ a
  | wrote {unset f source n p k} {c : List Byte} (hf : a.refers f = some k) (hc : a.content k = some c) :
      Does (.op (.writeAt unset f source n p)) ⟨transferred c.length n p, []⟩ (a.set k (splice c source n p))
  | read {unset f n p k} {c : List Byte} (hf : a.refers f = some k) (hc : a.content k = some c) :
      Does (.readAt unset f n p) ⟨transferred c.length n p, slice c p.toNat n.toNat⟩ a
  | length {f k} {c : List Byte} (hf : a.refers f = some k) (hc : a.content k = some c) :
      Does (.length f) ⟨c.length, []⟩ a

/-- The answers to a list of calls, one after the other. -/
inductive Run : Store → List Call → List Answer → Store → Prop
  | nil (a : Store) : Run a [] [] a
  | cons {a b e : Store} {c : Call} {r : Answer} {cs : List Call} {rs : List Answer} (h : a.Does c r b)
      (hs : Run b cs rs e) : Run a (c :: cs) (r :: rs) e

end Store

/-! ### What the disk holds -/

namespace Directory

/-- The entry of a name. -/
def entryOf (t : Directory) (k : Key) : Option ℕ :=
  (List.range NumDirEntries).find? fun i => t.inUse i && t.nameOf i = k

/-- The number of entries that are not in use. -/
def spare (t : Directory) : ℕ := (List.range NumDirEntries).countP fun i => !t.inUse i

theorem spare_pos {t : Directory} {i : ℕ} (hi : i < NumDirEntries) (hu : t.inUse i = false) : 0 < t.spare :=
  List.countP_pos_iff.mpr ⟨i, List.mem_range.mpr hi, by rw [hu]; rfl⟩

theorem add_eq_none {t : Directory} {name : CString} (h : t.findIndex name = none) {s : BitVec 32}
    (hadd : t.add name s = none) : t.spare = 0 := by
  unfold add at hadd
  rw [if_neg (by simp [h]), Option.map_eq_none_iff, List.find?_eq_none] at hadd
  exact List.countP_eq_zero.mpr hadd

end Directory

namespace Volume

variable (v : Volume) (d : Disk)

/-- The bytes of the file of entry `i`. -/
def fileAt (i : ℕ) : List Byte := (v.header (v.sectorOf i)).content d

def files (k : Key) : Option (List Byte) := (v.directory.entryOf k).map (v.fileAt d)

/-- The name of the file with its header in sector `x`. -/
def nameAt (x : ℕ) : Option Key :=
  ((List.range NumDirEntries).find? fun i => v.directory.inUse i && v.sectorOf i = x).map v.directory.nameOf

def store (opened : List OpenFile) : Store where
  content := v.files d
  refers f := if f ∈ opened then v.nameAt f.sector else none
  free := v.freeMap.numClear
  entries := v.directory.spare

theorem free_store (opened : List OpenFile) : (v.store d opened).free = v.freeMap.numClear := by
  simp only [store]

theorem refers_store (opened : List OpenFile) (f : OpenFile) :
    (v.store d opened).refers f = if f ∈ opened then v.nameAt f.sector else none := rfl

variable {v d} {v' : Volume} {d' : Disk} {i : ℕ}

theorem Sound.entryOf_eq (hv : v.Sound) (hi : i < NumDirEntries) (hu : v.directory.inUse i = true) :
    v.directory.entryOf (v.directory.nameOf i) = some i := by
  unfold Directory.entryOf
  rw [find?_range_unique hi fun j hj hp => ?_, if_pos]
  · rw [hu, decide_eq_true rfl]
    rfl
  · rw [Bool.and_eq_true, decide_eq_true_eq] at hp
    exact hv.names j hj i hi hp.1 hu hp.2

theorem Sound.files_nameOf (hv : v.Sound) (hi : i < NumDirEntries) (hu : v.directory.inUse i = true) :
    v.files d (v.directory.nameOf i) = some (v.fileAt d i) := by
  unfold files
  rw [hv.entryOf_eq hi hu]
  rfl

theorem files_eq_none {k : Key} : v.files d k = none ↔ v.directory.entryOf k = none := Option.map_eq_none_iff

theorem Sound.nameAt_sectorOf (hv : v.Sound) (hi : i < NumDirEntries) (hu : v.directory.inUse i = true) :
    v.nameAt (v.sectorOf i) = some (v.directory.nameOf i) := by
  unfold nameAt
  rw [find?_range_unique hi fun j hj hp => ?_, if_pos]
  · rfl
  · rw [hu, decide_eq_true rfl]
    rfl
  · rw [Bool.and_eq_true, decide_eq_true_eq] at hp
    have hown := own_entry hj hp.1
    rw [hp.2] at hown
    exact Owner.entry.inj (hv.shares.apart _ _ (v.sectorOf i) (hown ▸ List.mem_cons_self)
      (own_entry hi hu ▸ List.mem_cons_self))

theorem Sound.refers_eq (hv : v.Sound) {f : OpenFile} (hf : v.Has f) : ∃ i < NumDirEntries,
    v.directory.inUse i = true ∧ v.sectorOf i = f.sector ∧ v.header (v.sectorOf i) = f.hdr ∧
      v.nameAt f.sector = some (v.directory.nameOf i) ∧ v.files d (v.directory.nameOf i) = some (f.hdr.content d) := by
  obtain ⟨⟨i, hown⟩, hhdr⟩ := hf
  obtain ⟨hi, hu, hsec⟩ := entry_of_own hown
  refine ⟨i, hi, hu, hsec, hsec ▸ hhdr, hsec ▸ hv.nameAt_sectorOf hi hu, ?_⟩
  rw [hv.files_nameOf hi hu]
  unfold fileAt
  rw [hsec, hhdr]

/-! ### Where nothing changes -/

/-- The data of the files is the same on two disks. -/
def SameData (v : Volume) (d d' : Disk) : Prop :=
  ∀ i < NumDirEntries, v.directory.inUse i = true → ∀ s ∈ (v.header (v.sectorOf i)).sectors, d' s = d s

theorem content_congr {h : FileHeader} (ho : h.Ok) (hd : ∀ s ∈ h.sectors, d' s = d s) : h.content d' = h.content d :=
  List.map_congr_left fun _ hx => ho.byteAt_congr hd (List.mem_range.mp hx)

theorem Sound.fileAt_congr (hv : v.Sound) (hd : v.SameData d d') (hi : i < NumDirEntries)
    (hu : v.directory.inUse i = true) : v.fileAt d' i = v.fileAt d i :=
  content_congr (hv.file_ok i hi hu) (hd i hi hu)

theorem Same.fileAt_eq (h : Same v v') (hi : i < NumDirEntries) (hu : v.directory.inUse i = true) :
    v'.fileAt d i = v.fileAt d i := by
  unfold fileAt
  rw [sectorOf_congr (h.entry i hi), h.header_eq _ _ (own_entry hi hu)]

theorem entryOf_some {k : Key} {t : Directory} (h : t.entryOf k = some i) :
    i < NumDirEntries ∧ t.inUse i = true ∧ t.nameOf i = k := by
  obtain ⟨hp, hi, -⟩ := List.find?_range_eq_some.mp h
  rw [Bool.and_eq_true, decide_eq_true_eq] at hp
  exact ⟨List.mem_range.mp hi, hp⟩

theorem entryOf_congr {k : Key} {t t' : Directory} (h : ∀ i < NumDirEntries, (t'.inUse i && t'.nameOf i = k) =
    (t.inUse i && t.nameOf i = k)) : t'.entryOf k = t.entryOf k := find?_range_congr h

/-- Two volumes with the same entries, headers and data hold the same store. -/
theorem Same.store_eq (h : Same v v') (hv : v.Sound) (hd : v.SameData d d') (opened : List OpenFile) :
    v'.store d' opened = v.store d opened := by
  have hu : ∀ i < NumDirEntries, v'.directory.inUse i = v.directory.inUse i := fun i hi => (h.entry i hi).inUse_eq
  have hname : ∀ i < NumDirEntries, v'.directory.nameOf i = v.directory.nameOf i := fun i hi => (h.entry i hi).nameOf_eq
  have hsec : ∀ i < NumDirEntries, v'.sectorOf i = v.sectorOf i := fun i hi => sectorOf_congr (h.entry i hi)
  refine Store.ext (funext fun k => ?_) (funext fun f => ?_) ?_ ?_
  · have hentry : v'.directory.entryOf k = v.directory.entryOf k :=
      entryOf_congr fun i hi => by rw [hu i hi, hname i hi]
    change (v'.directory.entryOf k).map _ = (v.directory.entryOf k).map _
    rw [hentry]
    refine Option.map_congr fun i hi => ?_
    obtain ⟨hi, hui, -⟩ := entryOf_some hi
    exact (h.fileAt_eq hi hui).trans (hv.fileAt_congr hd hi hui)
  · rw [refers_store, refers_store]
    unfold nameAt
    rw [find?_range_congr fun i hi => by rw [hu i hi, hsec i hi]]
    refine congrArg (ite _ · _) (Option.map_congr fun i hi => ?_)
    exact hname i (List.mem_range.mp (List.mem_of_find?_eq_some hi))
  · rw [free_store, free_store, h.freeMap_eq]
  · change v'.directory.spare = v.directory.spare
    unfold Directory.spare
    exact List.countP_congr fun i hi => by rw [hu i (List.mem_range.mp hi)]

/-! ### Where one entry changes -/

/-- Only entry `i` changes, and only for the name `k`. -/
structure ChangesEntry (v v' : Volume) (d d' : Disk) (i : ℕ) (k : Key) : Prop where
  lt : i < NumDirEntries
  entry : ∀ j < NumDirEntries, j ≠ i → Directory.SameEntry v.directory v'.directory j
  data : ∀ j < NumDirEntries, j ≠ i → v.directory.inUse j = true → v'.fileAt d' j = v.fileAt d j
  other : ∀ j < NumDirEntries, j ≠ i → v.directory.inUse j = true → v.directory.nameOf j ≠ k
  before : v.directory.inUse i = true → v.directory.nameOf i = k
  after : v'.directory.inUse i = true → v'.directory.nameOf i = k

theorem ChangesEntry.files_eq {k : Key} (h : ChangesEntry v v' d d' i k) :
    v'.files d' = Function.update (v.files d) k (if v'.directory.inUse i = true then some (v'.fileAt d' i) else none) := by
  funext k'
  obtain rfl | hk := eq_or_ne k' k
  · rw [Function.update_self]
    unfold files Directory.entryOf
    rw [find?_range_unique h.lt fun j hj hp => ?_]
    · by_cases hu : v'.directory.inUse i = true
      · rw [if_pos hu, if_pos (by rw [hu, decide_eq_true (h.after hu)]; rfl)]
        rfl
      · rw [if_neg hu, if_neg fun hp => hu (Bool.and_eq_true _ _ ▸ hp).1]
        rfl
    · by_contra hji
      rw [Bool.and_eq_true, decide_eq_true_eq, (h.entry j hj hji).inUse_eq, (h.entry j hj hji).nameOf_eq] at hp
      exact h.other j hj hji hp.1 hp.2
  · rw [Function.update_of_ne hk]
    -- entry `i` is not found, before and after
    have hentry : v'.directory.entryOf k' = v.directory.entryOf k' := by
      refine entryOf_congr fun j hj => ?_
      obtain rfl | hji := eq_or_ne j i
      · have hnot : ∀ {t : Directory}, (t.inUse j = true → t.nameOf j = k) → (t.inUse j && t.nameOf j = k') = false := by
          intro t ht
          rw [Bool.and_eq_false_imp]
          exact fun hu => decide_eq_false fun he => hk (he.symm.trans (ht hu))
        rw [hnot h.before, hnot h.after]
      · rw [(h.entry j hj hji).inUse_eq, (h.entry j hj hji).nameOf_eq]
    unfold files
    rw [hentry]
    refine Option.map_congr fun j hj => ?_
    obtain ⟨hj, huj, hname⟩ := entryOf_some hj
    refine h.data j hj (fun hji => hk ?_) huj
    rw [← hname, hji, h.before (hji ▸ huj)]

/-- The other entries have the other names. -/
theorem Sound.other_names (hv : v.Sound) (hi : i < NumDirEntries) (hu : v.directory.inUse i = true) :
    ∀ j < NumDirEntries, j ≠ i → v.directory.inUse j = true → v.directory.nameOf j ≠ v.directory.nameOf i :=
  fun j hj hji huj he => hji (hv.names j hj i hi huj hu he)

theorem length_sectors {h : FileHeader} (ho : h.Ok) :
    h.sectors.length = (h.numBytes.toNat + (SectorSize - 1)) / SectorSize := by
  unfold FileHeader.sectors
  rw [List.length_map, List.length_take, h.dataSectors.2, Nat.min_eq_left ho.covers.numSectors_le, ho.numSectors_eq]

/-- The sectors of a file, with that of its header. -/
theorem length_file {x : ℕ} (ho : (v.header x).Ok) : (v.file x).length = cost (v.header x).numBytes.toNat := by
  unfold file cost
  rw [List.length_cons, length_sectors ho, Nat.add_comm]

theorem length_content (h : FileHeader) (d : Disk) : (h.content d).length = h.numBytes.toNat := by
  unfold FileHeader.content
  rw [List.length_map, List.length_range]

/-- The number of entries when one of them is taken. -/
theorem spare_add_one {t t' : Directory} (hi : i < NumDirEntries) (hu : t.inUse i = false) (hu' : t'.inUse i = true)
    (h : ∀ j < NumDirEntries, j ≠ i → Directory.SameEntry t t' j) : t'.spare + 1 = t.spare := by
  refine countP_range_add_length (l := [i]) (List.nodup_singleton i) (by simpa using hi) (fun j hj => ?_) (by simp [hu'])
  obtain rfl | hji := eq_or_ne j i
  · simp [hu]
  · rw [(h j hj hji).inUse_eq]
    simp [hji]

section Add

variable {name : CString} {x : ℕ} {hdr : FileHeader} {m : Bitmap NumSectors} {opened : List OpenFile}

theorem Sound.store_add (hv : v.Sound) (hi : i < NumDirEntries) (hu : v.directory.inUse i = false)
    (hname : ∀ j < NumDirEntries, v.directory.inUse j = true → v.directory.nameOf j ≠ keyOf name)
    (ho : hdr.Ok) (ht : v.freeMap.Taken m (x :: hdr.sectors)) (hd : v.SameData d d')
    (hopened : ∀ f ∈ opened, v.Has f) :
    (v.add i name x hdr m).store d' opened = (v.store d opened).put (keyOf name) (hdr.content d') := by
  have hx := ht.clear x List.mem_cons_self
  have hlt : x < NumSectors := lt_of_test ((ht.test_iff x).mpr (Or.inr List.mem_cons_self))
  have hv' := hv.add hi hu hname ho ht
  have hsame : ∀ j < NumDirEntries, j ≠ i → Directory.SameEntry v.directory (v.add i name x hdr m).directory j :=
    fun j _ hj => Directory.sameEntry_setEntry hj
  have hu' : (v.add i name x hdr m).directory.inUse i = true := Directory.inUse_setEntry
  refine Store.ext ?_ (funext fun f => ?_) ?_ ?_
  · have hchange : ChangesEntry v (v.add i name x hdr m) d d' i (keyOf name) := by
      refine ⟨hi, hsame, fun j hj hji huj => ?_, fun j hj _ => hname j hj, fun h => ?_, fun _ => Directory.nameOf_setEntry⟩
      · refine Eq.trans ?_ (hv.fileAt_congr hd hj huj)
        unfold fileAt
        rw [sectorOf_congr (hsame j hj hji), hv.header_add hx (own_entry hj huj)]
      · rw [hu] at h
        cases h
    refine hchange.files_eq.trans ?_
    rw [if_pos hu']
    unfold fileAt
    rw [sectorOf_add hlt, header_add_self]
    rfl
  · change _ = (v.store d opened).refers f
    rw [refers_store, refers_store]
    by_cases hf : f ∈ opened
    · obtain ⟨j, hj, huj, hsec, -, hat, -⟩ := hv.refers_eq (d := d) (hopened f hf)
      have hji : j ≠ i := by
        rintro rfl
        exact Bool.false_ne_true (hu.symm.trans huj)
      have hat' := hv'.nameAt_sectorOf hj ((hsame j hj hji).inUse_eq.trans huj)
      rw [sectorOf_congr (hsame j hj hji), hsec, (hsame j hj hji).nameOf_eq] at hat'
      rw [if_pos hf, if_pos hf, hat, hat']
    · rw [if_neg hf, if_neg hf]
  · have hlen := length_file (v := v.add i name x hdr m) (x := x) (header_add_self ▸ ho)
    rw [file_add_self, header_add_self] at hlen
    have hsum := ht.numClear_eq
    unfold Store.put
    rw [free_store, free_store, length_content, ← hlen]
    exact (Nat.sub_eq_of_eq_add hsum.symm).symm
  · have hspare := spare_add_one hi hu hu' hsame
    change (v.add i name x hdr m).directory.spare = v.directory.spare - 1
    omega

end Add

section Clear

variable {m : Bitmap NumSectors} {opened : List OpenFile}

theorem Sound.store_clear (hv : v.Sound) (hi : i < NumDirEntries) (hu : v.directory.inUse i = true)
    (hm : ∀ x, m.test x = true ↔ v.freeMap.test x = true ∧ x ∉ v.own (.entry i)) (hd : v.SameData d d')
    (hopened : ∀ f ∈ opened, v.Has f) :
    (v.clear i m).store d' (opened.filter fun f => f.sector ≠ v.sectorOf i) =
      (v.store d opened).drop (v.directory.nameOf i) (v.fileAt d i) := by
  have hv' := hv.clear (i := i) hm
  have hsame : ∀ j < NumDirEntries, j ≠ i → Directory.SameEntry v.directory (v.clear i m).directory j :=
    fun j _ hj => Directory.sameEntry_clearEntry hj
  have hu' : (v.clear i m).directory.inUse i = false := Directory.inUse_clearEntry
  refine Store.ext ?_ (funext fun f => ?_) ?_ ?_
  · have hchange : ChangesEntry v (v.clear i m) d d' i (v.directory.nameOf i) := by
      refine ⟨hi, hsame, fun j hj hji huj => ?_, hv.other_names hi hu, fun _ => rfl, fun h => ?_⟩
      · refine Eq.trans ?_ (hv.fileAt_congr hd hj huj)
        unfold fileAt
        rw [sectorOf_congr (hsame j hj hji)]
        rfl
      · rw [hu'] at h
        cases h
    refine hchange.files_eq.trans ?_
    rw [if_neg (by rw [hu']; exact Bool.false_ne_true)]
    rfl
  · unfold Store.drop
    simp only [refers_store]
    by_cases hf : f ∈ opened
    · obtain ⟨j, hj, huj, hsec, -, hat, -⟩ := hv.refers_eq (d := d) (hopened f hf)
      simp only [if_pos hf, hat]
      obtain rfl | hji := eq_or_ne j i
      · rw [if_pos rfl, if_neg]
        rw [List.mem_filter, hsec]
        simp
      · have hne : f.sector ≠ v.sectorOf i := by
          intro he
          have := hv.nameAt_sectorOf hi hu
          rw [← he, hat] at this
          exact hv.other_names hi hu j hj hji huj (Option.some.inj this)
        have hat' := hv'.nameAt_sectorOf hj ((hsame j hj hji).inUse_eq.trans huj)
        rw [sectorOf_congr (hsame j hj hji), hsec, (hsame j hj hji).nameOf_eq] at hat'
        rw [if_pos (List.mem_filter.mpr ⟨hf, decide_eq_true hne⟩), hat',
          if_neg fun he => hv.other_names hi hu j hj hji huj (Option.some.inj he)]
    · simp only [if_neg hf, if_neg fun h => hf (List.mem_filter.mp h).1, reduceCtorEq, if_false]
  · have hown := own_entry hi hu
    have hcount : v.freeMap.numClear + (v.own (.entry i)).length = m.numClear := by
      refine countP_range_add_length (hv.shares.nodup _) (fun x hx => ?_) (fun x _ => ?_) fun x hx => ?_
      · exact lt_of_test ((hv.shares.marked_iff x).mpr ⟨_, hx⟩)
      · rw [Bool.not_eq_true', Bool.not_eq_true', Bool.eq_false_iff, Bool.eq_false_iff, Ne, hm, not_and_or, not_not]
      · rw [(hv.shares.marked_iff x).mpr ⟨_, hx⟩]
        rfl
    rw [hown, length_file (hv.file_ok i hi hu)] at hcount
    have hmap : (v.clear i m).freeMap = m := rfl
    unfold Store.drop fileAt
    rw [free_store, free_store, length_content, hcount, hmap]
  · exact (spare_add_one hi hu' hu fun j hj hji k hk => (hsame j hj hji k hk).symm).symm

end Clear

end Volume

namespace FileSystem

def store (s : FileSystem) : Store := (volume s.disk).store s.disk s.opened

/-- A call, with its answer: TRUE or a file is 1, FALSE or NULL is 0. -/
def call (s : FileSystem) : Call → Option (Answer × FileSystem)
  | .op (.create unset name initialSize) =>
    (s.create unset name initialSize).map fun r => (⟨if r.1 then 1 else 0, []⟩, r.2)
  | .op (.remove unset name) => (s.remove unset name).map fun r => (⟨if r.1 then 1 else 0, []⟩, r.2)
  | .op (.openFile unset name) =>
    (s.openFile unset name).map fun s' => (⟨if s'.opened.length = s.opened.length then 0 else 1, []⟩, s')
  | .op (.writeAt unset file source numBytes position) =>
    (file.hdr.writeAt s.disk unset source numBytes position).map fun r => (⟨r.1, []⟩, { s with disk := r.2 })
  | .readAt unset file numBytes position =>
    (file.hdr.readAt s.disk unset numBytes position).map fun r =>
      (⟨r.1, (List.range r.1.toNat).map r.2⟩, s)
  | .length file => some (⟨file.hdr.numBytes.toInt, []⟩, s)

variable {s : FileSystem}

/-- The store as the directory in memory shows it. -/
theorem Inv.store_fetched (hs : Inv s) {t : Directory}
    (hsame : Volume.Same (volume s.disk) ((volume s.disk).withDirectory t)) :
    ((volume s.disk).withDirectory t).store s.disk s.opened = s.store :=
  hsame.store_eq hs.sound (fun _ _ _ _ _ => rfl) s.opened

theorem Inv.has_fetched (hs : Inv s) {t : Directory}
    (hsame : Volume.Same (volume s.disk) ((volume s.disk).withDirectory t)) :
    ∀ f ∈ s.opened, ((volume s.disk).withDirectory t).Has f := fun f hf => hsame.has (hs.opened f hf)

/-- What is read of a name. -/
theorem Inv.content_fetched (hs : Inv s) {t : Directory}
    (hsame : Volume.Same (volume s.disk) ((volume s.disk).withDirectory t)) (name : CString) :
    s.store.content (keyOf name) =
      (t.findIndex name).map (((volume s.disk).withDirectory t).fileAt s.disk) := by
  rw [← hs.store_fetched hsame]
  rfl

/-! ### Files that are written and read -/

theorem Inv.covers (hs : Inv s) {f : OpenFile} (hf : f ∈ s.opened) : f.hdr.Covers := by
  obtain ⟨i, hi, hu, -, hhdr, -⟩ := hs.sound.refers_eq (d := s.disk) (hs.opened f hf)
  exact hhdr ▸ (hs.sound.file_ok i hi hu).covers

theorem Inv.refers (hs : Inv s) {f : OpenFile} (hf : f ∈ s.opened) : ∃ k, s.store.refers f = some k ∧
    s.store.content k = some (f.hdr.content s.disk) := by
  obtain ⟨i, -, -, -, -, hat, hfile⟩ := hs.sound.refers_eq (d := s.disk) (hs.opened f hf)
  exact ⟨_, (if_pos hf).trans hat, hfile⟩

/-- Only data of the file of `f` was written. -/
theorem Inv.store_data (hs : Inv s) {f : OpenFile} (hf : f ∈ s.opened) {k : Key} (hk : s.store.refers f = some k)
    {d : Disk} (hd : ∀ x, x ∉ f.hdr.sectors → d x = s.disk x) :
    store { s with disk := d } = s.store.set k (f.hdr.content d) := by
  obtain ⟨i, hi, hu, hsec, hhdr, hat, -⟩ := hs.sound.refers_eq (d := s.disk) (hs.opened f hf)
  obtain rfl : (volume s.disk).directory.nameOf i = k :=
    Option.some.inj (hat.symm.trans ((if_pos hf).symm.trans hk))
  have hown := Volume.own_entry hi hu
  have hsame : Volume.Same (volume s.disk) (volume d) :=
    hs.sound.same_data hown fun x hx => hd x (hhdr ▸ hx)
  have hchange : Volume.ChangesEntry (volume s.disk) (volume d) s.disk d i ((volume s.disk).directory.nameOf i) := by
    refine ⟨hi, fun j hj _ => hsame.entry j hj, fun j hj hji huj => ?_, hs.sound.other_names hi hu, fun _ => rfl,
      fun _ => (hsame.entry i hi).nameOf_eq⟩
    refine (hsame.fileAt_eq hj huj).trans (Volume.content_congr (hs.sound.file_ok j hj huj) fun x hx => hd x ?_)
    rw [← hhdr]
    exact hs.sound.data_apart (Volume.own_entry hj huj) hown (by simpa using hji) hx
  have hfiles := hchange.files_eq
  rw [if_pos ((hsame.entry i hi).inUse_eq.trans hu), hsame.fileAt_eq hi hu] at hfiles
  unfold Volume.fileAt at hfiles
  rw [hhdr] at hfiles
  -- apart from the contents the store is the same
  have hrest := hsame.store_eq hs.sound (fun _ _ _ _ _ => rfl : (volume s.disk).SameData d d) s.opened
  calc store { s with disk := d }
    _ = { (volume d).store d s.opened with content := (volume d).files d } := by simp only [store, Volume.store]
    _ = s.store.set ((volume s.disk).directory.nameOf i) (f.hdr.content d) := by
      rw [hrest, hfiles]
      rfl

theorem Inv.writes (hs : Inv s) (unset source : ℕ → Byte) {f : OpenFile} (hf : f ∈ s.opened) {n p : ℤ} (hp : 0 ≤ p)
    (hmax : p + n ≤ maxInt) : ∃ r s', s.call (.op (.writeAt unset f source n p)) = some (r, s') ∧
      s.store.Does (.op (.writeAt unset f source n p)) r s'.store := by
  obtain ⟨k, hk, hc⟩ := hs.refers hf
  obtain ⟨d, hrun, hcontent, hd⟩ := FileHeader.writeAt_splice (hs.covers hf) s.disk unset source hp hmax
  have hdoes : s.store.Does (.op (.writeAt unset f source n p)) _ _ := .wrote hk hc
  rw [← hcontent, ← hs.store_data hf hk hd, Volume.length_content, ← (hs.covers hf).toInt_numBytes] at hdoes
  refine ⟨_, _, ?_, hdoes⟩
  simp only [call, hrun, Option.map_some]

theorem Inv.reads (hs : Inv s) (unset : ℕ → Byte) {f : OpenFile} (hf : f ∈ s.opened) {n p : ℤ} (hp : 0 ≤ p)
    (hmax : p + n ≤ maxInt) : ∃ r, s.call (.readAt unset f n p) = some (r, s) ∧
      s.store.Does (.readAt unset f n p) r s.store := by
  obtain ⟨k, hk, hc⟩ := hs.refers hf
  obtain ⟨into, hrun, hbytes⟩ := FileHeader.readAt_slice (hs.covers hf) s.disk unset hp hmax
  have hdoes : s.store.Does (.readAt unset f n p) _ _ := .read hk hc
  rw [Volume.length_content, ← (hs.covers hf).toInt_numBytes, ← hbytes] at hdoes
  refine ⟨_, ?_, hdoes⟩
  simp only [call, hrun, Option.map_some]

/-! ### Files that are created -/

theorem Added.store_eq {t : Directory} {name : CString} {i x : ℕ} {hdr : FileHeader} {m : Bitmap NumSectors} {d : Disk}
    (hs : Inv s) (hsame : Volume.Same (volume s.disk) ((volume s.disk).withDirectory t))
    (h : Added s t name i x hdr m d) : store { s with disk := d } = s.store.put (keyOf name) (hdr.content d) := by
  have hv := hsame.sound hs.sound
  have hv' := h.sound hs hsame
  have hx := h.taken.clear x List.mem_cons_self
  -- the data of the other files is in none of the sectors that were written
  have hdata : ((volume s.disk).withDirectory t).SameData s.disk d := by
    intro j hj huj y hy
    have hown := Volume.own_entry (v := (volume s.disk).withDirectory t) hj huj
    have hyx : y ≠ x := by
      rintro rfl
      exact Bool.false_ne_true (hx.symm.trans (hv.marked hown (List.mem_cons_of_mem _ hy)))
    refine (h.written.others y ?_ ?_).trans (Function.update_of_ne hyx _ _)
    · rw [@Volume.Sound.header_add _ i name x hdr m hv hx .freeMap _ rfl]
      exact @Volume.Sound.data_apart _ _ .freeMap _ _ hv hown rfl (by simp) y hy
    · rw [@Volume.Sound.header_add _ i name x hdr m hv hx .directory _ rfl]
      exact @Volume.Sound.data_apart _ _ .directory _ _ hv hown rfl (by simp) y hy
  calc store { s with disk := d }
    _ = (((volume s.disk).withDirectory t).add i name x hdr m).store d s.opened :=
      (hv'.same_written h.written fun _ y _ => hdrAt_add y).store_eq hv' (fun _ _ _ _ _ => rfl) s.opened
    _ = (((volume s.disk).withDirectory t).store s.disk s.opened).put (keyOf name) (hdr.content d) :=
      hv.store_add h.lt h.unused (fun _ hj hu => h.name_ne hj hu) h.ok h.taken hdata (hs.has_fetched hsame)
    _ = s.store.put (keyOf name) (hdr.content d) := by rw [hs.store_fetched hsame]

theorem Inv.creates (hs : Inv s) (unset : ℕ → ℕ → Byte) (name : CString) {size : ℕ} (hsize : size ≤ MaxFileSize) :
    ∃ r s', s.call (.op (.create unset name size)) = some (r, s') ∧
      s.store.Does (.op (.create unset name size)) r s'.store := by
  obtain ⟨t, hsame, hcases⟩ := hs.create_cases unset name hsize
  have hcontent := hs.content_fetched hsame name
  have hentries : s.store.entries = t.spare := congrArg Store.entries (hs.store_fetched hsame).symm
  have hfree : s.store.free = (volume s.disk).freeMap.numClear := Volume.free_store _ _ _
  obtain ⟨hrun, hwhy⟩ | ⟨i, x, hdr, m, d, hadded, hbytes, hle, hrun⟩ := hcases
  · refine ⟨⟨0, []⟩, s, by simp [call, hrun], .notCreated fun hroom => ?_⟩
    obtain hidx | ⟨hidx, x, hadd⟩ | hlt := hwhy
    · rw [hroom.new] at hcontent
      exact hidx (Option.map_eq_none_iff.mp hcontent.symm)
    · exact hroom.entry.ne' (hentries.trans (Directory.add_eq_none hidx hadd))
    · exact absurd (hfree ▸ hroom.sectors) hlt.not_ge
  · rw [hadded.new] at hcontent
    have hroom : s.store.Room (keyOf name) size :=
      ⟨hcontent, hentries ▸ Directory.spare_pos hadded.lt hadded.unused, hfree ▸ hle⟩
    have hlen : (hdr.content d).length = size := (Volume.length_content hdr d).trans hbytes
    have hdoes : s.store.Does (.op (.create unset name size)) _ _ := .created _ hroom hlen
    rw [← hadded.store_eq hs hsame] at hdoes
    exact ⟨⟨1, []⟩, _, by simp [call, hrun], hdoes⟩

/-! ### Files that are removed and opened -/

theorem Cleared.store_eq {t : Directory} {i : ℕ} {m : Bitmap NumSectors} {d : Disk} (hs : Inv s)
    (hsame : Volume.Same (volume s.disk) ((volume s.disk).withDirectory t)) (h : Cleared s t i m d) :
    store { s with disk := d, opened := s.opened.filter fun f => f.sector ≠ (t.sector i).toNat } =
      s.store.drop (t.nameOf i) (((volume s.disk).withDirectory t).fileAt s.disk i) := by
  have hv := hsame.sound hs.sound
  have hm := h.freed
  rw [← hsame.own_eq] at hm
  have hv' := hv.clear (i := i) hm
  have hdata : ((volume s.disk).withDirectory t).SameData s.disk d := by
    intro j hj huj y hy
    have hown := Volume.own_entry (v := (volume s.disk).withDirectory t) hj huj
    refine h.written.others y ?_ ?_
    · exact @Volume.Sound.data_apart _ _ .freeMap _ _ hv hown rfl (by simp) y hy
    · exact @Volume.Sound.data_apart _ _ .directory _ _ hv hown rfl (by simp) y hy
  calc store { s with disk := d, opened := s.opened.filter fun f => f.sector ≠ (t.sector i).toNat }
    _ = (((volume s.disk).withDirectory t).clear i m).store d
        (s.opened.filter fun f => f.sector ≠ (t.sector i).toNat) :=
      (hv'.same_written h.written fun _ _ _ => rfl).store_eq hv' (fun _ _ _ _ _ => rfl) _
    _ = (((volume s.disk).withDirectory t).store s.disk s.opened).drop (t.nameOf i)
        (((volume s.disk).withDirectory t).fileAt s.disk i) :=
      hv.store_clear h.lt h.used hm hdata (hs.has_fetched hsame)
    _ = _ := by rw [hs.store_fetched hsame]

theorem Inv.removes (hs : Inv s) (unset : ℕ → ℕ → Byte) (name : CString) :
    ∃ r s', s.call (.op (.remove unset name)) = some (r, s') ∧ s.store.Does (.op (.remove unset name)) r s'.store := by
  obtain ⟨t, hsame, hcases⟩ := hs.remove_cases unset name
  have hcontent := hs.content_fetched hsame name
  obtain ⟨hrun, hidx⟩ | ⟨i, m, d, hcleared, hidx, hrun⟩ := hcases
  · rw [hidx] at hcontent
    exact ⟨⟨0, []⟩, s, by simp [call, hrun], .notRemoved hcontent⟩
  · rw [hidx] at hcontent
    have hdoes : s.store.Does (.op (.remove unset name)) _ _ := .removed hcontent
    have hkey : keyOf name = t.nameOf i := (Directory.findIndex_some hidx).2.2.symm
    rw [hkey, ← hcleared.store_eq hs hsame] at hdoes
    exact ⟨⟨1, []⟩, _, by simp [call, hrun], hdoes⟩

/-- `Open` of a name that is there. -/
theorem Inv.open_found (hs : Inv s) (unset : ℕ → ℕ → Byte) {name : CString} {c : List Byte}
    (hc : s.store.content (keyOf name) = some c) : ∃ f, s.openFile unset name = some { s with opened := f :: s.opened } ∧
      store { s with opened := f :: s.opened } = s.store.link f (keyOf name) := by
  obtain ⟨t, hsame, hcases⟩ := hs.openFile_cases unset name
  rw [hs.content_fetched hsame name] at hc
  obtain ⟨-, hidx⟩ | ⟨i, hidx, hrun⟩ := hcases
  · rw [hidx] at hc
    cases hc
  obtain ⟨hi, hu, hname⟩ := Directory.findIndex_some hidx
  have hat := hs.sound.nameAt_sectorOf hi ((hsame.entry i hi).inUse_eq ▸ hu)
  rw [← Volume.sectorOf_congr (hsame.entry i hi), ← (hsame.entry i hi).nameOf_eq] at hat
  refine ⟨_, hrun, Store.ext rfl (funext fun g => ?_) ?_ rfl⟩
  · unfold store Store.link
    dsimp only
    rw [Volume.refers_store]
    obtain rfl | hg := eq_or_ne g ⟨(t.sector i).toNat, hdrAt s.disk (t.sector i).toNat⟩
    · rw [Function.update_self, if_pos List.mem_cons_self]
      exact hat.trans (congrArg some hname)
    · rw [Function.update_of_ne hg, Volume.refers_store]
      simp only [List.mem_cons, hg, false_or]
  · unfold store Store.link
    rw [Volume.free_store, Volume.free_store]

theorem Inv.open_none (hs : Inv s) (unset : ℕ → ℕ → Byte) {name : CString}
    (hc : s.store.content (keyOf name) = none) : s.openFile unset name = some s := by
  obtain ⟨t, hsame, ⟨hrun, -⟩ | ⟨i, hidx, -⟩⟩ := hs.openFile_cases unset name
  · exact hrun
  · rw [hs.content_fetched hsame name, hidx] at hc
    cases hc

theorem Inv.opens (hs : Inv s) (unset : ℕ → ℕ → Byte) (name : CString) :
    ∃ r s', s.call (.op (.openFile unset name)) = some (r, s') ∧
      s.store.Does (.op (.openFile unset name)) r s'.store := by
  cases hc : s.store.content (keyOf name) with
  | none => exact ⟨⟨0, []⟩, s, by simp [FileSystem.call, hs.open_none unset hc], .notOpened hc⟩
  | some c =>
    obtain ⟨f, hopen, hstore⟩ := hs.open_found unset hc
    have hdoes : s.store.Does (.op (.openFile unset name)) _ _ := .opened f hc
    rw [← hstore] at hdoes
    exact ⟨⟨1, []⟩, _, by simp [FileSystem.call, hopen], hdoes⟩

/-! ### Every run of calls -/

/-- Files are created with a size that a header can list, and used while they exist and from their start on. -/
def Permitted (s : FileSystem) : Call → Prop
  | .op op => s.Allowed op ∧ op.NotBefore
  | .readAt _ file numBytes position => file ∈ s.opened ∧ 0 ≤ position ∧ position + numBytes ≤ maxInt
  | .length file => file ∈ s.opened

instance (s : FileSystem) : ∀ c, Decidable (s.Permitted c)
  | .op op => inferInstanceAs (Decidable (s.Allowed op ∧ op.NotBefore))
  | .readAt _ file numBytes position =>
    inferInstanceAs (Decidable (file ∈ s.opened ∧ 0 ≤ position ∧ position + numBytes ≤ maxInt))
  | .length file => inferInstanceAs (Decidable (file ∈ s.opened))

/-- The answers to calls that are made one after the other. -/
def calls : FileSystem → List Call → Option (List Answer × FileSystem)
  | s, [] => some ([], s)
  | s, c :: cs => (s.call c).bind fun r => (calls r.2 cs).map fun q => (r.1 :: q.1, q.2)

/-- The system after a call. -/
def next (s : FileSystem) (c : Call) : Option FileSystem := (s.call c).map Prod.snd

theorem Inv.call (hs : Inv s) {c : Call} (hc : s.Permitted c) :
    ∃ r s', s.call c = some (r, s') ∧ s.store.Does c r s'.store := by
  cases c with
  | op op =>
    cases op with
    | create unset name initialSize =>
      obtain ⟨size, rfl⟩ := Int.eq_ofNat_of_zero_le hc.1.1
      exact hs.creates unset name (Int.ofNat_le.mp hc.1.2)
    | remove unset name => exact hs.removes unset name
    | openFile unset name => exact hs.opens unset name
    | writeAt unset file source numBytes position => exact hs.writes unset source hc.1 hc.2.1 hc.2.2
  | readAt unset file numBytes position =>
    obtain ⟨r, hrun, hdoes⟩ := hs.reads unset hc.1 hc.2.1 hc.2.2
    exact ⟨r, s, hrun, hdoes⟩
  | length file =>
    obtain ⟨k, hk, hcontent⟩ := hs.refers hc
    have hdoes := Store.Does.length hk hcontent
    rw [Volume.length_content, ← (hs.covers hc).toInt_numBytes] at hdoes
    exact ⟨_, s, rfl, hdoes⟩

theorem call_step {c : Call} {r : Answer} {s' : FileSystem} (h : s.call c = some (r, s')) :
    s' = s ∨ ∃ op, c = .op op ∧ s.step op = some s' := by
  cases c with
  | op op =>
    refine Or.inr ⟨op, rfl, ?_⟩
    cases op <;>
    · obtain ⟨q, hq, he⟩ := Option.map_eq_some_iff.mp h
      simp only [step, hq, Option.map_some, (Prod.mk.inj he).2]
  | readAt unset file numBytes position =>
    obtain ⟨q, -, he⟩ := Option.map_eq_some_iff.mp h
    exact Or.inl (Prod.mk.inj he).2.symm
  | length file => exact Or.inl (Prod.mk.inj (Option.some.inj h)).2.symm

theorem Inv.of_call (hs : Inv s) {c : Call} (hc : s.Permitted c) {r : Answer} {s' : FileSystem}
    (h : s.call c = some (r, s')) : Inv s' := by
  obtain rfl | ⟨op, rfl, hstep⟩ := call_step h
  · exact hs
  · obtain ⟨t, ht, hInv⟩ := Inv.step hs hc.1 hc.2
    rwa [← Option.some.inj (ht.symm.trans hstep)]

theorem Inv.calls : ∀ (cs : List Call) {s : FileSystem}, Inv s → Along next Permitted s cs →
    ∃ rs s', s.calls cs = some (rs, s') ∧ Store.Run s.store cs rs s'.store
  | [], s, _, _ => ⟨[], s, rfl, .nil _⟩
  | c :: cs, s, hs, hc => by
    obtain ⟨r, t, hcall, hdoes⟩ := hs.call hc.1
    obtain ⟨rs, s', hrun, hRun⟩ := Inv.calls cs (hs.of_call hc.1 hcall) (hc.2 t (congrArg (Option.map Prod.snd) hcall))
    refine ⟨r :: rs, s', ?_, .cons hdoes hRun⟩
    unfold FileSystem.calls
    rw [hcall, Option.bind_some, hrun]
    rfl

/-! ### A formatted disk -/

/-- The map and the directory that `FileSystem(TRUE)` writes back. -/
theorem format_eq_some {d : Disk} {unset : ℕ → ℕ → Byte} (h : format d unset = some s) : s.opened = [] ∧
    ∃ (m : Bitmap NumSectors) (d₀ d₁ : Disk), m.numClear = 1019 ∧ writeMap m d₀ s.freeMapFile (unset 3) = some d₁ ∧
      (Directory.init (unset 0)).writeBack d₁ s.directoryFile (unset 4) = some s.disk := by
  have hclear : (((Bitmap.init NumSectors).mark FreeMapSector).mark DirectorySector).numClear = 1022 := by
    decide +kernel
  obtain ⟨mapHdr, m₁, hrun₁, ht₁, hok₁, hsize₁⟩ := (FileHeader.ofBytes (unset 1)).allocate_of_le
    (m := ((Bitmap.init NumSectors).mark FreeMapSector).mark DirectorySector)
    (show FreeMapFileSize ≤ MaxFileSize by decide) (by rw [hclear]; decide)
  have hsum₁ := ht₁.numClear_eq
  rw [Volume.length_sectors hok₁, hsize₁, hclear] at hsum₁
  change m₁.numClear + 1 = 1022 at hsum₁
  have htwo : (DirectoryFileSize + (SectorSize - 1)) / SectorSize = 2 := rfl
  obtain ⟨dirHdr, m₂, hrun₂, ht₂, hok₂, hsize₂⟩ := (FileHeader.ofBytes (unset 2)).allocate_of_le (m := m₁)
    (show DirectoryFileSize ≤ MaxFileSize by decide) (by omega)
  have hsum₂ := ht₂.numClear_eq
  rw [Volume.length_sectors hok₂, hsize₂, htwo] at hsum₂
  unfold format at h
  simp only [hrun₁, hrun₂, Option.bind_eq_bind, Option.bind_some, and_self, if_true, Option.bind_eq_some_iff,
    Option.pure_def, Option.some.injEq] at h
  obtain ⟨_, -, d₀, -, mapFile, -, dirFile, -, d₁, hw₁, d₂, hw₂, rfl⟩ := h
  exact ⟨rfl, m₂, d₀, d₁, by omega, hw₁, hw₂⟩

theorem store_format {d : Disk} {unset : ℕ → ℕ → Byte} (h : format d unset = some s) (hs : Inv s) :
    s.store = Store.empty := by
  obtain ⟨hopened, m, d₀, d₁, hm, hrun₁, hrun₂⟩ := format_eq_some h
  obtain ⟨e₁, e₂, he₁, he₂, hw⟩ := hs.sound.two.writeMap_writeBack m (Directory.init (unset 0)) d₀ (unset 3) (unset 4)
  rw [hs.map_eq] at hrun₁
  rw [hs.dir_eq] at hrun₂
  obtain rfl : e₁ = d₁ := Option.some.inj (he₁.symm.trans hrun₁)
  obtain rfl : e₂ = s.disk := Option.some.inj (he₂.symm.trans hrun₂)
  -- no entry is in use
  have hu : ∀ i < NumDirEntries, (volume s.disk).directory.inUse i = false := by
    intro i hi
    have hsame : Directory.SameEntry (Directory.init (unset 0)) (volume s.disk).directory i :=
      Directory.sameEntry_of_table hw.dir_eq hi
    rw [hsame.inUse_eq, inUse_init]
  have hmap : (volume s.disk).freeMap = m := hw.map_eq
  refine Store.ext (funext fun k => ?_) (funext fun f => ?_) ?_ ?_
  · refine Volume.files_eq_none.mpr (List.find?_eq_none.mpr fun i hi => ?_)
    rw [hu i (List.mem_range.mp hi), Bool.false_and]
    exact Bool.false_ne_true
  · unfold store
    rw [Volume.refers_store, hopened]
    rfl
  · unfold store
    rw [Volume.free_store, hmap, hm]
    rfl
  · refine (List.countP_eq_length.mpr fun i hi => ?_).trans List.length_range
    rw [hu i (List.mem_range.mp hi)]
    rfl

/-- **The file system is a store of arrays of bytes by name.** From a formatted disk, calls of `Create`, `Remove`,
`Open`, `WriteAt`, `ReadAt` and `Length` in any order, on open files that still exist and from their start on, are all
possible, and their answers are those of a store that is empty at first: a call for one name leaves what the other
names hold, a file has its bytes until they are written or it is removed, and `Create` fails only for a name that is
there or for want of an entry or of sectors, all of which a removal gives back. -/
theorem files_refine_store (d : Disk) (unset : ℕ → ℕ → Byte) : ∃ s₀, format d unset = some s₀ ∧
    s₀.store = Store.empty ∧ ∀ cs, Along next Permitted s₀ cs →
      ∃ rs s, s₀.calls cs = some (rs, s) ∧ Store.Run Store.empty cs rs s.store := by
  obtain ⟨s₀, h₀, hInv⟩ := format_inv d unset
  have hempty := store_format h₀ hInv
  refine ⟨s₀, h₀, hempty, fun cs hcs => ?_⟩
  rw [← hempty]
  exact Inv.calls cs hInv hcs

/-- A file of 200 bytes is created, opened, written over the end of a sector and read, and then removed; `Create` of
the same name fails while it is there. -/
def writeAndRead : List Call :=
  [.op (.create zeros nameA 200), .op (.create zeros nameA 100), .op (.openFile zeros nameA),
    .op (.writeAt (zeros 0) fileA (fun _ => 7) 4 126), .readAt (zeros 0) fileA 6 125, .length fileA,
    .op (.remove zeros nameA), .op (.openFile zeros nameA)]

theorem files_refine_store_writeAndRead : ∃ s₀ rs s, format zeros zeros = some s₀ ∧
    s₀.calls writeAndRead = some (rs, s) ∧ Store.Run Store.empty writeAndRead rs s.store ∧
      rs = [⟨1, []⟩, ⟨0, []⟩, ⟨1, []⟩, ⟨4, []⟩, ⟨6, [0, 7, 7, 7, 7, 0]⟩, ⟨200, []⟩, ⟨1, []⟩, ⟨0, []⟩] := by
  obtain ⟨s₀, h₀, -, h⟩ := files_refine_store zeros zeros
  have hcs : ∀ s ∈ format zeros zeros, Along next Permitted s writeAndRead := by decide +kernel
  have hrs : (((format zeros zeros).bind fun s => s.calls writeAndRead).map Prod.fst) =
      some [⟨1, []⟩, ⟨0, []⟩, ⟨1, []⟩, ⟨4, []⟩, ⟨6, [0, 7, 7, 7, 7, 0]⟩, ⟨200, []⟩, ⟨1, []⟩, ⟨0, []⟩] := by
    decide +kernel
  obtain ⟨rs, s, hcalls, hrun⟩ := h _ (hcs s₀ h₀)
  rw [h₀, Option.bind_some, hcalls] at hrs
  exact ⟨s₀, rs, s, h₀, hcalls, hrun, Option.some.inj hrs⟩

end FileSystem

end OnDisk

end Nachos
