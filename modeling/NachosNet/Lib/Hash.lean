/-
# Hash tables

`HashTable` of `lib/hash.cc`: an array of lists, in one memory. `ReHash` makes four times as many
buckets and moves every element into the bucket its key has now.

A table is described by its buckets with their cells, `F` (`Holds`): the lists are legal and share
no cell (`Family`), every item is in the bucket of its key (`Placed`), and no key occurs twice.
Each operation has one lemma about `F` and its items, `content F` (`find_spec`, `insert_spec`,
`remove_spec`, `reHash_spec`); what a list does with its own cells leaves the others as they are
(`Family.replace`).

Key definitions: `HashTable.insert`, `HashTable.reHash`, `HashTable.find`, `HashTable.Holds`.
-/
import NachosNet.Lib.LinkedList

namespace Nachos

open Basis

/-- The functions that a table is made with. -/
structure KeyFunctions (κ α : Type*) where
  getKey : α → κ
  hash : κ → BitVec 32

def InitialBuckets : ℕ := 4

def ResizeRatio : ℤ := 3

def IncreaseSizeBy : ℕ := 4

/-- The array of buckets, and the number of items. -/
structure HashTable where
  buckets : List LinkedList
  numItems : ℤ

namespace HashTable

open LinkedList

variable {κ α : Type*} [DecidableEq κ] [DecidableEq α] (K : KeyFunctions κ α) (A : Allocator)

def numBuckets (t : HashTable) : ℕ := t.buckets.length

def initBuckets (sz : ℕ) : List LinkedList := List.replicate sz .init

/-- `HashTable(get, hFunc)`. -/
def init : HashTable := ⟨initBuckets InitialBuckets, 0⟩

def hashValue (t : HashTable) (key : κ) : Option ℕ :=
  let result := (K.hash key).toNat % t.numBuckets
  (assert (result < t.numBuckets)).map fun _ => result

/-- `FindInBucket`; `some none` is that there is no such item. -/
def findInBucket (m : Cells α) (t : HashTable) (bucket : ℕ) (key : κ) : Option (Option α) :=
  t.buckets[bucket]?.bind fun l => m.find (fun item => key = K.getKey item) m.rounds l.first

def find (m : Cells α) (t : HashTable) (key : κ) : Option (Option α) :=
  (hashValue K t key).bind fun bucket => findInBucket K m t bucket key

def isInTable (m : Cells α) (t : HashTable) (key : κ) : Option Bool := (find K m t key).map Option.isSome

/-- `buckets[HashValue(getKey(item))]->Append(item)`. -/
def appendTo (m : Cells α) (t : HashTable) (item : α) : Option (Cells α × HashTable) :=
  (hashValue K t (K.getKey item)).bind fun bucket =>
  t.buckets[bucket]?.bind fun l =>
  (l.append A m item).map fun r => (r.1, { t with buckets := t.buckets.set bucket r.2 })

/-- The loop of `SanityCheck` from bucket `i`; `numFound` at its end. -/
def checkBuckets (m : Cells α) (t : HashTable) : ℕ → List LinkedList → ℤ → Option ℤ
  | _, [], numFound => some numFound
  | i, l :: ls, numFound =>
    (l.sanityCheck m).bind fun _ =>
    (m.find (fun item => hashValue K t (K.getKey item) ≠ some i) m.rounds l.first).bind fun misplaced =>
    (assert (misplaced = none)).bind fun _ => checkBuckets m t (i + 1) ls (numFound + l.numInList)

def sanityCheck (m : Cells α) (t : HashTable) : Option Unit :=
  (checkBuckets K m t 0 t.buckets 0).bind fun numFound => assert (t.numItems = numFound)

/-- The inner loop of `ReHash`: the items of one list of the old table. -/
def moveItems : ℕ → Cells α → LinkedList → HashTable → Option (Cells α × HashTable)
  | 0, _, _, _ => none
  | k + 1, m, old, t =>
    if old.isEmpty then some (m, t)
    else (old.removeFront m).bind fun r =>
      (appendTo K A r.2.1 t r.1).bind fun s => moveItems k s.1 r.2.2 s.2

/-- The outer loop of `ReHash`. -/
def moveTable : List LinkedList → Cells α → HashTable → Option (Cells α × HashTable)
  | [], m, t => some (m, t)
  | old :: oldTable, m, t => (moveItems K A m.rounds m old t).bind fun s => moveTable oldTable s.1 s.2

def reHash (m : Cells α) (t : HashTable) : Option (Cells α × HashTable) :=
  (sanityCheck K m t).bind fun _ =>
  (moveTable K A t.buckets m { t with buckets := initBuckets (t.numBuckets * IncreaseSizeBy) }).bind fun s =>
  (sanityCheck K s.1 s.2).map fun _ => s

def insert (m : Cells α) (t : HashTable) (item : α) : Option (Cells α × HashTable) :=
  (isInTable K m t (K.getKey item)).bind fun found =>
  (assert (found = false)).bind fun _ =>
  (if ResizeRatio ≤ t.numItems.tdiv t.numBuckets then reHash K A m t else some (m, t)).bind fun s =>
  (appendTo K A s.1 s.2 item).bind fun s =>
  let t := { s.2 with numItems := s.2.numItems + 1 }
  (isInTable K s.1 t (K.getKey item)).bind fun found =>
  (assert (found = true)).map fun _ => (s.1, t)

/-- `Remove`; the item, the memory and the table. -/
def remove (m : Cells α) (t : HashTable) (key : κ) : Option (α × Cells α × HashTable) :=
  (hashValue K t key).bind fun bucket =>
  (findInBucket K m t bucket key).bind fun found =>
  -- `ASSERT(found)`
  found.bind fun item =>
  t.buckets[bucket]?.bind fun l =>
  (l.remove m item).bind fun r =>
  let t := ⟨t.buckets.set bucket r.2, t.numItems - 1⟩
  (isInTable K r.1 t key).bind fun found =>
  (assert (found = false)).map fun _ => (item, r.1, t)

end HashTable

/-! ### Lists in one memory -/

section

variable {α : Type*} {m m' : Cells α} {l l' : LinkedList} {L L' : List (Ref × α)}
  {F F' G : List (LinkedList × List (Ref × α))}

/-- Legal lists, with their cells, that have no cell in common. -/
structure Family (m : Cells α) (F : List (LinkedList × List (Ref × α))) : Prop where
  legal : ∀ b ∈ F, b.1.Legal m b.2
  apart : F.Pairwise fun b c => (b.2.map Prod.fst).Disjoint (c.2.map Prod.fst)

theorem Family.perm (h : Family m F) (hp : F.Perm F') : Family m F' :=
  ⟨fun b hb => h.legal b (hp.mem_iff.mpr hb), (hp.pairwise_iff fun hd => hd.symm).mp h.apart⟩

theorem Family.tail (h : Family m ((l, L) :: F)) : Family m F :=
  ⟨fun b hb => h.legal b (List.mem_cons_of_mem _ hb), (List.pairwise_cons.mp h.apart).2⟩

theorem Family.head (h : Family m ((l, L) :: F)) : l.Legal m L := h.legal _ List.mem_cons_self

/-- One of the lists changes; the others are as they were. -/
theorem Family.replace (h : Family m ((l, L) :: F)) (hl : l'.Legal m' L') (hk : Keeps m m' L L') :
    Family m' ((l', L') :: F) := by
  obtain ⟨hapart, hF⟩ := List.pairwise_cons.mp h.apart
  refine ⟨fun b hb => ?_, List.pairwise_cons.mpr ⟨fun b hb => ?_, hF⟩⟩
  · rcases List.mem_cons.mp hb with rfl | hb
    · exact hl
    · have hlegal := h.legal b (List.mem_cons_of_mem _ hb)
      exact ⟨hk.seg hlegal.seg (hapart b hb), hlegal.last, hlegal.num⟩
  · exact hk.disjoint (h.legal b (List.mem_cons_of_mem _ hb)).seg (hapart b hb)

theorem Family.replace_mid (h : Family m (G ++ (l, L) :: F)) (hl : l'.Legal m' L') (hk : Keeps m m' L L') :
    Family m' (G ++ (l', L') :: F) :=
  ((h.perm List.perm_middle).replace hl hk).perm List.perm_middle.symm

theorem Family.append_init (h : Family m F) (n : ℕ) : Family m (F ++ List.replicate n (.init, [])) := by
  refine ⟨fun b hb => ?_, List.pairwise_append.mpr ⟨h.apart, ?_, fun b _ c hc => ?_⟩⟩
  · rcases List.mem_append.mp hb with hb | hb
    · exact h.legal b hb
    · rw [List.eq_of_mem_replicate hb]
      exact LinkedList.legal_init m
  · exact List.pairwise_replicate.mpr (.inr (by simp))
  · rw [List.eq_of_mem_replicate hc]
    simp

/-- The items of the lists. -/
def content (F : List (LinkedList × List (Ref × α))) : List α := F.flatMap fun b => b.2.map Prod.snd

@[simp] theorem content_nil : content ([] : List (LinkedList × List (Ref × α))) = [] := rfl

@[simp] theorem content_cons (b : LinkedList × List (Ref × α)) (F : List (LinkedList × List (Ref × α))) :
    content (b :: F) = b.2.map Prod.snd ++ content F := List.flatMap_cons

@[simp] theorem content_append : content (F ++ G) = content F ++ content G := List.flatMap_append

theorem mem_content_mid {item : α} (h : item ∈ L.map Prod.snd) : item ∈ content (F ++ (l, L) :: G) := by
  rw [content_append, content_cons]
  exact List.mem_append_right _ (List.mem_append_left _ h)

theorem content_init (n : ℕ) : content (List.replicate n (LinkedList.init, ([] : List (Ref × α)))) = [] := by
  unfold content
  rw [List.flatMap_replicate]
  simp

theorem Family.length_lt_rounds (h : Family m F) : (content F).length < m.rounds := by
  have hnd : (F.flatMap fun b => b.2.map Prod.fst).Nodup :=
    List.nodup_flatMap.mpr ⟨fun b hb => (h.legal b hb).seg.nodup, h.apart⟩
  have hsub : (F.flatMap fun b => b.2.map Prod.fst).toFinset ⊆ m.live := by
    intro r hr
    obtain ⟨b, hb, hr⟩ := List.mem_flatMap.mp (List.mem_toFinset.mp hr)
    exact (h.legal b hb).seg.live hr
  have hcard := Finset.card_le_card hsub
  rw [List.toFinset_card_of_nodup hnd] at hcard
  simp only [content, List.length_flatMap, List.length_map] at hcard ⊢
  exact Nat.lt_succ_of_le hcard

end

namespace HashTable

open LinkedList

/-! ### Tables -/

variable {κ α : Type*} {K : KeyFunctions κ α} {m : Cells α} {t : HashTable}
  {F G : List (LinkedList × List (Ref × α))} {item : α} {key : κ}

/-- The bucket of a key among `n`. -/
def bucketOf (K : KeyFunctions κ α) (n : ℕ) (key : κ) : ℕ := (K.hash key).toNat % n

/-- Every item is in the bucket of its key. -/
structure Placed (K : KeyFunctions κ α) (F : List (LinkedList × List (Ref × α))) : Prop where
  pos : 0 < F.length
  index : ∀ i b, F[i]? = some b → ∀ item ∈ b.2.map Prod.snd, bucketOf K F.length (K.getKey item) = i

/-- The table has the buckets `F`. -/
structure Holds (K : KeyFunctions κ α) (m : Cells α) (t : HashTable) (F : List (LinkedList × List (Ref × α))) :
    Prop where
  buckets : t.buckets = F.map Prod.fst
  family : Family m F
  placed : Placed K F
  keys : ((content F).map K.getKey).Nodup
  num : t.numItems = (content F).length

theorem bucketOf_lt (K : KeyFunctions κ α) {n : ℕ} (h : 0 < n) (key : κ) : bucketOf K n key < n := Nat.mod_lt _ h

theorem placed_init (K : KeyFunctions κ α) {n : ℕ} (h : 0 < n) : Placed K (List.replicate n (LinkedList.init, [])) := by
  refine ⟨by simpa using h, fun i b hb item hitem => ?_⟩
  rw [List.eq_of_mem_replicate (List.mem_of_getElem? hb)] at hitem
  simp at hitem

theorem holds_init (K : KeyFunctions κ α) (m : Cells α) :
    Holds K m init (List.replicate InitialBuckets (LinkedList.init, [])) := by
  refine ⟨by simp [init, initBuckets], ?_, placed_init K (by decide), ?_, ?_⟩
  · simpa using (⟨by simp, .nil⟩ : Family m []).append_init InitialBuckets
  · rw [content_init]
    exact List.nodup_nil
  · rw [content_init]
    rfl

theorem hashValue_eq (hb : t.buckets = F.map Prod.fst) (hp : 0 < F.length) (key : κ) :
    hashValue K t key = some (bucketOf K F.length key) := by
  have hlen : t.numBuckets = F.length := by rw [numBuckets, hb, List.length_map]
  have hlt : (K.hash key).toNat % F.length < F.length := Nat.mod_lt _ hp
  simp only [hashValue, hlen, assert_eq hlt, Option.map_some]
  rfl

theorem exists_bucket (hp : 0 < F.length) (key : κ) : ∃ F₁ l L F₂, F = F₁ ++ (l, L) :: F₂ ∧
    F₁.length = bucketOf K F.length key := by
  have hlt := bucketOf_lt K hp key
  refine ⟨F.take (bucketOf K F.length key), F[bucketOf K F.length key].1, F[bucketOf K F.length key].2,
    F.drop (bucketOf K F.length key + 1), ?_, List.length_take_of_le hlt.le⟩
  exact (List.take_append_drop _ F).symm.trans (congrArg _ (List.drop_eq_getElem_cons hlt))

theorem getElem?_bucket {F₁ F₂ : List (LinkedList × List (Ref × α))} {l : LinkedList} {L : List (Ref × α)}
    (hb : t.buckets = (F₁ ++ (l, L) :: F₂).map Prod.fst) : t.buckets[F₁.length]? = some l := by
  rw [hb, List.map_append, List.map_cons, List.getElem?_append_right (by simp)]
  simp

theorem set_bucket {F₁ F₂ : List (LinkedList × List (Ref × α))} {l l' : LinkedList} {L L' : List (Ref × α)}
    (hb : t.buckets = (F₁ ++ (l, L) :: F₂).map Prod.fst) :
    t.buckets.set F₁.length l' = (F₁ ++ (l', L') :: F₂).map Prod.fst := by
  rw [hb, List.map_append, List.map_append, List.set_append]
  simp

/-- A bucket changes to items that belong there. -/
theorem Placed.replace {F₁ F₂ : List (LinkedList × List (Ref × α))} {l l' : LinkedList} {L L' : List (Ref × α)}
    (h : Placed K (F₁ ++ (l, L) :: F₂))
    (hL : ∀ item ∈ L'.map Prod.snd, bucketOf K (F₁ ++ (l, L) :: F₂).length (K.getKey item) = F₁.length) :
    Placed K (F₁ ++ (l', L') :: F₂) := by
  have hlen : (F₁ ++ (l', L') :: F₂).length = (F₁ ++ (l, L) :: F₂).length := by simp
  refine ⟨hlen ▸ h.pos, fun i b hb item hitem => ?_⟩
  rw [hlen]
  by_cases hi : i = F₁.length
  · subst hi
    rw [List.getElem?_append_right le_rfl] at hb
    obtain rfl : (l', L') = b := by simpa using hb
    exact hL item hitem
  · refine h.index i b ?_ item hitem
    rcases Nat.lt_or_gt_of_ne hi with hlt | hgt
    · rwa [List.getElem?_append_left hlt] at hb ⊢
    · rw [List.getElem?_append_right hgt.le] at hb ⊢
      obtain ⟨j, hj⟩ : ∃ j, i - F₁.length = j + 1 := ⟨i - F₁.length - 1, by omega⟩
      rwa [hj, List.getElem?_cons_succ] at hb ⊢

theorem Placed.mem_bucket {F₁ F₂ : List (LinkedList × List (Ref × α))} {l : LinkedList} {L : List (Ref × α)}
    (h : Placed K (F₁ ++ (l, L) :: F₂)) (hitem : item ∈ content (F₁ ++ (l, L) :: F₂))
    (hi : bucketOf K (F₁ ++ (l, L) :: F₂).length (K.getKey item) = F₁.length) : item ∈ L.map Prod.snd := by
  obtain ⟨b, hb, hitem⟩ := List.mem_flatMap.mp hitem
  obtain ⟨i, hib⟩ := List.mem_iff_getElem?.mp hb
  have hplace := h.index i b hib item hitem
  rw [hi] at hplace
  subst hplace
  rw [List.getElem?_append_right le_rfl] at hib
  obtain rfl : (l, L) = b := by simpa using hib
  exact hitem

/-! ### `SanityCheck` -/

theorem checkBuckets_spec (hb : t.buckets = F.map Prod.fst) (hf : Family m F) (hp : Placed K F) :
    ∀ (F₂ F₁ : List (LinkedList × List (Ref × α))) (n : ℤ), F = F₁ ++ F₂ →
      checkBuckets K m t F₁.length (F₂.map Prod.fst) n = some (n + (content F₂).length)
  | [], F₁, n, _ => by simp [checkBuckets]
  | (l, L) :: F₂, F₁, n, hF => by
    have hl : l.Legal m L := hf.legal (l, L) (by simp [hF])
    have hplaced : (L.map Prod.snd).find? (fun item => hashValue K t (K.getKey item) ≠ some F₁.length) = none := by
      refine List.find?_eq_none.mpr fun item hitem => ?_
      have hi := hp.index F₁.length (l, L) (by simp [hF]) item hitem
      simp [hashValue_eq hb hp.pos, hi]
    rw [List.map_cons, checkBuckets, sanityCheck_legal hl, Option.bind_some,
      find_seg _ hl.seg hl.seg.length_lt_rounds, hplaced, Option.bind_some, assert_eq rfl, Option.bind_some]
    have hrest := checkBuckets_spec hb hf hp F₂ (F₁ ++ [(l, L)]) (n + l.numInList) (by simp [hF])
    rw [List.length_append, List.length_singleton] at hrest
    rw [hrest, hl.num]
    simp only [content_cons, List.length_append, List.length_map, Option.some.injEq]
    omega

theorem sanityCheck_spec (h : Holds K m t F) : sanityCheck K m t = some () := by
  have hcheck := checkBuckets_spec h.buckets h.family h.placed F [] 0 rfl
  rw [List.length_nil, ← h.buckets, zero_add] at hcheck
  rw [sanityCheck, hcheck, Option.bind_some]
  exact assert_eq h.num

/-! ### `ReHash` -/

section

variable [DecidableEq α]

/-- The table has the buckets `F`, whatever its count; `G` are other lists in the memory. -/
structure Filled (K : KeyFunctions κ α) (m : Cells α) (t : HashTable) (G F : List (LinkedList × List (Ref × α))) :
    Prop where
  buckets : t.buckets = F.map Prod.fst
  family : Family m (G ++ F)
  placed : Placed K F

theorem appendTo_spec (A : Allocator) (h : Filled K m t G F) (hnew : item ∉ content F) :
    ∃ m' t' F', appendTo K A m t item = some (m', t') ∧ Filled K m' t' G F' ∧ t'.numItems = t.numItems ∧
      (content F').Perm (item :: content F) := by
  obtain ⟨hb, hf, hp⟩ := h
  obtain ⟨F₁, l, L, F₂, rfl, hlen⟩ := exists_bucket (K := K) hp.pos (K.getKey item)
  have hl : l.Legal m L := hf.legal (l, L) (by simp)
  have hnot : item ∉ L.map Prod.snd := fun hL => hnew (mem_content_mid hL)
  obtain ⟨m', l', happ, hl', hk⟩ := append_legal A hl hnot
  rw [← List.append_assoc] at hf
  refine ⟨m', { t with buckets := t.buckets.set F₁.length l' }, F₁ ++ (l', L ++ [(m.newRef A, item)]) :: F₂, ?_,
    ⟨set_bucket hb, ?_, hp.replace fun x hx => ?_⟩, rfl, ?_⟩
  · rw [appendTo, hashValue_eq hb hp.pos, Option.bind_some, ← hlen, getElem?_bucket hb, Option.bind_some, happ,
      Option.map_some]
  · rw [← List.append_assoc]
    exact hf.replace_mid hl' hk
  · rw [List.map_append, List.mem_append] at hx
    rcases hx with hx | hx
    · exact hp.index F₁.length (l, L) (by simp) x hx
    · obtain rfl : x = item := by simpa using hx
      exact hlen.symm
  · simp only [content_append, content_cons, List.map_append, List.map_singleton]
    have hsplit : content F₁ ++ (L.map Prod.snd ++ [item] ++ content F₂) =
        (content F₁ ++ L.map Prod.snd) ++ item :: content F₂ := by simp
    rw [hsplit, ← List.append_assoc (content F₁)]
    exact List.perm_middle

theorem moveItems_spec (A : Allocator) : ∀ {L : List (Ref × α)} {k : ℕ} {m : Cells α} {old : LinkedList} {t : HashTable}
    {F : List (LinkedList × List (Ref × α))}, Filled K m t ((old, L) :: G) F →
    (L.map Prod.snd ++ content F).Nodup → L.length < k →
    ∃ m' t' F', moveItems K A k m old t = some (m', t') ∧ Filled K m' t' G F' ∧ t'.numItems = t.numItems ∧
      (content F').Perm (L.map Prod.snd ++ content F)
  | [], k + 1, m, old, t, F, h, _, _ => by
    rw [moveItems, if_pos (h.family.head.isEmpty_iff.mpr rfl)]
    exact ⟨m, t, F, rfl, ⟨h.buckets, h.family.tail, h.placed⟩, rfl, .refl _⟩
  | (r, item) :: L, k + 1, m, old, t, F, h, hnd, hk => by
    have hold := h.family.head
    obtain ⟨m₁, old₁, hrem, hold₁, hkeep⟩ := removeFront_legal hold
    have h₁ : Filled K m₁ t ((old₁, L) :: G) F := ⟨h.buckets, h.family.replace hold₁ hkeep, h.placed⟩
    obtain ⟨hnot, hnd₁⟩ := List.nodup_cons.mp hnd
    obtain ⟨m₂, t₂, F₂, happ, h₂, hnum₂, hperm₂⟩ :=
      appendTo_spec A h₁ fun hmem => hnot (List.mem_append_right _ hmem)
    -- the items that are left and those in the table are as before
    have hmove : (L.map Prod.snd ++ content F₂).Perm (item :: (L.map Prod.snd ++ content F)) :=
      (hperm₂.append_left _).trans List.perm_middle
    have hnd₂ := hmove.nodup_iff.mpr (List.nodup_cons.mpr ⟨hnot, hnd₁⟩)
    obtain ⟨m', t', F', hmoved, h', hnum', hperm'⟩ := moveItems_spec A h₂ hnd₂ (Nat.lt_of_succ_lt_succ hk)
    refine ⟨m', t', F', ?_, h', hnum'.trans hnum₂, hperm'.trans hmove⟩
    rw [moveItems, if_neg (mt hold.isEmpty_iff.mp (List.cons_ne_nil _ _)), hrem, Option.bind_some, happ,
      Option.bind_some, hmoved]

theorem moveTable_spec (A : Allocator) : ∀ {G : List (LinkedList × List (Ref × α))} {m : Cells α} {t : HashTable}
    {F : List (LinkedList × List (Ref × α))}, Filled K m t G F → (content G ++ content F).Nodup →
    ∃ m' t' F', moveTable K A (G.map Prod.fst) m t = some (m', t') ∧ Filled K m' t' [] F' ∧
      t'.numItems = t.numItems ∧ (content F').Perm (content G ++ content F)
  | [], m, t, F, h, _ => ⟨m, t, F, rfl, h, rfl, .refl _⟩
  | (old, L) :: G, m, t, F, h, hnd => by
    rw [content_cons, List.append_assoc] at hnd
    have hnd₁ : (L.map Prod.snd ++ content F).Nodup :=
      hnd.sublist (List.Sublist.append (.refl _) (List.sublist_append_right ..))
    have hold : old.Legal m L := h.family.head
    obtain ⟨m₁, t₁, F₁, hmove, h₁, hnum₁, hperm₁⟩ := moveItems_spec A h hnd₁ hold.seg.length_lt_rounds
    have hrest : (content G ++ content F₁).Perm (L.map Prod.snd ++ (content G ++ content F)) := by
      refine (hperm₁.append_left _).trans ?_
      rw [← List.append_assoc, ← List.append_assoc]
      exact List.perm_append_comm.append_right _
    obtain ⟨m', t', F', hmoved, h', hnum', hperm'⟩ := moveTable_spec A h₁ (hrest.nodup_iff.mpr hnd)
    refine ⟨m', t', F', ?_, h', hnum'.trans hnum₁, hperm'.trans ?_⟩
    · rw [List.map_cons, moveTable, hmove, Option.bind_some, hmoved]
    · rw [content_cons, List.append_assoc]
      exact hrest

theorem reHash_spec (A : Allocator) (h : Holds K m t F) : ∃ m' t' F', reHash K A m t = some (m', t') ∧
    Holds K m' t' F' ∧ (content F').Perm (content F) := by
  have hn : 0 < t.numBuckets * IncreaseSizeBy := by
    have hpos := h.placed.pos
    rw [numBuckets, h.buckets, List.length_map]
    unfold IncreaseSizeBy
    omega
  have hnd : (content F ++ content (List.replicate (t.numBuckets * IncreaseSizeBy)
      (LinkedList.init, ([] : List (Ref × α))))).Nodup := by
    rw [content_init, List.append_nil]
    exact h.keys.of_map _
  have hnew : Filled K m { t with buckets := initBuckets (t.numBuckets * IncreaseSizeBy) } F
      (List.replicate (t.numBuckets * IncreaseSizeBy) (LinkedList.init, [])) :=
    ⟨by simp [initBuckets], h.family.append_init _, placed_init K hn⟩
  obtain ⟨m', t', F', hmove, h', hnum', hperm⟩ := moveTable_spec A hnew hnd
  rw [content_init, List.append_nil] at hperm
  have hholds : Holds K m' t' F' := by
    refine ⟨h'.buckets, h'.family, h'.placed, (hperm.map _).nodup_iff.mpr h.keys, ?_⟩
    rw [hnum', hperm.length_eq]
    exact h.num
  refine ⟨m', t', F', ?_, hholds, hperm⟩
  rw [reHash, sanityCheck_spec h, Option.bind_some, h.buckets, hmove, Option.bind_some, sanityCheck_spec hholds,
    Option.map_some]

end

/-! ### `Find` -/

variable [DecidableEq κ]

theorem findInBucket_eq {F₁ F₂ : List (LinkedList × List (Ref × α))} {l : LinkedList} {L : List (Ref × α)}
    (hb : t.buckets = (F₁ ++ (l, L) :: F₂).map Prod.fst) (hl : l.Legal m L) (key : κ) :
    findInBucket K m t F₁.length key = some ((L.map Prod.snd).find? fun item => key = K.getKey item) := by
  rw [findInBucket, getElem?_bucket hb, Option.bind_some, find_seg _ hl.seg hl.seg.length_lt_rounds]

theorem find_spec (h : Holds K m t F) (key : κ) : ∃ o, find K m t key = some o ∧
    ∀ item, o = some item ↔ item ∈ content F ∧ K.getKey item = key := by
  obtain ⟨F₁, l, L, F₂, rfl, hlen⟩ := exists_bucket (K := K) h.placed.pos key
  have hl : l.Legal m L := h.family.legal (l, L) (by simp)
  refine ⟨(L.map Prod.snd).find? fun item => key = K.getKey item, ?_, fun item => ?_⟩
  · rw [find, hashValue_eq h.buckets h.placed.pos, Option.bind_some, ← hlen]
    exact findInBucket_eq h.buckets hl key
  · constructor
    · intro ho
      have hmem := List.mem_of_find?_eq_some ho
      exact ⟨mem_content_mid hmem, (by simpa using List.find?_some ho : key = K.getKey item).symm⟩
    · rintro ⟨hitem, rfl⟩
      have hmem := h.placed.mem_bucket hitem hlen.symm
      obtain ⟨x, hx⟩ : ∃ x, (L.map Prod.snd).find? (fun y => K.getKey item = K.getKey y) = some x :=
        Option.isSome_iff_exists.mp (List.find?_isSome.mpr ⟨item, hmem, by simp⟩)
      have hxmem : x ∈ content (F₁ ++ (l, L) :: F₂) := mem_content_mid (List.mem_of_find?_eq_some hx)
      have hkey : K.getKey item = K.getKey x := by simpa using List.find?_some hx
      rw [hx, List.inj_on_of_nodup_map h.keys hitem hxmem hkey]

theorem isInTable_eq (h : Holds K m t F) (key : κ) :
    isInTable K m t key = some (decide (key ∈ (content F).map K.getKey)) := by
  obtain ⟨o, ho, hiff⟩ := find_spec h key
  rw [isInTable, ho, Option.map_some, Option.some.injEq, Bool.eq_iff_iff, decide_eq_true_iff, Option.isSome_iff_exists,
    List.mem_map]
  exact exists_congr hiff

/-! ### `Insert` and `Remove` -/

variable [DecidableEq α]

theorem insert_spec (A : Allocator) (h : Holds K m t F) (hnew : K.getKey item ∉ (content F).map K.getKey) :
    ∃ m' t' F', insert K A m t item = some (m', t') ∧ Holds K m' t' F' ∧ (content F').Perm (item :: content F) := by
  obtain ⟨m₁, t₁, F₁, hre, h₁, hperm₁⟩ : ∃ m₁ t₁ F₁,
      (if ResizeRatio ≤ t.numItems.tdiv t.numBuckets then reHash K A m t else some (m, t)) = some (m₁, t₁) ∧
        Holds K m₁ t₁ F₁ ∧ (content F₁).Perm (content F) := by
    by_cases hfull : ResizeRatio ≤ t.numItems.tdiv t.numBuckets
    · rw [if_pos hfull]
      exact reHash_spec A h
    · rw [if_neg hfull]
      exact ⟨m, t, F, rfl, h, .refl _⟩
  have hnew₁ : item ∉ content F₁ := fun hmem => hnew (List.mem_map_of_mem (hperm₁.mem_iff.mp hmem))
  obtain ⟨m', t', F', happ, h', hnum', hperm'⟩ :=
    appendTo_spec (G := []) A ⟨h₁.buckets, h₁.family, h₁.placed⟩ hnew₁
  have hperm := hperm'.trans (hperm₁.cons item)
  have hholds : Holds K m' { t' with numItems := t'.numItems + 1 } F' := by
    refine ⟨h'.buckets, h'.family, h'.placed, ?_, ?_⟩
    · rw [(hperm.map K.getKey).nodup_iff, List.map_cons, List.nodup_cons]
      exact ⟨hnew, h.keys⟩
    · rw [hperm'.length_eq, List.length_cons, hnum', h₁.num]
      rfl
  have hin : K.getKey item ∈ (content F').map K.getKey :=
    List.mem_map_of_mem (hperm.mem_iff.mpr List.mem_cons_self)
  refine ⟨m', { t' with numItems := t'.numItems + 1 }, F', ?_, hholds, hperm⟩
  simp only [insert, isInTable_eq h, Option.bind_some, assert_eq (decide_eq_false hnew), hre, happ,
    isInTable_eq hholds, assert_eq (decide_eq_true hin), Option.map_some]

theorem remove_spec (h : Holds K m t F) (hitem : item ∈ content F) :
    ∃ m' t' F', remove K m t (K.getKey item) = some (item, m', t') ∧ Holds K m' t' F' ∧
      (content F).Perm (item :: content F') := by
  obtain ⟨F₁, l, L, F₂, rfl, hlen⟩ := exists_bucket (K := K) h.placed.pos (K.getKey item)
  have hl : l.Legal m L := h.family.legal (l, L) (by simp)
  have hmem := h.placed.mem_bucket hitem hlen.symm
  have hfind : (L.map Prod.snd).find? (fun x => K.getKey item = K.getKey x) = some item := by
    obtain ⟨o, ho, hiff⟩ := find_spec h (K.getKey item)
    rw [find, hashValue_eq h.buckets h.placed.pos, Option.bind_some, ← hlen, findInBucket_eq h.buckets hl] at ho
    rw [Option.some.inj ho]
    exact (hiff item).mpr ⟨hitem, rfl⟩
  have hndall : (content (F₁ ++ (l, L) :: F₂)).Nodup := h.keys.of_map _
  have hnd : (L.map Prod.snd).Nodup := by
    rw [content_append, content_cons] at hndall
    exact hndall.sublist ((List.sublist_append_left ..).trans (List.sublist_append_right ..))
  obtain ⟨m', l', hrem, hl', hk⟩ := remove_legal hl hmem hnd
  have hperm : (content (F₁ ++ (l, L) :: F₂)).Perm (item :: content (F₁ ++ (l', without item L) :: F₂)) := by
    simp only [content_append, content_cons, map_without]
    refine (((List.perm_cons_erase hmem).append_right _).append_left _).trans ?_
    exact List.perm_middle
  have hkeys := (hperm.map K.getKey).nodup_iff.mp h.keys
  rw [List.map_cons, List.nodup_cons] at hkeys
  have hholds : Holds K m' ⟨t.buckets.set F₁.length l', t.numItems - 1⟩ (F₁ ++ (l', without item L) :: F₂) := by
    refine ⟨set_bucket h.buckets, h.family.replace_mid hl' hk, h.placed.replace fun x hx => ?_, hkeys.2, ?_⟩
    · rw [map_without] at hx
      exact h.placed.index F₁.length (l, L) (by simp) x (List.mem_of_mem_erase hx)
    · have hnum := h.num
      rw [hperm.length_eq, List.length_cons] at hnum
      exact sub_eq_of_eq_add hnum
  refine ⟨m', _, _, ?_, hholds, hperm⟩
  simp only [remove, hashValue_eq h.buckets h.placed.pos, Option.bind_some, ← hlen, findInBucket_eq h.buckets hl, hfind,
    getElem?_bucket h.buckets, hrem, isInTable_eq hholds, assert_eq (decide_eq_false hkeys.1), Option.map_some]

end HashTable

end Nachos
