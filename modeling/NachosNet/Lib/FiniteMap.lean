/-
# A hash table is a finite map

`HashIterator` of `lib/hash.cc`, and what a table is for: a map from keys to the items that were
put in and not taken out since. Every run on maps is a run on tables in memory, through any number
of `ReHash` calls (`map_run_refines`), and the iterator visits the items of the table
(`visited_eq`).

Key definitions: `HashIterator`, `HashTable.visited`, `Dict.step`, `HashState.step`.
-/
import NachosNet.Basis.Run
import NachosNet.Lib.Hash

namespace Nachos

open Basis

/-- The bucket, and `bucketIter` with its `current`. -/
structure HashIterator where
  bucket : ℕ
  bucketIter : Option (Option Ref)

namespace HashTable

open LinkedList

variable {κ α : Type*}

/-- The loop of `FindNextFullBucket`, over the buckets from `bucket` on. -/
def nextFull : List LinkedList → ℕ → ℕ
  | [], bucket => bucket
  | l :: ls, bucket => if l.isEmpty then nextFull ls (bucket + 1) else bucket

def findNextFullBucket (t : HashTable) (bucket : ℕ) : ℕ := nextFull (t.buckets.drop bucket) bucket

/-- The iterator with the next bucket that has an item, if there is one. -/
def iterFrom (t : HashTable) (bucket : ℕ) : HashIterator :=
  ⟨t.findNextFullBucket bucket, t.buckets[t.findNextFullBucket bucket]?.map LinkedList.first⟩

def iterator (t : HashTable) : HashIterator := t.iterFrom 0

def isDone (t : HashTable) (it : HashIterator) : Bool := it.bucket = t.numBuckets

def item (m : Cells α) (t : HashTable) (it : HashIterator) : Option α :=
  (assert (t.isDone it = false)).bind fun _ =>
  it.bucketIter.bind fun current => (m.get current).map Cell.item

def next (m : Cells α) (t : HashTable) (it : HashIterator) : Option HashIterator :=
  it.bucketIter.bind fun current => (m.get current).map fun c =>
    if c.next = none then t.iterFrom (it.bucket + 1) else ⟨it.bucket, some c.next⟩

/-- The items of the loop `for (; !iter.IsDone(); iter.Next())`. -/
def visited (m : Cells α) (t : HashTable) : ℕ → HashIterator → Option (List α)
  | 0, _ => none
  | k + 1, it =>
    if t.isDone it then some []
    else (item m t it).bind fun x => (next m t it).bind fun it => (visited m t k it).map fun xs => x :: xs

variable {K : KeyFunctions κ α} {m : Cells α} {t : HashTable} {F : List (LinkedList × List (Ref × α))}

theorem visited_in {b : ℕ} {rest : List α} (hb : b < t.numBuckets)
    (hnext : ∀ k, rest.length < k → visited m t k (t.iterFrom (b + 1)) = some rest) :
    ∀ {L : List (Ref × α)} {p : Option Ref} {k : ℕ}, Seg m p L none → L ≠ [] → (L.map Prod.snd ++ rest).length < k →
      visited m t k ⟨b, some p⟩ = some (L.map Prod.snd ++ rest)
  | (r, x) :: L, p, k + 1, h, _, hk => by
    obtain ⟨rfl, q, hr, hL⟩ := seg_cons.mp h
    have hdone : t.isDone ⟨b, some (some r)⟩ = false := decide_eq_false hb.ne
    have hlen : (L.map Prod.snd ++ rest).length < k := Nat.lt_of_succ_lt_succ hk
    rw [visited, hdone, if_neg (by decide), item, assert_eq hdone, Option.bind_some, Option.bind_some, Cells.get_some,
      hr, Option.map_some, Option.bind_some, next, Option.bind_some, Cells.get_some, hr, Option.map_some,
      Option.bind_some]
    by_cases hq : q = none
    · subst hq
      obtain rfl : L = [] := Seg.unique hL (seg_nil.mpr rfl)
      rw [if_pos rfl, hnext k (by simpa using hlen)]
      rfl
    · have hne : L ≠ [] := by
        rintro rfl
        exact hq (seg_nil.mp hL)
      rw [if_neg hq, visited_in hb hnext hL hne hlen]
      rfl

theorem visited_from (hb : t.buckets = F.map Prod.fst) (hf : Family m F) :
    ∀ (F₂ F₁ : List (LinkedList × List (Ref × α))) {k : ℕ}, F = F₁ ++ F₂ → (content F₂).length < k →
      visited m t k (t.iterFrom F₁.length) = some (content F₂)
  | [], F₁, k + 1, hF, _ => by
    have hlen : t.numBuckets = F₁.length := by rw [numBuckets, hb, List.length_map, hF, List.append_nil]
    have hfull : t.findNextFullBucket F₁.length = F₁.length := by
      rw [findNextFullBucket, List.drop_of_length_le (Nat.le_of_eq hlen)]
      rfl
    have hdone : t.isDone (t.iterFrom F₁.length) = true := decide_eq_true (hfull.trans hlen.symm)
    rw [visited, if_pos hdone]
    rfl
  | (l, L) :: F₂, F₁, k, hF, hk => by
    have hl : l.Legal m L := hf.legal (l, L) (by simp [hF])
    have hdrop : t.buckets.drop F₁.length = l :: F₂.map Prod.fst := by rw [hb, hF]; simp
    have hnext : ∀ k, (content F₂).length < k → visited m t k (t.iterFrom (F₁.length + 1)) = some (content F₂) := by
      intro k hk
      have hrest := visited_from hb hf F₂ (F₁ ++ [(l, L)]) (by simp [hF]) hk
      rwa [List.length_append] at hrest
    by_cases hL : L = []
    · -- an empty bucket is skipped
      subst hL
      have hskip : t.findNextFullBucket F₁.length = t.findNextFullBucket (F₁.length + 1) := by
        have hdrop' : t.buckets.drop (F₁.length + 1) = F₂.map Prod.fst := by
          rw [← List.drop_drop, hdrop]
          rfl
        rw [findNextFullBucket, hdrop, nextFull, if_pos (hl.isEmpty_iff.mpr rfl), findNextFullBucket, hdrop']
      rw [iterFrom, hskip]
      exact hnext k hk
    · have hfull : t.findNextFullBucket F₁.length = F₁.length := by
        rw [findNextFullBucket, hdrop, nextFull, if_neg (mt hl.isEmpty_iff.mp hL)]
      have hlt : F₁.length < t.numBuckets := by
        rw [numBuckets, hb, hF]
        simp
      rw [iterFrom, hfull, getElem?_bucket (hF ▸ hb), Option.map_some]
      exact visited_in hlt hnext hl.seg hL hk

theorem visited_eq (h : Holds K m t F) {k : ℕ} (hk : (content F).length < k) :
    visited m t k t.iterator = some (content F) :=
  visited_from h.buckets h.family F [] rfl hk

end HashTable

/-! ### Runs -/

inductive HashEvent (κ α : Type*)
  | insert (item : α)
  | remove (key : κ)

/-- A map, and what `Remove` has returned. -/
structure Dict (κ α : Type*) where
  map : κ → Option α
  out : List α

/-- A table in memory, and what `Remove` has returned. -/
structure HashState (α : Type*) where
  mem : Cells α
  table : HashTable
  out : List α

variable {κ α : Type*}

def Dict.empty : Dict κ α := ⟨fun _ => none, []⟩

def HashState.init (m : Cells α) : HashState α := ⟨m, .init, []⟩

/-- The map has the items of a list, each under its key. -/
def MapOf (K : KeyFunctions κ α) (map : κ → Option α) (items : List α) : Prop :=
  ∀ key item, map key = some item ↔ item ∈ items ∧ K.getKey item = key

structure HasMap (K : KeyFunctions κ α) (s : HashState α) (a : Dict κ α) : Prop where
  holds : ∃ F, HashTable.Holds K s.mem s.table F ∧ MapOf K a.map (content F)
  out : s.out = a.out

variable [DecidableEq κ]

/-- A call on a map: a key that is inserted is new, one that is removed is there. -/
def Dict.step (K : KeyFunctions κ α) (a : Dict κ α) : HashEvent κ α → Option (Dict κ α)
  | .insert item =>
    if a.map (K.getKey item) = none then some ⟨Function.update a.map (K.getKey item) (some item), a.out⟩ else none
  | .remove key => (a.map key).map fun item => ⟨Function.update a.map key none, a.out ++ [item]⟩

/-- The item was inserted, and its key not removed since. -/
def InsertedSince (K : KeyFunctions κ α) (es : List (HashEvent κ α)) (key : κ) (item : α) : Prop :=
  K.getKey item = key ∧ Since (· = .insert item) (· = .remove key) es

section

variable {K : KeyFunctions κ α} {map : κ → Option α} {items items' : List α} {item : α}

theorem MapOf.insert (h : MapOf K map items) (hnew : K.getKey item ∉ items.map K.getKey)
    (hp : items'.Perm (item :: items)) : MapOf K (Function.update map (K.getKey item) (some item)) items' := by
  intro key x
  rw [hp.mem_iff, List.mem_cons]
  by_cases hkey : key = K.getKey item
  · subst hkey
    rw [Function.update_self, Option.some.injEq]
    constructor
    · rintro rfl
      exact ⟨.inl rfl, rfl⟩
    · rintro ⟨rfl | hx, hkey⟩
      · rfl
      · exact absurd (hkey ▸ List.mem_map_of_mem hx) hnew
  · rw [Function.update_of_ne hkey, h]
    refine and_congr_left fun hx => (or_iff_right ?_).symm
    rintro rfl
    exact hkey hx.symm

theorem MapOf.remove (h : MapOf K map items) (hnot : K.getKey item ∉ items'.map K.getKey)
    (hp : items.Perm (item :: items')) : MapOf K (Function.update map (K.getKey item) none) items' := by
  intro key x
  by_cases hkey : key = K.getKey item
  · subst hkey
    rw [Function.update_self]
    refine ⟨fun hx => by simp at hx, fun ⟨hx, hkey⟩ => ?_⟩
    exact absurd (hkey ▸ List.mem_map_of_mem hx) hnot
  · rw [Function.update_of_ne hkey, h, hp.mem_iff, List.mem_cons]
    refine and_congr_left fun hx => or_iff_right ?_
    rintro rfl
    exact hkey hx.symm

end

theorem map_eq_some_iff {K : KeyFunctions κ α} : ∀ (es : List (HashEvent κ α)) (a : Dict κ α),
    exec (Dict.step K) .empty es = some a → ∀ key item, a.map key = some item ↔ InsertedSince K es key item := by
  refine exec_induction (fun key item => ?_) fun es e a a' ih ha key item => ?_
  · simp [Dict.empty, InsertedSince, not_since_nil]
  · unfold InsertedSince at ih ⊢
    rw [since_concat]
    cases e with
    | insert x =>
      simp only [Dict.step] at ha
      split at ha
      · rename_i hnone
        obtain rfl := Option.some.inj ha
        by_cases hkey : key = K.getKey x
        · subst hkey
          simp only [Function.update_self, Option.some.injEq, HashEvent.insert.injEq]
          refine ⟨fun hx => ⟨by rw [hx], .inl hx⟩, fun ⟨hitem, hor⟩ => hor.resolve_right fun hsince => ?_⟩
          -- another item with the key would have been there
          rw [(ih _ item).mpr ⟨hitem, hsince.2⟩] at hnone
          simp at hnone
        · simp only [Function.update_of_ne hkey, ih, HashEvent.insert.injEq]
          refine and_congr_right fun hitem => ?_
          rw [or_iff_right fun hx => hkey (by rw [hx, hitem]), and_iff_right (by simp)]
      · simp at ha
    | remove k =>
      obtain ⟨x, hx, rfl⟩ := Option.map_eq_some_iff.mp ha
      by_cases hkey : key = k
      · subst hkey
        simp
      · simp only [Function.update_of_ne hkey, ih, HashEvent.remove.injEq]
        refine and_congr_right fun _ => ?_
        rw [or_iff_right (by simp), and_iff_right (Ne.symm hkey)]

variable [DecidableEq α]

def HashState.step (K : KeyFunctions κ α) (A : Allocator) (s : HashState α) : HashEvent κ α → Option (HashState α)
  | .insert item => (s.table.insert K A s.mem item).map fun r => ⟨r.1, r.2, s.out⟩
  | .remove key => (s.table.remove K s.mem key).map fun r => ⟨r.2.1, r.2.2, s.out ++ [r.1]⟩

variable {K : KeyFunctions κ α} {A : Allocator} {s : HashState α} {a a' : Dict κ α}

theorem step_hasMap (e : HashEvent κ α) (h : HasMap K s a) (ha : a.step K e = some a') :
    ∃ s', s.step K A e = some s' ∧ HasMap K s' a' := by
  obtain ⟨⟨F, hF, hmap⟩, hout⟩ := h
  cases e with
  | insert item =>
    simp only [Dict.step] at ha
    split at ha
    · rename_i hnone
      obtain rfl := Option.some.inj ha
      have hnew : K.getKey item ∉ (content F).map K.getKey := by
        intro hmem
        obtain ⟨x, hx, hkey⟩ := List.mem_map.mp hmem
        rw [(hmap _ x).mpr ⟨hx, hkey⟩] at hnone
        simp at hnone
      obtain ⟨m', t', F', hins, hF', hperm⟩ := HashTable.insert_spec A hF hnew
      exact ⟨⟨m', t', s.out⟩, by rw [HashState.step, hins, Option.map_some], ⟨F', hF', hmap.insert hnew hperm⟩, hout⟩
    · simp at ha
  | remove key =>
    obtain ⟨item, hitem, rfl⟩ := Option.map_eq_some_iff.mp ha
    obtain ⟨hmem, rfl⟩ := (hmap key item).mp hitem
    obtain ⟨m', t', F', hrem, hF', hperm⟩ := HashTable.remove_spec hF hmem
    have hkeys := (hperm.map K.getKey).nodup_iff.mp hF.keys
    rw [List.map_cons, List.nodup_cons] at hkeys
    refine ⟨⟨m', t', s.out ++ [item]⟩, by rw [HashState.step, hrem, Option.map_some], ?_, by rw [hout]⟩
    exact ⟨F', hF', hmap.remove hkeys.1 hperm⟩

theorem map_run_refines (A : Allocator) (m : Cells α) {es : List (HashEvent κ α)}
    (h : exec (Dict.step K) .empty es = some a) :
    ∃ s, exec (HashState.step K A) (.init m) es = some s ∧ HasMap K s a := by
  refine exec_refines (fun s a e a' => step_hasMap e) es _ _ a ?_ h
  refine ⟨⟨_, HashTable.holds_init K m, fun key item => ?_⟩, rfl⟩
  rw [content_init]
  simp [Dict.empty]

/-- **A hash table is a finite map.** Every sequence of insertions of new keys and removals of present ones, on a
table in any memory and for any key and hash functions, returns, with the items removed. After it `Find` yields the
item that was inserted with the key and not removed since, if there is one, all assertions of `SanityCheck` hold, and
an iterator visits every item once and is done. -/
theorem hashTable_is_map (K : KeyFunctions κ α) (A : Allocator) (m : Cells α) (es : List (HashEvent κ α)) (a : Dict κ α)
    (h : exec (Dict.step K) .empty es = some a) :
    ∃ s, exec (HashState.step K A) (.init m) es = some s ∧ s.out = a.out ∧
      (∀ key, s.table.find K s.mem key = some (a.map key)) ∧
      (∀ key item, a.map key = some item ↔ InsertedSince K es key item) ∧
      s.table.sanityCheck K s.mem = some () ∧
      ∃ items, s.table.visited s.mem s.mem.rounds s.table.iterator = some items ∧ items.Nodup ∧
        ∀ item, item ∈ items ↔ a.map (K.getKey item) = some item := by
  obtain ⟨s, hs, ⟨F, hF, hmap⟩, hout⟩ := map_run_refines A m h
  refine ⟨s, hs, hout, fun key => ?_, map_eq_some_iff es a h, HashTable.sanityCheck_spec hF, content F,
    HashTable.visited_eq hF hF.family.length_lt_rounds, hF.keys.of_map _, fun item => ?_⟩
  · obtain ⟨o, ho, hiff⟩ := HashTable.find_spec hF key
    rw [ho, Option.some.injEq]
    refine Option.ext fun item => ?_
    rw [hiff, hmap]
  · rw [hmap, and_iff_left rfl]

/-- Thirteen numbers by themselves, where the last insertion is in a table of 16 buckets, and a removal. -/
theorem hashTable_is_map_thirteen : ∃ s,
    exec (HashState.step (⟨id, BitVec.ofNat 32⟩ : KeyFunctions ℕ ℕ) .above) (.init ⟨∅, 0⟩)
      ((List.range 13).map .insert ++ [.remove 5]) = some s ∧
    s.table.find ⟨id, BitVec.ofNat 32⟩ s.mem 5 = some none ∧
    s.table.find ⟨id, BitVec.ofNat 32⟩ s.mem 12 = some (some 12) := by
  have hrun : ((exec (Dict.step (⟨id, BitVec.ofNat 32⟩ : KeyFunctions ℕ ℕ)) .empty
      ((List.range 13).map .insert ++ [.remove 5])).map fun a => (a.map 5, a.map 12)) = some (none, some 12) := by
    decide +kernel
  obtain ⟨a, ha, hmap⟩ := Option.map_eq_some_iff.mp hrun
  obtain ⟨h5, h12⟩ := Prod.mk.inj hmap
  obtain ⟨s, hs, -, hfind, -⟩ := hashTable_is_map ⟨id, BitVec.ofNat 32⟩ .above ⟨∅, 0⟩ _ a ha
  exact ⟨s, hs, by rw [hfind, h5], by rw [hfind, h12]⟩

end Nachos
