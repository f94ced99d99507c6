import Mathlib.Data.Finset.Card
import Mathlib.Order.Interval.Finset.Nat
import JinDisk.Lib.Chunks
import JinDisk.Lib.LruCache
import JinDisk.LsmTree

/-!
# Range lookup

`lsm_tree_range_search` looks up a whole range of keys. It has code of its own on every layer:
the memtables are asked key by key, the files leaf by leaf, and a bitmap tells which keys are
found already.

An index file keeps its leaves in a cache, filled by both kinds of lookup. A leaf that is cached
is searched for the first record of the key. A leaf that is not is loaded and all its records of
the key are put into the result, one over the other, so that the last one counts. The two differ
for a key with a positive and a negative record.
-/

namespace JinDisk

open BinarySearch

variable {κ : Type}

/-- The records in use of a `struct bit_leaf`, with their keys. -/
abbrev Leaf (κ : Type) : Type := List (ℕ × Record κ)

/-- The key of a leaf in its parent: the last one. -/
def Leaf.key (leaf : Leaf κ) : ℕ := (leaf.getLast?.map Prod.fst).getD 0

theorem Leaf.exists_key {leaf : Leaf κ} (h : leaf ≠ []) : ∃ e ∈ leaf, e.1 = leaf.key := by
  obtain ⟨l, a, rfl⟩ := (List.eq_nil_or_concat' leaf).resolve_left h
  refine ⟨a, List.mem_append_right l List.mem_cons_self, ?_⟩
  rw [Leaf.key, List.getLast?_concat]
  rfl

/-- `MAX_LEAF_NODE_CACHED` -/
def maxLeafNodeCached : ℕ := 128

namespace BitFile

/-- The leaves of a file, as `bit_builder_add_entry` fills them. -/
def leaves (f : BitFile κ) : List (Leaf κ) := Chunks.chunks bitLeafLen f.entries

/-- `bit_file_search_leaf_key_pos`: the first leaf whose key is not smaller. -/
def searchLeafKeyPos (f : BitFile κ) (key : ℕ) : Option (Leaf κ) :=
  if key < f.firstKey ∨ f.lastKey < key then none
  else f.leaves.find? fun leaf => key ≤ leaf.key

/-- `bit_file_search_leaf`: that leaf, if the key is in it. -/
def searchLeaf (f : BitFile κ) (key : ℕ) : Option (Leaf κ) :=
  (f.searchLeafKeyPos key).filter fun leaf => leaf.any fun e => e.1 = key

/-- `bit_file_search_cached_leaf` -/
def searchCachedLeaf (f : BitFile κ) (cache : LruCache (Leaf κ)) (key : ℕ) :
    Option (Record κ) × LruCache (Leaf κ) :=
  match f.searchLeafKeyPos key with
  | none => (none, cache)
  | some leaf =>
    ((cache.get leaf.key).1.bind fun leaf => (leaf.find? fun e => e.1 = key).map Prod.snd,
      (cache.get leaf.key).2)

/-- `bit_file_search`, with the cache of the file. A file without entries has no root to search
in. -/
def searchWith (f : BitFile κ) (cache : LruCache (Leaf κ)) (key : ℕ) :
    Option (Option (Record κ) × LruCache (Leaf κ)) :=
  if key < f.firstKey ∨ f.lastKey < key then some (none, cache)
  else if f.entries.isEmpty then none
  else
    match f.searchCachedLeaf cache key with
    | (some r, cache) => some (some r, cache)
    | (none, cache) =>
      match f.searchLeaf key with
      | none => some (none, cache)
      | some leaf =>
        some ((leaf.find? fun e => e.1 = key).map Prod.snd, cache.put leaf.key leaf)

end BitFile

/-- The local variables of `lsm_tree_range_search`, and the caches of the files. -/
structure RangeState (κ : Type) where
  /-- the result set -/
  results : Memtable κ
  /-- the keys whose bit is set in `found` -/
  found : Finset ℕ
  /-- the cache of each file, by its descriptor -/
  caches : ℕ → LruCache (Leaf κ)

namespace RangeState

/-- `results->put` of a copy of the record, and `set_bit`. -/
def put (st : RangeState κ) (key : ℕ) (r : Record κ) : RangeState κ :=
  { st with results := (st.results.put key (some r)).1, found := insert key st.found }

/-- The cache of a file is replaced. -/
def setCache (st : RangeState κ) (id : ℕ) (cache : LruCache (Leaf κ)) : RangeState κ :=
  { st with caches := Function.update st.caches id cache }

end RangeState

namespace BitFile

/-- The body of the loop of `bit_file_range_search`. -/
def rangeStep (f : BitFile κ) (st : RangeState κ) (key : ℕ) : Option (RangeState κ) :=
  if key ∈ st.found then some st
  else if f.entries.isEmpty then none
  else
    match f.searchCachedLeaf (st.caches f.id) key with
    | (some r, cache) => some ((st.setCache f.id cache).put key r)
    | (none, cache) =>
      match f.searchLeaf key with
      | none => some (st.setCache f.id cache)
      | some leaf =>
        some ((leaf.filter fun e => e.1 = key).foldl (fun st e => st.put key e.2)
          (st.setCache f.id (cache.put leaf.key leaf)))

/-- `bit_file_range_search`. The loop jumps over the keys in front of the file. -/
def rangeSearch (f : BitFile κ) (start stop : ℕ) (st : RangeState κ) : Option (RangeState κ) :=
  if f.lastKey < start ∨ stop < f.firstKey then some st
  else
    Machine.exec f.rangeStep st
      (List.range' (max start f.firstKey) (min stop f.lastKey + 1 - max start f.firstKey))

end BitFile

namespace BitLevel

/-- The body of the loop of `bit_level_range_search`. -/
def rangeStep (l : BitLevel κ) (start stop : ℕ) (st : RangeState κ) (key : ℕ) :
    Option (RangeState κ) :=
  if key ∈ st.found then some st
  else
    match l.locateFile key with
    | none => some st
    | some f => f.rangeSearch start stop st

/-- `bit_level_range_search`: in level 0 only the first file is searched. -/
def rangeSearch (l : BitLevel κ) (start stop : ℕ) (st : RangeState κ) : Option (RangeState κ) :=
  match l.level, l.files with
  | 0, f :: _ => f.rangeSearch start stop st
  | _, _ => Machine.exec (l.rangeStep start stop) st (List.range' start (stop + 1 - start))

end BitLevel

/-- The body of the loop over a memtable in `lsm_tree_range_search`. -/
def Memtable.rangeStep [Inhabited κ] (m : Memtable κ) (st : RangeState κ) (key : ℕ) : RangeState κ :=
  if key ∈ st.found then st
  else
    match m.get key with
    | some r => st.put key r
    | none => st

/-- The loop over a memtable in `lsm_tree_range_search`. -/
def Memtable.rangeSearch [Inhabited κ] (m : Memtable κ) (start stop : ℕ) (st : RangeState κ) :
    RangeState κ :=
  (List.range' start (stop + 1 - start)).foldl m.rangeStep st

namespace LsmTree

variable [Inhabited κ]

/-- The layers of `lsm_tree_range_search`, from the memtable down. When all keys are found, the
rest is left out. -/
def rangeLayers (t : LsmTree κ) (start stop : ℕ) (st : RangeState κ) : Option (RangeState κ) :=
  let st := t.memtable.rangeSearch start stop st
  if st.results.size = stop + 1 - start then some st
  else
    let st := (t.immutable.map fun m => m.rangeSearch start stop st).getD st
    if st.results.size = stop + 1 - start then some st
    else
      (t.levels.level0.rangeSearch start stop st).bind fun st =>
        if st.results.size = stop + 1 - start then some st
        else t.levels.level1.rangeSearch start stop st

/-- `lsm_tree_range_search`; an empty result set is returned as `NULL`. -/
def rangeSearch (t : LsmTree κ) (caches : ℕ → LruCache (Leaf κ)) (start stop : ℕ) :
    Option (Option (Memtable κ)) :=
  if stop < start then some none
  else
    (t.rangeLayers start stop ⟨.create, ∅, caches⟩).map fun st =>
      if st.results.size = 0 then none else some st.results

end LsmTree

/-! ## The leaf of a key -/

namespace BitFile

variable {f : BitFile κ} {key : ℕ} {leaf : Leaf κ}

/-- The records of a key in the leaf where it is looked for. -/
def leafRecords (f : BitFile κ) (key : ℕ) : List (Record κ) :=
  ((f.searchLeafKeyPos key).map fun leaf => (leaf.filter fun e => e.1 = key).map Prod.snd).getD []

theorem leafRecords_of_leaf (h : f.searchLeafKeyPos key = some leaf) :
    f.leafRecords key = (leaf.filter fun e => e.1 = key).map Prod.snd := by
  rw [leafRecords, h]
  rfl

theorem flatten_leaves (f : BitFile κ) : f.leaves.flatten = f.entries :=
  Chunks.flatten_chunks (by decide) f.entries

theorem leaf_ne_nil (h : leaf ∈ f.leaves) : leaf ≠ [] := Chunks.ne_nil_of_mem_chunks h

theorem mem_entries_of_leaf (h : leaf ∈ f.leaves) {e : ℕ × Record κ} (he : e ∈ leaf) :
    e ∈ f.entries := by
  rw [← f.flatten_leaves]
  exact List.mem_flatten.mpr ⟨leaf, h, he⟩

theorem exists_leaf_key (h : leaf ∈ f.leaves) : ∃ e ∈ leaf, e.1 = leaf.key :=
  Leaf.exists_key (leaf_ne_nil h)

/-- A leaf is sorted, and its key is the largest. -/
theorem le_leaf_key (hs : f.Sorted) (h : leaf ∈ f.leaves) {e : ℕ × Record κ} (he : e ∈ leaf) :
    e.1 ≤ leaf.key := by
  have hsorted : leaf.Pairwise fun a b => a.1 ≤ b.1 := by
    rw [Sorted, ← f.flatten_leaves] at hs
    exact (List.pairwise_flatten.mp hs).1 leaf h
  rw [Leaf.key]
  obtain ⟨l, a, hl⟩ := (List.eq_nil_or_concat' leaf).resolve_left (leaf_ne_nil h)
  rw [hl] at he hsorted ⊢
  rw [List.getLast?_concat]
  rcases List.mem_append.mp he with he | he
  · exact (List.pairwise_append.mp hsorted).2.2 e he a List.mem_cons_self
  · rw [List.mem_singleton.mp he]
    exact le_rfl

/-- What the leaf of a key is. -/
theorem searchLeafKeyPos_eq_some :
    f.searchLeafKeyPos key = some leaf ↔ f.firstKey ≤ key ∧ key ≤ f.lastKey ∧ key ≤ leaf.key ∧
      ∃ as bs, f.leaves = as ++ leaf :: bs ∧ ∀ a ∈ as, a.key < key := by
  rw [searchLeafKeyPos]
  split
  · rename_i hout
    refine iff_of_false (by simp) fun h => ?_
    omega
  · rename_i hin
    rw [List.find?_eq_some_iff_append]
    simp only [decide_eq_true_eq, Bool.not_eq_eq_eq_not, Bool.not_true, decide_eq_false_iff_not,
      not_le]
    refine ⟨fun h => ⟨by omega, by omega, h⟩, fun h => h.2.2⟩

theorem mem_leaves_of_searchLeafKeyPos (h : f.searchLeafKeyPos key = some leaf) : leaf ∈ f.leaves := by
  obtain ⟨-, -, -, as, bs, heq, -⟩ := searchLeafKeyPos_eq_some.mp h
  rw [heq]
  exact List.mem_append_right _ List.mem_cons_self

/-- Up to the key of the leaf, larger keys are looked for in the same one. -/
theorem searchLeafKeyPos_of_le (hs : f.Sorted) (h : f.searchLeafKeyPos key = some leaf) {k : ℕ}
    (hk : key ≤ k) (hle : k ≤ leaf.key) : f.searchLeafKeyPos k = some leaf := by
  have hmem := mem_leaves_of_searchLeafKeyPos h
  obtain ⟨hfirst, -, -, as, bs, heq, has⟩ := searchLeafKeyPos_eq_some.mp h
  obtain ⟨e, he, hkey⟩ := exists_leaf_key hmem
  have hlast := le_lastKey hs (mem_entries_of_leaf hmem he)
  exact searchLeafKeyPos_eq_some.mpr ⟨hfirst.trans hk, by omega, hle, as, bs, heq, fun a ha =>
    (has a ha).trans_le hk⟩

/-- A key of the file has a leaf. -/
theorem exists_leaf (hs : f.Sorted) (hkey : f.recordsOf key ≠ []) :
    ∃ leaf, f.searchLeafKeyPos key = some leaf := by
  obtain ⟨r, hr⟩ := List.exists_mem_of_ne_nil _ hkey
  have he := mem_recordsOf.mp hr
  have h₁ := firstKey_le hs he
  have h₂ := le_lastKey hs he
  rw [searchLeafKeyPos, if_neg (by simp only at h₁ h₂; omega), ← Option.isSome_iff_exists,
    List.find?_isSome]
  rw [← f.flatten_leaves] at he
  obtain ⟨leaf, hleaf, he⟩ := List.mem_flatten.mp he
  exact ⟨leaf, hleaf, by simpa using le_leaf_key hs hleaf he⟩

/-- So does every key in the range of a file with entries. -/
theorem exists_leaf_of_range (hs : f.Sorted) (hne : f.entries ≠ [])
    (hin : ¬(key < f.firstKey ∨ f.lastKey < key)) : ∃ leaf, f.searchLeafKeyPos key = some leaf := by
  obtain ⟨e, he, hlast⟩ := exists_lastKey hne
  obtain ⟨leaf, hleaf⟩ := exists_leaf hs (List.ne_nil_of_mem (mem_recordsOf.mpr he))
  obtain ⟨-, -, hge, as, bs, heq, -⟩ := searchLeafKeyPos_eq_some.mp hleaf
  rw [searchLeafKeyPos, if_neg hin, ← Option.isSome_iff_exists, List.find?_isSome]
  refine ⟨leaf, mem_leaves_of_searchLeafKeyPos hleaf, ?_⟩
  simp only [decide_eq_true_eq]
  omega

/-- **The leaf has the first record of the key**, if the file has any. -/
theorem recordsOf_eq_leafRecords (hs : f.Sorted) (key : ℕ) :
    ∃ rest, f.recordsOf key = f.leafRecords key ++ rest ∧ (f.leafRecords key = [] → rest = []) := by
  cases hleaf : f.searchLeafKeyPos key with
  | none =>
    have hnil : f.recordsOf key = [] := by
      by_contra hne
      obtain ⟨leaf, hsome⟩ := exists_leaf hs hne
      rw [hleaf] at hsome
      cases hsome
    refine ⟨[], ?_, fun _ => rfl⟩
    rw [leafRecords, hnil, hleaf]
    rfl
  | some leaf =>
    have hmem := mem_leaves_of_searchLeafKeyPos hleaf
    obtain ⟨-, -, hle, as, bs, heq, has⟩ := searchLeafKeyPos_eq_some.mp hleaf
    have hentries : f.entries = as.flatten ++ leaf ++ bs.flatten := by
      rw [← f.flatten_leaves, heq]
      simp
    -- the leaves in front have smaller keys only
    have hfront : (as.flatten.filter fun e => e.1 = key) = [] := by
      refine List.filter_eq_nil_iff.mpr fun e he => ?_
      obtain ⟨a, ha, hea⟩ := List.mem_flatten.mp he
      have hamem : a ∈ f.leaves := heq ▸ List.mem_append_left _ ha
      have h₁ := le_leaf_key hs hamem hea
      have h₂ := has a ha
      simp only [decide_eq_true_eq]
      omega
    refine ⟨(bs.flatten.filter fun e => e.1 = key).map Prod.snd, ?_, fun hnil => ?_⟩
    · rw [recordsOf]
      rw [leafRecords_of_leaf hleaf, hentries, List.filter_append, List.filter_append, hfront,
        List.nil_append, List.map_append]
    · -- the key of the leaf is larger, and so is what follows
      rw [leafRecords_of_leaf hleaf, List.map_eq_nil_iff, List.filter_eq_nil_iff] at hnil
      obtain ⟨e, he, hekey⟩ := exists_leaf_key hmem
      have hne : e.1 ≠ key := by simpa using hnil e he
      rw [Sorted, hentries] at hs
      refine List.map_eq_nil_iff.mpr (List.filter_eq_nil_iff.mpr fun b hb => ?_)
      have hlt := (List.pairwise_append.mp hs).2.2 e (List.mem_append_right _ he) b hb
      simp only [decide_eq_true_eq]
      omega

theorem leafRecords_eq_nil (hs : f.Sorted) : f.leafRecords key = [] ↔ f.recordsOf key = [] := by
  obtain ⟨rest, heq, hrest⟩ := recordsOf_eq_leafRecords hs key
  rw [heq]
  refine ⟨fun h => ?_, fun h => (List.append_eq_nil_iff.mp h).1⟩
  rw [h, hrest h, List.nil_append]

theorem head?_leafRecords (hs : f.Sorted) (key : ℕ) :
    (f.leafRecords key).head? = (f.recordsOf key).head? := by
  obtain ⟨rest, heq, hrest⟩ := recordsOf_eq_leafRecords hs key
  rw [heq]
  cases hl : f.leafRecords key with
  | nil =>
    rw [hrest hl]
    rfl
  | cons r l => rfl

theorem searchLeaf_eq (h : f.searchLeafKeyPos key = some leaf) :
    f.searchLeaf key = if f.leafRecords key = [] then none else some leaf := by
  rw [searchLeaf, h, leafRecords_of_leaf h, Option.filter_some]
  by_cases hany : leaf.any fun e => e.1 = key
  · rw [if_pos hany, if_neg]
    rw [List.map_eq_nil_iff, List.filter_eq_nil_iff]
    intro hnil
    obtain ⟨e, he, hkey⟩ := List.any_eq_true.mp hany
    exact hnil e he hkey
  · rw [if_neg hany, if_pos]
    rw [List.map_eq_nil_iff, List.filter_eq_nil_iff]
    exact fun e he hkey => hany (List.any_eq_true.mpr ⟨e, he, hkey⟩)

theorem find?_leaf (h : f.searchLeafKeyPos key = some leaf) :
    (leaf.find? fun e => e.1 = key).map Prod.snd = (f.leafRecords key).head? := by
  rw [leafRecords_of_leaf h, List.head?_map, List.head?_filter]

/-! ### With the cache -/

/-- What is in the cache are leaves of the file. -/
def Cached (f : BitFile κ) (cache : LruCache (Leaf κ)) : Prop :=
  ∀ e ∈ cache.entries, f.searchLeafKeyPos e.1 = some e.2 ∧ Leaf.key e.2 = e.1

theorem Cached.get {cache : LruCache (Leaf κ)} (hc : f.Cached cache) (k : ℕ) :
    f.Cached (cache.get k).2 := fun e he => hc e ((cache.mem_get k e).mp he)

theorem Cached.put {cache : LruCache (Leaf κ)} (hs : f.Sorted) (hc : f.Cached cache)
    (h : f.searchLeafKeyPos key = some leaf) : f.Cached (cache.put leaf.key leaf) := by
  intro e he
  rcases LruCache.mem_put he with rfl | he
  · obtain ⟨-, -, hle, -⟩ := searchLeafKeyPos_eq_some.mp h
    exact ⟨searchLeafKeyPos_of_le hs h hle le_rfl, rfl⟩
  · exact hc e he

/-- The leaf of a key, if it is cached at all, is what the cache has for it. -/
theorem Cached.get_eq {cache : LruCache (Leaf κ)} (hs : f.Sorted) (hc : f.Cached cache)
    (h : f.searchLeafKeyPos key = some leaf) (hhas : cache.Has leaf.key) :
    (cache.get leaf.key).1 = some leaf := by
  cases hget : (cache.get leaf.key).1 with
  | none => exact absurd hhas (LruCache.get_eq_none.mp hget)
  | some leaf' =>
    obtain ⟨-, -, hle, -⟩ := searchLeafKeyPos_eq_some.mp h
    have hsame := (hc _ (LruCache.mem_of_get hget)).1
    rw [searchLeafKeyPos_of_le hs h hle le_rfl] at hsame
    exact hsame.symm

/-- A lookup in the cache. -/
theorem Cached.searchCachedLeaf {cache : LruCache (Leaf κ)} (hs : f.Sorted) (hc : f.Cached cache)
    (h : f.searchLeafKeyPos key = some leaf) [Decidable (cache.Has leaf.key)] :
    f.searchCachedLeaf cache key =
      (if cache.Has leaf.key then (f.leafRecords key).head? else none, (cache.get leaf.key).2) := by
  rw [BitFile.searchCachedLeaf, h]
  simp only [Prod.mk.injEq, and_true]
  split
  · rename_i hhas
    rw [hc.get_eq hs h hhas, Option.bind_some, find?_leaf h]
  · rename_i hnot
    rw [LruCache.get_eq_none.mpr hnot]
    rfl

/-- **`bit_file_search` does not depend on the cache.** -/
theorem Cached.searchWith {cache : LruCache (Leaf κ)} (hs : f.Sorted) (hc : f.Cached cache)
    (key : ℕ) : (f.searchWith cache key).map Prod.fst = f.search key := by
  classical
  rw [BitFile.searchWith, BitFile.search]
  split
  · rfl
  · rename_i hin
    split
    · rfl
    · rename_i hne
      obtain ⟨leaf, hleaf⟩ := exists_leaf_of_range hs (by simpa using hne) hin
      rw [hc.searchCachedLeaf hs hleaf, searchLeaf_eq hleaf]
      by_cases hnil : f.leafRecords key = []
      · rw [(leafRecords_eq_nil hs).mp hnil]
        simp [hnil]
      · obtain ⟨r, hr⟩ := Option.isSome_iff_exists.mp (List.isSome_head?.mpr hnil)
        rw [← head?_leafRecords hs, hr]
        by_cases hhas : cache.Has leaf.key
        · rw [if_pos hhas]
          rfl
        · rw [if_neg hhas, if_neg hnil]
          simp only [Option.map_some, find?_leaf hleaf, hr]

/-- The cache still has leaves of the file only. -/
theorem Cached.of_searchWith {cache cache' : LruCache (Leaf κ)} {res : Option (Record κ)}
    (hs : f.Sorted) (hc : f.Cached cache) (h : f.searchWith cache key = some (res, cache')) :
    f.Cached cache' := by
  classical
  rw [BitFile.searchWith] at h
  split at h
  · obtain ⟨-, rfl⟩ := Prod.mk.inj (Option.some.inj h)
    exact hc
  · rename_i hin
    split at h
    · cases h
    · rename_i hne
      obtain ⟨leaf, hleaf⟩ := exists_leaf_of_range hs (by simpa using hne) hin
      rw [hc.searchCachedLeaf hs hleaf, searchLeaf_eq hleaf] at h
      split at h
      · rename_i heq
        obtain ⟨-, rfl⟩ := Prod.mk.inj (Option.some.inj h)
        obtain ⟨-, rfl⟩ := Prod.mk.inj heq
        exact hc.get _
      · rename_i heq
        obtain ⟨-, rfl⟩ := Prod.mk.inj heq
        split at h
        · obtain ⟨-, rfl⟩ := Prod.mk.inj (Option.some.inj h)
          exact hc.get _
        · rename_i leaf' hif
          obtain ⟨-, rfl⟩ := Prod.mk.inj (Option.some.inj h)
          split at hif
          · cases hif
          · obtain rfl := Option.some.inj hif
            exact (hc.get _).put hs hleaf

end BitFile

/-! ## The result set -/

namespace RangeState

variable [Inhabited κ] {st : RangeState κ} {start stop : ℕ}

/-- The result set and the bitmap tell the same. -/
structure Ok (st : RangeState κ) (start stop : ℕ) : Prop where
  /-- only copies of records are put into it -/
  entry : ∀ (key : ℕ) (e : MemtableEntry κ), st.results.root[key]? = some e → e.hasNegative = false
  /-- a bit is set for each key in it -/
  found : ∀ key, key ∈ st.found ↔ (st.results.get key).isSome = true
  /-- the counter is right -/
  size : st.results.size = st.found.card
  /-- the keys are in the range -/
  range : st.found ⊆ Finset.Icc start stop

theorem Ok.init (caches : ℕ → LruCache (Leaf κ)) : (⟨.create, ∅, caches⟩ : RangeState κ).Ok start stop := by
  refine ⟨fun key e he => ?_, fun key => ?_, rfl, Finset.empty_subset _⟩
  · simp [Memtable.create] at he
  · simp [Memtable.create, Memtable.get]

theorem Ok.not_mem_found (h : st.Ok start stop) {key : ℕ} :
    key ∉ st.found ↔ st.results.get key = none := by
  rw [h.found, Bool.not_eq_true, Option.isSome_eq_false_iff, Option.isNone_iff_eq_none]

theorem Ok.setCache (h : st.Ok start stop) (id : ℕ) (cache : LruCache (Leaf κ)) :
    (st.setCache id cache).Ok start stop := ⟨h.entry, h.found, h.size, h.range⟩

/-- **Putting a record** into the result set. -/
theorem Ok.put (h : st.Ok start stop) {key : ℕ} (hfirst : start ≤ key) (hlast : key ≤ stop)
    (r : Record κ) :
    (st.put key r).Ok start stop ∧
      ∀ a, (st.put key r).results.get a = if key = a then some r else st.results.get a := by
  have hget : ∀ a, (st.put key r).results.get a = if key = a then some r else st.results.get a :=
    Memtable.get_put st.results key (some r)
  refine ⟨⟨fun a e he => ?_, fun a => ?_, ?_, ?_⟩, hget⟩
  · simp only [RangeState.put, Memtable.put_root, RbTree.getElem?_insert] at he
    split at he
    · obtain rfl := Option.some.inj he
      rw [Memtable.putEntry]
      cases hold : st.results.root[key]? with
      | none => rfl
      | some old =>
        have hneg := h.entry key old hold
        simp only [MemtableEntry.update, hneg]
        rfl
    · exact h.entry a e he
  · rw [hget]
    simp only [RangeState.put, Finset.mem_insert]
    split
    · rename_i heq
      exact iff_of_true (Or.inl heq.symm) rfl
    · rename_i hne
      rw [or_iff_right (Ne.symm hne), h.found]
  · -- a new key counts once, and one that is there does not count again
    simp only [RangeState.put]
    cases hold : st.results.root[key]? with
    | none =>
      have hnew : key ∉ st.found := by
        rw [h.found, Memtable.get, hold]
        simp
      rw [Finset.card_insert_of_notMem hnew, Memtable.put, hold, h.size]
    | some old =>
      have hmem : key ∈ st.found := by
        rw [h.found, Memtable.get, hold]
        rfl
      have hval : old.val.isSome = true := by
        have hneg := h.entry key old hold
        cases old with
        | positive r' => rfl
        | negative => cases hneg
        | both r' => rfl
      have hpos : 0 < st.results.size := by
        rw [h.size]
        exact Finset.card_pos.mpr ⟨key, hmem⟩
      rw [Finset.insert_eq_of_mem hmem, Memtable.put, hold, ← h.size]
      simp only [hval, if_true]
      omega
  · exact Finset.insert_subset (Finset.mem_Icc.mpr ⟨hfirst, hlast⟩) h.range

/-- **Putting all records** of a key, one over the other. -/
theorem Ok.putAll (h : st.Ok start stop) {key : ℕ} (hfirst : start ≤ key) (hlast : key ≤ stop)
    (es : Leaf κ) :
    (es.foldl (fun st e => st.put key e.2) st).Ok start stop ∧
      (es.foldl (fun st e => st.put key e.2) st).caches = st.caches ∧
      ∀ a, (es.foldl (fun st e => st.put key e.2) st).results.get a =
        if key = a then ((es.map Prod.snd).getLast?).or (st.results.get a)
        else st.results.get a := by
  induction es generalizing st with
  | nil => exact ⟨h, rfl, fun a => by simp⟩
  | cons e es ih =>
    obtain ⟨hput, hget⟩ := h.put hfirst hlast e.2
    obtain ⟨hok, hcaches, hres⟩ := ih hput
    refine ⟨hok, hcaches, fun a => ?_⟩
    rw [List.foldl_cons, hres, hget]
    split
    · cases hes : es with
      | nil => rfl
      | cons e' es' =>
        simp only [List.map_cons, List.getLast?_cons_cons]
        cases hlast' : (e'.2 :: es'.map Prod.snd).getLast? with
        | none => simp at hlast'
        | some r => rfl
    · rfl

end RangeState

/-! ## One file -/

namespace BitFile

variable {f : BitFile κ} {start stop : ℕ}

/-- The key is torn: its leaf has two records of it, and a lookup of the range from `start` on
comes to that leaf with this key first. The keys `above` are found before the file is asked. -/
def Torn (f : BitFile κ) (above : ℕ → Prop) (start key : ℕ) : Prop :=
  2 ≤ (f.leafRecords key).length ∧
    ∀ j, start ≤ j → j < key → ¬above j → f.recordsOf j ≠ [] →
      f.searchLeafKeyPos j ≠ f.searchLeafKeyPos key

/-- What a lookup of the range finds for a key that has records in the file. -/
structure Reads (f : BitFile κ) (above : ℕ → Prop) (start : ℕ) (cache : LruCache (Leaf κ))
    (key : ℕ) (res : Option (Record κ)) : Prop where
  /-- the key is found -/
  isSome : res.isSome = true
  /-- usually it is the first record -/
  whole : ¬f.Torn above start key → res = (f.recordsOf key).head?
  /-- and otherwise, if nothing was cached, the last one of the leaf -/
  torn : f.Torn above start key → cache.entries = [] → res = (f.leafRecords key).getLast?

theorem Torn.congr {above above' : ℕ → Prop} {key : ℕ}
    (h : ∀ j, start ≤ j → j < key → f.recordsOf j ≠ [] → (above j ↔ above' j)) :
    f.Torn above start key ↔ f.Torn above' start key := by
  refine and_congr_right fun _ => forall_congr' fun j => forall_congr' fun h₁ =>
    forall_congr' fun h₂ => ?_
  by_cases hj : f.recordsOf j = []
  · simp [hj]
  · rw [h j h₁ h₂ hj]

theorem Reads.congr {above above' : ℕ → Prop} {cache : LruCache (Leaf κ)} {key : ℕ}
    {res : Option (Record κ)}
    (h : ∀ j, start ≤ j → j < key → f.recordsOf j ≠ [] → (above j ↔ above' j))
    (hr : f.Reads above start cache key res) : f.Reads above' start cache key res :=
  ⟨hr.isSome, fun ht => hr.whole (mt (Torn.congr h).mp ht), fun ht => hr.torn ((Torn.congr h).mpr ht)⟩

/-- The loop starts at the first key of the file. -/
theorem Reads.of_first (hs : f.Sorted) {above : ℕ → Prop} {cache : LruCache (Leaf κ)} {key : ℕ}
    {res : Option (Record κ)} (h : f.Reads above (max start f.firstKey) cache key res) :
    f.Reads above start cache key res := by
  have hj : ∀ j, f.recordsOf j ≠ [] → f.firstKey ≤ j := by
    intro j hj
    obtain ⟨r, hr⟩ := List.exists_mem_of_ne_nil _ hj
    exact firstKey_le hs (mem_recordsOf.mp hr)
  have htorn : f.Torn above (max start f.firstKey) key ↔ f.Torn above start key := by
    refine and_congr_right fun _ => forall_congr' fun j => ?_
    constructor
    · exact fun h h₁ h₂ h₃ h₄ => h (Nat.max_le.mpr ⟨h₁, hj j h₄⟩) h₂ h₃ h₄
    · exact fun h h₁ => h ((Nat.le_max_left _ _).trans h₁)
  exact ⟨h.isSome, fun ht => h.whole (mt htorn.mp ht), fun ht => h.torn (htorn.mpr ht)⟩

/-- A file with entries can be searched. -/
theorem exists_rangeStep (hne : f.entries ≠ []) (st : RangeState κ) (key : ℕ) :
    ∃ st', f.rangeStep st key = some st' := by
  rw [rangeStep]
  split
  · exact ⟨_, rfl⟩
  · rw [if_neg (by simpa using hne)]
    split
    · exact ⟨_, rfl⟩
    · split <;> exact ⟨_, rfl⟩

/-- The search of a file faults if it has no entries and key 0 is looked for. -/
theorem rangeSearch_eq_none {st : RangeState κ} :
    f.rangeSearch start stop st = none ↔ f.entries = [] ∧ start = 0 ∧ 0 ∉ st.found := by
  by_cases hnil : f.entries = []
  · have hfirst := firstKey_of_empty hnil
    have hlast := lastKey_of_empty hnil
    rw [rangeSearch, hfirst, hlast]
    by_cases hstart : start = 0
    · subst hstart
      have hstep : f.rangeStep st 0 = if 0 ∈ st.found then some st else none := by
        rw [rangeStep]
        simp [hnil]
      rw [if_neg (by omega)]
      simp only [Nat.max_self, Nat.min_zero, Nat.zero_add, Nat.sub_zero, List.range'_one]
      rw [Machine.exec_cons, hstep]
      split <;> simp_all [Machine.exec]
    · rw [if_pos (by omega)]
      simp [hstart]
  · refine iff_of_false ?_ fun h => hnil h.1
    rw [rangeSearch]
    split
    · simp
    · obtain ⟨st', hst'⟩ := Machine.exists_exec (fun st key => exists_rangeStep hnil st key) st
        (List.range' (max start f.firstKey) (min stop f.lastKey + 1 - max start f.firstKey))
      rw [hst']
      simp

variable [Inhabited κ]

/-- The loop of `bit_file_range_search`, started in `st₀` at the key `first`, has come to the key
`key`. -/
structure Scan (f : BitFile κ) (start stop : ℕ) (st₀ : RangeState κ) (first key : ℕ)
    (st : RangeState κ) : Prop where
  /-- the result set -/
  ok : st.Ok start stop
  /-- nothing else has changed -/
  same : ∀ a, a < first ∨ key ≤ a ∨ a ∈ st₀.found ∨ f.recordsOf a = [] →
    st.results.get a = st₀.results.get a
  /-- the keys looked up so far -/
  reads : ∀ a, first ≤ a → a < key → a ∉ st₀.found → f.recordsOf a ≠ [] →
    f.Reads (· ∈ st₀.found) first (st₀.caches f.id) a (st.results.get a)
  /-- the cache has leaves of the file -/
  cached : f.Cached (st.caches f.id)
  /-- the other caches are as before -/
  others : ∀ id, id ≠ f.id → st.caches id = st₀.caches id
  /-- a leaf that was needed stays in the cache while it is needed -/
  warm : ∀ j leaf, first ≤ j → j < key → j ∉ st₀.found → f.recordsOf j ≠ [] →
    f.searchLeafKeyPos j = some leaf → key ≤ leaf.key → (st.caches f.id).Has leaf.key
  /-- and no other leaf is loaded -/
  loaded : (st₀.caches f.id).entries = [] → ∀ e ∈ (st.caches f.id).entries, ∃ j, first ≤ j ∧
    j < key ∧ j ∉ st₀.found ∧ f.recordsOf j ≠ [] ∧ f.searchLeafKeyPos j = some e.2

variable {st₀ st st' : RangeState κ} {first key : ℕ}

theorem Scan.init (hok : st₀.Ok start stop) (hc : f.Cached (st₀.caches f.id)) (first : ℕ) :
    f.Scan start stop st₀ first first st₀ := by
  refine ⟨hok, fun a _ => rfl, fun a h₁ h₂ => ?_, hc, fun id _ => rfl, fun j leaf h₁ h₂ => ?_,
    fun hnil e he => ?_⟩
  · omega
  · omega
  · rw [hnil] at he
    cases he

/-- A key that is found already, or not in the file, is passed over. The cache may have changed
its order. -/
theorem Scan.pass (h : f.Scan start stop st₀ first key st)
    (hkey : key ∈ st₀.found ∨ f.recordsOf key = []) (hok : st'.Ok start stop)
    (hres : ∀ a, st'.results.get a = st.results.get a)
    (hothers : ∀ id, id ≠ f.id → st'.caches id = st.caches id)
    (hcache : ∀ e, e ∈ (st'.caches f.id).entries ↔ e ∈ (st.caches f.id).entries) :
    f.Scan start stop st₀ first (key + 1) st' := by
  have hne : ∀ j, j < key + 1 → j ∉ st₀.found → f.recordsOf j ≠ [] → j < key := by
    intro j hj hfound hrec
    refine Nat.lt_of_le_of_ne (Nat.lt_succ_iff.mp hj) fun heq => ?_
    rw [heq] at hfound hrec
    exact hkey.elim hfound hrec
  refine ⟨hok, fun a ha => ?_, fun a h₁ h₂ hf hr => ?_, fun e he => h.cached e ((hcache e).mp he),
    fun id hid => (hothers id hid).trans (h.others id hid), fun j leaf h₁ h₂ hf hr hleaf hle => ?_,
    fun hnil e he => ?_⟩
  · rw [hres]
    exact h.same a (ha.imp_right fun ha => ha.imp_left fun ha => Nat.le_of_succ_le ha)
  · rw [hres]
    exact h.reads a h₁ (hne a h₂ hf hr) hf hr
  · obtain ⟨e, he, hk⟩ := h.warm j leaf h₁ (hne j h₂ hf hr) hf hr hleaf (by omega)
    exact ⟨e, (hcache e).mpr he, hk⟩
  · obtain ⟨j, h₁, h₂, hj⟩ := h.loaded hnil e ((hcache e).mp he)
    exact ⟨j, h₁, by omega, hj⟩

/-- A key of the file that is not found yet. -/
theorem Scan.read (h : f.Scan start stop st₀ first key st) (hs : f.Sorted) (hfirst : first ≤ key)
    (hfound : key ∉ st₀.found) (hrec : f.recordsOf key ≠ []) {leaf : Leaf κ}
    (hleaf : f.searchLeafKeyPos key = some leaf) (hok : st'.Ok start stop)
    (hres : ∀ a, key ≠ a → st'.results.get a = st.results.get a)
    (hothers : ∀ id, id ≠ f.id → st'.caches id = st.caches id)
    (hvalue : f.Reads (· ∈ st₀.found) first (st₀.caches f.id) key (st'.results.get key))
    (hcached : f.Cached (st'.caches f.id)) (hhas : (st'.caches f.id).Has leaf.key)
    (hcache : ∀ e ∈ (st'.caches f.id).entries, e ∈ (st.caches f.id).entries ∨ e.2 = leaf) :
    f.Scan start stop st₀ first (key + 1) st' := by
  refine ⟨hok, fun a ha => ?_, fun a h₁ h₂ hf hr => ?_, hcached,
    fun id hid => (hothers id hid).trans (h.others id hid), fun j leaf' h₁ h₂ hf hr hleaf' hle => ?_,
    fun hnil e he => ?_⟩
  · have hne : key ≠ a := by
      rintro rfl
      rcases ha with ha | ha | ha | ha
      · omega
      · omega
      · exact hfound ha
      · exact hrec ha
    rw [hres a hne]
    exact h.same a (ha.imp_right fun ha => ha.imp_left fun ha => Nat.le_of_succ_le ha)
  · by_cases ha : key = a
    · exact ha ▸ hvalue
    · rw [hres a ha]
      exact h.reads a h₁ (by omega) hf hr
  · -- a leaf that is still needed is the one of this key
    have hsame := searchLeafKeyPos_of_le hs hleaf' (Nat.lt_succ_iff.mp h₂) (by omega)
    obtain rfl := Option.some.inj (hleaf.symm.trans hsame)
    exact hhas
  · rcases hcache e he with he | he
    · obtain ⟨j, h₁, h₂, hj⟩ := h.loaded hnil e he
      exact ⟨j, h₁, by omega, hj⟩
    · exact ⟨key, hfirst, Nat.lt_succ_self key, hfound, hrec, he ▸ hleaf⟩

/-- **One key.** -/
theorem Scan.step (h : f.Scan start stop st₀ first key st) (hs : f.Sorted) (hfirst : first ≤ key)
    (hstart : start ≤ key) (hstop : key ≤ stop) (hok₀ : st₀.Ok start stop)
    (hst : f.rangeStep st key = some st') : f.Scan start stop st₀ first (key + 1) st' := by
  classical
  have hfound : key ∈ st.found ↔ key ∈ st₀.found := by
    rw [h.ok.found, hok₀.found, h.same key (by omega)]
  rw [rangeStep] at hst
  split at hst
  · rename_i hmem
    obtain rfl := Option.some.inj hst
    exact h.pass (Or.inl (hfound.mp hmem)) h.ok (fun _ => rfl) (fun _ _ => rfl) fun _ => Iff.rfl
  · rename_i hnot
    split at hst
    · cases hst
    · have hothers : ∀ (cache : LruCache (Leaf κ)) id, id ≠ f.id →
          (st.setCache f.id cache).caches id = st.caches id := fun cache id hid =>
        Function.update_of_ne hid _ _
      have hself : ∀ cache : LruCache (Leaf κ), (st.setCache f.id cache).caches f.id = cache :=
        fun cache => Function.update_self _ _ _
      cases hleaf : f.searchLeafKeyPos key with
      | none =>
        -- the key is out of range
        have hrec : f.recordsOf key = [] := by
          by_contra hne
          obtain ⟨leaf, hsome⟩ := exists_leaf hs hne
          rw [hleaf] at hsome
          cases hsome
        have hcached : f.searchCachedLeaf (st.caches f.id) key = (none, st.caches f.id) := by
          rw [searchCachedLeaf, hleaf]
        have hnone : f.searchLeaf key = none := by
          rw [searchLeaf, hleaf]
          rfl
        rw [hcached] at hst
        simp only [hnone] at hst
        obtain rfl := Option.some.inj hst
        refine h.pass (Or.inr hrec) (h.ok.setCache _ _) (fun _ => rfl) (hothers _) fun e => ?_
        rw [hself]
      | some leaf =>
        rw [h.cached.searchCachedLeaf hs hleaf, searchLeaf_eq hleaf] at hst
        by_cases hnil : f.leafRecords key = []
        · -- the leaf does not have the key
          simp only [hnil, List.head?_nil, ite_self, if_true] at hst
          obtain rfl := Option.some.inj hst
          refine h.pass (Or.inr ((leafRecords_eq_nil hs).mp hnil)) (h.ok.setCache _ _)
            (fun _ => rfl) (hothers _) fun e => ?_
          rw [hself, LruCache.mem_get]
        · have hrec : f.recordsOf key ≠ [] := mt (leafRecords_eq_nil hs).mpr hnil
          have hnot₀ : key ∉ st₀.found := mt hfound.mpr hnot
          obtain ⟨r, hr⟩ := Option.isSome_iff_exists.mp (List.isSome_head?.mpr hnil)
          by_cases hhas : (st.caches f.id).Has leaf.key
          · -- a hit: the first record
            simp only [hhas, if_true, hr] at hst
            obtain rfl := Option.some.inj hst
            obtain ⟨hok, hget⟩ := (h.ok.setCache f.id _).put hstart hstop r
            refine h.read hs hfirst hnot₀ hrec hleaf hok (fun a ha => ?_) (hothers _) ?_ ?_ ?_ ?_
            · rw [hget, if_neg ha]
              rfl
            · rw [hget, if_pos rfl]
              refine ⟨rfl, fun _ => ?_, fun htorn hempty => ?_⟩
              · rw [← head?_leafRecords hs, hr]
              · obtain ⟨e, he, hkey⟩ := hhas
                obtain ⟨j, h₁, h₂, hf, hrj, hj⟩ := h.loaded hempty e he
                have hsame := (h.cached e he).1
                obtain ⟨-, -, hle, -⟩ := searchLeafKeyPos_eq_some.mp hleaf
                rw [hkey, searchLeafKeyPos_of_le hs hleaf hle le_rfl] at hsame
                refine absurd ?_ (htorn.2 j h₁ h₂ hf hrj)
                rw [hj, hleaf, hsame]
            · exact (hself _).symm ▸ h.cached.get _
            · exact (hself _).symm ▸ (LruCache.has_get _ _ _).mpr hhas
            · intro e he
              exact Or.inl ((LruCache.mem_get _ _ _).mp ((hself _) ▸ he))
          · -- a miss: the records of the leaf, one over the other
            simp only [hhas, if_false, hnil] at hst
            obtain rfl := Option.some.inj hst
            obtain ⟨hok, hcaches, hget⟩ := (h.ok.setCache f.id
              (((st.caches f.id).get leaf.key).2.put leaf.key leaf)).putAll hstart hstop
                (leaf.filter fun e => e.1 = key)
            have hlast : ((leaf.filter fun e => e.1 = key).map Prod.snd).getLast?.isSome = true := by
              rw [← leafRecords_of_leaf hleaf, List.getLast?_isSome]
              exact hnil
            obtain ⟨r', hr'⟩ := Option.isSome_iff_exists.mp hlast
            refine h.read hs hfirst hnot₀ hrec hleaf hok (fun a ha => ?_) (fun id hid => ?_) ?_ ?_ ?_ ?_
            · rw [hget, if_neg ha]
              rfl
            · rw [hcaches]
              exact hothers _ id hid
            · rw [hget, if_pos rfl, hr']
              refine ⟨rfl, fun hwhole => ?_, fun _ _ => ?_⟩
              · -- only one record, or the leaf would be in the cache
                rw [← leafRecords_of_leaf hleaf] at hr'
                rw [Option.some_or, ← hr', ← head?_leafRecords hs]
                by_cases htwo : 2 ≤ (f.leafRecords key).length
                · exfalso
                  refine hwhole ⟨htwo, fun j h₁ h₂ hf hrj hj => hhas ?_⟩
                  obtain ⟨-, -, hle, -⟩ := searchLeafKeyPos_eq_some.mp hleaf
                  exact h.warm j leaf h₁ h₂ hf hrj (hj.trans hleaf) hle
                · match hl : f.leafRecords key, hnil, htwo with
                  | [r], _, _ => rfl
                  | _ :: _ :: _, _, htwo => simp at htwo
              · rw [Option.some_or, leafRecords_of_leaf hleaf, hr']
            · rw [hcaches, hself]
              exact (h.cached.get _).put hs hleaf
            · rw [hcaches, hself]
              exact LruCache.has_put _ _ _
            · intro e he
              rw [hcaches, hself] at he
              rcases LruCache.mem_put he with rfl | he
              · exact Or.inr rfl
              · exact Or.inl ((LruCache.mem_get _ _ _).mp he)

/-- **The loop.** -/
theorem Scan.exec (h : f.Scan start stop st₀ first key st) (hs : f.Sorted) (hfirst : first ≤ key)
    (hstart : start ≤ first) {n : ℕ} (hstop : key + n ≤ stop + 1) (hok₀ : st₀.Ok start stop)
    (hst : Machine.exec f.rangeStep st (List.range' key n) = some st') :
    f.Scan start stop st₀ first (key + n) st' := by
  induction n generalizing key st with
  | zero =>
    obtain rfl := Option.some.inj hst
    exact h
  | succ n ih =>
    rw [List.range'_succ] at hst
    obtain ⟨s₁, hs₁, hrest⟩ := Machine.exec_cons_eq_some hst
    have hstep := h.step hs hfirst (by omega) (by omega) hok₀ hs₁
    have hdone := ih hstep (by omega) (by omega) hrest
    rwa [Nat.add_right_comm] at hdone

/-- What `bit_file_range_search` does. -/
structure RangeSpec (f : BitFile κ) (start stop : ℕ) (st st' : RangeState κ) : Prop where
  /-- the result set -/
  ok : st'.Ok start stop
  /-- nothing happens to keys that are not in the file or found already -/
  same : ∀ a, ¬(start ≤ a ∧ a ≤ stop ∧ a ∉ st.found ∧ f.recordsOf a ≠ []) →
    st'.results.get a = st.results.get a
  /-- the keys of the file -/
  reads : ∀ a, start ≤ a → a ≤ stop → a ∉ st.found → f.recordsOf a ≠ [] →
    f.Reads (· ∈ st.found) start (st.caches f.id) a (st'.results.get a)
  /-- the cache has leaves of the file -/
  cached : f.Cached (st'.caches f.id)
  /-- the other caches are as before -/
  others : ∀ id, id ≠ f.id → st'.caches id = st.caches id

/-- **Range lookup in a file.** -/
theorem rangeSearch_spec (hs : f.Sorted) (hle : start ≤ stop) (hok : st.Ok start stop)
    (hc : f.Cached (st.caches f.id)) (hst : f.rangeSearch start stop st = some st') : f.RangeSpec start stop st st' := by
  have hkeys : ∀ a, f.recordsOf a ≠ [] → f.firstKey ≤ a ∧ a ≤ f.lastKey := by
    intro a ha
    obtain ⟨r, hr⟩ := List.exists_mem_of_ne_nil _ ha
    exact ⟨firstKey_le hs (mem_recordsOf.mp hr), le_lastKey hs (mem_recordsOf.mp hr)⟩
  rw [rangeSearch] at hst
  split at hst
  · rename_i hout
    obtain rfl := Option.some.inj hst
    refine ⟨hok, fun _ _ => rfl, fun a h₁ h₂ _ hr => ?_, hc, fun _ _ => rfl⟩
    have := hkeys a hr
    omega
  · rename_i hin
    have hscan := (Scan.init hok hc (max start f.firstKey)).exec hs le_rfl (Nat.le_max_left _ _)
      (by omega) hok hst
    have hend : max start f.firstKey + (min stop f.lastKey + 1 - max start f.firstKey) =
        max (max start f.firstKey) (min stop f.lastKey + 1) := by omega
    rw [hend] at hscan
    refine ⟨hscan.ok, fun a ha => hscan.same a ?_, fun a h₁ h₂ hf hr => ?_, hscan.cached,
      hscan.others⟩
    · by_contra hcon
      push Not at hcon
      obtain ⟨h₁, h₂, hf, hr⟩ := hcon
      exact ha ⟨by omega, by omega, hf, hr⟩
    · obtain ⟨h₃, h₄⟩ := hkeys a hr
      exact (hscan.reads a (by omega) (by omega) hf hr).of_first hs

end BitFile

end JinDisk
