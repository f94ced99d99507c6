import JinDisk.BitReader

/-!
# The cache of leaves

A file keeps leaves that it has read, each under its last key. When a leaf is stored, this key is
taken from the leaf itself; a lookup comes to it from above, through the inner nodes. For what a
builder has written the two are the same. Of two leaves with the same last key only the first one is
ever looked at (`WellKeyed`). So what is cached is what would be read (`Coherent`), whatever was
looked up before and has left the cache since, and `bit_file_search` answers as it does without it.
-/

namespace JinDisk

/-- What `bit_file_range_search` changes. -/
structure FileRange where
  /-- `results` -/
  results : Memtable GcmKey
  /-- the keys whose bit is set in `found` -/
  found : Finset ℕ
  /-- `cached_leaf` -/
  cache : LruCache (BitLeaf GcmKey)

namespace FileRange

/-- `results->put` of a copy of the record, and `set_bit`. -/
def put (st : FileRange) (key : ℕ) (r : Record GcmKey) : FileRange :=
  { st with results := (st.results.put key (some r)).1, found := insert key st.found }

theorem foldl_put_cache (st : FileRange) (key : ℕ) (es : Leaf GcmKey) :
    (es.foldl (fun st e => st.put key e.2) st).cache = st.cache := by
  induction es generalizing st with
  | nil => rfl
  | cons e es ih => exact ih (st.put key e.2)

end FileRange

namespace DiskBitFile

variable (c : AeadCipher) (file : ℕ → UInt8) (f : DiskBitFile)

/-- The body of the loop of `bit_file_range_search`. -/
def rangeStep (st : FileRange) (key : ℕ) : Option FileRange :=
  if key ∈ st.found then some st
  else
    (f.searchCachedLeaf st.cache key).bind fun
      | (some r, cache) => some ({ st with cache }.put key r)
      | (none, cache) =>
        (f.searchLeaf c file key).map fun
          | .error _ => { st with cache }
          | .ok leaf =>
            (leaf.entries.filter fun e => e.1 = key).foldl (fun st e => st.put key e.2)
              { st with cache := cache.put (BitNode.leaf leaf).lastKey leaf }

/-- `bit_file_range_search`. The loop jumps over the keys in front of the file. -/
def rangeSearch (start stop : ℕ) (st : FileRange) : Option FileRange :=
  if f.lastKey < start ∨ stop < f.firstKey then some st
  else
    Machine.exec (f.rangeStep c file) st
      (List.range' (max start f.firstKey) (min stop f.lastKey + 1 - max start f.firstKey))

/-- A call for the file. -/
inductive Lookup where
  /-- `bit_file_search` -/
  | search (key : ℕ)
  /-- `bit_file_range_search`, with what is in the result set and in the bitmap -/
  | rangeSearch (start stop : ℕ) (results : Memtable GcmKey) (found : Finset ℕ)

/-- What a call leaves in the cache. -/
def lookup (cache : LruCache (BitLeaf GcmKey)) : Lookup → Option (LruCache (BitLeaf GcmKey))
  | .search key => (f.search c file cache key).map Prod.snd
  | .rangeSearch start stop results found =>
    (f.rangeSearch c file start stop ⟨results, found, cache⟩).map FileRange.cache

/-- `bit_file_search` as it is when nothing is cached: code and record. -/
def searchUncached (key : ℕ) : Option (Except Int (Option (Record GcmKey))) :=
  (f.searchLeaf c file key).map fun
    | .error err => .error err
    | .ok leaf => .ok ((leaf.entries.find? fun e => e.1 = key).map Prod.snd)

/-- What is cached under a key is the leaf that is read when the inner nodes lead to this key. -/
def Coherent (cache : LruCache (BitLeaf GcmKey)) : Prop :=
  ∀ e ∈ cache.entries, ∀ key pos, f.searchLeafKeyPos key = some (.ok (e.1, pos)) →
    readLeaf c file f.rootKey pos = .ok e.2

/-- When a leaf is read for one of its keys, it is the one that is read for every key that leads to
its last key. -/
def WellKeyed : Prop :=
  ∀ key leaf, f.searchLeaf c file key = some (.ok leaf) → ∀ key' pos,
    f.searchLeafKeyPos key' = some (.ok ((BitNode.leaf leaf).lastKey, pos)) →
      readLeaf c file f.rootKey pos = .ok leaf

variable {c file f} {cache cache' : LruCache (BitLeaf GcmKey)} {key : ℕ}

theorem coherent_nil (capacity : ℕ) : f.Coherent c file ⟨capacity, []⟩ := by
  intro e he
  cases he

/-- A look into the cache: it stays coherent, and a record that is found is the one on disk. -/
theorem Coherent.searchCachedLeaf (h : f.Coherent c file cache) {res : Option (Record GcmKey)}
    (hs : f.searchCachedLeaf cache key = some (res, cache')) :
    f.Coherent c file cache' ∧
      ∀ r, res = some r → f.searchUncached c file key = some (.ok (some r)) := by
  obtain ⟨found, hpos, hres⟩ := Option.map_eq_some_iff.mp hs
  cases found with
  | error err =>
    obtain ⟨rfl, rfl⟩ := Prod.mk.inj hres
    exact ⟨h, fun r hr => by cases hr⟩
  | ok place =>
    obtain ⟨leafKey, pos⟩ := place
    obtain ⟨rfl, rfl⟩ := Prod.mk.inj hres
    refine ⟨fun e he => h e ((cache.mem_get leafKey e).mp he), fun r hr => ?_⟩
    obtain ⟨leaf, hget, hfind⟩ := Option.bind_eq_some_iff.mp hr
    have hread := h _ (LruCache.mem_of_get hget) key pos hpos
    obtain ⟨e, he, -⟩ := Option.map_eq_some_iff.mp hfind
    have hkey := List.find?_some he
    have hany : leaf.entries.any (fun e => e.1 = key) = true :=
      List.any_eq_true.mpr ⟨e, List.mem_of_find?_eq_some he, hkey⟩
    simp only [searchUncached, searchLeaf, hpos, hread, hany, Option.map_some, if_true, hfind]

/-- A leaf that was read is stored. -/
theorem Coherent.put (h : f.Coherent c file cache) (hk : f.WellKeyed c file)
    {leaf : BitLeaf GcmKey} (hleaf : f.searchLeaf c file key = some (.ok leaf)) :
    f.Coherent c file (cache.put (BitNode.leaf leaf).lastKey leaf) := by
  intro e he
  rcases LruCache.mem_put he with rfl | he
  · exact hk key leaf hleaf
  · exact h e he

/-- **A lookup does not depend on the cache**, and leaves it coherent. -/
theorem Coherent.search (h : f.Coherent c file cache) (hk : f.WellKeyed c file) (key : ℕ) :
    (f.search c file cache key).map Prod.fst = f.searchUncached c file key ∧
      ∀ r, f.search c file cache key = some r → f.Coherent c file r.2 := by
  rw [DiskBitFile.search]
  cases hs : f.searchCachedLeaf cache key with
  | none =>
    have hpos : f.searchLeafKeyPos key = none := Option.map_eq_none_iff.mp hs
    rw [searchUncached, searchLeaf, hpos]
    exact ⟨rfl, fun r hr => by cases hr⟩
  | some res =>
    obtain ⟨res, cache'⟩ := res
    obtain ⟨hc, hfound⟩ := h.searchCachedLeaf hs
    cases res with
    | some r =>
      rw [hfound r rfl]
      exact ⟨rfl, fun r hr => Option.some.inj hr ▸ hc⟩
    | none =>
      simp only [Option.bind_some, searchUncached]
      cases hleaf : f.searchLeaf c file key with
      | none => exact ⟨rfl, fun r hr => by cases hr⟩
      | some found =>
        cases found with
        | error err => exact ⟨rfl, fun r hr => Option.some.inj hr ▸ hc⟩
        | ok leaf => exact ⟨rfl, fun r hr => Option.some.inj hr ▸ hc.put hk hleaf⟩

/-- **One key** of a range lookup. -/
theorem Coherent.rangeStep {st st' : FileRange} (h : f.Coherent c file st.cache)
    (hk : f.WellKeyed c file) (hst : f.rangeStep c file st key = some st') :
    f.Coherent c file st'.cache := by
  rw [DiskBitFile.rangeStep] at hst
  split at hst
  · exact Option.some.inj hst ▸ h
  · obtain ⟨⟨res, cache'⟩, hs, hrest⟩ := Option.bind_eq_some_iff.mp hst
    obtain ⟨hc, -⟩ := h.searchCachedLeaf hs
    cases res with
    | some r => exact Option.some.inj hrest ▸ hc
    | none =>
      obtain ⟨found, hleaf, rfl⟩ := Option.map_eq_some_iff.mp hrest
      cases found with
      | error err => exact hc
      | ok leaf =>
        simp only [FileRange.foldl_put_cache]
        exact hc.put hk hleaf

/-- **One call.** -/
theorem Coherent.lookup (h : f.Coherent c file cache) (hk : f.WellKeyed c file) {call : Lookup}
    (hcall : f.lookup c file cache call = some cache') : f.Coherent c file cache' := by
  cases call with
  | search key =>
    obtain ⟨r, hr, rfl⟩ := Option.map_eq_some_iff.mp hcall
    exact (h.search hk key).2 r hr
  | rangeSearch start stop results found =>
    obtain ⟨st', hst, rfl⟩ := Option.map_eq_some_iff.mp hcall
    rw [DiskBitFile.rangeSearch] at hst
    split at hst
    · exact Option.some.inj hst ▸ h
    · exact Machine.invariant_of_all
        (fun st key st' (hst : f.Coherent c file st.cache) hstep => hst.rangeStep hk hstep) h hst

/-! ## Calls that return -/

/-- Where the inner nodes lead somewhere, or a key is out of range, a look into the cache returns. -/
theorem exists_searchCachedLeaf (h : f.searchLeafKeyPos key ≠ none)
    (cache : LruCache (BitLeaf GcmKey)) :
    ∃ res cache', f.searchCachedLeaf cache key = some (res, cache') := by
  obtain ⟨found, hfound⟩ := Option.ne_none_iff_exists'.mp h
  exact ⟨_, _, congrArg (Option.map _) hfound⟩

theorem exists_searchLeaf (c : AeadCipher) (file : ℕ → UInt8) (h : f.searchLeafKeyPos key ≠ none) :
    ∃ found, f.searchLeaf c file key = some found := by
  obtain ⟨found, hfound⟩ := Option.ne_none_iff_exists'.mp h
  exact ⟨_, congrArg (Option.map _) hfound⟩

theorem exists_rangeStep (c : AeadCipher) (file : ℕ → UInt8)
    (h : ∀ key, f.searchLeafKeyPos key ≠ none) (st : FileRange) (key : ℕ) :
    ∃ st', f.rangeStep c file st key = some st' := by
  rw [rangeStep]
  split
  · exact ⟨_, rfl⟩
  · obtain ⟨res, cache', hs⟩ := exists_searchCachedLeaf (h key) st.cache
    obtain ⟨found, hleaf⟩ := exists_searchLeaf c file (h key)
    rw [hs, Option.bind_some]
    cases res with
    | some r => exact ⟨_, rfl⟩
    | none => exact ⟨_, congrArg (Option.map _) hleaf⟩

theorem exists_search (h : f.searchLeafKeyPos key ≠ none) (cache : LruCache (BitLeaf GcmKey)) :
    ∃ r, f.search c file cache key = some r := by
  obtain ⟨res, cache', hs⟩ := exists_searchCachedLeaf h cache
  obtain ⟨found, hleaf⟩ := exists_searchLeaf c file h
  rw [search, hs, Option.bind_some]
  cases res with
  | some r => exact ⟨_, rfl⟩
  | none => exact ⟨_, congrArg (Option.map _) hleaf⟩

/-- Then every call returns. -/
theorem exists_lookup (h : ∀ key, f.searchLeafKeyPos key ≠ none)
    (cache : LruCache (BitLeaf GcmKey)) (call : Lookup) :
    ∃ cache', f.lookup c file cache call = some cache' := by
  cases call with
  | search key =>
    obtain ⟨r, hr⟩ := exists_search (h key) cache
    exact ⟨_, congrArg (Option.map _) hr⟩
  | rangeSearch start stop results found =>
    rw [lookup, rangeSearch]
    split
    · exact ⟨_, rfl⟩
    · obtain ⟨st', hst'⟩ := Machine.exists_exec (exists_rangeStep c file h)
        ⟨results, found, cache⟩
        (List.range' (max start f.firstKey) (min stop f.lastKey + 1 - max start f.firstKey))
      exact ⟨_, congrArg (Option.map _) hst'⟩

/-! ## Files of a builder -/

/-- A leaf that is found is read from where the inner nodes lead to. -/
theorem searchLeaf_eq_ok {leaf : BitLeaf GcmKey} (h : f.searchLeaf c file key = some (.ok leaf)) :
    ∃ leafKey pos, f.searchLeafKeyPos key = some (.ok (leafKey, pos)) ∧
      readLeaf c file f.rootKey pos = .ok leaf := by
  obtain ⟨found, hfound, hread⟩ := Option.map_eq_some_iff.mp h
  cases found with
  | error err => cases hread
  | ok place =>
    refine ⟨place.1, place.2, hfound, ?_⟩
    simp only at hread
    split at hread
    · cases hread
    · rename_i leaf' hleaf'
      split at hread
      · rw [hleaf', Except.ok.inj hread]
      · cases hread

theorem inRange_of_searchLeafKeyPos {x : ℕ × ℕ} (h : f.searchLeafKeyPos key = some (.ok x)) :
    ¬(key < f.firstKey ∨ f.lastKey < key) := by
  intro hout
  rw [searchLeafKeyPos, if_pos hout] at h
  cases Option.some.inj h

/-- Where only one key is ever looked up, there is only one leaf. -/
theorem wellKeyed_of_single (hrange : f.lastKey = f.firstKey) : f.WellKeyed c file := by
  intro key leaf hleaf key' pos hpos'
  obtain ⟨leafKey, place, hpos, hread⟩ := searchLeaf_eq_ok hleaf
  have hin := inRange_of_searchLeafKeyPos hpos
  have hin' := inRange_of_searchLeafKeyPos hpos'
  obtain rfl : key = key' := by omega
  obtain ⟨-, rfl⟩ := Prod.mk.inj (Except.ok.inj (Option.some.inj (hpos.symm.trans hpos')))
  exact hread

end DiskBitFile

variable {c : AeadCipher} {file : ℕ → UInt8} {es : List (ℕ × Record GcmKey)} {groups : List Group}
  {f : DiskBitFile}

/-- The first leaf that reaches up to a key is the first one for larger keys, too, as far as it
goes. -/
theorem find?_leaf_of_le {leaves : List PlacedLeaf} {x : PlacedLeaf} {key key' : ℕ}
    (hx : leaves.find? (fun x => key ≤ x.1.key) = some x) (hle : key ≤ key')
    (hkey : key' ≤ x.1.key) : leaves.find? (fun x => key' ≤ x.1.key) = some x := by
  obtain ⟨-, as, bs, heq, hbefore⟩ := List.find?_eq_some_iff_append.mp hx
  refine List.find?_eq_some_iff_append.mpr ⟨by simpa using hkey, as, bs, heq, fun a ha => ?_⟩
  have hlt := hbefore a ha
  simp only [Bool.not_eq_true', decide_eq_false_iff_not, Nat.not_le] at hlt ⊢
  exact hlt.trans_le hle

/-- **A table of a builder.** Its inner nodes have the last keys of the leaves. Of leaves with the
same last key the first one is meant. -/
theorem OnDisk.wellKeyed (hc : c.Lawful) (h : OnDisk c file es groups f) (hs : (tableFile es).Sorted)
    (hne : es ≠ []) : f.WellKeyed c file := by
  intro key leaf hleaf key' pos' hpos'
  obtain ⟨leafKey, pos, hpos, hread⟩ := DiskBitFile.searchLeaf_eq_ok hleaf
  obtain ⟨x, hx, -, hplace⟩ := h.searchLeafKeyPos hs hne (DiskBitFile.inRange_of_searchLeafKeyPos hpos)
  obtain ⟨x', hx', -, hplace'⟩ :=
    h.searchLeafKeyPos hs hne (DiskBitFile.inRange_of_searchLeafKeyPos hpos')
  obtain ⟨-, rfl⟩ := Prod.mk.inj (Except.ok.inj (Option.some.inj (hpos.symm.trans hplace)))
  obtain ⟨hlast', rfl⟩ := Prod.mk.inj (Except.ok.inj (Option.some.inj (hpos'.symm.trans hplace')))
  obtain ⟨l, hl, -, hlast⟩ := h.readLeaf hc (List.mem_of_find?_eq_some hx)
  obtain rfl := Except.ok.inj (hl.symm.trans hread)
  have hsame : x'.1.key = x.1.key := hlast'.symm.trans hlast
  -- the two keys lead to the same leaf
  have hkey : key ≤ x.1.key := by simpa using List.find?_some hx
  have hkey' : key' ≤ x'.1.key := by simpa using List.find?_some hx'
  have heq : x = x' := by
    rcases Nat.le_total key key' with hle | hle
    · exact Option.some.inj ((find?_leaf_of_le hx hle (hsame ▸ hkey')).symm.trans hx')
    · exact Option.some.inj (hx.symm.trans (find?_leaf_of_le hx' hle (hsame.symm ▸ hkey)))
  exact heq ▸ hread

/-- And they lead somewhere for every key in range. -/
theorem OnDisk.searchLeafKeyPos_ne_none (h : OnDisk c file es groups f) (hs : (tableFile es).Sorted)
    (hne : es ≠ []) (key : ℕ) : f.searchLeafKeyPos key ≠ none := by
  by_cases hin : key < f.firstKey ∨ f.lastKey < key
  · rw [OnDisk.searchLeafKeyPos_out hin]
    exact Option.some_ne_none _
  · obtain ⟨x, -, -, hx⟩ := h.searchLeafKeyPos hs hne hin
    rw [hx]
    exact Option.some_ne_none _

theorem BitBuilder.keys_with_ctx {κ : Type} (b : BitBuilder κ) (ctx : List (BitContext κ))
    (cur : ℕ) : { b with ctx := ctx, cur := cur }.firstKey = b.firstKey ∧
      { b with ctx := ctx, cur := cur }.lastKey = b.lastKey := ⟨rfl, rfl⟩

/-- Completing a table does not change its keys. -/
theorem BitBuilder.complete_keys {κ : Type} (b : BitBuilder κ) :
    b.complete.1.firstKey = b.firstKey ∧ b.complete.1.lastKey = b.lastKey := by
  rw [complete]
  split
  · exact ⟨rfl, rfl⟩
  · split
    · obtain ⟨-, -, hfirst, hlast, -⟩ := b.reserveLeaf_kept
      have hkeys := b.reserveLeaf.keys_with_ctx
      exact ⟨(hkeys _ _).1.trans hfirst, (hkeys _ _).2.trans hlast⟩
    · obtain ⟨hfirst, hlast⟩ := b.bufferFlushIfFull_keys
      have hkeys := b.bufferFlushIfFull.keys_with_ctx
      exact ⟨(hkeys _ _).1.trans hfirst, (hkeys _ _).2.trans hlast⟩

theorem BitWriter.copyNodes_builder {w w' : BitWriter} {nodes : List (ℕ × BitNode GcmKey)}
    (h : w.copyNodes c nodes = some w') : w'.builder = w.builder := by
  simp only [copyNodes] at h
  split at h
  · obtain rfl := Option.some.inj h
    rfl
  · cases h

theorem BitWriter.complete_keys {w w' : BitWriter} (h : w.complete c = some w') :
    w'.builder.firstKey = w.builder.firstKey ∧ w'.builder.lastKey = w.builder.lastKey := by
  rw [complete] at h
  split at h
  · obtain rfl := Option.some.inj h
    exact ⟨rfl, rfl⟩
  · obtain ⟨v, hv, rfl⟩ := Option.map_eq_some_iff.mp h
    have hbuilder := copyNodes_builder hv
    show v.builder.firstKey = _ ∧ v.builder.lastKey = _
    rw [hbuilder]
    exact w.builder.complete_keys

/-- **The cache of leaves is transparent.** In a file that a builder has made, after any calls,
`bit_file_search` gives the code and the record that it gives with an empty cache. -/
theorem leaf_cache_transparent (hc : c.Lawful) (file buffer : ℕ → UInt8) (start : ℕ) (key : GcmKey)
    (hend : start + calculateBitSize defaultLsmFileCapacity defaultBitDegree < 2 ^ 64)
    (hlen : es.length ≤ defaultLsmFileCapacity) (hfits : ∀ e ∈ es, e.1 < 2 ^ 32 ∧ e.2.Fits)
    (hs : es.Pairwise fun a b => a.1 ≤ b.1) {w w' : BitWriter}
    (hw : Machine.exec (BitWriter.addEntry c) (.create file buffer start key) es = some w)
    (hcomplete : w.complete c = some w') (capacity : ℕ) (calls : List DiskBitFile.Lookup)
    (cache : LruCache (BitLeaf GcmKey))
    (hcalls : Machine.exec ((w'.bitFile c).lookup c w'.file) ⟨capacity, []⟩ calls = some cache)
    (k : ℕ) :
    ((w'.bitFile c).search c w'.file cache k).map Prod.fst =
      ((w'.bitFile c).search c w'.file ⟨capacity, []⟩ k).map Prod.fst := by
  have hk : (w'.bitFile c).WellKeyed c w'.file := by
    by_cases hne : es = []
    · subst hne
      obtain rfl := Option.some.inj hw
      obtain ⟨hfirst, hlast⟩ := BitWriter.complete_keys hcomplete
      refine DiskBitFile.wellKeyed_of_single ?_
      rw [BitWriter.bitFile, hfirst, hlast]
      rfl
    · obtain ⟨v, v', groups, hv, hv', hfin⟩ :=
        BitWriter.exists_finished hc file buffer key hend hfits hlen hne
      obtain rfl := Option.some.inj (hv.symm.trans hw)
      obtain rfl := Option.some.inj (hv'.symm.trans hcomplete)
      exact (hfin.onDisk hc).wellKeyed hc hs hne
  have hempty : (w'.bitFile c).Coherent c w'.file ⟨capacity, []⟩ := DiskBitFile.coherent_nil capacity
  have hcoherent : (w'.bitFile c).Coherent c w'.file cache :=
    Machine.invariant_of_all (fun _ _ _ (h : DiskBitFile.Coherent _ _ _ _) hcall =>
      h.lookup hk hcall) hempty hcalls
  exact (hcoherent.search hk k).1.trans (hempty.search hk k).1.symm

/-- The table of `sampleEntries`, after a range lookup of all keys. -/
theorem leaf_cache_transparent_sample :
    ∃ w w' cache, Machine.exec (BitWriter.addEntry addingAead)
        (.create (fun _ => 0) (fun _ => 0) 4096 (.replicate 16 7)) sampleEntries = some w ∧
      w.complete addingAead = some w' ∧
      Machine.exec ((w'.bitFile addingAead).lookup addingAead w'.file) ⟨maxLeafNodeCached, []⟩
        [.rangeSearch 0 9 .create ∅] = some cache ∧
      ((w'.bitFile addingAead).search addingAead w'.file cache 3).map Prod.fst =
        ((w'.bitFile addingAead).search addingAead w'.file ⟨maxLeafNodeCached, []⟩ 3).map Prod.fst := by
  have hend : 4096 + calculateBitSize defaultLsmFileCapacity defaultBitDegree < 2 ^ 64 := by
    rw [calculateBitSize_default]
    decide
  have hlen : sampleEntries.length ≤ defaultLsmFileCapacity := by decide
  have hne : sampleEntries ≠ [] := by decide
  have hs : sampleEntries.Pairwise fun a b => a.1 ≤ b.1 := by decide
  have hfits : ∀ e ∈ sampleEntries, e.1 < 2 ^ 32 ∧ e.2.Fits := by
    intro e he
    simp only [sampleEntries, List.mem_cons, List.not_mem_nil, or_false] at he
    rcases he with rfl | rfl | rfl <;> exact ⟨by decide, by decide, by decide⟩
  obtain ⟨w, w', groups, hw, hcomplete, hfin⟩ := BitWriter.exists_finished addingAead_lawful
    (fun _ => 0) (fun _ => 0) (.replicate 16 7) hend hfits hlen hne
  obtain ⟨cache, hcalls⟩ := Machine.exists_exec (DiskBitFile.exists_lookup
    ((hfin.onDisk addingAead_lawful).searchLeafKeyPos_ne_none hs hne)) ⟨maxLeafNodeCached, []⟩
    [.rangeSearch 0 9 .create ∅]
  exact ⟨w, _, cache, hw, hcomplete, hcalls, leaf_cache_transparent addingAead_lawful _ _ 4096 _
    hend hlen hfits hs hw hcomplete _ _ cache hcalls 3⟩

end JinDisk
