import JinDisk.TablePlaces

/-!
# Range lookups on disk

`bit_file_range_search` as it is in the file, and as the levels see it. The cache has nodes there and
leaves of entries here (`FileRange.asRange`); where the one returns the other does, with the same keys
found and the same records put, and what is cached are still leaves of the table.
-/

namespace JinDisk

/-! ## The cache in a range lookup of the levels -/

section Caches

variable {κ : Type} {g : BitFile κ}

theorem RangeState.foldl_put_caches (st : RangeState κ) (key : ℕ) (es : Leaf κ) :
    (es.foldl (fun st e => st.put key e.2) st).caches = st.caches := by
  induction es generalizing st with
  | nil => rfl
  | cons e es ih => exact ih (st.put key e.2)

/-- The cache still has leaves of the file only. -/
theorem BitFile.Cached.of_rangeStep {st st' : RangeState κ} {key : ℕ} (hs : g.Sorted)
    (hc : g.Cached (st.caches g.id)) (h : g.rangeStep st key = some st') :
    g.Cached (st'.caches g.id) := by
  have hlook : g.Cached (g.searchCachedLeaf (st.caches g.id) key).2 := by
    rw [BitFile.searchCachedLeaf]
    split
    · exact hc
    · exact hc.get _
  rw [BitFile.rangeStep] at h
  split at h
  · exact Option.some.inj h ▸ hc
  · split at h
    · cases h
    · split at h
      · rename_i r cache hsearch
        obtain rfl := Option.some.inj h
        rw [hsearch] at hlook
        simpa [RangeState.put, RangeState.setCache] using hlook
      · rename_i cache hsearch
        rw [hsearch] at hlook
        split at h
        · obtain rfl := Option.some.inj h
          simpa [RangeState.setCache] using hlook
        · rename_i leaf hleaf
          obtain rfl := Option.some.inj h
          obtain ⟨hpos, -⟩ := Option.filter_eq_some_iff.mp hleaf
          rw [RangeState.foldl_put_caches]
          simpa [RangeState.setCache] using hlook.put hs hpos

end Caches

/-! ## One key -/

/-- A range lookup on disk as the levels see it, as one of file `id`. -/
def FileRange.asRange (caches : ℕ → LruCache (Leaf GcmKey)) (id : ℕ) (st : FileRange) :
    RangeState GcmKey :=
  ⟨st.results, st.found, Function.update caches id (st.cache.map BitLeaf.entries)⟩

namespace FileRange

variable {caches : ℕ → LruCache (Leaf GcmKey)} {id : ℕ}

@[simp] theorem asRange_caches_self (st : FileRange) :
    (st.asRange caches id).caches id = st.cache.map BitLeaf.entries := Function.update_self ..

theorem asRange_put (st : FileRange) (key : ℕ) (r : Record GcmKey) :
    (st.put key r).asRange caches id = (st.asRange caches id).put key r := rfl

theorem asRange_foldl_put (st : FileRange) (key : ℕ) (es : Leaf GcmKey) :
    (es.foldl (fun st e => st.put key e.2) st).asRange caches id =
      es.foldl (fun st e => st.put key e.2) (st.asRange caches id) := by
  induction es generalizing st with
  | nil => rfl
  | cons e es ih => exact ih (st.put key e.2)

theorem asRange_setCache (st : FileRange) (cache : LruCache (BitLeaf GcmKey)) :
    ({ st with cache } : FileRange).asRange caches id =
      (st.asRange caches id).setCache id (cache.map BitLeaf.entries) := by
  rw [asRange, asRange, RangeState.setCache, Function.update_idem]

end FileRange

namespace OnDisk

variable {c : AeadCipher} {file : ℕ → UInt8} {es : List (ℕ × Record GcmKey)} {groups : List Group}
  {f : DiskBitFile}

/-- A look into the cache. -/
theorem exists_searchCachedLeaf (h : OnDisk c file es groups f) (hs : (tableFile es).Sorted)
    (hne : es ≠ []) (cache : LruCache (BitLeaf GcmKey)) (key : ℕ) :
    ∃ res cache', f.searchCachedLeaf cache key = some (res, cache') ∧
      (tableFile es).searchCachedLeaf (cache.map BitLeaf.entries) key =
        (res, cache'.map BitLeaf.entries) := by
  by_cases hin : key < f.firstKey ∨ f.lastKey < key
  · have hin' : key < (tableFile es).firstKey ∨ (tableFile es).lastKey < key := by
      rwa [h.firstKey, h.lastKey] at hin
    refine ⟨none, cache, ?_, ?_⟩
    · rw [DiskBitFile.searchCachedLeaf, OnDisk.searchLeafKeyPos_out hin]
      rfl
    · rw [BitFile.searchCachedLeaf, BitFile.searchLeafKeyPos, if_pos hin']
  · obtain ⟨x, -, hleaf, hpos⟩ := h.searchLeafKeyPos hs hne hin
    refine ⟨(cache.get x.1.key).1.bind fun leaf =>
      (leaf.entries.find? fun e => e.1 = key).map Prod.snd, (cache.get x.1.key).2, ?_, ?_⟩
    · rw [DiskBitFile.searchCachedLeaf, hpos]
      rfl
    · rw [BitFile.searchCachedLeaf, hleaf]
      show (((cache.map BitLeaf.entries).get x.1.key).1.bind _, _) = _
      rw [LruCache.get_map]
      cases (cache.get x.1.key).1 <;> rfl

/-- The leaf of a key. -/
theorem searchLeaf_cases (hc : c.Lawful) (h : OnDisk c file es groups f) (hs : (tableFile es).Sorted)
    (hne : es ≠ []) (key : ℕ) :
    (f.searchLeaf c file key = some (.error (-ENODATA)) ∧ (tableFile es).searchLeaf key = none) ∨
    ∃ l, f.searchLeaf c file key = some (.ok l) ∧ (tableFile es).searchLeaf key = some l.entries ∧
      (BitNode.leaf l).lastKey = Leaf.key l.entries := by
  by_cases hin : key < f.firstKey ∨ f.lastKey < key
  · have hin' : key < (tableFile es).firstKey ∨ (tableFile es).lastKey < key := by
      rwa [h.firstKey, h.lastKey] at hin
    refine Or.inl ⟨?_, ?_⟩
    · rw [DiskBitFile.searchLeaf, OnDisk.searchLeafKeyPos_out hin]
      rfl
    · rw [BitFile.searchLeaf, BitFile.searchLeafKeyPos, if_pos hin']
      rfl
  · obtain ⟨x, hfind, hleaf, hpos⟩ := h.searchLeafKeyPos hs hne hin
    obtain ⟨l, hread, hentries, hlast⟩ := h.readLeaf hc (List.mem_of_find?_eq_some hfind)
    rw [DiskBitFile.searchLeaf, hpos, Option.map_some, BitFile.searchLeaf, hleaf, Option.filter_some,
      ← hentries]
    simp only [hread]
    by_cases hany : l.entries.any fun e => e.1 = key
    · rw [if_pos hany, if_pos hany]
      exact Or.inr ⟨l, rfl, rfl, hentries ▸ hlast⟩
    · rw [if_neg hany, if_neg hany]
      exact Or.inl ⟨rfl, rfl⟩

/-- **One key of a range.** -/
theorem rangeStep (hc : c.Lawful) (h : OnDisk c file es groups f) (hs : (tableFile es).Sorted)
    (hne : es ≠ []) {g : BitFile GcmKey} (hg : g.entries = es)
    (caches : ℕ → LruCache (Leaf GcmKey)) (st : FileRange) (key : ℕ) :
    ∃ st', f.rangeStep c file st key = some st' ∧
      g.rangeStep (st.asRange caches g.id) key = some (st'.asRange caches g.id) := by
  have hempty : ¬g.entries.isEmpty = true := by
    simpa [hg] using hne
  rw [DiskBitFile.rangeStep, BitFile.rangeStep]
  by_cases hfound : key ∈ st.found
  · rw [if_pos hfound, if_pos (show key ∈ (st.asRange caches g.id).found from hfound)]
    exact ⟨st, rfl, rfl⟩
  · obtain ⟨res, cache', hlook, hlook'⟩ := h.exists_searchCachedLeaf hs hne st.cache key
    have hlook'' : g.searchCachedLeaf ((st.asRange caches g.id).caches g.id) key =
        (res, cache'.map BitLeaf.entries) := by
      rw [FileRange.asRange_caches_self]
      subst hg
      exact hlook'
    have hleafg : g.searchLeaf key = (tableFile es).searchLeaf key := by subst hg; rfl
    rw [if_neg hfound, if_neg (show ¬key ∈ (st.asRange caches g.id).found from hfound), if_neg hempty,
      hlook, Option.bind_some, hlook'']
    cases res with
    | some r =>
      refine ⟨_, rfl, congrArg some ?_⟩
      rw [FileRange.asRange_put, FileRange.asRange_setCache st cache']
    | none =>
      simp only [hleafg]
      rcases h.searchLeaf_cases hc hs hne key with ⟨hdisk, hlist⟩ | ⟨l, hdisk, hlist, hkey⟩
      · rw [hdisk, hlist]
        exact ⟨_, rfl, congrArg some (FileRange.asRange_setCache st cache').symm⟩
      · rw [hdisk, hlist, Option.map_some]
        simp only [hkey]
        refine ⟨_, rfl, congrArg some ?_⟩
        rw [FileRange.asRange_foldl_put, FileRange.asRange_setCache st (cache'.put l.entries.key l),
          LruCache.put_map]

/-- **A range lookup.** -/
theorem rangeSearch (hc : c.Lawful) (h : OnDisk c file es groups f) (hs : (tableFile es).Sorted)
    (hne : es ≠ []) {g : BitFile GcmKey} (hg : g.entries = es)
    (caches : ℕ → LruCache (Leaf GcmKey)) (start stop : ℕ) (st : FileRange) :
    ∃ st', f.rangeSearch c file start stop st = some st' ∧
      g.rangeSearch start stop (st.asRange caches g.id) = some (st'.asRange caches g.id) := by
  have hfirst : g.firstKey = f.firstKey := by rw [h.firstKey, BitFile.firstKey, hg]
  have hlast : g.lastKey = f.lastKey := by rw [h.lastKey, BitFile.lastKey, hg]
  rw [DiskBitFile.rangeSearch, BitFile.rangeSearch, hfirst, hlast]
  split
  · exact ⟨st, rfl, rfl⟩
  · obtain ⟨t, ht⟩ := Machine.exists_exec (BitFile.exists_rangeStep (f := g) (by rwa [hg]))
      (st.asRange caches g.id) (List.range' (max start f.firstKey)
        (min stop f.lastKey + 1 - max start f.firstKey))
    have hstep : ∀ (st : FileRange) t key t', t = st.asRange caches g.id → g.rangeStep t key = some t' →
        ∃ st', f.rangeStep c file st key = some st' ∧ t' = st'.asRange caches g.id := by
      rintro st _ key t' rfl ht
      obtain ⟨st', hst', ht'⟩ := h.rangeStep hc hs hne hg caches st key
      exact ⟨st', hst', Option.some.inj (ht.symm.trans ht')⟩
    obtain ⟨st', hst', rfl⟩ := Machine.exec_sim hstep rfl ht
    exact ⟨st', hst', ht⟩

end OnDisk

/-! ## In the place of a table -/

namespace TableAt

variable {c : AeadCipher} {start : ℕ} {file : ℕ → UInt8} {es : List (ℕ × Record GcmKey)}
  {f : DiskBitFile} {cache cache' : LruCache (BitLeaf GcmKey)}

/-- **Lookups**: with leaves of the table in the cache the first record of a key is found, and there
are only leaves of the table in the cache. -/
theorem search (hc : c.Lawful) (h : TableAt c start file es f) (hs : (tableFile es).Sorted)
    (hne : es ≠ []) (hcache : (tableFile es).Cached (cache.map BitLeaf.entries)) (key : ℕ) :
    ∃ cache', f.search c file cache key = some (lookupResult es key, cache') ∧
      (tableFile es).Cached (cache'.map BitLeaf.entries) := by
  obtain ⟨groups, hdisk, -⟩ := h.onDisk hc
  obtain ⟨r, cache', hsearch, hwith⟩ := hdisk.search hc hs hne cache key
  have hr := hcache.searchWith hs key
  rw [hwith, BitFile.search_tableFile hs hne] at hr
  obtain rfl := Option.some.inj hr
  rw [← lookupResult_eq] at hsearch
  exact ⟨cache', hsearch, hcache.of_searchWith hs hwith⟩

/-- **Range lookups.** -/
theorem rangeSearch (hc : c.Lawful) (h : TableAt c start file es f) (hs : (tableFile es).Sorted)
    (hne : es ≠ []) {g : BitFile GcmKey} (hg : g.entries = es)
    (caches : ℕ → LruCache (Leaf GcmKey)) (first last : ℕ) (st : FileRange) :
    ∃ st', f.rangeSearch c file first last st = some st' ∧
      g.rangeSearch first last (st.asRange caches g.id) = some (st'.asRange caches g.id) := by
  obtain ⟨groups, hdisk, -⟩ := h.onDisk hc
  exact hdisk.rangeSearch hc hs hne hg caches first last st

/-- **What is cached** are leaves of the table, whatever is looked up. -/
theorem cached_lookup (hc : c.Lawful) (h : TableAt c start file es f) (hs : (tableFile es).Sorted)
    (hne : es ≠ []) (hcache : (tableFile es).Cached (cache.map BitLeaf.entries))
    {call : DiskBitFile.Lookup} (hcall : f.lookup c file cache call = some cache') :
    (tableFile es).Cached (cache'.map BitLeaf.entries) := by
  cases call with
  | search key =>
    obtain ⟨cache₁, hsearch, hkept⟩ := h.search hc hs hne hcache key
    rw [DiskBitFile.lookup, hsearch, Option.map_some, Option.some_inj] at hcall
    exact hcall ▸ hkept
  | rangeSearch first last results found =>
    obtain ⟨st', hst', hlist⟩ := h.rangeSearch hc hs hne (g := tableFile es) rfl
      (fun _ => cache.map BitLeaf.entries) first last ⟨results, found, cache⟩
    rw [DiskBitFile.lookup, hst', Option.map_some, Option.some_inj] at hcall
    obtain rfl := hcall
    have hkept : (tableFile es).Cached
        ((st'.asRange (fun _ => cache.map BitLeaf.entries) (tableFile es).id).caches
          (tableFile es).id) := by
      rw [BitFile.rangeSearch] at hlist
      split at hlist
      · rw [← Option.some.inj hlist, FileRange.asRange_caches_self]
        exact hcache
      · refine Machine.invariant_of_all (fun (st : RangeState GcmKey) key st'
          (hst : (tableFile es).Cached (st.caches (tableFile es).id)) hstep =>
            hst.of_rangeStep hs hstep) ?_ hlist
        rw [FileRange.asRange_caches_self]
        exact hcache
    rwa [FileRange.asRange_caches_self] at hkept

end TableAt

end JinDisk
