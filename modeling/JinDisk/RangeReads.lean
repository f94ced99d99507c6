import JinDisk.RangeAgreement
import JinDisk.RegionRuns

/-!
# Range lookups in the index region

Reads find their records by `lsm_tree_range_search`. Its loops are the same over files that are lists
of entries and over files in the region; they only ask for the result set, for the keys found, and for
`bit_file_range_search` in one file (`RangeOps`). So what the loops do with the one they do with the
other as long as the two agree file by file (`RangeOps.Sim`).

`DiskStore.rangeSearch_agrees`: whatever was put, merged and looked up before, a range lookup through
the region finds for every key what a lookup of the key finds.
-/

namespace JinDisk

/-! ## The loops -/

/-- What a range lookup needs of the state it works on. -/
structure RangeOps (κ σ : Type) where
  /-- the result set -/
  results : σ → Memtable κ
  /-- the keys whose bit is set in `found` -/
  found : σ → Finset ℕ
  /-- `results->put` and `set_bit` -/
  put : σ → ℕ → Record κ → σ
  /-- `bit_file_range_search` -/
  fileRangeSearch : BitFile κ → ℕ → ℕ → σ → Option σ

namespace RangeOps

variable {κ σ τ : Type}

section Loops

variable (ops : RangeOps κ σ)

/-- The body of the loop over a memtable. -/
def memtableStep [Inhabited κ] (m : Memtable κ) (s : σ) (key : ℕ) : σ :=
  if key ∈ ops.found s then s
  else
    match m.get key with
    | some r => ops.put s key r
    | none => s

/-- The loop over a memtable. -/
def memtable [Inhabited κ] (m : Memtable κ) (start stop : ℕ) (s : σ) : σ :=
  (List.range' start (stop + 1 - start)).foldl (ops.memtableStep m) s

/-- The body of the loop of `bit_level_range_search`. -/
def levelStep (l : BitLevel κ) (start stop : ℕ) (s : σ) (key : ℕ) : Option σ :=
  if key ∈ ops.found s then some s
  else
    match l.locateFile key with
    | none => some s
    | some f => ops.fileRangeSearch f start stop s

/-- `bit_level_range_search`: in level 0 only the first file is searched. -/
def level (l : BitLevel κ) (start stop : ℕ) (s : σ) : Option σ :=
  match l.level, l.files with
  | 0, f :: _ => ops.fileRangeSearch f start stop s
  | _, _ => Machine.exec (ops.levelStep l start stop) s (List.range' start (stop + 1 - start))

/-- The layers of `lsm_tree_range_search`, from the memtable down. -/
def layers [Inhabited κ] (t : LsmTree κ) (start stop : ℕ) (s : σ) : Option σ :=
  let s := ops.memtable t.memtable start stop s
  if (ops.results s).size = stop + 1 - start then some s
  else
    let s := (t.immutable.map fun m => ops.memtable m start stop s).getD s
    if (ops.results s).size = stop + 1 - start then some s
    else
      (ops.level t.levels.level0 start stop s).bind fun s =>
        if (ops.results s).size = stop + 1 - start then some s
        else ops.level t.levels.level1 start stop s

end Loops

/-- The files as lists of entries. -/
def inLists : RangeOps κ (RangeState κ) :=
  ⟨RangeState.results, RangeState.found, RangeState.put, BitFile.rangeSearch⟩

theorem level_inLists (l : BitLevel κ) (start stop : ℕ) (st : RangeState κ) :
    inLists.level l start stop st = l.rangeSearch start stop st := rfl

theorem layers_inLists [Inhabited κ] (t : LsmTree κ) (start stop : ℕ) (st : RangeState κ) :
    inLists.layers t start stop st = t.rangeLayers start stop st := rfl

/-! ### The same loops over two states -/

/-- One state follows the other through the operations. -/
structure Sim (ops : RangeOps κ σ) (ops' : RangeOps κ τ) (files : List (BitFile κ))
    (R : σ → τ → Prop) : Prop where
  /-- the same results -/
  results : ∀ s t, R s t → ops.results s = ops'.results t
  /-- the same keys -/
  found : ∀ s t, R s t → ops.found s = ops'.found t
  /-- a record is put -/
  put : ∀ s t key r, R s t → R (ops.put s key r) (ops'.put t key r)
  /-- a file is searched -/
  file : ∀ f ∈ files, ∀ start stop s t t', R s t → ops'.fileRangeSearch f start stop t = some t' →
    ∃ s', ops.fileRangeSearch f start stop s = some s' ∧ R s' t'

namespace Sim

variable {ops : RangeOps κ σ} {ops' : RangeOps κ τ} {files : List (BitFile κ)} {R : σ → τ → Prop}
  {start stop : ℕ} {s : σ} {t t' : τ}

theorem memtable [Inhabited κ] (h : Sim ops ops' files R) (m : Memtable κ) (start stop : ℕ)
    (hst : R s t) : R (ops.memtable m start stop s) (ops'.memtable m start stop t) := by
  rw [RangeOps.memtable, RangeOps.memtable]
  generalize List.range' start (stop + 1 - start) = keys
  induction keys generalizing s t with
  | nil => exact hst
  | cons key keys ih =>
    refine ih ?_
    rw [memtableStep, memtableStep, h.found s t hst]
    split
    · exact hst
    · cases m.get key with
      | none => exact hst
      | some r => exact h.put s t key r hst

theorem level (h : Sim ops ops' files R) {l : BitLevel κ} (hl : ∀ f ∈ l.files, f ∈ files)
    (hst : R s t) (ht : ops'.level l start stop t = some t') :
    ∃ s', ops.level l start stop s = some s' ∧ R s' t' := by
  rw [RangeOps.level] at ht
  rw [RangeOps.level]
  split at ht
  · rename_i f rest _ hfiles
    exact h.file f (hl f (hfiles ▸ List.mem_cons_self)) start stop s t t' hst ht
  · refine Machine.exec_sim (fun s t key t' hst ht => ?_) hst ht
    rw [levelStep] at ht
    rw [levelStep, h.found s t hst]
    split at ht
    · rw [if_pos ‹_›]
      exact ⟨s, rfl, Option.some.inj ht ▸ hst⟩
    · rw [if_neg ‹_›]
      cases hf : l.locateFile key with
      | none =>
        rw [hf] at ht
        exact ⟨s, rfl, Option.some.inj ht ▸ hst⟩
      | some f =>
        rw [hf] at ht
        obtain ⟨⟨i, hi⟩, -⟩ := BitLevel.locateFile_eq_some hf
        exact h.file f (hl f (List.mem_of_getElem? hi)) start stop s t t' hst ht

/-- **The layers.** -/
theorem layers [Inhabited κ] {tree : LsmTree κ} (h : Sim ops ops' tree.levels.files R)
    (hst : R s t) (ht : ops'.layers tree start stop t = some t') :
    ∃ s', ops.layers tree start stop s = some s' ∧ R s' t' := by
  have hmem := h.memtable tree.memtable start stop hst
  have himm : R ((tree.immutable.map fun m => ops.memtable m start stop
        (ops.memtable tree.memtable start stop s)).getD (ops.memtable tree.memtable start stop s))
      ((tree.immutable.map fun m => ops'.memtable m start stop
        (ops'.memtable tree.memtable start stop t)).getD
        (ops'.memtable tree.memtable start stop t)) := by
    cases tree.immutable with
    | none => exact hmem
    | some m => exact h.memtable m start stop hmem
  rw [RangeOps.layers] at ht
  rw [RangeOps.layers]
  simp only at ht
  simp only [h.results _ _ hmem, h.results _ _ himm]
  split at ht
  · rw [if_pos ‹_›]
    exact ⟨_, rfl, Option.some.inj ht ▸ hmem⟩
  · rw [if_neg ‹_›]
    split at ht
    · rw [if_pos ‹_›]
      exact ⟨_, rfl, Option.some.inj ht ▸ himm⟩
    · rw [if_neg ‹_›]
      obtain ⟨t₁, ht₁, hrest⟩ := Option.bind_eq_some_iff.mp ht
      obtain ⟨s₁, hs₁, hR⟩ := h.level (fun f hf => Levels.mem_files.mpr (Or.inl hf)) himm ht₁
      rw [hs₁, Option.bind_some, h.results _ _ hR]
      split at hrest
      · rw [if_pos ‹_›]
        exact ⟨_, rfl, Option.some.inj hrest ▸ hR⟩
      · rw [if_neg ‹_›]
        exact h.level (fun f hf => Levels.mem_files.mpr (Or.inr hf)) hR hrest

end Sim

end RangeOps

/-! ## Files in the region -/

/-- What `lsm_tree_range_search` changes when the files are in the region. -/
structure RegionRange where
  /-- the result set -/
  results : Memtable GcmKey
  /-- the keys whose bit is set in `found` -/
  found : Finset ℕ
  /-- the region, where leaves are cached -/
  region : IndexRegion

namespace RegionRange

/-- `results->put` of a copy of the record, and `set_bit`. -/
def put (st : RegionRange) (key : ℕ) (r : Record GcmKey) : RegionRange :=
  { st with results := (st.results.put key (some r)).1, found := insert key st.found }

/-- `bit_file_range_search` in the file of a descriptor. -/
def fileRangeSearch (c : AeadCipher) (f : BitFile GcmKey) (start stop : ℕ) (st : RegionRange) :
    Option RegionRange :=
  ((st.region.files f.id).table.rangeSearch c st.region.bytes start stop
      ⟨st.results, st.found, (st.region.files f.id).cachedLeaf⟩).map fun fr =>
    { results := fr.results
      found := fr.found
      region := { st.region with
        files := Function.update st.region.files f.id
          { st.region.files f.id with cachedLeaf := fr.cache } } }

end RegionRange

/-- The files in the region. -/
def RangeOps.inRegion (c : AeadCipher) : RangeOps GcmKey RegionRange :=
  ⟨RegionRange.results, RegionRange.found, RegionRange.put, RegionRange.fileRangeSearch c⟩

/-- `lsm_tree_range_search`, with the region it leaves behind. -/
def DiskStore.rangeSearch (c : AeadCipher) (d : DiskStore) (start stop : ℕ) :
    Option (Option (Memtable GcmKey) × IndexRegion) :=
  if stop < start then some (none, d.region)
  else
    ((RangeOps.inRegion c).layers d.store.tree start stop ⟨.create, ∅, d.region⟩).map fun st =>
      (if st.results.size = 0 then none else some st.results, st.region)

/-! ### A file without entries -/

/-- A range lookup that returns from a file without entries has looked for nothing. -/
theorem BitFile.exec_rangeStep_nil {κ : Type} {f : BitFile κ} (hnil : f.entries = [])
    {st st' : RangeState κ} {keys : List ℕ} (h : Machine.exec f.rangeStep st keys = some st') :
    st' = st ∧ ∀ key ∈ keys, key ∈ st.found := by
  induction keys generalizing st with
  | nil => exact ⟨(Option.some.inj h).symm, fun key hkey => absurd hkey List.not_mem_nil⟩
  | cons key keys ih =>
    obtain ⟨st₁, hst₁, hrest⟩ := Machine.exec_cons_eq_some h
    rw [BitFile.rangeStep] at hst₁
    split at hst₁
    · rename_i hfound
      obtain rfl := Option.some.inj hst₁
      obtain ⟨hsame, hall⟩ := ih hrest
      exact ⟨hsame, List.forall_mem_cons.mpr ⟨hfound, hall⟩⟩
    · rw [if_pos (List.isEmpty_iff.mpr hnil)] at hst₁
      cases hst₁

theorem DiskBitFile.exec_rangeStep_found {c : AeadCipher} {file : ℕ → UInt8} {f : DiskBitFile}
    {st : FileRange} {keys : List ℕ} (h : ∀ key ∈ keys, key ∈ st.found) :
    Machine.exec (f.rangeStep c file) st keys = some st := by
  induction keys with
  | nil => rfl
  | cons key keys ih =>
    obtain ⟨hkey, hrest⟩ := List.forall_mem_cons.mp h
    exact Machine.exec_cons_of (if_pos hkey) (ih hrest)

/-! ### One file -/

namespace DiskStore

variable {c : AeadCipher} {start maxFd : ℕ} {d : DiskStore} {st : RegionRange}
  {t t' : RangeState GcmKey} {f : BitFile GcmKey} {first last : ℕ}

/-- A range lookup in the region of `d` against one in lists. -/
structure Matches (c : AeadCipher) (start maxFd : ℕ) (d : DiskStore) (st : RegionRange)
    (t : RangeState GcmKey) : Prop where
  /-- the same results -/
  results : t.results = st.results
  /-- for the same keys -/
  found : t.found = st.found
  /-- the same leaves cached, where there are leaves -/
  caches : ∀ f ∈ d.store.tree.levels.files, f.entries ≠ [] →
    t.caches f.id = (st.region.files f.id).cachedLeaf.map BitLeaf.entries
  /-- the region is as lookups in single files leave it -/
  reached : ∃ calls : List DiskAction, (∀ a ∈ calls, a.store? = none) ∧
    Machine.exec (step c start) d calls = some { d with region := st.region }
  /-- and still holds the store -/
  ok : ({ d with region := st.region } : DiskStore).Ok c start maxFd

/-- What a file returns, in the region and in the list. -/
theorem Matches.exists_rangeSearch (hc : c.Lawful) (h : Matches c start maxFd d st t)
    (hf : f ∈ d.store.tree.levels.files) (ht : f.rangeSearch first last t = some t') :
    ∃ fr, (st.region.files f.id).table.rangeSearch c st.region.bytes first last
        ⟨st.results, st.found, (st.region.files f.id).cachedLeaf⟩ = some fr ∧
      t'.results = fr.results ∧ t'.found = fr.found ∧
      (∀ id, id ≠ f.id → t'.caches id = t.caches id) ∧
      (f.entries ≠ [] → t'.caches f.id = fr.cache.map BitLeaf.entries) := by
  have hholds := h.ok.holds f hf
  by_cases hnil : f.entries = []
  · -- the loop is not entered, or all keys were found above
    have hsame : t' = t ∧ (st.region.files f.id).table.rangeSearch c st.region.bytes first last
        ⟨st.results, st.found, (st.region.files f.id).cachedLeaf⟩ =
          some ⟨st.results, st.found, (st.region.files f.id).cachedLeaf⟩ := by
      rw [BitFile.rangeSearch] at ht
      rw [DiskBitFile.rangeSearch, hholds.firstKey, hholds.lastKey]
      split at ht
      · rw [if_pos ‹_›]
        exact ⟨(Option.some.inj ht).symm, rfl⟩
      · rw [if_neg ‹_›]
        obtain ⟨hsame, hfound⟩ := BitFile.exec_rangeStep_nil hnil ht
        rw [h.found] at hfound
        exact ⟨hsame, DiskBitFile.exec_rangeStep_found hfound⟩
    obtain ⟨rfl, hdisk⟩ := hsame
    exact ⟨_, hdisk, h.results, h.found, fun _ _ => rfl, fun hne => absurd hnil hne⟩
  · have hsorted := (h.ok.store.tree.levels.files f hf).sorted
    obtain ⟨fr, hfr, hlist⟩ := (hholds.table hnil).rangeSearch hc hsorted hnil (g := f) rfl t.caches
      first last ⟨st.results, st.found, (st.region.files f.id).cachedLeaf⟩
    have hstart : FileRange.asRange t.caches f.id
        ⟨st.results, st.found, (st.region.files f.id).cachedLeaf⟩ = t := by
      rw [FileRange.asRange, ← h.caches f hf hnil, Function.update_eq_self, ← h.results, ← h.found]
    rw [hstart, ht, Option.some_inj] at hlist
    subst hlist
    exact ⟨fr, hfr, rfl, rfl, fun id hid => Function.update_of_ne hid ..,
      fun _ => FileRange.asRange_caches_self fr⟩

/-- **One file.** -/
theorem Matches.fileRangeSearch (hc : c.Lawful) (h : Matches c start maxFd d st t)
    (hf : f ∈ d.store.tree.levels.files) (ht : f.rangeSearch first last t = some t') :
    ∃ st', st.fileRangeSearch c f first last = some st' ∧ Matches c start maxFd d st' t' := by
  obtain ⟨fr, hfr, hresults, hfound, hother, hself⟩ := h.exists_rangeSearch hc hf ht
  obtain ⟨st', hst'⟩ : ∃ st' : RegionRange, st' = ⟨fr.results, fr.found, { st.region with
    files := Function.update st.region.files f.id
      { st.region.files f.id with cachedLeaf := fr.cache } }⟩ := ⟨_, rfl⟩
  have hvalid : d.store.tree.catalogue.bitValidityTable.valid f.id = true :=
    h.ok.store.tree.levels.inUse f hf
  have hstep : ({ d with region := st.region } : DiskStore).step c start
      (.lookup f.id (.rangeSearch first last st.results st.found)) =
        some { d with region := st'.region } := by
    rw [DiskStore.step, if_pos hvalid, IndexRegion.lookup, DiskBitFile.lookup, hfr, hst']
    rfl
  obtain ⟨calls, hcalls, hexec⟩ := h.reached
  refine ⟨st', ?_, ?_, ?_, fun g hg hne => ?_, ⟨calls ++ [.lookup f.id
    (.rangeSearch first last st.results st.found)], fun a ha => ?_, ?_⟩, ?_⟩
  · rw [RegionRange.fileRangeSearch, hfr, hst']
    rfl
  · rw [hst', hresults]
  · rw [hst', hfound]
  · have hfile : st'.region.files = Function.update st.region.files f.id
        { st.region.files f.id with cachedLeaf := fr.cache } := by rw [hst']
    by_cases hid : g.id = f.id
    · obtain rfl := List.inj_on_of_nodup_map h.ok.store.tree.levels.nodup hg hf hid
      rw [hfile, Function.update_self, hself hne]
    · rw [hfile, Function.update_of_ne hid, hother g.id hid, h.caches g hg hne]
  · rcases List.mem_append.mp ha with ha | ha
    · exact hcalls a ha
    · rw [List.mem_singleton.mp ha]
      rfl
  · exact Machine.exec_append_of hexec (Machine.exec_cons_of hstep rfl)
  · exact (h.ok.step_lookup hc rfl hstep).1

/-! ### All layers -/

/-- The loops in the region follow those in lists. -/
theorem sim_inRegion (hc : c.Lawful) (start maxFd : ℕ) (d : DiskStore) :
    RangeOps.Sim (.inRegion c) .inLists d.store.tree.levels.files (Matches c start maxFd d) where
  results _ _ h := h.results.symm
  found _ _ h := h.found.symm
  put st t key r h := by
    refine ⟨?_, ?_, h.caches, h.reached, h.ok⟩
    · exact congrArg (fun m : Memtable GcmKey => (m.put key (some r)).1) h.results
    · exact congrArg (insert key) h.found
  file f hf first last st t t' h ht := h.fileRangeSearch hc hf ht

/-- **A range lookup in the region** returns what the one in lists returns. -/
theorem Ok.rangeSearch (hc : c.Lawful) (h : d.Ok c start maxFd)
    {caches : ℕ → LruCache (Leaf GcmKey)}
    (hcaches : ∀ f ∈ d.store.tree.levels.files, f.entries ≠ [] →
      caches f.id = (d.region.files f.id).cachedLeaf.map BitLeaf.entries)
    {res : Option (Memtable GcmKey)} (hres : d.store.tree.rangeSearch caches first last = some res) :
    ∃ region calls, d.rangeSearch c first last = some (res, region) ∧
      (∀ a ∈ calls, DiskAction.store? a = none) ∧
      Machine.exec (step c start) d calls = some { d with region } := by
  have hstart : Matches c start maxFd d ⟨.create, ∅, d.region⟩ ⟨.create, ∅, caches⟩ :=
    ⟨rfl, rfl, hcaches, ⟨[], fun a ha => absurd ha List.not_mem_nil, rfl⟩, h⟩
  rw [LsmTree.rangeSearch] at hres
  rw [DiskStore.rangeSearch]
  split at hres
  · obtain rfl := Option.some.inj hres
    rw [if_pos ‹_›]
    exact ⟨d.region, [], rfl, fun a ha => absurd ha List.not_mem_nil, rfl⟩
  · obtain ⟨t, ht, rfl⟩ := Option.map_eq_some_iff.mp hres
    rw [← RangeOps.layers_inLists] at ht
    obtain ⟨st, hst, hmatch⟩ := (sim_inRegion hc start maxFd d).layers hstart ht
    obtain ⟨calls, hcalls, hexec⟩ := hmatch.reached
    rw [if_neg ‹_›, hst, hmatch.results]
    exact ⟨st.region, calls, rfl, hcalls, hexec⟩

/-- The store and its region in every run. -/
theorem ok_exec (hc : c.Lawful) {capacity : ℕ} {region : IndexRegion}
    (hend : placeOf start maxFd < 2 ^ 64) {run : List DiskAction}
    (hgood : Machine.Along (DiskStore.step c start) Good (init capacity maxFd region) run)
    (hrun : Machine.exec (DiskStore.step c start) (init capacity maxFd region) run = some d) :
    d.Ok c start maxFd := by
  refine Machine.invariant (fun d a d' (h : d.Ok c start maxFd) ha hs => ?_)
    (ok_init c start capacity maxFd region) hgood hrun
  cases hb : a.store? with
  | none => exact (h.step_lookup hc hb hs).1
  | some b => exact (h.step_store hc hend ha hb).2 d' hs

end DiskStore

end JinDisk
