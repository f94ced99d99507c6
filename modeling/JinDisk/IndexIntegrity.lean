import JinDisk.RangeReads

/-!
# The integrity of the index

The file of the index region is in the hands of the adversary as well. Every table has a key of its
own, and an ideal cipher accepts under it only what was encrypted under it, that is, the nodes of this
table (`Unforged`). The nodes are not bound to their places, so that one may be moved to the place of
another, or brought back.

`DiskStore.lookups_were_put`: whatever the adversary writes between the steps, a lookup returns
nothing but deletions and records that were put for its key. That a record is the newest one is not
said: where a node is refused, `bit_level_search` goes on to older files. Iterators do not look at
what the decoding of a node returns, so a merge has to find its inputs as they were written.
-/

namespace JinDisk

/-! ## One table -/

/-- What a builder encodes for a table: leaves of its entries, and inner nodes. -/
def BitNode.BelongsTo (es : List (ℕ × Record GcmKey)) : BitNode GcmKey → Prop
  | leaf l => l.Fits ∧ l.entries ∈ Chunks.chunks bitLeafLen es
  | inner children => (inner children : BitNode GcmKey).Fits

/-- What `kernel_read` reads for a node. -/
def nodeBytes (file : ℕ → UInt8) (pos : ℕ) (isLeaf : Bool) : Bytes :=
  ByteMap.readOut file pos (if isLeaf then bitLeafNodeSize else bitInnerNodeSize)

/-- **No forgery**: what is accepted under the key of a table, wherever it is read, was encoded for
this table. -/
def Unforged (c : AeadCipher) (file : ℕ → UInt8) (key : GcmKey) (es : List (ℕ × Record GcmKey)) :
    Prop :=
  ∀ pos isLeaf bs, bitNodeDecode c (nodeBytes file pos isLeaf) isLeaf key = .ok bs →
    ∃ node : BitNode GcmKey, node.BelongsTo es ∧ nodeBytes file pos isLeaf = bitNodeEncode c key node

/-- What is cached are leaves with entries of the table. -/
def LeavesOf (es : List (ℕ × Record GcmKey)) (cache : LruCache (BitLeaf GcmKey)) : Prop :=
  ∀ x ∈ cache.entries, ∀ e ∈ x.2.entries, e ∈ es

section Table

variable {c : AeadCipher} {file : ℕ → UInt8} {es : List (ℕ × Record GcmKey)} {f : DiskBitFile}
  {cache cache' : LruCache (BitLeaf GcmKey)} {key : ℕ}

/-- A leaf that can be decoded has entries of the table. -/
theorem Unforged.readLeaf (hc : c.Lawful) {rootKey : GcmKey} (h : Unforged c file rootKey es)
    {pos : ℕ} {l : BitLeaf GcmKey} (hl : JinDisk.readLeaf c file rootKey pos = .ok l) :
    ∀ e ∈ l.entries, e ∈ es := by
  rw [JinDisk.readLeaf, decodeLeaf] at hl
  cases hdec : bitNodeDecode c (ByteMap.readOut file pos bitLeafNodeSize) true rootKey with
  | error err =>
    rw [hdec] at hl
    cases hl
  | ok bs =>
    obtain ⟨node, hnode, hdata⟩ := h pos true bs hdec
    change ByteMap.readOut file pos bitLeafNodeSize = _ at hdata
    cases node with
    | inner children =>
      -- an inner node has another size
      have hlen := congrArg List.length hdata
      rw [ByteMap.length_readOut, length_bitNodeEncode hc
        (show (BitNode.inner children : BitNode GcmKey).Fits from hnode)] at hlen
      exact absurd hlen (show ¬bitLeafNodeSize = bitInnerNodeSize by decide)
    | leaf l' =>
      obtain ⟨hfits, hchunk⟩ := hnode
      have hsame := decodeLeaf_encode hc hfits rootKey
      rw [← hdata, decodeLeaf, hl] at hsame
      obtain rfl := Except.ok.inj hsame
      exact fun e he => BitFile.mem_entries_of_leaf (f := tableFile es) hchunk he

theorem Unforged.searchLeaf (hc : c.Lawful) (h : Unforged c file f.rootKey es) {l : BitLeaf GcmKey}
    (hl : f.searchLeaf c file key = some (.ok l)) : ∀ e ∈ l.entries, e ∈ es := by
  obtain ⟨found, -, hfound⟩ := Option.map_eq_some_iff.mp hl
  cases found with
  | error err => cases hfound
  | ok place =>
    simp only at hfound
    split at hfound
    · cases hfound
    · rename_i leaf hleaf
      split at hfound
      · obtain rfl := Except.ok.inj hfound
        exact h.readLeaf hc hleaf
      · cases hfound

theorem mem_of_find? {l : BitLeaf GcmKey} {r : Record GcmKey} (h : ∀ e ∈ l.entries, e ∈ es)
    (hr : (l.entries.find? fun e => e.1 = key).map Prod.snd = some r) : (key, r) ∈ es := by
  obtain ⟨e, he, rfl⟩ := Option.map_eq_some_iff.mp hr
  have hkey : e.1 = key := by simpa using List.find?_some he
  exact hkey ▸ h e (List.mem_of_find?_eq_some he)

/-- A look into the cache. -/
theorem LeavesOf.searchCachedLeaf (h : LeavesOf es cache) {res : Option (Record GcmKey)}
    (hs : f.searchCachedLeaf cache key = some (res, cache')) :
    LeavesOf es cache' ∧ ∀ r, res = some r → (key, r) ∈ es := by
  obtain ⟨found, -, hres⟩ := Option.map_eq_some_iff.mp hs
  cases found with
  | error err =>
    obtain ⟨rfl, rfl⟩ := Prod.mk.inj hres
    exact ⟨h, fun r hr => by cases hr⟩
  | ok place =>
    obtain ⟨rfl, rfl⟩ := Prod.mk.inj hres
    refine ⟨fun x hx => h x ((cache.mem_get _ x).mp hx), fun r hr => ?_⟩
    obtain ⟨leaf, hget, hfind⟩ := Option.bind_eq_some_iff.mp hr
    exact mem_of_find? (h _ (LruCache.mem_of_get hget)) hfind

/-- A leaf that was read is stored. -/
theorem LeavesOf.put (h : LeavesOf es cache) {l : BitLeaf GcmKey} (hl : ∀ e ∈ l.entries, e ∈ es)
    (k : ℕ) : LeavesOf es (cache.put k l) := by
  intro x hx
  rcases LruCache.mem_put hx with rfl | hx
  · exact hl
  · exact h x hx

/-- **One lookup.** -/
theorem LeavesOf.search (hc : c.Lawful) (hkey : Unforged c file f.rootKey es) (h : LeavesOf es cache)
    {res : Except Int (Option (Record GcmKey))} (hs : f.search c file cache key = some (res, cache')) :
    LeavesOf es cache' ∧ ∀ r, res = .ok (some r) → (key, r) ∈ es := by
  obtain ⟨⟨found, cache₁⟩, hlook, hrest⟩ := Option.bind_eq_some_iff.mp hs
  obtain ⟨hkept, hfound⟩ := h.searchCachedLeaf hlook
  cases found with
  | some r =>
    obtain ⟨rfl, rfl⟩ := Prod.mk.inj (Option.some.inj hrest)
    refine ⟨hkept, fun r' hr' => hfound r' ?_⟩
    exact Except.ok.inj hr'
  | none =>
    obtain ⟨leaf, hleaf, heq⟩ := Option.map_eq_some_iff.mp hrest
    cases leaf with
    | error err =>
      obtain ⟨rfl, rfl⟩ := Prod.mk.inj heq
      exact ⟨hkept, fun r hr => by cases hr⟩
    | ok l =>
      obtain ⟨rfl, rfl⟩ := Prod.mk.inj heq
      have hl := hkey.searchLeaf hc hleaf
      exact ⟨hkept.put hl _, fun r hr => mem_of_find? hl (Except.ok.inj hr)⟩

/-! ### Range lookups -/

/-- What is added to the result set is in the table. -/
def FileRange.Adds (es : List (ℕ × Record GcmKey)) (st st' : FileRange) : Prop :=
  ∀ key r, st'.results.get key = some r → st.results.get key = some r ∨ (key, r) ∈ es

theorem FileRange.adds_put (st : FileRange) {r : Record GcmKey} (hr : (key, r) ∈ es) :
    FileRange.Adds es st (st.put key r) := by
  intro k r' hget
  change (st.results.put key (some r)).1.get k = some r' at hget
  rw [Memtable.get_put] at hget
  split at hget
  · rename_i hk
    obtain rfl := Option.some.inj hget
    exact Or.inr (hk ▸ hr)
  · exact Or.inl hget

theorem FileRange.adds_foldl_put (st : FileRange) {l : Leaf GcmKey} (hl : ∀ e ∈ l, (key, e.2) ∈ es) :
    FileRange.Adds es st (l.foldl (fun st e => st.put key e.2) st) := by
  induction l generalizing st with
  | nil => exact fun _ _ hget => Or.inl hget
  | cons e l ih =>
    obtain ⟨he, hrest⟩ := List.forall_mem_cons.mp hl
    intro k r hget
    rcases ih (st.put key e.2) hrest k r hget with hget | hmem
    · exact FileRange.adds_put st he k r hget
    · exact Or.inr hmem

/-- **One key of a range.** -/
theorem LeavesOf.rangeStep (hc : c.Lawful) (hkey : Unforged c file f.rootKey es) {st st' : FileRange}
    (h : LeavesOf es st.cache) (hst : f.rangeStep c file st key = some st') :
    LeavesOf es st'.cache ∧ FileRange.Adds es st st' := by
  rw [DiskBitFile.rangeStep] at hst
  split at hst
  · obtain rfl := Option.some.inj hst
    exact ⟨h, fun _ _ hget => Or.inl hget⟩
  · obtain ⟨⟨found, cache₁⟩, hlook, hrest⟩ := Option.bind_eq_some_iff.mp hst
    obtain ⟨hkept, hfound⟩ := h.searchCachedLeaf hlook
    cases found with
    | some r =>
      obtain rfl := Option.some.inj hrest
      exact ⟨hkept, FileRange.adds_put { st with cache := cache₁ } (hfound r rfl)⟩
    | none =>
      obtain ⟨leaf, hleaf, rfl⟩ := Option.map_eq_some_iff.mp hrest
      cases leaf with
      | error err => exact ⟨hkept, fun _ _ hget => Or.inl hget⟩
      | ok l =>
        have hl := hkey.searchLeaf hc hleaf
        refine ⟨?_, FileRange.adds_foldl_put
          { st with cache := cache₁.put (BitNode.leaf l).lastKey l } fun e he => ?_⟩
        · simp only [FileRange.foldl_put_cache]
          exact hkept.put hl _
        · obtain ⟨hmem, hk⟩ := List.mem_filter.mp he
          have hk' : e.1 = key := by simpa using hk
          exact hk' ▸ hl e hmem

/-- **One range.** -/
theorem LeavesOf.rangeSearch (hc : c.Lawful) (hkey : Unforged c file f.rootKey es)
    {st st' : FileRange} (h : LeavesOf es st.cache) {first last : ℕ}
    (hst : f.rangeSearch c file first last st = some st') :
    LeavesOf es st'.cache ∧ FileRange.Adds es st st' := by
  rw [DiskBitFile.rangeSearch] at hst
  split at hst
  · obtain rfl := Option.some.inj hst
    exact ⟨h, fun _ _ hget => Or.inl hget⟩
  · refine Machine.invariant_of_all (fun (st₁ : FileRange) k st₂
      (h₁ : LeavesOf es st₁.cache ∧ FileRange.Adds es st st₁) hstep => ?_)
      ⟨h, fun _ _ hget => Or.inl hget⟩ hst
    obtain ⟨hkept, hadds⟩ := h₁.1.rangeStep hc hkey hstep
    refine ⟨hkept, fun k r hget => ?_⟩
    rcases hadds k r hget with hget | hmem
    · exact h₁.2 k r hget
    · exact Or.inr hmem

/-- **What a call leaves in the cache.** -/
theorem LeavesOf.lookup (hc : c.Lawful) (hkey : Unforged c file f.rootKey es) (h : LeavesOf es cache)
    {call : DiskBitFile.Lookup} (hcall : f.lookup c file cache call = some cache') :
    LeavesOf es cache' := by
  cases call with
  | search key =>
    obtain ⟨⟨res, _⟩, hs, rfl⟩ := Option.map_eq_some_iff.mp hcall
    exact (h.search hc hkey hs).1
  | rangeSearch first last results found =>
    obtain ⟨st', hst, rfl⟩ := Option.map_eq_some_iff.mp hcall
    have hcache : LeavesOf es (⟨results, found, cache⟩ : FileRange).cache := h
    exact (hcache.rangeSearch hc hkey hst).1

end Table

/-! ## Range lookups through all layers -/

namespace RangeOps

variable {κ σ : Type}

/-- A property of the state that the operations keep, if only records with `Q` are put. -/
structure Keeps (ops : RangeOps κ σ) (files : List (BitFile κ)) (Q : ℕ → Record κ → Prop)
    (R : σ → Prop) : Prop where
  /-- a record is put -/
  put : ∀ s key r, R s → Q key r → R (ops.put s key r)
  /-- a file is searched -/
  file : ∀ f ∈ files, ∀ start stop s s', R s → ops.fileRangeSearch f start stop s = some s' → R s'

namespace Keeps

variable {ops : RangeOps κ σ} {files : List (BitFile κ)} {Q : ℕ → Record κ → Prop} {R : σ → Prop}
  {start stop : ℕ} {s s' : σ}

theorem memtable [Inhabited κ] (h : Keeps ops files Q R) {m : Memtable κ}
    (hm : ∀ key r, m.get key = some r → Q key r) (start stop : ℕ) (hs : R s) :
    R (ops.memtable m start stop s) := by
  rw [RangeOps.memtable]
  generalize List.range' start (stop + 1 - start) = keys
  induction keys generalizing s with
  | nil => exact hs
  | cons key keys ih =>
    refine ih ?_
    rw [memtableStep]
    split
    · exact hs
    · cases hget : m.get key with
      | none => exact hs
      | some r => exact h.put s key r hs (hm key r hget)

theorem level (h : Keeps ops files Q R) {l : BitLevel κ} (hl : ∀ f ∈ l.files, f ∈ files) (hs : R s)
    (hrun : ops.level l start stop s = some s') : R s' := by
  rw [RangeOps.level] at hrun
  split at hrun
  · rename_i f rest _ hfiles
    exact h.file f (hl f (hfiles ▸ List.mem_cons_self)) start stop s s' hs hrun
  · refine Machine.invariant_of_all (fun s key s' hs hstep => ?_) hs hrun
    rw [levelStep] at hstep
    split at hstep
    · exact Option.some.inj hstep ▸ hs
    · cases hf : l.locateFile key with
      | none =>
        rw [hf] at hstep
        exact Option.some.inj hstep ▸ hs
      | some f =>
        rw [hf] at hstep
        obtain ⟨⟨i, hi⟩, -⟩ := BitLevel.locateFile_eq_some hf
        exact h.file f (hl f (List.mem_of_getElem? hi)) start stop s s' hs hstep

/-- **The layers.** -/
theorem layers [Inhabited κ] {tree : LsmTree κ} (h : Keeps ops tree.levels.files Q R)
    (hmem : ∀ key r, tree.memtable.get key = some r → Q key r)
    (himm : ∀ m ∈ tree.immutable, ∀ key r, m.get key = some r → Q key r) (hs : R s)
    (hrun : ops.layers tree start stop s = some s') : R s' := by
  have hs₁ := h.memtable hmem start stop hs
  have hs₂ : R ((tree.immutable.map fun m => ops.memtable m start stop
      (ops.memtable tree.memtable start stop s)).getD (ops.memtable tree.memtable start stop s)) := by
    cases hm : tree.immutable with
    | none => exact hs₁
    | some m => exact h.memtable (himm m hm) start stop hs₁
  rw [RangeOps.layers] at hrun
  simp only at hrun
  split at hrun
  · exact Option.some.inj hrun ▸ hs₁
  · split at hrun
    · exact Option.some.inj hrun ▸ hs₂
    · obtain ⟨s₃, hs₃, hrest⟩ := Option.bind_eq_some_iff.mp hrun
      have hR := h.level (fun f hf => Levels.mem_files.mpr (Or.inl hf)) hs₂ hs₃
      split at hrest
      · exact Option.some.inj hrest ▸ hR
      · exact h.level (fun f hf => Levels.mem_files.mpr (Or.inr hf)) hR hrest

end Keeps

end RangeOps

/-! ## The adversary -/

/-- What can happen next on a device that is not trusted. -/
inductive HostileAction where
  /-- a step of the program -/
  | act (a : DiskAction)
  /-- the adversary writes the file of the index region -/
  | tamper (bytes : ℕ → UInt8)

namespace DiskStore

/-- One step on such a device. -/
def hostileStep (c : AeadCipher) (start : ℕ) (d : DiskStore) : HostileAction → Option DiskStore
  | .act a => d.step c start a
  | .tamper bytes => some { d with region := { d.region with bytes } }

/-- Nothing was forged in the place of any table. -/
def Unforged (c : AeadCipher) (d : DiskStore) : Prop :=
  ∀ f ∈ d.store.tree.levels.files,
    JinDisk.Unforged c d.region.bytes (d.region.files f.id).table.rootKey f.entries

/-- A merge finds its inputs as they were written. -/
def Intact (c : AeadCipher) (d : DiskStore) : Prop :=
  ∀ f ∈ mergeInputs d.store.tree.levels,
    f.entries ≠ [] ∧ (d.region.files f.id).table.iterate c d.region.bytes = some f.entries

/-- What a step relies on. -/
def HostileGood (c : AeadCipher) (d : DiskStore) : HostileAction → Prop
  | .act (.put _ _) => True
  | .act (.compact _ _) => d.Intact c
  | .act (.reopen _ _) => d.Intact c
  | .act (.lookup _ _) => d.Unforged c
  | .tamper _ => True

/-- What holds of the two on such a device. -/
structure Sound (P : ℕ × Record GcmKey → Prop) (d : DiskStore) : Prop where
  /-- the store -/
  store : d.store.Ok
  /-- with its entries -/
  every : d.store.Every P
  /-- only these are cached -/
  cached : ∀ f ∈ d.store.tree.levels.files, LeavesOf f.entries (d.region.files f.id).cachedLeaf

variable {c : AeadCipher} {start : ℕ} {d d' : DiskStore} {P : ℕ × Record GcmKey → Prop}

/-- **A minor compaction.** -/
theorem Sound.minorCompact (h : d.Sound P) {m : Memtable GcmKey} (hm : m.Ok)
    (hsize : m.size ≤ defaultLsmFileCapacity) (hmem : ∀ e ∈ m.getAllEntry, P e) (hin : d.Intact c)
    {order : List ℕ} {fresh : ℕ → Fresh} (hs : d.minorCompact c start m order fresh = some d') :
    d'.Sound P := by
  obtain ⟨⟨comp, built⟩, hfrom, hmap⟩ := Option.bind_eq_some_iff.mp hs
  obtain ⟨region, hregion, rfl⟩ := Option.map_eq_some_iff.mp hmap
  have hbuilds := minorCompactionFrom_builds hfrom
  have hcomp : minorCompaction d.store.tree.levels d.store.tree.catalogue m order = some comp := by
    rw [← minorCompactionFrom_eq hin m, hfrom]
    rfl
  have hspec := minorCompaction_spec h.store.tree.levels hm hsize hcomp
  have hstore : d.store.minorCompact m order = some { d.store with
      tree := { d.store.tree with
        levels := d.store.tree.levels.applyAll comp.ops, catalogue := comp.catalogue }
      fileStats := setFileStats d.store.fileStats (comp.ops.filterMap LevelOp.added?) } := by
    rw [LsmStore.minorCompact, hcomp]
    rfl
  refine ⟨h.store.minorCompact hm hsize hstore, h.every.minorCompact h.store hm hsize hmem hstore,
    fun f hf => ?_⟩
  rcases IndexRegion.files_exec_build hregion f.id with hempty | ⟨hsame, hnot⟩
  · intro x hx
    change x ∈ (region.files f.id).cachedLeaf.entries at hx
    rw [hempty] at hx
    cases hx
  · -- the file was there, with another level and version perhaps
    have hold : ∃ g ∈ d.store.tree.levels.files, g.id = f.id ∧ g.entries = f.entries := by
      rcases hspec.kept f hf with hadded | ⟨hold, -⟩
      · exact (hbuilds.moved f hadded).resolve_left fun hb => hnot f hb rfl
      · exact ⟨f, hold, rfl, rfl⟩
    obtain ⟨g, hg, hid, hentries⟩ := hold
    have hcached := h.cached g hg
    rw [hid, hentries, ← hsame] at hcached
    exact hcached

/-- **Opening.** -/
theorem Sound.load (h : d.Sound P) : (d.load c).Sound P where
  store := h.store.load
  every := h.every.load h.store
  cached _ _ _ hx := by cases hx

/-- **One step.** -/
theorem Sound.hostileStep (hc : c.Lawful) (h : d.Sound P) {a : HostileAction}
    (hput : ∀ key val, a = .act (.put key val) → ∀ r, r ∈ val ∨ r = .negative → P (key, r))
    (hgood : d.HostileGood c a) (hs : d.hostileStep c start a = some d') : d'.Sound P := by
  cases a with
  | tamper bytes =>
    obtain rfl := Option.some.inj hs
    exact ⟨h.store, h.every, h.cached⟩
  | act a =>
    cases a with
    | put key val =>
      obtain ⟨s, hstep, rfl⟩ := Option.map_eq_some_iff.mp hs
      refine ⟨h.store.step hstep, h.every.put (hput key val rfl) hstep, ?_⟩
      rcases LsmStore.step_cases hstep with ⟨_, _, -, -, rfl⟩ | ⟨_, _, _, _, ⟨⟩, -⟩ | ⟨_, ⟨⟩, -⟩ |
        ⟨_, _, ⟨⟩, -⟩
      simp only [(d.store.tree.put_levels _ _).1]
      exact h.cached
    | compact order fresh =>
      rw [DiskStore.hostileStep, DiskStore.step] at hs
      split at hs
      · rename_i n m hworks hm
        obtain ⟨hmok, hsize⟩ := h.store.tree.immutable m hm
        obtain ⟨d₁, hd₁, rfl⟩ := Option.map_eq_some_iff.mp hs
        have hsound := h.minorCompact hmok hsize (h.every.immutable m hm) hgood hd₁
        exact ⟨⟨hsound.store.tree, hsound.store.stored⟩,
          ⟨hsound.every.memtable, hsound.every.immutable, hsound.every.files⟩, hsound.cached⟩
      · cases hs
    | reopen order fresh =>
      rw [DiskStore.hostileStep, DiskStore.step] at hs
      split at hs
      · cases hs
      · split at hs
        · obtain rfl := Option.some.inj hs
          exact h.load
        · obtain ⟨d₁, hd₁, rfl⟩ := Option.map_eq_some_iff.mp hs
          exact (h.minorCompact h.store.tree.memtable (Nat.le_of_lt h.store.tree.room)
            h.every.memtable hgood hd₁).load
    | lookup fd call =>
      rw [DiskStore.hostileStep, DiskStore.step] at hs
      split at hs
      · obtain ⟨region, hregion, rfl⟩ := Option.map_eq_some_iff.mp hs
        obtain ⟨cache, hcall, rfl⟩ := Option.map_eq_some_iff.mp hregion
        refine ⟨h.store, h.every, fun f hf => ?_⟩
        by_cases hid : f.id = fd
        · subst hid
          simp only [Function.update_self]
          exact (h.cached f hf).lookup hc (hgood f hf) hcall
        · simp only [Function.update_of_ne hid]
          exact h.cached f hf
      · cases hs

/-- **A search** returns an entry. -/
theorem Sound.search (hc : c.Lawful) (h : d.Sound P) (hkeys : d.Unforged c) {key : ℕ}
    {r : Record GcmKey} (hr : d.search c key = some (some r)) : P (key, r) := by
  have hfile : ∀ f ∈ d.store.tree.levels.files, ∀ r,
      d.region.search c f.id key = some (some r) → P (key, r) := by
    intro f hf r hr
    obtain ⟨⟨res, cache⟩, hs, hres⟩ := Option.map_eq_some_iff.mp hr
    cases res with
    | error err => cases hres
    | ok found =>
      obtain rfl : found = some r := hres
      exact h.every.files f hf _ (((h.cached f hf).search hc (hkeys f hf) hs).2 r rfl)
  rw [DiskStore.search] at hr
  split at hr
  · rename_i r' hmem
    obtain rfl := Option.some.inj (Option.some.inj hr)
    exact h.every.memtable _ (Memtable.mem_of_get hmem)
  · split at hr
    · rename_i r' himm
      obtain rfl := Option.some.inj (Option.some.inj hr)
      obtain ⟨m, hm, hget⟩ := Option.bind_eq_some_iff.mp himm
      exact h.every.immutable m hm _ (Memtable.mem_of_get hget)
    · split at hr
      · cases hr
      · rename_i r' hupper
        obtain rfl := Option.some.inj (Option.some.inj hr)
        exact BitLevel.searchBy_of_files
          (fun f hf r hr => hfile f (Levels.mem_files.mpr (Or.inl hf)) r hr) hupper
      · exact BitLevel.searchBy_of_files
          (fun f hf r hr => hfile f (Levels.mem_files.mpr (Or.inr hf)) r hr) hr

/-- A range lookup that is under way. -/
structure Underway (P : ℕ × Record GcmKey → Prop) (d : DiskStore) (st : RegionRange) : Prop where
  /-- nothing is written -/
  bytes : st.region.bytes = d.region.bytes
  /-- and the tables are the same -/
  tables : ∀ fd, (st.region.files fd).table = (d.region.files fd).table
  /-- only entries are cached -/
  cached : ∀ f ∈ d.store.tree.levels.files, LeavesOf f.entries (st.region.files f.id).cachedLeaf
  /-- and only entries are in the result set -/
  results : ∀ key r, st.results.get key = some r → P (key, r)

/-- **One file.** -/
theorem Underway.fileRangeSearch (hc : c.Lawful) (hd : d.Sound P) (hkeys : d.Unforged c)
    {st st' : RegionRange} (h : d.Underway P st) {f : BitFile GcmKey}
    (hf : f ∈ d.store.tree.levels.files) {first last : ℕ}
    (hst : st.fileRangeSearch c f first last = some st') : d.Underway P st' := by
  obtain ⟨fr, hfr, rfl⟩ := Option.map_eq_some_iff.mp hst
  rw [h.bytes, h.tables] at hfr
  have hcache : LeavesOf f.entries
      (⟨st.results, st.found, (st.region.files f.id).cachedLeaf⟩ : FileRange).cache := h.cached f hf
  obtain ⟨hkept, hadds⟩ := hcache.rangeSearch hc (hkeys f hf) hfr
  refine ⟨h.bytes, fun fd => ?_, fun g hg => ?_, fun key r hr => ?_⟩
  · by_cases hid : fd = f.id
    · subst hid
      simp only [Function.update_self]
      exact h.tables f.id
    · simp only [Function.update_of_ne hid]
      exact h.tables fd
  · by_cases hid : g.id = f.id
    · obtain rfl := List.inj_on_of_nodup_map hd.store.tree.levels.nodup hg hf hid
      simp only [Function.update_self]
      exact hkept
    · simp only [Function.update_of_ne hid]
      exact h.cached g hg
  · rcases hadds key r hr with hr | hmem
    · exact h.results key r hr
    · exact hd.every.files f hf _ hmem

/-- The operations on the region keep this. -/
theorem keeps_inRegion (hc : c.Lawful) (hd : d.Sound P) (hkeys : d.Unforged c) :
    RangeOps.Keeps (.inRegion c) d.store.tree.levels.files (fun key r => P (key, r))
      (d.Underway P) where
  put st key r h hr := by
    refine ⟨h.bytes, h.tables, h.cached, fun k r' hget => ?_⟩
    change (st.results.put key (some r)).1.get k = some r' at hget
    rw [Memtable.get_put] at hget
    split at hget
    · rename_i hk
      obtain rfl := Option.some.inj hget
      exact hk ▸ hr
    · exact h.results k r' hget
  file f hf first last st st' h hst := h.fileRangeSearch hc hd hkeys hf hst

/-- **A range lookup** returns entries. -/
theorem Sound.rangeSearch (hc : c.Lawful) (h : d.Sound P) (hkeys : d.Unforged c) {first last : ℕ}
    {res : Memtable GcmKey} {region : IndexRegion}
    (hres : d.rangeSearch c first last = some (some res, region)) {key : ℕ} {r : Record GcmKey}
    (hr : res.get key = some r) : P (key, r) := by
  rw [DiskStore.rangeSearch] at hres
  split at hres
  · cases hres
  · obtain ⟨st, hst, heq⟩ := Option.map_eq_some_iff.mp hres
    have hstart : d.Underway P ⟨.create, ∅, d.region⟩ :=
      ⟨rfl, fun _ => rfl, h.cached, fun key r hr => by simp [Memtable.create, Memtable.get] at hr⟩
    have hend := (keeps_inRegion hc h hkeys).layers
      (fun key r hr => h.every.memtable _ (Memtable.mem_of_get hr))
      (fun m hm key r hr => h.every.immutable m hm _ (Memtable.mem_of_get hr)) hstart hst
    have hresults := (Prod.mk.inj heq).1
    split at hresults
    · cases hresults
    · obtain rfl := Option.some.inj hresults
      exact hend.results key r hr

/-- **Run lemma.** -/
theorem Sound.exec (hc : c.Lawful) (h : d.Sound P) {run : List HostileAction}
    (hput : ∀ key val, .act (.put key val) ∈ run → ∀ r, r ∈ val ∨ r = .negative → P (key, r))
    (hgood : Machine.Along (DiskStore.hostileStep c start) (HostileGood c) d run)
    (hrun : Machine.exec (DiskStore.hostileStep c start) d run = some d') : d'.Sound P := by
  induction run generalizing d with
  | nil => exact Option.some.inj hrun ▸ h
  | cons a run ih =>
    obtain ⟨d₁, hd₁, hrest⟩ := Machine.exec_cons_eq_some hrun
    obtain ⟨ha, halong⟩ := hgood
    have hsound := h.hostileStep hc (fun key val heq => hput key val (heq ▸ List.mem_cons_self)) ha hd₁
    exact ih hsound (fun key val hmem => hput key val (List.mem_cons_of_mem a hmem)) (halong d₁ hd₁)
      hrest

/-- What nobody has written to is intact, if no file that is merged is without entries. -/
theorem Ok.intact (hc : c.Lawful) {maxFd : ℕ} (h : d.Ok c start maxFd)
    (hmerge : ∀ f ∈ mergeInputs d.store.tree.levels, f.entries ≠ []) : d.Intact c := fun f hf =>
  ⟨hmerge f hf, (h.holds f (mem_mergeInputs hf)).iterate hc
    (h.store.tree.levels.files f (mem_mergeInputs hf)).sorted (hmerge f hf)⟩

end DiskStore

end JinDisk
