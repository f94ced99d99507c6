import JinDisk.IndexRegion

/-!
# Runs over the index region

The store and the region together. A step of the store is made on both: what a compaction reads
comes from the region, and what it builds goes there. Lookups in single files may come at any time;
they leave leaves in the caches. `DiskStore.refines`: the store goes its way as if the files were
lists, and every search in the region finds what the search in the lists finds.

A merge has to leave out one thing, which the code does not: a file without entries has no root, and
an iterator of it reads what lies in front of its place.
-/

namespace JinDisk

/-! ## Searches through files that are looked into from outside -/

namespace BitLevel

variable {κ : Type}

/-- `bit_level_linear_search` for any way to search a file -/
def linearSearchBy (search : BitFile κ → ℕ → Option (Option (Record κ))) (l : BitLevel κ) (key : ℕ) :
    Option (Option (Record κ)) :=
  (l.files.foldlM (fun acc f =>
    if f.version < acc.1 then some acc
    else if key < f.firstKey ∨ f.lastKey < key then some acc
    else (search f key).map fun r => if r.isSome then (f.version, r) else acc)
    (0, none)).map Prod.snd

/-- `bit_level_search` for any way to search a file -/
def searchBy (search : BitFile κ → ℕ → Option (Option (Record κ))) (l : BitLevel κ) (key : ℕ) :
    Option (Option (Record κ)) :=
  if l.level = 0 then l.linearSearchBy search key
  else
    match l.locateFile key with
    | none => some none
    | some f => search f key

variable {search : BitFile κ → ℕ → Option (Option (Record κ))} {l : BitLevel κ} {key : ℕ}

/-- A fold that returns returns the same with steps that do no less. -/
theorem foldlM_eq_some_of {α β : Type} {step step' : β → α → Option β} {as : List α}
    (h : ∀ a ∈ as, ∀ b b', step b a = some b' → step' b a = some b') {b b' : β}
    (hb : as.foldlM step b = some b') : as.foldlM step' b = some b' := by
  induction as generalizing b with
  | nil => exact hb
  | cons a as ih =>
    rw [List.foldlM_cons] at hb ⊢
    obtain ⟨next, hnext, hrest⟩ := Option.bind_eq_some_iff.mp hb
    rw [h a List.mem_cons_self b next hnext]
    exact ih (fun a' ha' => h a' (List.mem_cons_of_mem a ha')) hrest

/-- A search that returns goes the same way if the files answer the same. -/
theorem searchBy_eq (hsearch : ∀ f ∈ l.files, ∀ res, f.search key = some res → search f key = some res)
    {res : Option (Record κ)} (hres : l.search key = some res) : l.searchBy search key = some res := by
  rw [BitLevel.search] at hres
  rw [searchBy]
  split
  · rename_i hlevel
    rw [if_pos hlevel, linearSearch] at hres
    obtain ⟨acc, hacc, rfl⟩ := Option.map_eq_some_iff.mp hres
    refine Option.map_eq_some_iff.mpr ⟨acc, foldlM_eq_some_of (fun f hf b b' hb => ?_) hacc, rfl⟩
    split at hb
    · rw [if_pos ‹_›, hb]
    · rw [if_neg ‹_›]
      split at hb
      · rw [if_pos ‹_›, hb]
      · rw [if_neg ‹_›]
        obtain ⟨r, hr, rfl⟩ := Option.map_eq_some_iff.mp hb
        rw [hsearch f hf r hr, Option.map_some]
  · rename_i hlevel
    rw [if_neg hlevel] at hres
    cases hf : l.locateFile key with
    | none =>
      rw [hf] at hres
      exact hres
    | some f =>
      rw [hf] at hres
      obtain ⟨i, -, hi⟩ := Option.bind_eq_some_iff.mp hf
      exact hsearch f (List.mem_of_getElem? hi) res hres

/-- What the steps of a fold keep. -/
theorem foldlM_invariant {α β : Type} {step : β → α → Option β} {as : List α} (Inv : β → Prop)
    (h : ∀ a ∈ as, ∀ b b', Inv b → step b a = some b' → Inv b') {b b' : β} (hb : Inv b)
    (hrun : as.foldlM step b = some b') : Inv b' := by
  induction as generalizing b with
  | nil => exact Option.some.inj hrun ▸ hb
  | cons a as ih =>
    rw [List.foldlM_cons] at hrun
    obtain ⟨next, hnext, hrest⟩ := Option.bind_eq_some_iff.mp hrun
    exact ih (fun a' ha' => h a' (List.mem_cons_of_mem a ha')) (h a List.mem_cons_self b next hb hnext)
      hrest

/-- What is found in a level is found in a file of it. -/
theorem searchBy_of_files {Q : Record κ → Prop}
    (hsearch : ∀ f ∈ l.files, ∀ r, search f key = some (some r) → Q r)
    {r : Record κ} (h : l.searchBy search key = some (some r)) : Q r := by
  rw [searchBy] at h
  split at h
  · obtain ⟨acc, hacc, hr⟩ := Option.map_eq_some_iff.mp h
    have hinv : ∀ r, acc.2 = some r → Q r := by
      refine foldlM_invariant (fun acc : ℕ × Option (Record κ) => ∀ r, acc.2 = some r → Q r)
        (fun f hf acc acc' hinv hstep => ?_) (fun r hr => by cases hr) hacc
      split at hstep
      · exact Option.some.inj hstep ▸ hinv
      · split at hstep
        · exact Option.some.inj hstep ▸ hinv
        · obtain ⟨found, hfound, rfl⟩ := Option.map_eq_some_iff.mp hstep
          cases found with
          | none => exact hinv
          | some r =>
            rintro _ ⟨⟩
            exact hsearch f hf r hfound
    exact hinv r hr
  · split at h
    · cases h
    · rename_i f hf
      obtain ⟨⟨i, hi⟩, -⟩ := locateFile_eq_some hf
      exact hsearch f (List.mem_of_getElem? hi) r h

end BitLevel

/-! ## Records that fit their places -/

/-- An entry that can be encoded. -/
def FitsEntry (e : ℕ × Record GcmKey) : Prop := e.1 < 2 ^ 32 ∧ e.2.Fits

theorem Memtable.mem_getAllEntry {m : Memtable GcmKey} {e : ℕ × Record GcmKey} :
    e ∈ m.getAllEntry ↔ ∃ x, m.root[e.1]? = some x ∧ e.2 ∈ x.records := by
  rw [Memtable.getAllEntry, List.mem_flatMap]
  constructor
  · rintro ⟨⟨k, x⟩, hx, he⟩
    obtain ⟨r, hr, rfl⟩ := List.mem_map.mp he
    exact ⟨x, (RbTree.mem_toList _ _ _).mp hx, hr⟩
  · rintro ⟨x, hx, hr⟩
    exact ⟨(e.1, x), (RbTree.mem_toList _ _ _).mpr hx, List.mem_map.mpr ⟨e.2, hr, rfl⟩⟩

/-- A lookup in a memtable returns one of its entries. -/
theorem Memtable.mem_of_get {m : Memtable GcmKey} {key : ℕ} {r : Record GcmKey}
    (hr : m.get key = some r) : (key, r) ∈ m.getAllEntry := by
  obtain ⟨e, he, rfl⟩ := get_eq_some.mp hr
  refine mem_getAllEntry.mpr ⟨e, he, ?_⟩
  cases e <;> exact List.mem_cons_self

/-- The records of an entry that was put: the old one is not among them. -/
theorem Memtable.mem_records_putEntry {m : Memtable GcmKey} {key : ℕ} {val : Option (Record GcmKey)}
    {r : Record GcmKey} (hr : r ∈ (m.putEntry key val).records) : r ∈ val ∨ r = .negative := by
  rw [putEntry] at hr
  split at hr
  · cases val with
    | none => exact Or.inr (List.mem_singleton.mp hr)
    | some v => exact Or.inl (congrArg some (List.mem_singleton.mp hr).symm)
  · cases val with
    | none => exact Or.inr (List.mem_singleton.mp hr)
    | some v =>
      rw [MemtableEntry.update] at hr
      split at hr
      · rcases List.mem_cons.mp hr with rfl | hr
        · exact Or.inl rfl
        · exact Or.inr (List.mem_singleton.mp hr)
      · exact Or.inl (congrArg some (List.mem_singleton.mp hr).symm)

theorem Record.fits_negative : (Record.negative : Record GcmKey).Fits :=
  ⟨by decide, List.length_replicate⟩

/-- What holds of all that is there, of what is put and of a deletion, holds of all that is there
afterwards. -/
theorem Memtable.forall_put {P : ℕ × Record GcmKey → Prop} {m : Memtable GcmKey}
    (h : ∀ e ∈ m.getAllEntry, P e) {key : ℕ} {val : Option (Record GcmKey)}
    (hput : ∀ r, r ∈ val ∨ r = .negative → P (key, r)) : ∀ e ∈ (m.put key val).1.getAllEntry, P e := by
  rintro ⟨k, r⟩ he
  obtain ⟨x, hx, hr⟩ := mem_getAllEntry.mp he
  rw [put_root, RbTree.getElem?_insert] at hx
  split at hx
  · rename_i heq
    obtain rfl : key = k := heq
    obtain rfl := Option.some.inj hx
    exact hput r (mem_records_putEntry hr)
  · exact h _ (mem_getAllEntry.mpr ⟨x, hx, hr⟩)

namespace LsmStore

/-- All entries can be encoded. -/
structure Fits (s : LsmStore GcmKey) : Prop where
  /-- those of the memtables -/
  memtable : ∀ e ∈ s.tree.memtable.getAllEntry, FitsEntry e
  immutable : ∀ m ∈ s.tree.immutable, ∀ e ∈ m.getAllEntry, FitsEntry e
  /-- and those of the files -/
  files : ∀ f ∈ s.tree.levels.files, ∀ e ∈ f.entries, FitsEntry e

/-- All entries have the property. -/
structure Every (P : ℕ × Record GcmKey → Prop) (s : LsmStore GcmKey) : Prop where
  /-- those of the memtables -/
  memtable : ∀ e ∈ s.tree.memtable.getAllEntry, P e
  immutable : ∀ m ∈ s.tree.immutable, ∀ e ∈ m.getAllEntry, P e
  /-- and those of the files -/
  files : ∀ f ∈ s.tree.levels.files, ∀ e ∈ f.entries, P e

variable {P : ℕ × Record GcmKey → Prop} {s s' : LsmStore GcmKey}

theorem fits_iff : s.Fits ↔ s.Every FitsEntry :=
  ⟨fun h => ⟨h.memtable, h.immutable, h.files⟩, fun h => ⟨h.memtable, h.immutable, h.files⟩⟩

theorem getAllEntry_create : (Memtable.create : Memtable GcmKey).getAllEntry = [] := by
  simp [Memtable.create, Memtable.getAllEntry]

/-- A formatted device has no entries. -/
theorem every_init (P : ℕ × Record GcmKey → Prop) (capacity maxFd : ℕ) :
    (init capacity maxFd).Every P where
  memtable e he := by
    change e ∈ (Memtable.create : Memtable GcmKey).getAllEntry at he
    rw [getAllEntry_create] at he
    cases he
  immutable m hm := by cases hm
  files f hf := by cases hf

theorem Every.put (h : s.Every P) {key : ℕ} {val : Option (Record GcmKey)}
    (hput : ∀ r, r ∈ val ∨ r = .negative → P (key, r)) (hs : s.step (.put key val) = some s') :
    s'.Every P := by
  have hmem := Memtable.forall_put h.memtable hput
  rcases step_cases hs with ⟨_, _, heq, -, rfl⟩ | ⟨_, _, _, _, ⟨⟩, -⟩ | ⟨_, ⟨⟩, -⟩ | ⟨_, _, ⟨⟩, -⟩
  obtain ⟨rfl, rfl⟩ := LsmAction.put.inj heq
  refine ⟨?_, ?_, ?_⟩
  · simp only [LsmTree.put]
    split
    · rw [getAllEntry_create]
      exact fun e he => absurd he List.not_mem_nil
    · exact hmem
  · simp only [LsmTree.put]
    split
    · rintro m ⟨⟩
      exact hmem
    · exact h.immutable
  · simp only [(s.tree.put_levels key val).1]
    exact h.files

/-- The files are the same when they are loaded. -/
theorem Ok.mem_load (h : s.Ok) {f : BitFile GcmKey} (hf : f ∈ s.load.tree.levels.files) :
    f ∈ s.tree.levels.files := by
  obtain ⟨hre, -⟩ := h.reopened_load
  refine Levels.mem_files.mpr ((Levels.mem_files.mp hf).imp (fun hf => ?_) fun hf => ?_)
  · rwa [hre.upper] at hf
  · exact hre.lower.mem_iff.mp hf

theorem Every.load (h : s.Every P) (hok : s.Ok) : s.load.Every P where
  memtable e he := by
    change e ∈ (Memtable.create : Memtable GcmKey).getAllEntry at he
    rw [getAllEntry_create] at he
    cases he
  immutable m hm := by cases hm
  files f hf := h.files f (hok.mem_load hf)

theorem Every.minorCompact (h : s.Every P) (hok : s.Ok) {m : Memtable GcmKey} {order : List ℕ}
    (hm : m.Ok) (hsize : m.size ≤ defaultLsmFileCapacity) (hmem : ∀ e ∈ m.getAllEntry, P e)
    (hc : s.minorCompact m order = some s') : s'.Every P := by
  obtain ⟨comp, hcomp, rfl⟩ := Option.map_eq_some_iff.mp hc
  have hspec := minorCompaction_spec hok.tree.levels hm hsize hcomp
  refine ⟨h.memtable, h.immutable, fun f hf e he => ?_⟩
  rcases hspec.mem f hf e he with hnew | ⟨g, hg, hold⟩
  · exact hmem e hnew
  · exact h.files g hg e hold

/-- What is put fits, and so does all that is there. -/
theorem Fits.put (h : s.Fits) {key : ℕ} (hkey : key < 2 ^ 32) {val : Option (Record GcmKey)}
    (hval : ∀ r ∈ val, r.Fits) (hs : s.step (.put key val) = some s') : s'.Fits := by
  refine fits_iff.mpr ((fits_iff.mp h).put (fun r hr => ⟨hkey, ?_⟩) hs)
  rcases hr with hr | rfl
  · exact hval r hr
  · exact Record.fits_negative

end LsmStore

/-! ## The two together -/

/-- The store and its region. -/
structure DiskStore where
  /-- the store, with the entries of its files as the specification knows them -/
  store : LsmStore GcmKey
  /-- where the entries are -/
  region : IndexRegion

/-- What can happen next. -/
inductive DiskAction where
  /-- `lsm_tree_put` -/
  | put (key : ℕ) (val : Option (Record GcmKey))
  /-- `minor_compaction_handler` -/
  | compact (order : List ℕ) (fresh : ℕ → Fresh)
  /-- `lsm_tree_destroy`, `bit_catalogue_init` and `lsm_tree_init` -/
  | reopen (order : List ℕ) (fresh : ℕ → Fresh)
  /-- `bit_file_search` or `bit_file_range_search` in the file of a descriptor -/
  | lookup (fd : ℕ) (call : DiskBitFile.Lookup)

/-- What the store sees of it. -/
def DiskAction.store? : DiskAction → Option (LsmAction GcmKey)
  | .put key val => some (.put key val)
  | .compact order _ => some (.compact order)
  | .reopen order _ => some (.reopen order)
  | .lookup _ _ => none

namespace DiskStore

/-- A formatted device, with whatever is in the region. -/
def init (capacity maxFd : ℕ) (region : IndexRegion) : DiskStore := ⟨.init capacity maxFd, region⟩

/-- A minor compaction of memtable `m`: the files that are merged are read from the region, and the
new ones are built there. -/
def minorCompact (c : AeadCipher) (start : ℕ) (d : DiskStore) (m : Memtable GcmKey) (order : List ℕ)
    (fresh : ℕ → Fresh) : Option DiskStore :=
  (minorCompactionFrom (fun f => (d.region.files f.id).table.iterate c d.region.bytes)
      d.store.tree.levels d.store.tree.catalogue m order).bind fun r =>
    (Machine.exec (IndexRegion.build c start fresh) d.region r.2).map fun region =>
      { store := { d.store with
          tree := { d.store.tree with
            levels := d.store.tree.levels.applyAll r.1.ops, catalogue := r.1.catalogue }
          fileStats := setFileStats d.store.fileStats (r.1.ops.filterMap LevelOp.added?) }
        region }

/-- Opening the device. -/
def load (c : AeadCipher) (d : DiskStore) : DiskStore := ⟨d.store.load, d.region.load c⟩

/-- One step. -/
def step (c : AeadCipher) (start : ℕ) (d : DiskStore) : DiskAction → Option DiskStore
  | .put key val => (d.store.step (.put key val)).map fun store => { d with store }
  | .compact order fresh =>
    match d.store.works, d.store.tree.immutable with
    | n + 1, some m => (d.minorCompact c start m order fresh).map fun d' =>
        { d' with store := { d'.store with works := n } }
    | _, _ => none
  | .reopen order fresh =>
    if d.store.works ≠ 0 then none
    else if d.store.tree.memtable.size = 0 then some (d.load c)
    else (d.minorCompact c start d.store.tree.memtable order fresh).map (load c)
  | .lookup fd call =>
    if d.store.tree.catalogue.bitValidityTable.valid fd then
      (d.region.lookup c fd call).map fun region => { d with region }
    else none

/-- `lsm_tree_search`. A search asks a file once at most, so that it does not matter here what it
leaves in the cache. -/
def search (c : AeadCipher) (d : DiskStore) (key : ℕ) : Option (Option (Record GcmKey)) :=
  match d.store.tree.memtable.get key with
  | some r => some (some r)
  | none =>
    match d.store.tree.immutable.bind fun m => m.get key with
    | some r => some (some r)
    | none =>
      match d.store.tree.levels.level0.searchBy (fun f => d.region.search c f.id) key with
      | none => none
      | some (some r) => some (some r)
      | some none => d.store.tree.levels.level1.searchBy (fun f => d.region.search c f.id) key

/-- What may be put, and what may be merged. -/
def Good (d : DiskStore) : DiskAction → Prop
  | .put key val => key < 2 ^ 32 ∧ ∀ r ∈ val, r.Fits
  | .compact _ _ => ∀ f ∈ mergeInputs d.store.tree.levels, f.entries ≠ []
  | .reopen _ _ => ∀ f ∈ mergeInputs d.store.tree.levels, f.entries ≠ []
  | .lookup _ _ => True

/-- What holds of the two. -/
structure Ok (c : AeadCipher) (start maxFd : ℕ) (d : DiskStore) : Prop where
  /-- the store -/
  store : d.store.Ok
  /-- the number of descriptors -/
  maxFd : d.store.tree.catalogue.maxFd = maxFd
  /-- the entries can be encoded -/
  fits : d.store.Fits
  /-- every file is in the region -/
  holds : ∀ f ∈ d.store.tree.levels.files, d.region.Holds c start f

/-- A step of the two is one of the store. -/
def Follows (c : AeadCipher) (start maxFd : ℕ) (r : Option DiskStore)
    (r' : Option (LsmStore GcmKey)) : Prop :=
  r.map DiskStore.store = r' ∧ ∀ d ∈ r, d.Ok c start maxFd

variable {c : AeadCipher} {start maxFd : ℕ} {d d' : DiskStore}

theorem ok_init (c : AeadCipher) (start capacity maxFd : ℕ) (region : IndexRegion) :
    (init capacity maxFd region).Ok c start maxFd where
  store := LsmStore.ok_init capacity maxFd
  maxFd := rfl
  fits := LsmStore.fits_iff.mpr (LsmStore.every_init FitsEntry capacity maxFd)
  holds f hf := by cases hf

/-- **A minor compaction**, if no file that is merged is without entries. -/
theorem Ok.minorCompact (hc : c.Lawful) (hend : placeOf start maxFd < 2 ^ 64)
    (h : d.Ok c start maxFd) {m : Memtable GcmKey} (hm : m.Ok) (hsize : m.size ≤ defaultLsmFileCapacity)
    (hfits : ∀ e ∈ m.getAllEntry, FitsEntry e)
    (hmerge : ∀ f ∈ mergeInputs d.store.tree.levels, f.entries ≠ []) (order : List ℕ)
    (fresh : ℕ → Fresh) :
    Follows c start maxFd (d.minorCompact c start m order fresh) (d.store.minorCompact m order) := by
  have hok := h.store.tree.levels
  have heq : (minorCompactionFrom (fun f => (d.region.files f.id).table.iterate c d.region.bytes)
      d.store.tree.levels d.store.tree.catalogue m order).map Prod.fst =
      minorCompaction d.store.tree.levels d.store.tree.catalogue m order :=
    minorCompactionFrom_eq (fun f hf => ⟨hmerge f hf, (h.holds f (mem_mergeInputs hf)).iterate hc
      (hok.files f (mem_mergeInputs hf)).sorted (hmerge f hf)⟩) m
  rw [DiskStore.minorCompact]
  cases hfrom : minorCompactionFrom (fun f => (d.region.files f.id).table.iterate c d.region.bytes)
      d.store.tree.levels d.store.tree.catalogue m order with
  | none =>
    rw [hfrom, Option.map_none] at heq
    refine ⟨?_, fun d' hd' => by cases hd'⟩
    rw [LsmStore.minorCompact, ← heq]
    rfl
  | some r =>
    obtain ⟨comp, built⟩ := r
    rw [hfrom, Option.map_some] at heq
    have hbuilds := minorCompactionFrom_builds hfrom
    have hmax := (maxFd_minorCompactionFrom hfrom).trans h.maxFd
    have hspec := minorCompaction_spec hok hm hsize heq.symm
    have hnew : ∀ f ∈ built, f ∈ (d.store.tree.levels.applyAll comp.ops).files := fun f hf =>
      hspec.added f (hbuilds.added f hf)
    have hsame : ∀ f ∈ built, ∀ g ∈ (d.store.tree.levels.applyAll comp.ops).files,
        f.id = g.id → f = g := fun f hf g hg => List.inj_on_of_nodup_map hspec.ok.nodup (hnew f hf) hg
    have hplace : ∀ f ∈ built, placeOf start f.id + bitFileSize < 2 ^ 64 := by
      intro f hf
      obtain ⟨hlt, -⟩ := hspec.ok.owned f.id (hspec.ok.inUse f (hnew f hf))
      rw [hmax] at hlt
      exact (IndexRegion.placeOf_le hlt).trans_lt hend
    obtain ⟨s', hs'⟩ : ∃ s', d.store.minorCompact m order = some s' := by
      rw [LsmStore.minorCompact, ← heq]
      exact ⟨_, rfl⟩
    have hstore := h.store.minorCompact hm hsize hs'
    have hevery := (LsmStore.fits_iff.mp h.fits).minorCompact h.store hm hsize hfits hs'
    rw [LsmStore.minorCompact, ← heq] at hs'
    obtain rfl := Option.some.inj hs'
    obtain ⟨region, hregion, hall, hkept⟩ := IndexRegion.exists_builds hc fresh d.region
      (fun f hf g hg => hsame f hf g (hnew g hg))
      fun f hf => ⟨hspec.ok.files f (hnew f hf), hevery.files f (hnew f hf), hplace f hf⟩
    rw [Option.bind_some, hregion, Option.map_some]
    refine ⟨?_, ?_⟩
    · rw [LsmStore.minorCompact, ← heq]
      rfl
    · rintro d' ⟨⟩
      refine ⟨hstore, hmax, LsmStore.fits_iff.mpr hevery, fun f hf => ?_⟩
      by_cases hbuilt : f ∈ built
      · exact hall f hbuilt
      · -- the file was there, with another level and version perhaps
        have hold : ∃ g ∈ d.store.tree.levels.files, g.id = f.id ∧ g.entries = f.entries := by
          rcases hspec.kept f hf with hadded | ⟨hold, -⟩
          · exact (hbuilds.moved f hadded).resolve_left hbuilt
          · exact ⟨f, hold, rfl, rfl⟩
        obtain ⟨g, hg, hid, hentries⟩ := hold
        refine (hkept g (fun k hk hkg => hbuilt ?_) (h.holds g hg)).congr hid
          hentries
        exact hsame k hk f hf (hkg.trans hid) ▸ hk

/-- **Opening.** -/
theorem Ok.load (hc : c.Lawful) (h : d.Ok c start maxFd) : (d.load c).Ok c start maxFd where
  store := h.store.load
  maxFd := h.maxFd
  fits := LsmStore.fits_iff.mpr ((LsmStore.fits_iff.mp h.fits).load h.store)
  holds f hf := (h.holds f (h.store.mem_load hf)).load hc

theorem Follows.map {r : Option DiskStore} {r' : Option (LsmStore GcmKey)}
    (h : Follows c start maxFd r r') {φ : DiskStore → DiskStore}
    {ψ : LsmStore GcmKey → LsmStore GcmKey} (hφ : ∀ d, (φ d).store = ψ d.store)
    (hok : ∀ d : DiskStore, d.Ok c start maxFd → (φ d).Ok c start maxFd) :
    Follows c start maxFd (r.map φ) (r'.map ψ) := by
  refine ⟨?_, fun d hd => ?_⟩
  · rw [← h.1, Option.map_map, Option.map_map]
    exact congrArg (fun F => Option.map F r) (funext hφ)
  · obtain ⟨d₀, hd₀, rfl⟩ := Option.map_eq_some_iff.mp hd
    exact hok d₀ (h.2 d₀ hd₀)

/-- **One step of the store.** -/
theorem Ok.step_store (hc : c.Lawful) (hend : placeOf start maxFd < 2 ^ 64)
    (h : d.Ok c start maxFd) {a : DiskAction} {b : LsmAction GcmKey} (hgood : d.Good a)
    (hb : a.store? = some b) : Follows c start maxFd (d.step c start a) (d.store.step b) := by
  cases a with
  | put key val =>
    obtain rfl := Option.some.inj hb
    refine ⟨?_, fun d' hd' => ?_⟩
    · rw [DiskStore.step, Option.map_map]
      exact Option.map_id'
    · obtain ⟨s', hs', rfl⟩ := Option.map_eq_some_iff.mp hd'
      have hlevels : s'.tree.levels = d.store.tree.levels ∧
          s'.tree.catalogue = d.store.tree.catalogue := by
        rcases LsmStore.step_cases hs' with ⟨_, _, heq, -, rfl⟩ | ⟨_, _, _, _, ⟨⟩, -⟩ | ⟨_, ⟨⟩, -⟩ |
          ⟨_, _, ⟨⟩, -⟩
        exact d.store.tree.put_levels _ _
      refine ⟨h.store.step hs', ?_, h.fits.put hgood.1 hgood.2 hs', ?_⟩
      · simp only [hlevels.2, h.maxFd]
      · simp only [hlevels.1]
        exact h.holds
  | compact order fresh =>
    obtain rfl := Option.some.inj hb
    rw [DiskStore.step, LsmStore.step]
    split
    · rename_i n m hworks hm
      obtain ⟨hmok, hsize⟩ := h.store.tree.immutable m hm
      rw [hworks, hm]
      exact (h.minorCompact hc hend hmok hsize (h.fits.immutable m hm) hgood order fresh).map
        (fun _ => rfl) fun d hd => ⟨⟨hd.store.tree, hd.store.stored⟩, hd.maxFd,
          ⟨hd.fits.memtable, hd.fits.immutable, hd.fits.files⟩, hd.holds⟩
    · refine ⟨?_, fun d' hd' => by cases hd'⟩
      rename_i hnone
      split
      · rename_i n m hworks hm
        exact absurd hm (hnone n m hworks)
      · rfl
  | reopen order fresh =>
    obtain rfl := Option.some.inj hb
    rw [DiskStore.step, LsmStore.step]
    split
    · exact ⟨rfl, fun d' hd' => by cases hd'⟩
    · split
      · refine ⟨rfl, ?_⟩
        rintro d' ⟨⟩
        exact h.load hc
      · exact (h.minorCompact hc hend h.store.tree.memtable (Nat.le_of_lt h.store.tree.room)
          h.fits.memtable hgood order fresh).map (fun _ => rfl) fun d hd => hd.load hc
  | lookup fd call => cases hb

/-- **A lookup** changes nothing that the store knows of. -/
theorem Ok.step_lookup (hc : c.Lawful) (h : d.Ok c start maxFd) {a : DiskAction}
    (hb : a.store? = none) (hs : d.step c start a = some d') :
    d'.Ok c start maxFd ∧ d'.store = d.store := by
  cases a with
  | lookup fd call =>
    rw [DiskStore.step] at hs
    split at hs
    · obtain ⟨region, hregion, rfl⟩ := Option.map_eq_some_iff.mp hs
      refine ⟨⟨h.store, h.maxFd, h.fits, fun f hf => ?_⟩, rfl⟩
      exact (h.holds f hf).lookup hc (h.store.tree.levels.files f hf).sorted hregion
    · cases hs
  | _ => cases hb

/-- **A search** in the region finds what the search in the lists finds. -/
theorem Ok.search_eq (hc : c.Lawful) (h : d.Ok c start maxFd) {key : ℕ}
    {res : Option (Record GcmKey)} (hres : d.store.tree.search key = some res) :
    d.search c key = some res := by
  have hfile : ∀ f ∈ d.store.tree.levels.files, ∀ res, f.search key = some res →
      d.region.search c f.id key = some res := fun f hf res hf' =>
    (h.holds f hf).search_eq hc (h.store.tree.levels.files f hf).sorted hf'
  have hupper : ∀ res, d.store.tree.levels.level0.search key = some res →
      d.store.tree.levels.level0.searchBy (fun f => d.region.search c f.id) key = some res :=
    fun res hres => BitLevel.searchBy_eq
      (fun f hf => hfile f (Levels.mem_files.mpr (Or.inl hf))) hres
  rw [LsmTree.search] at hres
  rw [DiskStore.search]
  split at hres
  · rename_i r hr
    rw [hr]
    exact hres
  · rename_i hr
    rw [hr]
    simp only
    split at hres
    · rename_i r hr
      rw [hr]
      exact hres
    · rename_i hr
      rw [hr]
      simp only
      split at hres
      · cases hres
      · rename_i r hr
        rw [hupper _ hr]
        exact hres
      · rename_i hr
        rw [hupper _ hr]
        exact BitLevel.searchBy_eq (fun f hf => hfile f (Levels.mem_files.mpr (Or.inr hf))) hres

/-- **The region holds the store.** Whatever the order of puts, compactions, closings and lookups,
the store goes the way it goes without a region. No table that is still in use is ever overwritten:
a file with entries is read back from the region, and a search there finds what the specification
finds. The next step of the store is possible if it is possible without a region. -/
theorem refines (hc : c.Lawful) {capacity : ℕ} {region : IndexRegion}
    (hend : placeOf start maxFd < 2 ^ 64) {run : List DiskAction}
    (hgood : Machine.Along (DiskStore.step c start) Good (init capacity maxFd region) run)
    (hrun : Machine.exec (DiskStore.step c start) (init capacity maxFd region) run = some d) :
    Machine.exec LsmStore.step (LsmStore.init capacity maxFd) (run.filterMap DiskAction.store?) =
        some d.store ∧
      (∀ f ∈ d.store.tree.levels.files, f.entries ≠ [] →
        (d.region.files f.id).table.iterate c d.region.bytes = some f.entries) ∧
      (∀ key res, d.store.tree.search key = some res → d.search c key = some res) ∧
      ∀ a b, d.Good a → a.store? = some b →
        (d.step c start a).map DiskStore.store = d.store.step b := by
  have hseen : ∀ (d : DiskStore) (s : LsmStore GcmKey) (a : DiskAction) (b : LsmAction GcmKey)
      (d' : DiskStore), d.Ok c start maxFd ∧ d.store = s → d.Good a → a.store? = some b →
      d.step c start a = some d' → ∃ s', s.step b = some s' ∧ d'.Ok c start maxFd ∧ d'.store = s' := by
    rintro d _ a b d' ⟨hok, rfl⟩ ha hb hstep
    obtain ⟨heq, hall⟩ := hok.step_store hc hend ha hb
    rw [hstep, Option.map_some] at heq
    exact ⟨d'.store, heq.symm, hall d' hstep, rfl⟩
  have hunseen : ∀ (d : DiskStore) (s : LsmStore GcmKey) (a : DiskAction) (d' : DiskStore),
      d.Ok c start maxFd ∧ d.store = s → d.Good a → a.store? = none →
      d.step c start a = some d' → d'.Ok c start maxFd ∧ d'.store = s := by
    rintro d _ a d' ⟨hok, rfl⟩ - hb hstep
    exact hok.step_lookup hc hb hstep
  obtain ⟨s, hs, hok, rfl⟩ := Machine.exec_filterMap hseen hunseen
    ⟨ok_init c start capacity maxFd region, rfl⟩ hgood hrun
  exact ⟨hs, fun f hf hne => (hok.holds f hf).iterate hc (hok.store.tree.levels.files f hf).sorted hne,
    fun key res hres => hok.search_eq hc hres, fun a b ha hb => (hok.step_store hc hend ha hb).1⟩

/-- The first put to a formatted device and a close. -/
theorem exists_first {r : Record GcmKey} (hfits : r.Fits) (hpos : r.isNegative = false) :
    ∃ (region : IndexRegion) (fresh : ℕ → Fresh) (i : ℕ) (d : DiskStore),
      Machine.exec (DiskStore.step addingAead 0) (init 4 8 region)
        [.put 5 (some r), .reopen [] fresh] = some d ∧
      Machine.Along (DiskStore.step addingAead 0) Good (init 4 8 region)
        [.put 5 (some r), .reopen [] fresh] ∧
      d.store.Reopened [⟨i, 0, 0, [(5, r)]⟩] [] ∧ d.Ok addingAead 0 8 := by
  have hend : placeOf 0 8 < 2 ^ 64 := by decide
  have hc := addingAead_lawful
  let stat : TableStat := ⟨0, default, 0, 0, 0⟩
  let region : IndexRegion := ⟨fun _ => 0,
    fun _ => ⟨stat.openFile addingAead fun _ => 0, ⟨maxLeafNodeCached, []⟩⟩, fun _ => stat⟩
  let fresh : ℕ → Fresh := fun _ => ⟨default, fun _ => 0⟩
  -- the store
  obtain ⟨s, i, hs, hre, -⟩ := LsmStore.exec_first 4 8 (by decide) 5 hpos
  obtain ⟨s₁, hs₁, hrest⟩ := Machine.exec_cons_eq_some hs
  obtain ⟨s₂, hs₂, hlast⟩ := Machine.exec_cons_eq_some hrest
  obtain rfl := Option.some.inj hlast
  have hlevels : s₁.tree.levels = (LsmStore.init 4 8).tree.levels := by
    rcases LsmStore.step_cases hs₁ with ⟨_, _, -, -, rfl⟩ | ⟨_, _, _, _, ⟨⟩, -⟩ | ⟨_, ⟨⟩, -⟩ |
      ⟨_, _, ⟨⟩, -⟩
    exact (LsmTree.put_levels _ _ _).1
  -- the same with the region
  have hput : (init 4 8 region).Good (.put 5 (some r)) := ⟨by decide, by rintro _ ⟨⟩; exact hfits⟩
  obtain ⟨hstore₁, hok₁⟩ := (ok_init addingAead 0 4 8 region).step_store hc hend hput rfl
  obtain ⟨d₁, hd₁, rfl⟩ := Option.map_eq_some_iff.mp (hstore₁.trans hs₁)
  have hmerge : d₁.Good (.reopen [] fresh) := by
    rw [Good, hlevels]
    exact fun f hf => absurd hf List.not_mem_nil
  obtain ⟨hstore₂, hok₂⟩ := (hok₁ d₁ hd₁).step_store hc hend hmerge rfl
  obtain ⟨d₂, hd₂, rfl⟩ := Option.map_eq_some_iff.mp (hstore₂.trans hs₂)
  exact ⟨region, fresh, i, d₂, Machine.exec_cons_of hd₁ (Machine.exec_cons_of hd₂ rfl),
    Machine.along_cons_of hput hd₁ (Machine.along_cons_of hmerge hd₂ trivial), hre, hok₂ d₂ hd₂⟩

/-- A key is put, the device is closed and opened, and the key is looked up. -/
theorem refines_sample : ∃ (region : IndexRegion) (fresh : ℕ → Fresh) (fd : ℕ) (d : DiskStore),
    Machine.exec (DiskStore.step addingAead 0) (init 4 8 region)
        [.put 5 (some ⟨9, List.replicate aesGcmAuthSize 0, default⟩), .reopen [] fresh,
          .lookup fd (.search 5)] = some d ∧
      (d.region.files fd).table.iterate addingAead d.region.bytes =
        some [(5, ⟨9, List.replicate aesGcmAuthSize 0, default⟩)] := by
  obtain ⟨r, hr⟩ : ∃ r : Record GcmKey, r = ⟨9, List.replicate aesGcmAuthSize 0, default⟩ := ⟨_, rfl⟩
  rw [← hr]
  have hc := addingAead_lawful
  obtain ⟨region, fresh, i, d, hrun, hgood, hre, hok⟩ :=
    exists_first (hr ▸ ⟨by decide, List.length_replicate⟩ : r.Fits) (by rw [hr]; rfl)
  -- the file
  obtain ⟨f, hf⟩ : ∃ f : BitFile GcmKey, f = ⟨i, 0, 0, [(5, r)]⟩ := ⟨_, rfl⟩
  have hmem : f ∈ d.store.tree.levels.files := by
    rw [Levels.mem_files, hre.upper, hf]
    exact Or.inl List.mem_cons_self
  have hne : f.entries ≠ [] := by rw [hf]; exact List.cons_ne_nil _ _
  have hid : f.id = i := by rw [hf]
  have hsorted := (hok.store.tree.levels.files f hmem).sorted
  obtain ⟨cache, hsearch, -⟩ := ((hok.holds f hmem).table hne).search hc hsorted hne
    ((hok.holds f hmem).cached hne) 5
  have hvalid : d.store.tree.catalogue.bitValidityTable.valid f.id = true :=
    hok.store.tree.levels.inUse f hmem
  obtain ⟨d', hd'⟩ : ∃ d', d.step addingAead 0 (.lookup f.id (.search 5)) = some d' := by
    rw [DiskStore.step, if_pos hvalid, IndexRegion.lookup, DiskBitFile.lookup, hsearch]
    exact ⟨_, rfl⟩
  have hrun' : Machine.exec (DiskStore.step addingAead 0) (init 4 8 region)
      ([.put 5 (some r), .reopen [] fresh] ++ [.lookup f.id (.search 5)]) = some d' :=
    Machine.exec_append_of hrun (Machine.exec_cons_of hd' rfl)
  have hgood' : Machine.Along (DiskStore.step addingAead 0) Good (init 4 8 region)
      ([.put 5 (some r), .reopen [] fresh] ++ [.lookup f.id (.search 5)]) :=
    Machine.along_append_of hgood fun _ _ => ⟨trivial, fun _ _ => trivial⟩
  have hsame := (hok.step_lookup hc rfl hd').2
  have hread := (refines hc (by decide) hgood' hrun').2.1 f (hsame ▸ hmem) hne
  rw [hf] at hread
  exact ⟨region, fresh, i, d', hid ▸ hrun', hread⟩

end DiskStore

end JinDisk
