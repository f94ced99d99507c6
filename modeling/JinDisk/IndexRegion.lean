import JinDisk.TableReads
import JinDisk.FileIds
import JinDisk.StoreRuns

/-!
# The index region

The store with the bytes its files lie in. A file of the levels is a `bit_file` in memory, with the
position of the root, the key, the two upper levels and some leaves; its entries are in the region,
in the place for its descriptor. A compaction reads them with iterators and builds new tables; a
lookup reads leaves; and when the device is opened, the upper levels are read again, with what
`file_stats` has of each file.

Descriptors are used again, and then a new table overwrites an old one. `DiskStore.refines` says that
nothing of this is seen: in every run the region answers as the levels with their lists of entries
do.
-/

namespace JinDisk

open KwayMerge

/-! ## Compactions that read the files -/

section Reading

variable {κ : Type}

/-- `compaction_job_run` with what the iterators return, and the files that are built. A file that is
moved is not built again. -/
def compactionJobRunFrom (read : BitFile κ → Option (List (ℕ × Record κ))) (l : Levels κ)
    (c : Catalogue) (order : List ℕ) : Option (Compaction κ × List (BitFile κ)) :=
  if (l.level1.findRelativeFiles l.level0.pickDemotedFiles).isEmpty &&
      !lsmFileOverlapping l.level0.pickDemotedFiles then
    let moves := moveFiles l.level1.level c l.level0.pickDemotedFiles
    some (⟨moves.1, [], moves.2⟩, [])
  else
    ((mergeInputs l).mapM fun f => (read f).map fun es => { f with entries := es }.nodes).bind
      fun nodes => (pops MergeNode.key nodes order).bind fun stream =>
        (kwayMerge c l.level1.level stream).map fun s => (Compactable.mergeCompaction l s, s.files)

/-- `lsm_tree_major_compaction` of level 0 -/
def majorCompactionFrom (read : BitFile κ → Option (List (ℕ × Record κ))) (l : Levels κ)
    (c : Catalogue) (order : List ℕ) : Option (Compaction κ × List (BitFile κ)) :=
  if l.level1.isFull then none else compactionJobRunFrom read l c order

/-- `lsm_tree_minor_compaction` -/
def minorCompactionFrom [Inhabited κ] (read : BitFile κ → Option (List (ℕ × Record κ)))
    (l : Levels κ) (c : Catalogue) (m : Memtable κ) (order : List ℕ) :
    Option (Compaction κ × List (BitFile κ)) :=
  (if l.level0.isFull then majorCompactionFrom read l c order else some (⟨[], [], c⟩, [])).bind
    fun major => (openBuilder major.1.catalogue 0).map fun (b : BitFile κ × Catalogue) =>
      ({ ops := major.1.ops ++ [.add0 { b.1 with entries := m.getAllEntry }]
         superseded := major.1.superseded
         catalogue := b.2 }, major.2 ++ [{ b.1 with entries := m.getAllEntry }])

variable {read : BitFile κ → Option (List (ℕ × Record κ))} {l : Levels κ} {c : Catalogue}
  {order : List ℕ} {comp : Compaction κ} {built : List (BitFile κ)}

/-- Reading files that are as the levels have them. -/
theorem mapM_nodes {fs : List (BitFile κ)} (hread : ∀ f ∈ fs, read f = some f.entries) :
    (fs.mapM fun f => (read f).map fun es => { f with entries := es }.nodes) =
      some (fs.map BitFile.nodes) := by
  induction fs with
  | nil => rfl
  | cons f fs ih =>
    rw [List.mapM_cons, hread f List.mem_cons_self, ih fun g hg => hread g (List.mem_cons_of_mem f hg)]
    rfl

/-- The compaction is the same. -/
theorem compactionJobRunFrom_eq
    (hread : ∀ f ∈ mergeInputs l, f.entries ≠ [] ∧ read f = some f.entries) :
    (compactionJobRunFrom read l c order).map Prod.fst = compactionJobRun l c order := by
  rw [compactionJobRunFrom, compactionJobRun]
  split
  · rfl
  · rw [if_neg, mapM_nodes fun f hf => (hread f hf).2, Option.bind_some, Option.map_bind]
    · refine Option.bind_congr fun stream _ => ?_
      rw [Function.comp_apply, Option.map_map]
      rfl
    · intro hempty
      obtain ⟨f, hf, hnil⟩ := List.any_eq_true.mp hempty
      exact (hread f hf).1 (List.isEmpty_iff.mp hnil)

theorem minorCompactionFrom_eq [Inhabited κ]
    (hread : ∀ f ∈ mergeInputs l, f.entries ≠ [] ∧ read f = some f.entries) (m : Memtable κ) :
    (minorCompactionFrom read l c m order).map Prod.fst = minorCompaction l c m order := by
  have hmajor : (if l.level0.isFull then majorCompactionFrom read l c order
      else some (⟨[], [], c⟩, [])).map Prod.fst =
      if l.level0.isFull then majorCompaction l c order else some ⟨[], [], c⟩ := by
    split
    · rw [majorCompactionFrom, majorCompaction]
      split
      · rfl
      · exact compactionJobRunFrom_eq hread
    · rfl
  rw [minorCompactionFrom, minorCompaction, ← hmajor, Option.map_bind, Option.bind_map]
  refine Option.bind_congr fun major _ => ?_
  rw [Function.comp_apply, Function.comp_apply, Option.map_map]
  rfl

/-- The files that are added are built, or moved with the entries they have. -/
structure Builds (fs : List (BitFile κ)) (comp : Compaction κ) (built : List (BitFile κ)) : Prop where
  /-- what is built is added -/
  added : ∀ f ∈ built, f ∈ comp.ops.filterMap LevelOp.added?
  /-- what is added is built or moved -/
  moved : ∀ f ∈ comp.ops.filterMap LevelOp.added?,
    f ∈ built ∨ ∃ g ∈ fs, g.id = f.id ∧ g.entries = f.entries

theorem mem_moveFiles {level : ℕ} {fs : List (BitFile κ)} {f : BitFile κ}
    (hf : f ∈ (moveFiles level c fs).1.filterMap LevelOp.added?) :
    ∃ g ∈ fs, g.id = f.id ∧ g.entries = f.entries := by
  induction fs generalizing c with
  | nil => cases hf
  | cons g fs ih =>
    rcases List.mem_cons.mp hf with rfl | hf
    · exact ⟨g, List.mem_cons_self, rfl, rfl⟩
    · obtain ⟨k, hk, hsame⟩ := ih hf
      exact ⟨k, List.mem_cons_of_mem g hk, hsame⟩

theorem pickDemotedFiles_sublist (l : BitLevel κ) : l.pickDemotedFiles.Sublist l.files := by
  rw [BitLevel.pickDemotedFiles]
  split
  · exact List.take_sublist _ _
  · exact List.Sublist.refl _

theorem mem_mergeInputs {f : BitFile κ} (hf : f ∈ mergeInputs l) : f ∈ l.files :=
  ((pickDemotedFiles_sublist _).append (BitLevel.findRelativeFiles_sublist _ _)).subset hf

theorem compactionJobRunFrom_builds (h : compactionJobRunFrom read l c order = some (comp, built)) :
    Builds l.files comp built := by
  rw [compactionJobRunFrom] at h
  split at h
  · obtain ⟨rfl, rfl⟩ := Prod.mk.inj (Option.some.inj h)
    refine ⟨fun f hf => absurd hf List.not_mem_nil, fun f hf => Or.inr ?_⟩
    obtain ⟨g, hg, hsame⟩ := mem_moveFiles hf
    exact ⟨g, Levels.mem_files.mpr (Or.inl ((pickDemotedFiles_sublist _).subset hg)), hsame⟩
  · obtain ⟨nodes, -, h⟩ := Option.bind_eq_some_iff.mp h
    obtain ⟨stream, -, h⟩ := Option.bind_eq_some_iff.mp h
    obtain ⟨s, -, heq⟩ := Option.map_eq_some_iff.mp h
    obtain ⟨rfl, rfl⟩ := Prod.mk.inj heq
    have hadded : (Compactable.mergeCompaction l s).ops.filterMap LevelOp.added? = s.files := by
      rw [Compactable.mergeCompaction, List.filterMap_append, List.filterMap_append,
        List.filterMap_map, List.filterMap_map, List.filterMap_map]
      simp [Function.comp_def, LevelOp.added?]
    exact ⟨fun f hf => hadded ▸ hf, fun f hf => Or.inl (hadded ▸ hf)⟩

theorem minorCompactionFrom_builds [Inhabited κ] {m : Memtable κ}
    (h : minorCompactionFrom read l c m order = some (comp, built)) : Builds l.files comp built := by
  obtain ⟨major, hmajor, hmap⟩ := Option.bind_eq_some_iff.mp h
  obtain ⟨b, -, heq⟩ := Option.map_eq_some_iff.mp hmap
  obtain ⟨rfl, rfl⟩ := Prod.mk.inj heq
  have hbuilds : Builds l.files major.1 major.2 := by
    split at hmajor
    · rw [majorCompactionFrom] at hmajor
      split at hmajor
      · cases hmajor
      · exact compactionJobRunFrom_builds hmajor
    · obtain rfl := Option.some.inj hmajor
      exact ⟨fun f hf => absurd hf List.not_mem_nil, fun f hf => absurd hf List.not_mem_nil⟩
  refine ⟨fun f hf => ?_, fun f hf => ?_⟩
  · rw [List.filterMap_append]
    exact List.mem_append.mpr ((List.mem_append.mp hf).imp (hbuilds.added f) id)
  · rw [List.filterMap_append] at hf
    rcases List.mem_append.mp hf with hf | hf
    · exact (hbuilds.moved f hf).imp_left fun hf => List.mem_append_left _ hf
    · exact Or.inl (List.mem_append_right _ hf)

/-! ### The number of descriptors -/

theorem maxFd_openBuilder {c' : Catalogue} {level : ℕ} {b : BitFile κ}
    (h : openBuilder c level = some (b, c')) : c'.maxFd = c.maxFd :=
  ((Allocated.refl c).openBuilder h).2.maxFd

theorem maxFd_kwayMerge {level : ℕ} {stream : List (MergeNode κ)} {s : MergeState κ}
    (h : kwayMerge c level stream = some s) : s.catalogue.maxFd = c.maxFd := by
  cases stream with
  | nil => cases h
  | cons first rest =>
    obtain ⟨⟨b, c'⟩, hb, hrest⟩ := Option.bind_eq_some_iff.mp h
    obtain ⟨s₁, hs₁, rfl⟩ := Option.map_eq_some_iff.mp hrest
    have hstep : ∀ (s : MergeState κ) first s', s.catalogue.maxFd = c.maxFd →
        s.step level first = some s' → s'.catalogue.maxFd = c.maxFd := by
      intro s first s' hs hstep
      rw [MergeState.step] at hstep
      split at hstep
      · exact Option.some.inj hstep ▸ hs
      · split at hstep
        · obtain ⟨⟨b, c'⟩, hb, rfl⟩ := Option.map_eq_some_iff.mp hstep
          exact (maxFd_openBuilder hb).trans hs
        · exact Option.some.inj hstep ▸ hs
    have hend : s₁.catalogue.maxFd = c.maxFd :=
      Machine.invariant_of_all hstep (maxFd_openBuilder hb) hs₁
    exact hend

theorem maxFd_moveFiles (level : ℕ) (c : Catalogue) (fs : List (BitFile κ)) :
    (moveFiles level c fs).2.maxFd = c.maxFd := by
  induction fs generalizing c with
  | nil => rfl
  | cons f fs ih => exact ih c.getNextVersion.2

theorem maxFd_minorCompactionFrom [Inhabited κ] {m : Memtable κ}
    (h : minorCompactionFrom read l c m order = some (comp, built)) :
    comp.catalogue.maxFd = c.maxFd := by
  obtain ⟨major, hmajor, hmap⟩ := Option.bind_eq_some_iff.mp h
  obtain ⟨⟨b, c'⟩, hb, heq⟩ := Option.map_eq_some_iff.mp hmap
  obtain ⟨rfl, rfl⟩ := Prod.mk.inj heq
  refine (maxFd_openBuilder hb).trans ?_
  split at hmajor
  · rw [majorCompactionFrom, compactionJobRunFrom] at hmajor
    split at hmajor
    · cases hmajor
    · split at hmajor
      · obtain rfl := Option.some.inj hmajor
        exact maxFd_moveFiles _ _ _
      · obtain ⟨nodes, -, hmajor⟩ := Option.bind_eq_some_iff.mp hmajor
        obtain ⟨stream, -, hmajor⟩ := Option.bind_eq_some_iff.mp hmajor
        obtain ⟨s, hs, rfl⟩ := Option.map_eq_some_iff.mp hmajor
        exact (Catalogue.maxFd_releaseFiles _ _).trans (maxFd_kwayMerge hs)
  · obtain rfl := Option.some.inj hmajor
    rfl

end Reading

/-! ## The region and the files that are open -/

/-- What `struct file_stat` has of a table. -/
structure TableStat where
  /-- `root` -/
  root : ℕ
  /-- `root_key` -/
  rootKey : GcmKey
  /-- `first_key` -/
  firstKey : ℕ
  /-- `last_key` -/
  lastKey : ℕ
  /-- `nr_record` -/
  nrRecord : ℕ

/-- `bit_file_get_stats` -/
def DiskBitFile.getStats (f : DiskBitFile) : TableStat :=
  ⟨f.root, f.rootKey, f.firstKey, f.lastKey, f.nrRecord⟩

/-- `bit_file_create` for a table that is there. -/
def TableStat.openFile (c : AeadCipher) (bytes : ℕ → UInt8) (s : TableStat) : DiskBitFile where
  root := s.root
  rootKey := s.rootKey
  firstKey := s.firstKey
  lastKey := s.lastKey
  nrRecord := s.nrRecord
  cachedRoot := bitFileBuildCachedRoot c bytes s.rootKey s.root

/-- `struct bit_file` with its cache -/
structure OpenFile where
  /-- the table -/
  table : DiskBitFile
  /-- `cached_leaf` -/
  cachedLeaf : LruCache (BitLeaf GcmKey)

/-- What a builder starts with beside its place. -/
structure Fresh where
  /-- what `get_random_bytes` returns for `bit_key` -/
  key : GcmKey
  /-- what `vmalloc` returns for the buffer -/
  buffer : ℕ → UInt8

/-- The region with the files that are open and the table of statistics, by descriptor. -/
structure IndexRegion where
  /-- the file on the device -/
  bytes : ℕ → UInt8
  /-- the files in memory -/
  files : ℕ → OpenFile
  /-- `file_stats` -/
  stats : ℕ → TableStat

/-- The place for the table of a descriptor; `start` is that of the catalogue. -/
def placeOf (start fd : ℕ) : ℕ := start + fd * bitFileSize

namespace IndexRegion

/-- A table is built, and its statistics are recorded. -/
def build (c : AeadCipher) (start : ℕ) (fresh : ℕ → Fresh) (r : IndexRegion) (f : BitFile GcmKey) :
    Option IndexRegion :=
  (writeTable c r.bytes (fresh f.id).buffer (placeOf start f.id) (fresh f.id).key f.entries).map
    fun w =>
      { bytes := w.file
        files := Function.update r.files f.id ⟨w.bitFile c, ⟨maxLeafNodeCached, []⟩⟩
        stats := Function.update r.stats f.id (w.bitFile c).getStats }

/-- The files are opened. -/
def load (c : AeadCipher) (r : IndexRegion) : IndexRegion :=
  { r with files := fun fd => ⟨(r.stats fd).openFile c r.bytes, ⟨maxLeafNodeCached, []⟩⟩ }

/-- A lookup in the file of a descriptor, as far as it changes something. -/
def lookup (c : AeadCipher) (r : IndexRegion) (fd : ℕ) (call : DiskBitFile.Lookup) :
    Option IndexRegion :=
  ((r.files fd).table.lookup c r.bytes (r.files fd).cachedLeaf call).map fun cachedLeaf =>
    { r with files := Function.update r.files fd { r.files fd with cachedLeaf } }

/-- `bit_file_search`, the record or the error. -/
def search (c : AeadCipher) (r : IndexRegion) (fd key : ℕ) : Option (Option (Record GcmKey)) :=
  ((r.files fd).table.search c r.bytes (r.files fd).cachedLeaf key).map fun found =>
    match found.1 with
    | .ok r => r
    | .error _ => none

/-- The region holds a file of the levels. -/
structure Holds (c : AeadCipher) (start : ℕ) (r : IndexRegion) (f : BitFile GcmKey) : Prop where
  /-- the range of the keys -/
  firstKey : (r.files f.id).table.firstKey = f.firstKey
  lastKey : (r.files f.id).table.lastKey = f.lastKey
  /-- the statistics -/
  stats : r.stats f.id = (r.files f.id).table.getStats
  /-- the table, if there is anything in it -/
  table : f.entries ≠ [] →
    TableAt c (placeOf start f.id) r.bytes f.entries (r.files f.id).table
  /-- the leaves that are cached -/
  cached : f.entries ≠ [] → f.Cached ((r.files f.id).cachedLeaf.map BitLeaf.entries)

variable {c : AeadCipher} {start : ℕ} {r r' : IndexRegion} {f g : BitFile GcmKey}

/-- Places of different descriptors do not overlap. -/
theorem placeOf_apart {fd fd' p : ℕ} (hne : fd ≠ fd') (hle : placeOf start fd ≤ p)
    (hlt : p < placeOf start fd + bitFileSize) :
    p < placeOf start fd' ∨ placeOf start fd' + bitFileSize ≤ p := by
  have hmul : ∀ {a b : ℕ}, a < b → placeOf start a + bitFileSize ≤ placeOf start b := by
    intro a b hab
    have := Nat.mul_le_mul_right bitFileSize (Nat.succ_le_of_lt hab)
    rw [Nat.succ_mul] at this
    rw [placeOf, placeOf]
    omega
  rcases Nat.lt_or_gt_of_ne hne with h | h
  · exact Or.inl (hlt.trans_le (hmul h))
  · exact Or.inr ((hmul h).trans hle)

theorem placeOf_le {fd maxFd : ℕ} (h : fd < maxFd) :
    placeOf start fd + bitFileSize ≤ placeOf start maxFd := by
  have := Nat.mul_le_mul_right bitFileSize (Nat.succ_le_of_lt h)
  rw [Nat.succ_mul] at this
  rw [placeOf, placeOf]
  omega

/-- **What is written elsewhere** does not matter. -/
theorem Holds.frame (h : r.Holds c start f) (hfile : r'.files f.id = r.files f.id) (hstats : r'.stats f.id = r.stats f.id)
    (hsame : ∀ p, placeOf start f.id ≤ p → p < placeOf start f.id + bitFileSize →
      r'.bytes p = r.bytes p) : r'.Holds c start f := by
  refine ⟨by rw [hfile, h.firstKey], by rw [hfile, h.lastKey], by rw [hstats, hfile, h.stats],
    fun hne => ?_, fun hne => ?_⟩
  · rw [hfile]
    exact (h.table hne).congr hsame
  · rw [hfile]
    exact h.cached hne

/-- **A table is built.** The others are kept. -/
theorem exists_build (hc : c.Lawful) (fresh : ℕ → Fresh) (r : IndexRegion) (hf : f.Ok)
    (hfits : ∀ e ∈ f.entries, e.1 < 2 ^ 32 ∧ e.2.Fits)
    (hend : placeOf start f.id + bitFileSize < 2 ^ 64) :
    ∃ r', r.build c start fresh f = some r' ∧ r'.Holds c start f ∧
      ∀ g : BitFile GcmKey, f.id ≠ g.id → r.Holds c start g → r'.Holds c start g := by
  obtain ⟨w, hw, houtside, hfirst, hlast, -, htable⟩ := writeTable_spec hc r.bytes (fresh f.id).buffer
    (fresh f.id).key hend hfits hf.size
  obtain ⟨r', hr'⟩ : ∃ r', r.build c start fresh f = some r' := ⟨_, congrArg (Option.map _) hw⟩
  have hbuild := hr'
  rw [build, hw, Option.map_some, Option.some_inj] at hbuild
  have hfile : r'.files f.id = ⟨w.bitFile c, ⟨maxLeafNodeCached, []⟩⟩ := by
    rw [← hbuild]
    exact Function.update_self ..
  refine ⟨r', hr', ⟨?_, ?_, ?_, fun hne => ?_, fun hne => ?_⟩, fun g hne h => ?_⟩
  · rw [hfile]
    exact hfirst
  · rw [hfile]
    exact hlast
  · rw [hfile, ← hbuild]
    exact Function.update_self ..
  · rw [hfile, ← hbuild]
    exact htable hne
  · rw [hfile]
    exact fun e he => by cases he
  · refine h.frame ?_ ?_ fun p hle hlt => ?_
    · rw [← hbuild]
      exact Function.update_of_ne hne.symm ..
    · rw [← hbuild]
      exact Function.update_of_ne hne.symm ..
    · rw [← hbuild]
      exact houtside p (placeOf_apart hne.symm hle hlt)

/-- **Several tables are built**, with different descriptors. -/
theorem exists_builds (hc : c.Lawful) (fresh : ℕ → Fresh) (r : IndexRegion)
    {built : List (BitFile GcmKey)} (hids : ∀ f ∈ built, ∀ g ∈ built, f.id = g.id → f = g)
    (hf : ∀ f ∈ built, f.Ok ∧ (∀ e ∈ f.entries, e.1 < 2 ^ 32 ∧ e.2.Fits) ∧
      placeOf start f.id + bitFileSize < 2 ^ 64) :
    ∃ r', Machine.exec (build c start fresh) r built = some r' ∧
      (∀ f ∈ built, r'.Holds c start f) ∧
      ∀ g : BitFile GcmKey, (∀ f ∈ built, f.id ≠ g.id) → r.Holds c start g →
        r'.Holds c start g := by
  induction built generalizing r with
  | nil => exact ⟨r, rfl, fun f hf => absurd hf List.not_mem_nil, fun g _ h => h⟩
  | cons f fs ih =>
    obtain ⟨hok, hfits, hend⟩ := hf f List.mem_cons_self
    obtain ⟨r₁, hr₁, hheld, hkept₁⟩ := exists_build hc fresh r hok hfits hend
    obtain ⟨r', hr', hall, hkept⟩ := ih r₁
      (fun a ha b hb => hids a (List.mem_cons_of_mem f ha) b (List.mem_cons_of_mem f hb))
      fun a ha => hf a (List.mem_cons_of_mem f ha)
    refine ⟨r', Machine.exec_cons_of hr₁ hr', fun a ha => ?_, fun g hne h => ?_⟩
    · rcases List.mem_cons.mp ha with rfl | ha
      · -- a file that is built twice is the same file
        by_cases hagain : ∃ b ∈ fs, b.id = a.id
        · obtain ⟨b, hb, hid⟩ := hagain
          obtain rfl := hids b (List.mem_cons_of_mem a hb) a List.mem_cons_self hid
          exact hall b hb
        · push Not at hagain
          exact hkept a hagain hheld
      · exact hall a ha
    · exact hkept g (fun b hb => hne b (List.mem_cons_of_mem f hb))
        (hkept₁ g (hne f List.mem_cons_self) h)

/-- What building tables leaves of the files that are open. -/
theorem files_exec_build {fresh : ℕ → Fresh} {built : List (BitFile GcmKey)}
    (h : Machine.exec (build c start fresh) r built = some r') (fd : ℕ) :
    (r'.files fd).cachedLeaf.entries = [] ∨ r'.files fd = r.files fd ∧ ∀ f ∈ built, f.id ≠ fd := by
  induction built generalizing r with
  | nil =>
    obtain rfl := Option.some.inj h
    exact Or.inr ⟨rfl, fun f hf => absurd hf List.not_mem_nil⟩
  | cons f fs ih =>
    obtain ⟨r₁, hr₁, hrest⟩ := Machine.exec_cons_eq_some h
    rcases ih hrest with hempty | ⟨hsame, hnot⟩
    · exact Or.inl hempty
    · obtain ⟨w, -, rfl⟩ := Option.map_eq_some_iff.mp hr₁
      by_cases hid : f.id = fd
      · subst hid
        refine Or.inl ?_
        rw [hsame]
        simp only [Function.update_self]
      · refine Or.inr ⟨?_, List.forall_mem_cons.mpr ⟨hid, hnot⟩⟩
        rw [hsame]
        exact Function.update_of_ne (Ne.symm hid) ..

/-- **Opening** a file again. -/
theorem Holds.load (hc : c.Lawful) (h : r.Holds c start f) : (r.load c).Holds c start f := by
  have hstats := h.stats
  have hopen : ((r.load c).files f.id).table = (r.files f.id).table ∨ f.entries = [] := by
    by_cases hne : f.entries = []
    · exact Or.inr hne
    · have hroot := (h.table hne).cachedRoot hc hne
      refine Or.inl ?_
      change (r.stats f.id).openFile c r.bytes = _
      rw [hstats, TableStat.openFile]
      simp only [DiskBitFile.getStats, hroot]
  refine ⟨?_, ?_, ?_, fun hne => ?_, fun hne e he => by cases he⟩
  · rw [← h.firstKey]
    exact congrArg TableStat.firstKey hstats
  · rw [← h.lastKey]
    exact congrArg TableStat.lastKey hstats
  · rfl
  · rw [hopen.resolve_right hne]
    exact h.table hne

/-- **A lookup** leaves everything as it is but leaves in the cache. -/
theorem Holds.lookup (hc : c.Lawful) (h : r.Holds c start f) (hs : f.Sorted) {fd : ℕ}
    {call : DiskBitFile.Lookup} (hr : r.lookup c fd call = some r') : r'.Holds c start f := by
  obtain ⟨cache, hcache, rfl⟩ := Option.map_eq_some_iff.mp hr
  by_cases hfd : f.id = fd
  · subst hfd
    have hfile : Function.update r.files f.id { r.files f.id with cachedLeaf := cache } f.id =
        ⟨(r.files f.id).table, cache⟩ := Function.update_self ..
    refine ⟨?_, ?_, ?_, fun hne => ?_, fun hne => ?_⟩
    all_goals simp only [hfile]
    · exact h.firstKey
    · exact h.lastKey
    · exact h.stats
    · exact h.table hne
    · exact (h.table hne).cached_lookup hc hs hne (h.cached hne) hcache
  · exact h.frame (Function.update_of_ne hfd ..) rfl fun p _ _ => rfl

/-- Level and version of a file are not in the region. -/
theorem Holds.congr (h : r.Holds c start f) (hid : f.id = g.id) (hentries : f.entries = g.entries) :
    r.Holds c start g := by
  have hfirst := h.firstKey
  have hlast := h.lastKey
  rw [BitFile.firstKey, hentries, hid] at hfirst
  rw [BitFile.lastKey, hentries, hid] at hlast
  refine ⟨hfirst, hlast, hid ▸ h.stats, hid ▸ hentries ▸ h.table, fun hne => ?_⟩
  have hcached := h.cached (hentries ▸ hne)
  rw [hid, BitFile.Cached] at hcached
  rw [BitFile.Cached]
  simp only [BitFile.searchLeafKeyPos, BitFile.firstKey, BitFile.lastKey, BitFile.leaves, hentries]
    at hcached ⊢
  exact hcached

/-- **A search** finds what it finds in the list of entries. -/
theorem Holds.search_eq (hc : c.Lawful) (h : r.Holds c start f) (hs : f.Sorted) {key : ℕ}
    {res : Option (Record GcmKey)} (hres : f.search key = some res) :
    r.search c f.id key = some res := by
  rw [BitFile.search] at hres
  split at hres
  · rename_i hout
    rw [← h.firstKey, ← h.lastKey] at hout
    rw [IndexRegion.search, DiskBitFile.search, DiskBitFile.searchCachedLeaf, DiskBitFile.searchLeaf,
      OnDisk.searchLeafKeyPos_out hout]
    exact hres
  · split at hres
    · cases hres
    · rename_i hempty
      have hne : f.entries ≠ [] := by simpa using hempty
      obtain ⟨cache, hsearch, -⟩ := (h.table hne).search hc hs hne (h.cached hne) key
      have hlookup := lookupResult_eq f.entries key
      change _ = ofRecord (f.recordsOf key).head? at hlookup
      rw [Option.some.inj hres] at hlookup
      rw [IndexRegion.search, hsearch, hlookup]
      cases res <;> rfl

/-- **An iterator** returns the entries. -/
theorem Holds.iterate (hc : c.Lawful) (h : r.Holds c start f) (hs : f.Sorted) (hne : f.entries ≠ []) :
    (r.files f.id).table.iterate c r.bytes = some f.entries :=
  (h.table hne).iterate hc hs hne

end IndexRegion

end JinDisk
