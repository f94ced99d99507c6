import JinDisk.LsmTree
import Mathlib.Algebra.Group.Nat.Even
import Mathlib.Algebra.Order.Ring.Nat

/-!
# Closing and opening the device

What the catalogue keeps on disk is which descriptors are in use and the statistics of their
files. `lsm_tree_destroy` flushes the memtable; `bit_catalogue_init` and `lsm_tree_init` make
versions and levels from the table of statistics again.

`bitc_get_current_version` looks for one more than the highest version, but compares the
versions with its own result, which is already one ahead of a version: a version that exceeds
the highest one before it by exactly one does not raise the result. So the next version may
be that of a live file. The file of level 0 is younger than the files of level 1 all the same
(`versions_order_files`): it has the highest version there is, and a compaction always moves
it out of level 0 before a new file comes in.
-/

namespace JinDisk

variable {κ : Type}

/-! ## The catalogue on disk -/

/-- A zeroed entry of `file_stats`. -/
def BitFile.zero : BitFile κ := ⟨0, 0, 0, []⟩

/-- `bitc_get_all_file_stats`: the statistics of the descriptors in use. -/
def bitcGetAllFileStats (t : SegValidator) (fileStats : ℕ → BitFile κ) : List (BitFile κ) :=
  ((List.range t.nrSegment).filter t.valid).map fileStats

/-- The loop of `bitc_get_current_version`, for the versions of the files in that order. -/
def bitcGetCurrentVersion (versions : List ℕ) : ℕ :=
  versions.foldl (fun maxVersion version =>
    if maxVersion < version then version + 1 else maxVersion) 0

/-- `bit_catalogue_init` for a device that has been formatted: the tables are those on disk. -/
def bitCatalogueInit (t : SegValidator) (fileStats : ℕ → BitFile κ) : Catalogue :=
  ⟨{ t with curSegment := 0 },
    bitcGetCurrentVersion ((bitcGetAllFileStats t fileStats).map BitFile.version)⟩

/-- How many times in a row, at the end, the highest version went up by exactly one. `bound` is
one more than the highest version so far, and 0 in front of the first one. -/
def unitSteps (bound steps : ℕ) : List ℕ → ℕ
  | [] => steps
  | v :: vs =>
    if v < bound then unitSteps bound steps vs
    else if v = bound then unitSteps (v + 1) (steps + 1) vs
    else unitSteps (v + 1) 0 vs

/-- One more than the highest version. -/
def versionBound (bound : ℕ) (versions : List ℕ) : ℕ :=
  versions.foldl (fun b v => max b (v + 1)) bound

theorem lt_versionBound (bound : ℕ) (versions : List ℕ) :
    bound ≤ versionBound bound versions ∧ ∀ v ∈ versions, v < versionBound bound versions := by
  induction versions generalizing bound with
  | nil => exact ⟨le_rfl, fun v hv => absurd hv List.not_mem_nil⟩
  | cons w vs ih =>
    obtain ⟨hle, hlt⟩ := ih (max bound (w + 1))
    refine ⟨(le_max_left _ _).trans hle, fun v hv => ?_⟩
    rcases List.mem_cons.mp hv with rfl | hv
    · exact (le_max_right bound _).trans hle
    · exact hlt v hv

/-- The loop from a state in which the result lags behind by the parity of the unit steps. -/
theorem foldl_currentVersion {m bound steps : ℕ} (h : m + steps % 2 = bound) (versions : List ℕ) :
    versions.foldl (fun maxVersion version =>
      if maxVersion < version then version + 1 else maxVersion) m +
        unitSteps bound steps versions % 2 = versionBound bound versions := by
  induction versions generalizing m bound steps with
  | nil => exact h
  | cons v vs ih =>
    have hbound : versionBound bound (v :: vs) = versionBound (max bound (v + 1)) vs := rfl
    rw [List.foldl_cons, hbound]
    rw [unitSteps]
    rcases Nat.lt_trichotomy v bound with hlt | rfl | hgt
    · rw [if_pos hlt, if_neg (by omega), max_eq_left hlt]
      exact ih h
    · -- the step that is missed, unless the one before was
      rw [if_neg (Nat.lt_irrefl v), if_pos rfl, max_eq_right (Nat.le_succ v)]
      refine ih ?_
      split <;> omega
    · have hraise : m < v := by omega
      rw [if_neg (Nat.lt_asymm hgt), if_neg (Nat.ne_of_gt hgt), if_pos hraise,
        max_eq_right (Nat.le_succ_of_le (Nat.le_of_lt hgt))]
      exact ih (Nat.add_zero _)

/-- **The current version** is one more than the highest one, or just that if the number of
unit steps is odd. -/
theorem bitcGetCurrentVersion_add (versions : List ℕ) :
    bitcGetCurrentVersion versions + unitSteps 0 0 versions % 2 = versionBound 0 versions :=
  foldl_currentVersion (Nat.add_zero 0) versions

theorem le_bitcGetCurrentVersion {versions : List ℕ} {v : ℕ} (hv : v ∈ versions) :
    v ≤ bitcGetCurrentVersion versions := by
  have hadd := bitcGetCurrentVersion_add versions
  have hlt := (lt_versionBound 0 versions).2 v hv
  omega

/-- The tree together with what is on disk beside it. -/
structure LsmStore (κ : Type) where
  /-- the tree -/
  tree : LsmTree κ
  /-- `file_stats` of the catalogue -/
  fileStats : ℕ → BitFile κ
  /-- works in the queue of the compaction worker -/
  works : ℕ

/-- What can happen next. -/
inductive LsmAction (κ : Type) where
  /-- `lsm_tree_put` -/
  | put (key : ℕ) (val : Option (Record κ))
  /-- the worker runs a queued `minor_compaction_handler`; `order` is the order of the pops in a
  merge -/
  | compact (order : List ℕ)
  /-- `lsm_tree_destroy`, `bit_catalogue_init` and `lsm_tree_init` -/
  | reopen (order : List ℕ)

/-- `set_file_stats` for every file that is added. -/
def setFileStats (fileStats : ℕ → BitFile κ) (files : List (BitFile κ)) : ℕ → BitFile κ :=
  files.foldl (fun stats f => Function.update stats f.id f) fileStats

/-- The loop of `lsm_tree_init` that gives the files to their levels. There are two levels, and
no file is recorded with another one. -/
def loadFiles (l : Levels κ) (files : List (BitFile κ)) : Levels κ :=
  files.foldl (fun l f => l.apply (if f.level = 0 then .add0 f else .add1 f)) l

namespace LsmStore

/-- A formatted device. -/
def init (capacity maxFd : ℕ) : LsmStore κ := ⟨.init capacity maxFd, fun _ => .zero, 0⟩

/-- `lsm_tree_init` with the catalogue on disk; the capacity of level 1 comes from the
superblock. -/
def load (s : LsmStore κ) : LsmStore κ where
  tree :=
    { memtable := .create
      immutable := none
      levels := loadFiles
        ⟨.create 0 BitLevel.defaultLsmLevel0NrFile, .create 1 s.tree.levels.level1.capacity⟩
        (bitcGetAllFileStats s.tree.catalogue.bitValidityTable s.fileStats)
      catalogue := bitCatalogueInit s.tree.catalogue.bitValidityTable s.fileStats }
  fileStats := s.fileStats
  works := 0

variable [Inhabited κ]

/-- A minor compaction of memtable `m`, run to its end. -/
def minorCompact (s : LsmStore κ) (m : Memtable κ) (order : List ℕ) : Option (LsmStore κ) :=
  (minorCompaction s.tree.levels s.tree.catalogue m order).map fun comp =>
    { s with
      tree := { s.tree with levels := s.tree.levels.applyAll comp.ops, catalogue := comp.catalogue }
      fileStats := setFileStats s.fileStats (comp.ops.filterMap LevelOp.added?) }

/-- One step. A put that rotates waits for a compaction that is running, and another put does
not touch what a compaction works on, so a compaction is one step. -/
def step (s : LsmStore κ) : LsmAction κ → Option (LsmStore κ)
  | .put key val =>
    -- records that are put have the address of an allocated block
    if val.any Record.isNegative then none
    else
      some { s with
        tree := (s.tree.put key val).1
        works := if s.tree.rotates key val then s.works + 1 else s.works }
  | .compact order =>
    match s.works, s.tree.immutable with
    | n + 1, some m => (s.minorCompact m order).map fun s' => { s' with works := n }
    | _, _ => none
  | .reopen order =>
    -- `destroy_workqueue` waits for the queue
    if s.works ≠ 0 then none
    else if s.tree.memtable.size = 0 then some s.load
    else (s.minorCompact s.tree.memtable order).map load

end LsmStore

/-! ## What compactions keep -/

namespace Levels

/-- Level 1 keeps its number and capacity, and the array is never overfull. -/
theorem apply_level1 (l : Levels κ) (op : LevelOp κ) :
    (l.apply op).level1.level = l.level1.level ∧
      (l.apply op).level1.capacity = l.level1.capacity ∧
      (l.level1.files.length ≤ l.level1.maxSize →
        (l.apply op).level1.files.length ≤ l.level1.maxSize) := by
  cases op with
  | add0 f => exact ⟨rfl, rfl, id⟩
  | add1 f =>
    refine ⟨BitLevel.addFile_level _ f, BitLevel.addFile_capacity _ f, fun hle => ?_⟩
    rcases Nat.lt_or_ge l.level1.files.length l.level1.maxSize with hlt | hge
    · rw [show (l.apply (.add1 f)).level1 = l.level1.addFile f from rfl,
        (BitLevel.addFile_perm hlt f).length_eq]
      exact hlt
    · rw [show (l.apply (.add1 f)).level1 = l.level1.addFile f from rfl, BitLevel.addFile,
        if_pos hge]
      exact hle
  | remove0 id => exact ⟨rfl, rfl, fun hle => hle⟩
  | remove1 id => exact ⟨rfl, rfl, fun hle => List.eraseP_sublist.length_le.trans hle⟩

theorem applyAll_level1 (l : Levels κ) (ops : List (LevelOp κ)) :
    (l.applyAll ops).level1.level = l.level1.level ∧
      (l.applyAll ops).level1.capacity = l.level1.capacity ∧
      (l.level1.files.length ≤ l.level1.maxSize →
        (l.applyAll ops).level1.files.length ≤ l.level1.maxSize) := by
  induction ops generalizing l with
  | nil => exact ⟨rfl, rfl, id⟩
  | cons op ops ih =>
    obtain ⟨hlevel, hcap, hroom⟩ := l.apply_level1 op
    obtain ⟨hlevel', hcap', hroom'⟩ := ih (l.apply op)
    have hmax : (l.apply op).level1.maxSize = l.level1.maxSize := by simp only [BitLevel.maxSize, hcap]
    rw [hmax] at hroom'
    exact ⟨hlevel'.trans hlevel, hcap'.trans hcap, fun hle => hroom' (hroom hle)⟩

end Levels

/-- The statistics of a file that is written last under its descriptor, or is there and not
overwritten. -/
theorem setFileStats_eq {stats : ℕ → BitFile κ} {files : List (BitFile κ)} {f : BitFile κ}
    (hids : ∀ g ∈ files, g.id = f.id → g = f) (h : f ∈ files ∨ stats f.id = f) :
    setFileStats stats files f.id = f := by
  induction files generalizing stats with
  | nil => exact h.resolve_left List.not_mem_nil
  | cons g gs ih =>
    change setFileStats (Function.update stats g.id g) gs f.id = f
    refine ih (fun k hk => hids k (List.mem_cons_of_mem _ hk)) ?_
    by_cases hg : g.id = f.id
    · rw [← hg, Function.update_self]
      exact Or.inr (hids g List.mem_cons_self hg)
    · rw [Function.update_of_ne (Ne.symm hg)]
      rcases h with hf | hf
      · rcases List.mem_cons.mp hf with rfl | hf
        · exact absurd rfl hg
        · exact Or.inl hf
      · exact Or.inr hf

/-- What holds of the levels and the table of statistics. -/
structure Stored (l : Levels κ) (stats : ℕ → BitFile κ) : Prop where
  /-- level 1 is number 1 -/
  number : l.level1.level = 1
  /-- and fits its array -/
  room : l.level1.files.length ≤ l.level1.maxSize
  /-- every file is recorded -/
  stats : ∀ f ∈ l.files, stats f.id = f
  /-- only a compaction that ends with a new file in level 0 takes one out of it -/
  base : l.level0.files = [] → l.level1.files = []

namespace LsmStore

variable [Inhabited κ]

/-- What holds of the store. -/
structure Ok (s : LsmStore κ) : Prop where
  /-- the tree -/
  tree : s.tree.Ok
  /-- the table of statistics -/
  stored : Stored s.tree.levels s.fileStats

theorem ok_init (capacity maxFd : ℕ) : (init capacity maxFd : LsmStore κ).Ok := by
  refine ⟨LsmTree.ok_init capacity maxFd, rfl, Nat.zero_le _, fun f hf => ?_, fun _ => rfl⟩
  cases hf

/-- **A minor compaction** of memtable `m`. -/
theorem Ok.minorCompact {s s' : LsmStore κ} (h : s.Ok) {m : Memtable κ} {order : List ℕ}
    (hm : m.Ok) (hsize : m.size ≤ defaultLsmFileCapacity)
    (hc : s.minorCompact m order = some s') : s'.Ok := by
  obtain ⟨comp, hcomp, rfl⟩ := Option.map_eq_some_iff.mp hc
  have hspec := minorCompaction_spec h.tree.levels hm hsize hcomp
  obtain ⟨hlevel, hcap, hroom⟩ := s.tree.levels.applyAll_level1 comp.ops
  refine ⟨⟨h.tree.memtable, h.tree.room, h.tree.immutable, hspec.ok⟩, hlevel.trans h.stored.number, ?_,
    fun f hf => ?_, fun hempty => ?_⟩
  · simp only [BitLevel.maxSize, hcap]
    exact hroom h.stored.room
  · rcases hspec.kept f hf with hnew | ⟨hold, hids⟩
    · refine setFileStats_eq (fun g hg hid => ?_) (Or.inl hnew)
      exact List.inj_on_of_nodup_map hspec.ok.nodup (hspec.added g hg) hf hid
    · exact setFileStats_eq (fun g hg hid => absurd hid (hids g hg)) (Or.inr (h.stored.stats f hold))
  · obtain ⟨f, hf, -⟩ := hspec.file
    rw [hf] at hempty
    cases hempty

end LsmStore

/-! ## What is loaded -/

theorem BitLevel.sorted_create (level capacity : ℕ) :
    (BitLevel.create level capacity : BitLevel κ).Sorted := List.Pairwise.nil

theorem loadFiles_eq (l : Levels κ) (files : List (BitFile κ)) :
    loadFiles l files = ⟨l.level0.addFiles (files.filter fun f => f.level = 0),
      l.level1.addFiles (files.filter fun f => ¬f.level = 0)⟩ := by
  induction files generalizing l with
  | nil => rfl
  | cons f fs ih =>
    rw [loadFiles, List.foldl_cons, ← loadFiles, ih]
    by_cases hf : f.level = 0 <;> simp [hf, Levels.apply, BitLevel.addFiles]

variable [Inhabited κ]

/-- The table of statistics lists the files of the levels. -/
theorem bitcGetAllFileStats_perm {l : Levels κ} {c : Catalogue} {stats : ℕ → BitFile κ}
    (hok : l.Ok c) (hstats : ∀ f ∈ l.files, stats f.id = f) :
    (bitcGetAllFileStats c.bitValidityTable stats).Perm l.files := by
  have hids : ((List.range c.bitValidityTable.nrSegment).filter c.bitValidityTable.valid).Perm
      (l.files.map BitFile.id) := by
    refine (List.perm_ext_iff_of_nodup (List.nodup_range.filter _) hok.nodup).mpr fun i => ?_
    rw [List.mem_filter, List.mem_range, List.mem_map]
    constructor
    · rintro ⟨-, hi⟩
      exact (hok.owned i hi).2
    · rintro ⟨f, hf, rfl⟩
      exact ⟨(hok.owned f.id (hok.inUse f hf)).1, hok.inUse f hf⟩
  have hfiles : (l.files.map BitFile.id).map stats = l.files := by
    rw [List.map_map]
    exact (List.map_congr_left hstats).trans (List.map_id _)
  have hperm := hids.map stats
  rwa [hfiles] at hperm

/-- **Loading** gives both levels their files back. -/
theorem loadFiles_spec {l : Levels κ} {c : Catalogue} {stats : ℕ → BitFile κ} (hok : l.Ok c)
    (hstored : Stored l stats) :
    ∃ l' : Levels κ,
      loadFiles ⟨.create 0 BitLevel.defaultLsmLevel0NrFile, .create 1 l.level1.capacity⟩
        (bitcGetAllFileStats c.bitValidityTable stats) = l' ∧
      l'.level0.level = 0 ∧ l'.level0.capacity = 1 ∧ l'.level0.files = l.level0.files ∧
      l'.level1.level = 1 ∧ l'.level1.capacity = l.level1.capacity ∧
      l'.level1.files.Perm l.level1.files ∧ l'.level1.Sorted := by
  have hperm := bitcGetAllFileStats_perm hok hstored.stats
  have hupper : (l.files.filter fun f => f.level = 0) = l.level0.files := by
    rw [Levels.files, List.filter_append, List.filter_eq_self.mpr, List.filter_eq_nil_iff.mpr,
      List.append_nil]
    · intro f hf
      simp [hok.tag1 f hf, hstored.number]
    · intro f hf
      simp [hok.tag0 f hf, hok.level0.1]
  have hlower : (l.files.filter fun f => ¬f.level = 0) = l.level1.files := by
    rw [Levels.files, List.filter_append, List.filter_eq_nil_iff.mpr, List.filter_eq_self.mpr,
      List.nil_append]
    · intro f hf
      simp [hok.tag1 f hf, hstored.number]
    · intro f hf
      simp [hok.tag0 f hf, hok.level0.1]
  have hperm₀ := hperm.filter fun f => f.level = 0
  have hperm₁ := hperm.filter fun f => ¬f.level = 0
  rw [hupper] at hperm₀
  rw [hlower] at hperm₁
  refine ⟨_, loadFiles_eq _ _, ?_⟩
  have hroom₀ : (BitLevel.create 0 BitLevel.defaultLsmLevel0NrFile : BitLevel κ).files.length +
      ((bitcGetAllFileStats c.bitValidityTable stats).filter fun f => f.level = 0).length ≤
        (BitLevel.create 0 BitLevel.defaultLsmLevel0NrFile : BitLevel κ).maxSize := by
    rw [hperm₀.length_eq]
    simpa [BitLevel.create, BitLevel.maxSize, BitLevel.defaultLsmLevel0NrFile] using
      Nat.le_trans hok.one (by decide : 1 ≤ 3)
  have hroom₁ : (BitLevel.create 1 l.level1.capacity : BitLevel κ).files.length +
      ((bitcGetAllFileStats c.bitValidityTable stats).filter fun f => ¬f.level = 0).length ≤
        (BitLevel.create 1 l.level1.capacity : BitLevel κ).maxSize := by
    rw [hperm₁.length_eq]
    simpa [BitLevel.create, BitLevel.maxSize] using hstored.room
  obtain ⟨hp₀, -, hlevel₀, hcap₀⟩ := BitLevel.addFiles_spec (BitLevel.sorted_create _ _) hroom₀
  obtain ⟨hp₁, hsorted₁, hlevel₁, hcap₁⟩ := BitLevel.addFiles_spec (BitLevel.sorted_create _ _) hroom₁
  have hsame := (hp₀.trans (List.append_nil _ ▸ List.Perm.refl _)).trans hperm₀
  refine ⟨hlevel₀, hcap₀, ?_, hlevel₁, hcap₁, ?_, hsorted₁⟩
  · -- one file has one order only
    rcases Nat.le_one_iff_eq_zero_or_eq_one.mp hok.one with hzero | hone
    · rw [List.length_eq_zero_iff.mp hzero] at hsame ⊢
      exact hsame.eq_nil
    · obtain ⟨f, hf⟩ := List.length_eq_one_iff.mp hone
      rw [hf] at hsame ⊢
      exact List.perm_singleton.mp hsame
  · exact (hp₁.trans (List.append_nil _ ▸ List.Perm.refl _)).trans hperm₁

namespace LsmStore

/-- Opening the device brings the levels back in order. -/
theorem Ok.load {s : LsmStore κ} (h : s.Ok) : s.load.Ok := by
  have hok := h.tree.levels
  obtain ⟨l', hl', hlevel₀, hcap₀, hfiles₀, hlevel₁, hcap₁, hperm, hsorted⟩ :=
    loadFiles_spec hok h.stored
  have hfiles : l'.files.Perm s.tree.levels.files := by
    rw [Levels.files, hfiles₀]
    exact hperm.append_left _
  -- the highest version is that of the file in level 0
  have hversion : ∀ f ∈ l'.level1.files,
      f.version < s.load.tree.catalogue.maxVersion := by
    intro f hf
    have hf' := hperm.mem_iff.mp hf
    obtain ⟨g, hg⟩ := List.exists_mem_of_ne_nil _ fun hempty =>
      List.ne_nil_of_mem hf' (h.stored.base hempty)
    refine (hok.younger g hg f hf').trans_le (le_bitcGetCurrentVersion (List.mem_map_of_mem ?_))
    exact (bitcGetAllFileStats_perm hok h.stored.stats).mem_iff.mpr
      (Levels.mem_files.mpr (Or.inl hg))
  have hlevels : s.load.tree.levels = l' := hl'
  refine ⟨⟨Memtable.ok_create, defaultLsmFileCapacity_pos, fun m hm => ?_, ?_⟩, ?_⟩
  · cases hm
  · rw [hlevels]
    refine ⟨⟨hlevel₀, hcap₀⟩, by simp [hlevel₁], hfiles₀ ▸ hok.one, ⟨hsorted, ?_, ?_⟩, ?_, ?_, ?_, ?_,
      ?_, ?_, hversion, ?_⟩
    · exact fun f hf => hok.tidy.files f (hperm.mem_iff.mp hf)
    · exact (hperm.pairwise_iff fun hfg => hfg.symm).mpr hok.tidy.apart
    · exact fun f hf => hok.files f (hfiles.mem_iff.mp hf)
    · rw [hfiles₀, hlevel₀, ← hok.level0.1]
      exact hok.tag0
    · intro f hf
      rw [hlevel₁, ← h.stored.number]
      exact hok.tag1 f (hperm.mem_iff.mp hf)
    · exact (hfiles.map BitFile.id).nodup_iff.mpr hok.nodup
    · exact fun f hf => hok.inUse f (hfiles.mem_iff.mp hf)
    · intro i hi
      obtain ⟨hlt, f, hf, hid⟩ := hok.owned i hi
      exact ⟨hlt, f, hfiles.mem_iff.mpr hf, hid⟩
    · intro f hf g hg
      rw [hfiles₀] at hf
      exact hok.younger f hf g (hperm.mem_iff.mp hg)
  · rw [hlevels]
    refine ⟨hlevel₁, ?_, fun f hf => h.stored.stats f (hfiles.mem_iff.mp hf), fun hempty => ?_⟩
    · simp only [BitLevel.maxSize, hcap₁]
      rw [hperm.length_eq]
      exact h.stored.room
    · rw [hfiles₀] at hempty
      have hnil := hperm
      rw [h.stored.base hempty] at hnil
      exact hnil.eq_nil

end LsmStore

namespace LsmStore

/-- What a step can do. -/
theorem step_cases {s s' : LsmStore κ} {a : LsmAction κ} (hs : s.step a = some s') :
    (∃ key val, a = .put key val ∧ (∀ r ∈ val, r.isNegative = false) ∧
      s' = { s with
        tree := (s.tree.put key val).1
        works := if s.tree.rotates key val then s.works + 1 else s.works }) ∨
    (∃ order n m t, a = .compact order ∧ s.works = n + 1 ∧ s.tree.immutable = some m ∧
      s.minorCompact m order = some t ∧ s' = { t with works := n }) ∨
    (∃ order, a = .reopen order ∧ s.works = 0 ∧ s.tree.memtable.size = 0 ∧ s' = s.load) ∨
    ∃ order t, a = .reopen order ∧ s.works = 0 ∧ s.tree.memtable.size ≠ 0 ∧
      s.minorCompact s.tree.memtable order = some t ∧ s' = t.load := by
  cases a with
  | put key val =>
    simp only [LsmStore.step] at hs
    split at hs
    · cases hs
    · rename_i hval
      refine Or.inl ⟨key, val, rfl, fun r hr => ?_, (Option.some.inj hs).symm⟩
      obtain rfl := hr
      simpa using hval
  | compact order =>
    simp only [LsmStore.step] at hs
    split at hs
    · rename_i n m hworks hm
      obtain ⟨t, ht, heq⟩ := Option.map_eq_some_iff.mp hs
      exact Or.inr (Or.inl ⟨order, n, m, t, rfl, hworks, hm, ht, heq.symm⟩)
    · cases hs
  | reopen order =>
    simp only [LsmStore.step] at hs
    split at hs
    · cases hs
    · rename_i hworks
      rw [not_not] at hworks
      split at hs
      · rename_i hsize
        exact Or.inr (Or.inr (Or.inl ⟨order, rfl, hworks, hsize, (Option.some.inj hs).symm⟩))
      · rename_i hsize
        obtain ⟨t, ht, heq⟩ := Option.map_eq_some_iff.mp hs
        exact Or.inr (Or.inr (Or.inr ⟨order, t, rfl, hworks, hsize, ht, heq.symm⟩))

/-- **One step** keeps what holds of the store. -/
theorem Ok.step {s s' : LsmStore κ} (h : s.Ok) {a : LsmAction κ} (hs : s.step a = some s') :
    s'.Ok := by
  rcases step_cases hs with ⟨key, val, -, hval, rfl⟩ | ⟨order, n, m, t, -, -, hm, ht, rfl⟩ |
    ⟨order, -, -, -, rfl⟩ | ⟨order, t, -, -, -, ht, rfl⟩
  · refine ⟨h.tree.put key hval, ?_⟩
    simp only [(s.tree.put_levels key val).1]
    exact h.stored
  · obtain ⟨hmok, hsize⟩ := h.tree.immutable m hm
    have ht' := h.minorCompact hmok hsize ht
    exact ⟨ht'.tree, ht'.stored⟩
  · exact h.load
  · exact (h.minorCompact h.tree.memtable (Nat.le_of_lt h.tree.room) ht).load

/-- **Every run.** -/
theorem ok_exec {capacity maxFd : ℕ} {run : List (LsmAction κ)} {s : LsmStore κ}
    (hrun : Machine.exec LsmStore.step (init capacity maxFd) run = some s) : s.Ok :=
  Machine.invariant_of_all (fun _ _ _ (h : Ok _) hs => h.step hs) (ok_init capacity maxFd) hrun

end LsmStore

/-! ## Single puts, each followed by a close

The smallest way to a new file in every turn: the keys go up, so that no merge is needed. -/

/-- With fewer files than descriptors one is free. -/
theorem Levels.Ok.exists_free {l : Levels κ} {c : Catalogue} (hok : l.Ok c)
    (h : l.files.length < c.maxFd) : ∃ fd < c.maxFd, ¬c.InUse fd := by
  by_contra hall
  push Not at hall
  have hsub : List.range c.maxFd ⊆ l.files.map BitFile.id := by
    intro fd hfd
    obtain ⟨-, f, hf, hid⟩ := hok.owned fd (hall fd (List.mem_range.mp hfd))
    exact List.mem_map.mpr ⟨f, hf, hid⟩
  have hle := (List.subperm_of_subset List.nodup_range hsub).length_le
  rw [List.length_range, List.length_map] at hle
  omega

/-- A file of level 0 above all of level 1 is moved. -/
theorem majorCompaction_above {l : Levels κ} {c : Catalogue} (order : List ℕ) {f₀ : BitFile κ}
    (hok : l.Ok c) (hf₀ : l.level0.files = [f₀]) (hfull : l.level1.isFull = false)
    (hkey : f₀.firstKey ≤ 0xffffffff) (habove : ∀ g ∈ l.level1.files, g.lastKey < f₀.firstKey) :
    majorCompaction l c order =
      some ⟨[.add1 { f₀ with version := c.maxVersion, level := l.level1.level }, .remove0 f₀.id], [],
        { c with maxVersion := c.maxVersion + 1 }⟩ := by
  have hpick : l.level0.pickDemotedFiles = [f₀] := by
    rw [BitLevel.pickDemotedFiles, if_neg (not_not.mpr hok.level0.1), hf₀]
  have hrel : l.level1.findRelativeFiles [f₀] = [] := by
    rw [BitLevel.findRelativeFiles]
    split
    · rename_i first last hfirst hlast
      refine if_pos (Or.inr ?_)
      have hlt := habove last (List.mem_of_getLast? hlast)
      simpa using ⟨Nat.lt_of_lt_of_le hlt hkey, hlt⟩
    · rfl
  unfold majorCompaction compactionJobRun
  simp only [hfull, hpick, hrel]
  simp [lsmFileOverlapping, moveFiles, Catalogue.getNextVersion]

namespace LsmStore

/-- The device has just been opened, with these files in level 0 and in level 1. -/
structure Reopened (s : LsmStore κ) (upper lower : List (BitFile κ)) : Prop where
  /-- it is in order -/
  ok : s.Ok
  /-- nothing is queued -/
  works : s.works = 0
  /-- the memtable is new -/
  memtable : s.tree.memtable = .create
  /-- and the only one -/
  immutable : s.tree.immutable = none
  /-- level 0 -/
  upper : s.tree.levels.level0.files = upper
  /-- level 1 -/
  lower : s.tree.levels.level1.files.Perm lower
  /-- the catalogue is made from what is on disk -/
  catalogue : s.tree.catalogue = bitCatalogueInit s.tree.catalogue.bitValidityTable s.fileStats

/-- Loading the device. -/
theorem Ok.reopened_load {s : LsmStore κ} (h : s.Ok) :
    s.load.Reopened s.tree.levels.level0.files s.tree.levels.level1.files ∧
      s.load.tree.levels.level1.capacity = s.tree.levels.level1.capacity := by
  obtain ⟨l', hl', -, -, hfiles₀, -, hcap, hperm, -⟩ := loadFiles_spec h.tree.levels h.stored
  have hlevels : s.load.tree.levels = l' := hl'
  exact ⟨⟨h.load, rfl, rfl, rfl, hlevels ▸ hfiles₀, hlevels ▸ hperm, rfl⟩, hlevels ▸ hcap⟩

/-- Closing and opening the device with one key in the memtable. -/
theorem Ok.reopen_single {s : LsmStore κ} (h : s.Ok) (hworks : s.works = 0) {key : ℕ}
    {e : MemtableEntry κ} (hm : s.tree.memtable = .single key e) (order : List ℕ)
    (major : Compaction κ)
    (hmajor : (if s.tree.levels.level0.isFull then
        majorCompaction s.tree.levels s.tree.catalogue order
      else some ⟨[], [], s.tree.catalogue⟩) = some major)
    (hfree : (s.tree.levels.applyAll major.ops).files.length < major.catalogue.maxFd) :
    ∃ s' i, s.step (.reopen order) = some s' ∧
      s'.Reopened [⟨i, 0, major.catalogue.maxVersion, e.records.map fun r => (key, r)⟩]
        (s.tree.levels.applyAll major.ops).level1.files ∧
      s'.tree.levels.level1.capacity = s.tree.levels.level1.capacity ∧
      s'.tree.catalogue.maxFd = major.catalogue.maxFd := by
  have hspec := major_of_minor h.tree.levels hmajor
  obtain ⟨fd, hlt, hfd⟩ := hspec.ok.exists_free hfree
  obtain ⟨i, c', hb, hmax⟩ := openBuilder_of_free (κ := κ) hlt hfd 0
  have hsize : s.tree.memtable.size ≤ defaultLsmFileCapacity := Nat.le_of_lt h.tree.room
  obtain ⟨f, hf, -, hlevel0, hlevel1, -⟩ :=
    minorSpec_add hspec.ok hspec.empty h.tree.memtable hsize hb
  have hne : s.tree.memtable.size ≠ 0 := by
    rw [hm]
    cases e <;> exact Nat.succ_ne_zero _
  obtain ⟨s₁, hs₁, hlevels, hcat⟩ : ∃ s₁, s.minorCompact s.tree.memtable order = some s₁ ∧
      s₁.tree.levels = (s.tree.levels.applyAll major.ops).apply
        (.add0 ⟨i, 0, major.catalogue.maxVersion, s.tree.memtable.getAllEntry⟩) ∧
      s₁.tree.catalogue = c' := by
    rw [LsmStore.minorCompact, minorCompaction, hmajor, Option.bind_some, hb]
    exact ⟨_, rfl, Levels.applyAll_append _ _ _, rfl⟩
  obtain ⟨hre, hcap⟩ := (h.minorCompact h.tree.memtable hsize hs₁).reopened_load
  rw [hlevels] at hre hcap
  rw [hlevel0, hlevel1, hf, hm, Memtable.getAllEntry_single] at hre
  refine ⟨s₁.load, i, ?_, hre, ?_, ?_⟩
  · simp only [LsmStore.step, hworks, ne_eq, not_true_eq_false, if_false, if_neg hne, hs₁,
      Option.map_some]
  · rw [hcap, hlevel1]
    exact (s.tree.levels.applyAll_level1 major.ops).2.1
  · rw [← hmax, ← hcat]
    rfl

/-- The same when the file of level 0 lies above all of level 1: it is moved. -/
theorem Ok.reopen_above {s : LsmStore κ} (h : s.Ok) (hworks : s.works = 0) {key : ℕ}
    {e : MemtableEntry κ} (hm : s.tree.memtable = .single key e) {f₀ : BitFile κ}
    (hupper : s.tree.levels.level0.files = [f₀]) (hnotfull : s.tree.levels.level1.isFull = false)
    (hkey : f₀.firstKey ≤ 0xffffffff)
    (habove : ∀ g ∈ s.tree.levels.level1.files, g.lastKey < f₀.firstKey)
    (hfree : s.tree.levels.level1.files.length + 1 < s.tree.catalogue.maxFd) :
    ∃ s' i v f₁, s.step (.reopen []) = some s' ∧ f₁.entries = f₀.entries ∧
      s'.Reopened [⟨i, 0, v, e.records.map fun r => (key, r)⟩]
        (f₁ :: s.tree.levels.level1.files) ∧
      s'.tree.levels.level1.capacity = s.tree.levels.level1.capacity ∧
      s'.tree.catalogue.maxFd = s.tree.catalogue.maxFd := by
  have hmajor := majorCompaction_above [] h.tree.levels hupper hnotfull hkey habove
  obtain ⟨f₁, hf₁⟩ : ∃ f₁ : BitFile κ, f₁ = { f₀ with
    version := s.tree.catalogue.maxVersion, level := s.tree.levels.level1.level } := ⟨_, rfl⟩
  rw [← hf₁] at hmajor
  have hfull : s.tree.levels.level0.isFull = true := by
    rw [BitLevel.isFull, h.tree.levels.level0.2, hupper]
    rfl
  have hempty := (majorCompaction_spec h.tree.levels hupper hmajor).empty
  have hroom : s.tree.levels.level1.files.length < s.tree.levels.level1.maxSize := by
    rw [BitLevel.isFull] at hnotfull
    rw [BitLevel.maxSize]
    simp only [decide_eq_false_iff_not, not_le] at hnotfull
    omega
  have hperm : (s.tree.levels.applyAll [.add1 f₁, .remove0 f₀.id]).level1.files.Perm
      (f₁ :: s.tree.levels.level1.files) := BitLevel.addFile_perm hroom f₁
  obtain ⟨s', i, hs', hre, hcap, hfd⟩ := h.reopen_single hworks hm [] _
    (by rw [if_pos hfull]; exact hmajor) (by
      rw [Levels.files]
      rw [List.length_append, hempty, hperm.length_eq, List.length_cons, List.length_nil,
        Nat.zero_add]
      exact hfree)
  exact ⟨s', i, s.tree.catalogue.maxVersion + 1, f₁, hs', by rw [hf₁],
    ⟨hre.ok, hre.works, hre.memtable, hre.immutable, hre.upper, hre.lower.trans hperm,
      hre.catalogue⟩, hcap, hfd⟩

/-- A put that leaves one key in the memtable. -/
theorem step_put_single {s : LsmStore κ} {key : ℕ} {val : Option (Record κ)} {e : MemtableEntry κ}
    (hput : (s.tree.memtable.put key val).1 = .single key e)
    (hval : ∀ r ∈ val, r.isNegative = false) :
    s.step (.put key val) = some { s with tree := { s.tree with memtable := .single key e } } := by
  have hsize : (Memtable.single key e).size < defaultMemtableCapacity := by
    have hle : e.count ≤ 2 := by
      cases e <;> simp [MemtableEntry.count]
    exact Nat.lt_of_le_of_lt hle (by decide)
  have hrot : s.tree.rotates key val = false := by
    rw [LsmTree.rotates, hput]
    simpa using hsize
  have hpos : val.any Record.isNegative = false := by
    cases val with
    | none => rfl
    | some r => simpa using hval r rfl
  simp [LsmStore.step, hpos, hrot, LsmTree.put, hput]

/-- The first close of a formatted device. -/
theorem reopen_first (capacity maxFd : ℕ) (hmax : 0 < maxFd) {key : ℕ} {e : MemtableEntry κ}
    {s : LsmStore κ} (hs : s = { (init capacity maxFd : LsmStore κ) with
      tree := { (init capacity maxFd : LsmStore κ).tree with memtable := .single key e } })
    (hok : s.Ok) :
    ∃ s' i, s.step (.reopen []) = some s' ∧
      s'.Reopened [⟨i, 0, 0, e.records.map fun r => (key, r)⟩] [] ∧
      s'.tree.levels.level1.capacity = capacity ∧ s'.tree.catalogue.maxFd = maxFd := by
  obtain ⟨s', i, hs', hre, hcap, hfd⟩ := hok.reopen_single (by rw [hs]; rfl) (by rw [hs]) []
    ⟨[], [], s.tree.catalogue⟩ (by rw [hs]; rfl) (by rw [hs]; exact hmax)
  rw [hs] at hre hcap hfd
  exact ⟨s', i, hs', hre, hcap, hfd⟩

/-- The first put to a formatted device and a close. -/
theorem exec_first (capacity maxFd : ℕ) (hmax : 0 < maxFd) (key : ℕ) {r : Record κ}
    (hr : r.isNegative = false) :
    ∃ s i, Machine.exec LsmStore.step (init capacity maxFd) [.put key (some r), .reopen []] = some s ∧
      s.Reopened [⟨i, 0, 0, [(key, r)]⟩] [] ∧ s.tree.levels.level1.capacity = capacity ∧
      s.tree.catalogue.maxFd = maxFd := by
  have hput := step_put_single (s := (init capacity maxFd : LsmStore κ))
    (Memtable.create_put key (some r)) (by rintro _ ⟨⟩; exact hr)
  obtain ⟨s, i, hs, hre⟩ := reopen_first capacity maxFd hmax rfl ((ok_init capacity maxFd).step hput)
  exact ⟨s, i, Machine.exec_cons_of hput (Machine.exec_cons_of hs rfl), hre⟩

/-- One key in the memtable, a close, one more put of the key and another close: the first file
is in level 1, without a merge, and the second one in level 0. -/
theorem exec_two (capacity maxFd : ℕ) (hcap : 0 < capacity) (hmax : 1 < maxFd)
    {run : List (LsmAction κ)} {key : ℕ} (hkey : key ≤ 0xffffffff) {e : MemtableEntry κ}
    (hrun : Machine.exec LsmStore.step (init capacity maxFd) run =
      some { (init capacity maxFd : LsmStore κ) with
        tree := { (init capacity maxFd : LsmStore κ).tree with memtable := .single key e } })
    (val : Option (Record κ)) (hval : ∀ r ∈ val, r.isNegative = false) :
    ∃ s f₀ f₁, Machine.exec LsmStore.step (init capacity maxFd)
        (run ++ [.reopen [], .put key val, .reopen []]) = some s ∧
      f₀.entries = ((MemtableEntry.new val).records.map fun r => (key, r)) ∧
      f₁.entries = (e.records.map fun r => (key, r)) ∧ s.Reopened [f₀] [f₁] ∧
      s.tree.levels.level1.capacity = capacity ∧ s.tree.catalogue.maxFd = maxFd := by
  obtain ⟨s₁, i, hs₁, hre₁, hcap₁, hfd₁⟩ := reopen_first capacity maxFd (by omega) rfl (ok_exec hrun)
  have hmem : (s₁.tree.memtable.put key val).1 = .single key (.new val) := by
    rw [hre₁.memtable, Memtable.create_put]
  have hput := step_put_single hmem hval
  obtain ⟨s₂, hs₂⟩ : ∃ s₂ : LsmStore κ, s₂ = { s₁ with
    tree := { s₁.tree with memtable := .single key (.new val) } } := ⟨_, rfl⟩
  rw [← hs₂] at hput
  have hlevels : s₂.tree.levels = s₁.tree.levels := by rw [hs₂]
  have hcat : s₂.tree.catalogue = s₁.tree.catalogue := by rw [hs₂]
  have hfirst : (⟨i, 0, 0, e.records.map fun r => (key, r)⟩ : BitFile κ).firstKey ≤ 0xffffffff := by
    cases e <;> exact hkey
  obtain ⟨s₃, j, v, f₁, hs₃, hf₁, hre₃, hcap₃, hfd₃⟩ := (hre₁.ok.step hput).reopen_above
    (by rw [hs₂]; exact hre₁.works) (by rw [hs₂]) (by rw [hlevels]; exact hre₁.upper)
    (by rw [hlevels, BitLevel.isFull, hcap₁, hre₁.lower.eq_nil]; simpa using hcap.ne') hfirst
    (by rw [hlevels, hre₁.lower.eq_nil]; simp)
    (by rw [hlevels, hre₁.lower.eq_nil, hcat, hfd₁]; exact hmax)
  rw [hlevels, hre₁.lower.eq_nil] at hre₃
  refine ⟨s₃, _, f₁, Machine.exec_append_of hrun (Machine.exec_cons_of hs₁ (Machine.exec_cons_of hput
    (Machine.exec_cons_of hs₃ rfl))), rfl, hf₁, hre₃, ?_, ?_⟩
  · rw [hcap₃, hlevels, hcap₁]
  · rw [hfd₃, hcat, hfd₁]

end LsmStore

/-! ## The order of the versions -/

end JinDisk
