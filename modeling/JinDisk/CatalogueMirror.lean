import JinDisk.Reopen

/-!
# The catalogue mirrors the levels

Between two operations the table of statistics and the validity table describe the levels in
memory, file by file. Opening the device rebuilds the levels from the tables, descriptor by
descriptor, and `bit_level_add_file` puts each file in front of the files that compare equal to
it. Two files of level 1 compare equal only if one of them has no records: a merge in which
nothing is left writes a file all the same, with the range from 0 to 0. Such files come back in
the order of their descriptors, whatever their order was.
-/

namespace JinDisk

variable {κ : Type}

/-! ## The order in which files are added -/

namespace BitFile

/-- `bit_file_cmp` does not tell the files apart. -/
def SameRange (f g : BitFile κ) : Prop := f.firstKey = g.firstKey ∧ f.lastKey = g.lastKey

/-- The order of `bit_file_cmp`, with the larger descriptor first among equals. -/
def Ranked (f g : BitFile κ) : Prop := f.Le g ∧ (f.SameRange g → g.id < f.id)

theorem sameRange_iff {f g : BitFile κ} : f.SameRange g ↔ f.Le g ∧ g.Le f := by
  simp only [SameRange, Le]
  omega

/-- The range of a file without records. -/
def NullRange (f : BitFile κ) : Prop := f.firstKey = 0 ∧ f.lastKey = 0

theorem NullRange.le {f : BitFile κ} (h : f.NullRange) (g : BitFile κ) : f.Le g := by
  rw [Le, h.1, h.2]
  omega

/-- Of two files apart that compare equal, one has no records. -/
theorem Apart.nullRange {f g : BitFile κ} (h : f.Apart g) (heq : f.SameRange g) : g.NullRange := by
  by_cases hg : g.entries = []
  · exact ⟨firstKey_of_empty hg, lastKey_of_empty hg⟩
  by_cases hf : f.entries = []
  · exact ⟨heq.1.symm.trans (firstKey_of_empty hf), heq.2.symm.trans (lastKey_of_empty hf)⟩
  obtain ⟨a, ha, hafirst⟩ := exists_firstKey hf
  obtain ⟨b, hb, hbfirst⟩ := exists_firstKey hg
  have hsame : a.1 = b.1 := by rw [hafirst, hbfirst, heq.1]
  rcases h with h | h
  · exact absurd (h a ha b hb) (by omega)
  · exact absurd (h b hb a ha) (by omega)

end BitFile

namespace BitLevel

/-- A file without records is added in front of all others. -/
theorem searchFile_of_nullRange (l : BitLevel κ) {file : BitFile κ} (h : file.NullRange) :
    l.searchFile file = 0 := by
  rw [searchFile]
  split
  · exact if_pos (BitFile.cmp_nonneg_iff.mpr (h.le _))
  · rfl

/-- Adding a file with a new largest descriptor. -/
theorem addFile_ranked {l : BitLevel κ} (h : l.files.Pairwise BitFile.Ranked) {file : BitFile κ}
    (hid : ∀ f ∈ l.files, f.id < file.id)
    (hnull : ∀ f ∈ l.files, f.SameRange file → file.NullRange) :
    (l.addFile file).files.Pairwise BitFile.Ranked := by
  have hsorted : l.Sorted := h.imp fun hfg => hfg.1
  rw [addFile]
  split
  · exact h
  · obtain ⟨hbefore, hafter⟩ := searchFile_spec hsorted file
    have hparts := h
    rw [← List.take_append_drop (l.searchFile file) l.files] at hparts
    obtain ⟨htake, hdrop, hcross⟩ := List.pairwise_append.mp hparts
    have hle₁ : ∀ f ∈ l.files.take (l.searchFile file), f.Ranked file := by
      intro f hf
      obtain ⟨i, hi, rfl⟩ := List.mem_take_iff_getElem.mp hf
      refine ⟨hbefore i _ (by omega) (List.getElem?_eq_getElem _), fun hsame => ?_⟩
      -- nothing is in front of a file that compares equal to another one
      rw [searchFile_of_nullRange l (hnull _ (List.mem_of_mem_take hf) hsame)] at hi
      omega
    have hle₂ : ∀ f ∈ l.files.drop (l.searchFile file), file.Ranked f := by
      intro f hf
      obtain ⟨i, hi, rfl⟩ := List.mem_drop_iff_getElem.mp hf
      exact ⟨hafter _ _ (Nat.le_add_right _ i) (List.getElem?_eq_getElem _),
        fun _ => hid _ (List.mem_of_mem_drop hf)⟩
    refine List.pairwise_append.mpr ⟨htake, List.pairwise_cons.mpr ⟨hle₂, hdrop⟩, fun f hf g hg => ?_⟩
    rcases List.mem_cons.mp hg with rfl | hg
    · exact hle₁ f hf
    · exact hcross f hf g hg

/-- Adding files in the order of their descriptors. -/
theorem addFiles_ranked {l : BitLevel κ} {fs : List (BitFile κ)} (h : l.files.Pairwise BitFile.Ranked)
    (hids : fs.Pairwise fun f g => f.id < g.id) (hid : ∀ f ∈ l.files, ∀ g ∈ fs, f.id < g.id)
    (hnull : ∀ f ∈ l.files ++ fs, ∀ g ∈ fs, f.id ≠ g.id → f.SameRange g → g.NullRange) :
    (l.addFiles fs).files.Pairwise BitFile.Ranked := by
  induction fs generalizing l with
  | nil => exact h
  | cons file fs ih =>
    obtain ⟨hfile, hfs⟩ := List.pairwise_cons.mp hids
    have hmem : ∀ f ∈ (l.addFile file).files, f ∈ l.files ∨ f = file := by
      intro f hf
      rw [addFile] at hf
      split at hf
      · exact Or.inl hf
      · rcases List.mem_append.mp hf with hf | hf
        · exact Or.inl (List.mem_of_mem_take hf)
        · rcases List.mem_cons.mp hf with hf | hf
          · exact Or.inr hf
          · exact Or.inl (List.mem_of_mem_drop hf)
    rw [addFiles, List.foldl_cons, ← addFiles]
    refine ih (addFile_ranked h (fun f hf => hid f hf file List.mem_cons_self) fun f hf => ?_) hfs ?_ ?_
    · exact hnull f (List.mem_append_left _ hf) file List.mem_cons_self
        (Nat.ne_of_lt (hid f hf file List.mem_cons_self))
    · intro f hf g hg
      rcases hmem f hf with hf | rfl
      · exact hid f hf g (List.mem_cons_of_mem _ hg)
      · exact hfile g hg
    · intro f hf g hg
      refine hnull f ?_ g (List.mem_cons_of_mem _ hg)
      rcases List.mem_append.mp hf with hf | hf
      · rcases hmem f hf with hf | rfl
        · exact List.mem_append_left _ hf
        · exact List.mem_append_right _ List.mem_cons_self
      · exact List.mem_append_right _ (List.mem_cons_of_mem _ hf)

end BitLevel

theorem Levels.eq_of_fields {l l' : Levels κ} (hlevel₀ : l.level0.level = l'.level0.level)
    (hcap₀ : l.level0.capacity = l'.level0.capacity) (hfiles₀ : l.level0.files = l'.level0.files)
    (hlevel₁ : l.level1.level = l'.level1.level) (hcap₁ : l.level1.capacity = l'.level1.capacity)
    (hfiles₁ : l.level1.files = l'.level1.files) : l = l' := by
  obtain ⟨⟨_, _, _⟩, ⟨_, _, _⟩⟩ := l
  obtain ⟨⟨_, _, _⟩, ⟨_, _, _⟩⟩ := l'
  simp only at hlevel₀ hcap₀ hfiles₀ hlevel₁ hcap₁ hfiles₁
  subst hlevel₀ hcap₀ hfiles₀ hlevel₁ hcap₁ hfiles₁
  rfl

/-! ## Closing the device -/

namespace LsmStore

variable [Inhabited κ]

/-- `lsm_tree_destroy`: the queue is drained and what is left in the memtable is compacted. The
levels are those at this point. -/
def destroy (s : LsmStore κ) (order : List ℕ) : Option (LsmStore κ) :=
  if s.works ≠ 0 then none
  else
    (if s.tree.memtable.size = 0 then some s else s.minorCompact s.tree.memtable order).map fun t =>
      { t with tree := { t.tree with memtable := .create, immutable := none } }

end LsmStore

/-- An operation on the tree. -/
inductive TreeAction (κ : Type) where
  /-- `lsm_tree_put` -/
  | put (key : ℕ) (val : Option (Record κ))
  /-- a queued `minor_compaction_handler` -/
  | compact (order : List ℕ)
  /-- `lsm_tree_destroy` -/
  | destroy (order : List ℕ)
  /-- `bit_catalogue_init` and `lsm_tree_init` -/
  | init

namespace LsmStore

variable [Inhabited κ]

/-- One operation. The device is opened after it was closed, with nothing in memory. -/
def operate (s : LsmStore κ) : TreeAction κ → Option (LsmStore κ)
  | .put key val => s.step (.put key val)
  | .compact order => s.step (.compact order)
  | .destroy order => s.destroy order
  | .init => if s.works = 0 ∧ s.tree.memtable.size = 0 then some s.load else none

/-- The catalogue describes the levels. -/
structure Mirrors (s : LsmStore κ) : Prop where
  /-- the descriptors in use, each with its statistics, are those of the files -/
  files : {p : ℕ × BitFile κ | s.tree.catalogue.InUse p.1 ∧ p.2 = s.fileStats p.1} =
    {p | ∃ f ∈ s.tree.levels.files, p = (f.id, f)}
  /-- the descriptors are distinct -/
  nodup : (s.tree.levels.files.map BitFile.id).Nodup
  /-- the statistics name the level -/
  level0 : ∀ f ∈ s.tree.levels.level0.files, (s.fileStats f.id).level = 0
  level1 : ∀ f ∈ s.tree.levels.level1.files, (s.fileStats f.id).level = 1
  /-- `lsm_tree_init` makes the same levels -/
  init : s.load.tree.levels = s.tree.levels

/-! ## What is rebuilt -/

theorem Ok.destroy {s s' : LsmStore κ} (h : s.Ok) {order : List ℕ}
    (hs : s.destroy order = some s') : s'.Ok := by
  have hempty : ∀ {t : LsmStore κ}, t.Ok →
      ({ t with tree := { t.tree with memtable := .create, immutable := none } } : LsmStore κ).Ok := by
    intro t ht
    refine ⟨⟨Memtable.ok_create, defaultLsmFileCapacity_pos, fun m hm => ?_, ht.tree.levels⟩, ht.stored⟩
    cases hm
  rw [LsmStore.destroy] at hs
  split at hs
  · cases hs
  · obtain ⟨t, ht, rfl⟩ := Option.map_eq_some_iff.mp hs
    split at ht
    · obtain rfl := Option.some.inj ht
      exact hempty h
    · exact hempty (h.minorCompact h.tree.memtable (Nat.le_of_lt h.tree.room) ht)

theorem Ok.operate {s s' : LsmStore κ} (h : s.Ok) {a : TreeAction κ} (hs : s.operate a = some s') :
    s'.Ok := by
  cases a with
  | put key val => exact h.step (a := .put key val) hs
  | compact order => exact h.step (a := .compact order) hs
  | destroy order => exact h.destroy hs
  | init =>
    rw [LsmStore.operate] at hs
    split at hs
    · obtain rfl := Option.some.inj hs
      exact h.load
    · cases hs

/-- **Every run.** -/
theorem ok_operate {capacity maxFd : ℕ} {run : List (TreeAction κ)} {s : LsmStore κ}
    (hrun : Machine.exec LsmStore.operate (init capacity maxFd) run = some s) : s.Ok :=
  Machine.invariant_of_all (fun _ _ _ (h : Ok _) hs => h.operate hs) (ok_init capacity maxFd) hrun

/-- The statistics come in the order of the descriptors. -/
theorem Ok.stats_ascending {s : LsmStore κ} (h : s.Ok) :
    (bitcGetAllFileStats s.tree.catalogue.bitValidityTable s.fileStats).Pairwise
      fun f g => f.id < g.id := by
  rw [bitcGetAllFileStats, List.pairwise_map]
  refine (List.pairwise_lt_range.filter _).imp_of_mem fun {i j} hi hj hlt => ?_
  have hid : ∀ i ∈ (List.range s.tree.catalogue.bitValidityTable.nrSegment).filter
      s.tree.catalogue.bitValidityTable.valid, (s.fileStats i).id = i := by
    intro i hi
    obtain ⟨-, f, hf, rfl⟩ := h.tree.levels.owned i (List.mem_filter.mp hi).2
    rw [h.stored.stats f hf]
  rw [hid i hi, hid j hj]
  exact hlt

/-- Level 1 after loading. -/
theorem Ok.load_ranked {s : LsmStore κ} (h : s.Ok) :
    s.load.tree.levels.level1.files.Pairwise BitFile.Ranked := by
  have hperm := bitcGetAllFileStats_perm h.tree.levels h.stored.stats
  have hload : s.load.tree.levels = loadFiles
    ⟨.create 0 BitLevel.defaultLsmLevel0NrFile, .create 1 s.tree.levels.level1.capacity⟩
    (bitcGetAllFileStats s.tree.catalogue.bitValidityTable s.fileStats) := rfl
  rw [hload, loadFiles_eq]
  refine BitLevel.addFiles_ranked List.Pairwise.nil (h.stats_ascending.filter _)
    (fun f hf => absurd hf List.not_mem_nil) fun f hf g hg hne hsame => ?_
  -- both files are in level 1, so they are apart
  have hmem : ∀ f ∈ (bitcGetAllFileStats s.tree.catalogue.bitValidityTable s.fileStats).filter
      (fun f => ¬f.level = 0), f ∈ s.tree.levels.level1.files := by
    intro f hf
    obtain ⟨hf, hlevel⟩ := List.mem_filter.mp hf
    rcases Levels.mem_files.mp (hperm.mem_iff.mp hf) with hf | hf
    · have htag := h.tree.levels.tag0 f hf
      rw [h.tree.levels.level0.1] at htag
      exact absurd htag (of_decide_eq_true hlevel)
    · exact hf
  have hfg : f ≠ g := fun heq => hne (congrArg BitFile.id heq)
  have : Std.Symm (BitFile.Apart (κ := κ)) := ⟨fun _ _ hfg => hfg.symm⟩
  exact (h.tree.levels.tidy.apart.forall (hmem f hf) (hmem g hg) hfg).nullRange hsame

/-- **The levels after loading** are the same when files of level 1 with the same range stand in
the order of falling descriptors, and only then. -/
theorem Ok.load_levels_iff {s : LsmStore κ} (h : s.Ok) :
    s.load.tree.levels = s.tree.levels ↔
      s.tree.levels.level1.files.Pairwise fun f g => f.SameRange g → g.id < f.id := by
  obtain ⟨l', hl', hlevel₀, hcap₀, hfiles₀, hlevel₁, hcap₁, hperm, -⟩ :=
    loadFiles_spec h.tree.levels h.stored
  have hload : s.load.tree.levels = l' := hl'
  have hranked := h.load_ranked
  rw [hload] at hranked ⊢
  constructor
  · intro heq
    rw [← heq]
    exact hranked.imp fun hfg => hfg.2
  · intro hties
    have hfiles₁ : l'.level1.files = s.tree.levels.level1.files := by
      refine hperm.eq_of_pairwise (fun f g _ _ hfg hgf => ?_) hranked
        (h.tree.levels.tidy.sorted.and hties)
      have hsame := BitFile.sameRange_iff.mpr ⟨hfg.1, hgf.1⟩
      have h₁ := hfg.2 hsame
      have h₂ := hgf.2 ⟨hsame.1.symm, hsame.2.symm⟩
      omega
    exact Levels.eq_of_fields (hlevel₀.trans h.tree.levels.level0.1.symm)
      (hcap₀.trans h.tree.levels.level0.2.symm) hfiles₀ (hlevel₁.trans h.stored.number.symm) hcap₁ hfiles₁

theorem Ok.mirrors_iff {s : LsmStore κ} (h : s.Ok) :
    s.Mirrors ↔ s.tree.levels.level1.files.Pairwise fun f g => f.SameRange g → g.id < f.id := by
  rw [← h.load_levels_iff]
  refine ⟨Mirrors.init, fun hinit => ⟨?_, h.tree.levels.nodup, fun f hf => ?_, fun f hf => ?_, hinit⟩⟩
  · ext ⟨i, g⟩
    constructor
    · rintro ⟨hi, hg⟩
      obtain ⟨-, f, hf, rfl⟩ := h.tree.levels.owned i hi
      exact ⟨f, hf, Prod.ext rfl (hg.trans (h.stored.stats f hf))⟩
    · rintro ⟨f, hf, heq⟩
      obtain ⟨rfl, rfl⟩ := Prod.mk.inj heq
      exact ⟨h.tree.levels.inUse g hf, (h.stored.stats g hf).symm⟩
  · rw [h.stored.stats f (Levels.mem_files.mpr (Or.inl hf)), h.tree.levels.tag0 f hf,
      h.tree.levels.level0.1]
  · rw [h.stored.stats f (Levels.mem_files.mpr (Or.inr hf)), h.tree.levels.tag1 f hf, h.stored.number]

/-- **The catalogue mirrors the levels.** In every run, between any two operations, the catalogue
describes the levels and opening the device rebuilds them, exactly if no two files of level 1 with
the same range stand in the order of rising descriptors. -/
theorem catalogue_mirrors_iff {capacity maxFd : ℕ} {run : List (TreeAction κ)} {s : LsmStore κ}
    (hrun : Machine.exec LsmStore.operate (init capacity maxFd) run = some s) :
    s.Mirrors ↔ s.tree.levels.level1.files.Pairwise fun f g => f.SameRange g → g.id < f.id :=
  (ok_operate hrun).mirrors_iff

/-- Blocks 1 and 2 are written and trimmed; each of the two merges leaves a file without
records. -/
def trimTwice : List (TreeAction Unit) :=
  [.put 1 (some ⟨0, [], ()⟩), .destroy [], .init, .put 1 none, .destroy [], .init,
    .put 2 (some ⟨0, [], ()⟩), .destroy [0, 1], .init, .put 2 none, .destroy [], .init,
    .put 3 (some ⟨0, [], ()⟩), .destroy [0, 1]]

/-- The device after the first file has been moved to level 1. -/
theorem catalogue_mirrors_iff_sample :
    ∃ s : LsmStore Unit, Machine.exec LsmStore.operate (init 4 8) (trimTwice.take 5) = some s ∧
      (s.Mirrors ↔ s.tree.levels.level1.files.Pairwise fun f g => f.SameRange g → g.id < f.id) := by
  obtain ⟨s, hs⟩ : ∃ s, Machine.exec LsmStore.operate (init 4 8) (trimTwice.take 5) = some s :=
    Option.isSome_iff_exists.mp (by decide +kernel)
  exact ⟨s, hs, catalogue_mirrors_iff hs⟩

/-- **Two files change places.** The descriptors of level 1 in memory and after opening. -/
theorem reload_swaps_files :
    ((Machine.exec LsmStore.operate (init 4 8) trimTwice).map fun s =>
      (s.tree.levels.level1.files.map BitFile.id, s.load.tree.levels.level1.files.map BitFile.id)) =
        some ([1, 2], [2, 1]) ∧
    ∃ s : LsmStore Unit, Machine.exec LsmStore.operate (init 4 8) trimTwice = some s ∧ ¬s.Mirrors := by
  have hids : ((Machine.exec LsmStore.operate (init 4 8) trimTwice).map fun s =>
      (s.tree.levels.level1.files.map BitFile.id, s.load.tree.levels.level1.files.map BitFile.id)) =
        some ([1, 2], [2, 1]) := by decide +kernel
  refine ⟨hids, ?_⟩
  obtain ⟨s, hs, heq⟩ := Option.map_eq_some_iff.mp hids
  refine ⟨s, hs, fun hmirrors => ?_⟩
  rw [hmirrors.init] at heq
  obtain ⟨h₁, h₂⟩ := Prod.mk.inj heq
  rw [h₁] at h₂
  exact absurd h₂ (by decide)

end LsmStore

end JinDisk
