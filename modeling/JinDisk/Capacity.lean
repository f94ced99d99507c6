import JinDisk.Reopen
import JinDisk.SegmentBuffer
import Mathlib.Data.List.Dedup

/-!
# The number of files in level 1

`lsm_tree_major_compaction(level)` looks at `levels[level + 1]`, and calls itself for that
level when it is full. There are two levels, so a full level 1 leads to `levels[2]`, past the
end of the array. The capacity of level 1 is computed from the size of the device: the files
that all its blocks need, and a few more.

A file of level 1 need not be full, and is merged only with a file of level 0 that overlaps
it. Files with few keys stay as they are, and a close after every put makes one more of them
each time (`major_compaction_leaves_levels`). As long as there are at most three of them when
a compaction starts, the full files leave room (`level_index_in_range`): they hold different
keys, and the device has only so many.
-/

namespace JinDisk

variable {κ : Type}

/-! ## The sizes -/

/-- `DEFAULT_LSM_TREE_NR_DISK_LEVEL` -/
def defaultLsmTreeNrDiskLevel : ℕ := 2

/-- `LSM_TREE_DISK_LEVEL_COMMON_RATIO` -/
def lsmTreeDiskLevelCommonRatio : ℕ := 10

/-- `NR_GC_PRESERVED` -/
def nrGcPreserved : ℕ := 320

/-- `SECTORS_PER_BLOCK` -/
def sectorsPerBlock : ℕ := 8

/-- The loop of `__total_bit`, for the levels that remain. -/
def totalBitLoop (commonRatio : ℕ) : ℕ → ℕ → ℕ
  | 0, _ => 0
  | n + 1, capacity =>
    (if capacity = 0 then 0 else (capacity - 1) / defaultLsmFileCapacity + 1) +
      totalBitLoop commonRatio n (capacity / commonRatio)

/-- `__total_bit` -/
def totalBit (nrDiskLevel commonRatio maxDiskLevelCapacity : ℕ) : ℕ :=
  totalBitLoop commonRatio (nrDiskLevel - 1) maxDiskLevelCapacity + BitLevel.defaultLsmLevel0NrFile

/-- `__extra_bit` -/
def extraBit (maxDiskLevelCapacity : ℕ) : ℕ :=
  totalBit 2 lsmTreeDiskLevelCommonRatio maxDiskLevelCapacity

/-- `NR_SEGMENT`, for a target of `len` sectors. -/
def nrSegment (len : ℕ) : ℕ := len / (sectorsPerBlock * blocksPerSegment)

/-- `max_disk_level_capacity` of the superblock -/
def maxDiskLevelCapacity (len : ℕ) : ℕ := (nrSegment len + nrGcPreserved) * blocksPerSegment

/-- `max_level_nr_file` of the catalogue -/
def maxLevelNrFile (len : ℕ) : ℕ :=
  totalBit 2 lsmTreeDiskLevelCommonRatio (maxDiskLevelCapacity len)

/-- `max_fd` of the catalogue -/
def maxFd (len : ℕ) : ℕ :=
  totalBit defaultLsmTreeNrDiskLevel lsmTreeDiskLevelCommonRatio (maxDiskLevelCapacity len) +
    extraBit (maxDiskLevelCapacity len)

theorem maxLevelNrFile_eq (len : ℕ) :
    maxLevelNrFile len = (nrSegment len + 319) / 128 + 2 := by
  unfold maxLevelNrFile totalBit maxDiskLevelCapacity nrGcPreserved blocksPerSegment
    BitLevel.defaultLsmLevel0NrFile
  simp only [totalBitLoop, defaultLsmFileCapacity, Nat.add_one_sub_one]
  rw [if_neg (by omega)]
  omega

namespace LsmStore

/-- A formatted device of `len` sectors. -/
def format (len : ℕ) : LsmStore κ := init (maxLevelNrFile len) (maxFd len)

/-- The calls of `lsm_tree_major_compaction` made by a minor compaction, up to one that leaves
the array. -/
def compactionCalls (l : Levels κ) : List ℕ :=
  if l.level0.isFull then 0 :: if l.level1.isFull then [1] else [] else []

/-- The calls made in a step: the compaction of the worker, and the one of a close. -/
def majorCalls (s : LsmStore κ) : LsmAction κ → List ℕ
  | .put _ _ => []
  | .compact _ => if s.works ≠ 0 ∧ s.tree.immutable.isSome then compactionCalls s.tree.levels else []
  | .reopen _ =>
    if s.works = 0 ∧ s.tree.memtable.size ≠ 0 then compactionCalls s.tree.levels else []

theorem mem_compactionCalls {s : LsmStore κ} {a : LsmAction κ} {level : ℕ}
    (h : level ∈ s.majorCalls a) : level ∈ compactionCalls s.tree.levels := by
  cases a with
  | put key val => cases h
  | compact order =>
    simp only [majorCalls] at h
    split at h
    · exact h
    · cases h
  | reopen order =>
    simp only [majorCalls] at h
    split at h
    · exact h
    · cases h

/-- Calls that stay in the array. -/
theorem compactionCalls_in_range {l : Levels κ} (h : l.level1.isFull = false) :
    ∀ level ∈ compactionCalls l, level + 1 < defaultLsmTreeNrDiskLevel := by
  intro level hlevel
  rw [compactionCalls] at hlevel
  split at hlevel
  · rw [h] at hlevel
    rw [List.mem_singleton.mp hlevel]
    decide
  · cases hlevel

/-- A put is for a block of the device: its first sector exists. -/
def InDevice (len : ℕ) (_ : LsmStore κ) : LsmAction κ → Prop
  | .put key _ => key * sectorsPerBlock < len
  | _ => True

end LsmStore

/-! ## Partial files -/

/-- The different keys of a file. -/
def BitFile.keys (f : BitFile κ) : List ℕ := (f.entries.map Prod.fst).dedup

/-- A file with fewer different keys than a file can have. -/
def BitFile.underfull (f : BitFile κ) : Bool := f.keys.length < defaultLsmFileCapacity

theorem BitFile.mem_keys {f : BitFile κ} {k : ℕ} : k ∈ f.keys ↔ ∃ e ∈ f.entries, e.1 = k := by
  rw [BitFile.keys, List.mem_dedup, List.mem_map]

/-- Files with ranges of their own have different keys. -/
theorem nodup_flatMap_keys {files : List (BitFile κ)} (h : files.Pairwise BitFile.Before) :
    (files.flatMap BitFile.keys).Nodup := by
  refine List.nodup_flatMap.mpr ⟨fun f _ => List.nodup_dedup _, h.imp fun {f g} hfg => ?_⟩
  intro k hf hg
  obtain ⟨a, ha, rfl⟩ := BitFile.mem_keys.mp hf
  obtain ⟨b, hb, heq⟩ := BitFile.mem_keys.mp hg
  exact absurd heq (Nat.ne_of_gt (hfg a ha b hb))

/-- **Full files** are at most as many as the keys fill. -/
theorem length_full_le {files : List (BitFile κ)} (h : files.Pairwise BitFile.Before) {n : ℕ}
    (hkeys : ∀ f ∈ files, ∀ e ∈ f.entries, e.1 < n) :
    (files.filter fun f => !f.underfull).length * defaultLsmFileCapacity ≤ n := by
  obtain ⟨full, hfull⟩ : ∃ full, full = files.filter fun f => !f.underfull := ⟨_, rfl⟩
  have hsub : full.Sublist files := hfull ▸ List.filter_sublist
  have hrange : full.flatMap BitFile.keys ⊆ List.range n := by
    intro k hk
    obtain ⟨f, hf, hk⟩ := List.mem_flatMap.mp hk
    obtain ⟨e, he, rfl⟩ := BitFile.mem_keys.mp hk
    exact List.mem_range.mpr (hkeys f (hsub.subset hf) e he)
  have hle := (List.subperm_of_subset (nodup_flatMap_keys (h.sublist hsub)) hrange).length_le
  rw [List.length_range, List.length_flatMap] at hle
  have hmany : ∀ k ∈ full.map fun f => f.keys.length, defaultLsmFileCapacity ≤ k := by
    intro k hk
    obtain ⟨f, hf, rfl⟩ := List.mem_map.mp hk
    rw [hfull] at hf
    simpa [BitFile.underfull] using (List.mem_filter.mp hf).2
  have hsum := List.card_nsmul_le_sum _ _ hmany
  rw [List.length_map, Nat.nsmul_eq_mul] at hsum
  rw [← hfull]
  exact hsum.trans hle

/-! ## The keys of a run -/

/-- The keys of a memtable are below `n`. -/
def Memtable.KeysBelow (m : Memtable κ) (n : ℕ) : Prop := ∀ k e, m.root[k]? = some e → k < n

theorem Memtable.KeysBelow.put {m : Memtable κ} {n : ℕ} (h : m.KeysBelow n) {key : ℕ}
    (hkey : key < n) (val : Option (Record κ)) : (m.put key val).1.KeysBelow n := by
  intro k e he
  rw [Memtable.put_root, RbTree.getElem?_insert] at he
  split at he
  · rename_i heq
    exact heq ▸ hkey
  · exact h k e he

theorem Memtable.keysBelow_create (n : ℕ) : (Memtable.create : Memtable κ).KeysBelow n := by
  intro k e he
  simp [Memtable.create] at he

variable [Inhabited κ]

theorem Memtable.KeysBelow.entries {m : Memtable κ} {n : ℕ} (h : m.KeysBelow n)
    {e : ℕ × Record κ} (he : e ∈ m.getAllEntry) : e.1 < n := by
  rw [Memtable.getAllEntry] at he
  obtain ⟨⟨k, ent⟩, hk, he⟩ := List.mem_flatMap.mp he
  obtain ⟨r, -, rfl⟩ := List.mem_map.mp he
  exact h k ent ((RbTree.mem_toList _ _ _).mp hk)

namespace LsmStore

/-- All keys of the store are below `n`. -/
structure KeysBelow (s : LsmStore κ) (n : ℕ) : Prop where
  /-- those of the memtables -/
  memtable : s.tree.memtable.KeysBelow n
  immutable : ∀ m ∈ s.tree.immutable, m.KeysBelow n
  /-- and those of the files -/
  files : ∀ f ∈ s.tree.levels.files, ∀ e ∈ f.entries, e.1 < n

variable {s s' : LsmStore κ} {n : ℕ}

theorem KeysBelow.minorCompact (h : s.KeysBelow n) (hok : s.Ok) {m : Memtable κ} {order : List ℕ}
    (hm : m.Ok) (hsize : m.size ≤ defaultLsmFileCapacity) (hkeys : m.KeysBelow n)
    (hc : s.minorCompact m order = some s') : s'.KeysBelow n := by
  obtain ⟨comp, hcomp, rfl⟩ := Option.map_eq_some_iff.mp hc
  have hspec := minorCompaction_spec hok.tree.levels hm hsize hcomp
  refine ⟨h.memtable, h.immutable, fun f hf e he => ?_⟩
  rcases hspec.mem f hf e he with hnew | ⟨g, hg, hold⟩
  · exact hkeys.entries hnew
  · exact h.files g hg e hold

theorem KeysBelow.load (h : s.KeysBelow n) (hok : s.Ok) : s.load.KeysBelow n := by
  obtain ⟨hre, -⟩ := hok.reopened_load
  refine ⟨Memtable.keysBelow_create n, fun m hm => ?_, fun f hf => h.files f ?_⟩
  · cases hm
  · refine Levels.mem_files.mpr ((Levels.mem_files.mp hf).imp (fun hf => ?_) fun hf => ?_)
    · rwa [hre.upper] at hf
    · exact hre.lower.mem_iff.mp hf

/-- One step, if a put is for a key below `n`. -/
theorem KeysBelow.step (h : s.KeysBelow n) (hok : s.Ok) {a : LsmAction κ}
    (hkey : ∀ key val, a = .put key val → key < n) (hs : s.step a = some s') :
    s'.KeysBelow n := by
  rcases step_cases hs with ⟨key, val, ha, -, rfl⟩ | ⟨order, k, m, t, -, -, hm, ht, rfl⟩ |
    ⟨order, -, -, -, rfl⟩ | ⟨order, t, -, -, -, ht, rfl⟩
  · have hput := h.memtable.put (hkey key val ha) val
    refine ⟨?_, ?_, ?_⟩
    · simp only [LsmTree.put]
      split
      · exact Memtable.keysBelow_create n
      · exact hput
    · simp only [LsmTree.put]
      split
      · rintro m ⟨⟩
        exact hput
      · exact h.immutable
    · simp only [(s.tree.put_levels key val).1]
      exact h.files
  · obtain ⟨hmok, hsize⟩ := hok.tree.immutable m hm
    have ht' := h.minorCompact hok hmok hsize (h.immutable m hm) ht
    exact ⟨ht'.memtable, ht'.immutable, ht'.files⟩
  · exact h.load hok
  · have hsize := Nat.le_of_lt hok.tree.room
    exact (h.minorCompact hok hok.tree.memtable hsize h.memtable ht).load
      (hok.minorCompact hok.tree.memtable hsize ht)

/-- The capacity of level 1 never changes. -/
theorem step_capacity {a : LsmAction κ} (hok : s.Ok) (hs : s.step a = some s') :
    s'.tree.levels.level1.capacity = s.tree.levels.level1.capacity := by
  have hminor : ∀ m order t, s.minorCompact m order = some t →
      t.tree.levels.level1.capacity = s.tree.levels.level1.capacity := by
    intro m order t ht
    obtain ⟨comp, -, rfl⟩ := Option.map_eq_some_iff.mp ht
    exact (s.tree.levels.applyAll_level1 comp.ops).2.1
  rcases step_cases hs with ⟨key, val, -, -, rfl⟩ | ⟨order, k, m, t, -, -, -, ht, rfl⟩ |
    ⟨order, -, -, -, rfl⟩ | ⟨order, t, -, -, -, ht, rfl⟩
  · simp only [(s.tree.put_levels key val).1]
  · exact hminor m order t ht
  · exact hok.reopened_load.2
  · have hok' := hok.minorCompact hok.tree.memtable (Nat.le_of_lt hok.tree.room) ht
    exact hok'.reopened_load.2.trans (hminor _ order t ht)

/-- What holds in every run of puts to blocks of a device of `len` sectors. -/
structure Bounded (s : LsmStore κ) (len : ℕ) : Prop where
  /-- the store -/
  ok : s.Ok
  /-- the keys are blocks of the device -/
  keys : s.KeysBelow ((len + sectorsPerBlock - 1) / sectorsPerBlock)
  /-- the capacity is the one computed when the device was formatted -/
  capacity : s.tree.levels.level1.capacity = maxLevelNrFile len

theorem bounded_format (len : ℕ) : (format len : LsmStore κ).Bounded len := by
  refine ⟨ok_init _ _, ⟨Memtable.keysBelow_create _, fun m hm => ?_, fun f hf => ?_⟩, rfl⟩
  · cases hm
  · cases hf

theorem Bounded.step {len : ℕ} (h : s.Bounded len) {a : LsmAction κ} (hin : InDevice len s a)
    (hs : s.step a = some s') : s'.Bounded len := by
  refine ⟨h.ok.step hs, h.keys.step h.ok (fun key val ha => ?_) hs,
    (step_capacity h.ok hs).trans h.capacity⟩
  subst ha
  change key * sectorsPerBlock < len at hin
  rw [sectorsPerBlock] at *
  omega

/-- With few files that are not full, level 1 is not full. -/
theorem Bounded.not_isFull {len : ℕ} (h : s.Bounded len)
    (hfew : (s.tree.levels.level1.files.filter BitFile.underfull).length ≤ 3) :
    s.tree.levels.level1.isFull = false := by
  have hfull := length_full_le h.ok.tree.levels.tidy.before fun f hf =>
    h.keys.files f (Levels.mem_files.mpr (Or.inr hf))
  have hsplit := List.length_eq_length_filter_add (l := s.tree.levels.level1.files)
    BitFile.underfull
  have hcapacity := maxLevelNrFile_eq len
  rw [nrSegment, sectorsPerBlock, blocksPerSegment] at hcapacity
  rw [sectorsPerBlock, defaultLsmFileCapacity] at hfull
  rw [BitLevel.isFull, h.capacity, hcapacity]
  simp only [decide_eq_false_iff_not, not_le]
  omega

/-- **The level array.** In every state of every run, a compaction that starts when at most
three files of level 1 have fewer keys than fit a file stays within the levels there are. -/
theorem level_index_in_range (len : ℕ) {run : List (LsmAction κ)} {s : LsmStore κ}
    (hin : Machine.Along LsmStore.step (InDevice len) (format len) run)
    (hrun : Machine.exec LsmStore.step (format len) run = some s) (a : LsmAction κ)
    (hfew : s.majorCalls a ≠ [] → (s.tree.levels.level1.files.filter BitFile.underfull).length ≤ 3) :
    ∀ level ∈ s.majorCalls a, level + 1 < defaultLsmTreeNrDiskLevel := by
  intro level hlevel
  have hbounded : s.Bounded len :=
    Machine.invariant (fun _ _ _ (h : Bounded _ len) hin hs => h.step hin hs) (bounded_format len)
      hin hrun
  have hfull := hbounded.not_isFull (hfew (List.ne_nil_of_mem hlevel))
  exact compactionCalls_in_range hfull level (mem_compactionCalls hlevel)

/-! ## Ascending keys, one for each close -/

/-- A put of one block, then a close. -/
def turn (key : ℕ) : List (LsmAction Unit) := [.put key (some ⟨key, [], ()⟩), .reopen []]

/-- The smallest device, after a turn for each key up to `n`. -/
structure Stair (n : ℕ) (s : LsmStore Unit) : Prop where
  /-- the last key is in level 0, the others have a file of level 1 each -/
  files : ∃ i v lower, s.Reopened [⟨i, 0, v, [(n, ⟨n, [], ()⟩)]⟩] lower ∧ lower.length = n ∧
    ∀ g ∈ lower, g.lastKey < n
  /-- the sizes -/
  capacity : s.tree.levels.level1.capacity = maxLevelNrFile 8192
  maxFd : s.tree.catalogue.maxFd = maxFd 8192

theorem maxLevelNrFile_smallest : maxLevelNrFile 8192 = 4 := by decide

theorem maxFd_smallest : maxFd 8192 = 8 := by decide

theorem blockRecord_positive {key : ℕ} (hkey : key ≤ 0xffffffff) :
    ∀ r ∈ some (⟨key, [], ()⟩ : Record Unit), r.isNegative = false := by
  rintro r ⟨⟩
  have hlt : key < infAddr := Nat.lt_of_le_of_lt hkey (by decide)
  simpa [Record.isNegative] using Nat.ne_of_lt hlt

/-- A turn with a higher key moves the file of level 0 and makes a new one. -/
theorem Stair.turn {n : ℕ} (hn : n < 4) {s : LsmStore Unit} (h : Stair n s) :
    ∃ s', Machine.exec LsmStore.step s (turn (n + 1)) = some s' ∧ Stair (n + 1) s' := by
  obtain ⟨i, v, lower, hre, hlength, hlast⟩ := h.files
  have hput := step_put_single (s := s) (hre.memtable ▸ Memtable.create_put (n + 1) _)
    (blockRecord_positive (show n + 1 ≤ 0xffffffff by omega))
  obtain ⟨s₁, hs₁⟩ : ∃ s₁ : LsmStore Unit, s₁ = { s with
    tree := { s.tree with
      memtable := .single (n + 1) (.new (some ⟨n + 1, [], ()⟩)) } } := ⟨_, rfl⟩
  rw [← hs₁] at hput
  have hok : s₁.Ok := hre.ok.step hput
  have hlevels : s₁.tree.levels = s.tree.levels := by rw [hs₁]
  have hcat : s₁.tree.catalogue = s.tree.catalogue := by rw [hs₁]
  have hlen : s.tree.levels.level1.files.length = n := hre.lower.length_eq.trans hlength
  have hnotfull : s₁.tree.levels.level1.isFull = false := by
    rw [hlevels, BitLevel.isFull, h.capacity, maxLevelNrFile_smallest, hlen]
    simpa using hn
  have hworks : s₁.works = 0 := by rw [hs₁, ← hre.works]
  have hm : s₁.tree.memtable = .single (n + 1) (.new (some ⟨n + 1, [], ()⟩)) := by rw [hs₁]
  have hupper : s₁.tree.levels.level0.files = [⟨i, 0, v, [(n, ⟨n, [], ()⟩)]⟩] := by
    rw [hlevels, hre.upper]
  obtain ⟨s', j, v', f₁, hs', hf₁, hre', hcap', hfd'⟩ := hok.reopen_above hworks hm hupper hnotfull
    (show n ≤ 0xffffffff by omega)
    (fun g hg => hlast g (hre.lower.mem_iff.mp (hlevels ▸ hg)))
    (by rw [hlevels, hlen, hcat, h.maxFd, maxFd_smallest]; omega)
  refine ⟨s', Machine.exec_cons_of hput (Machine.exec_cons_of hs' rfl), ?_, ?_, ?_⟩
  · refine ⟨j, v', f₁ :: lower, ?_, by rw [List.length_cons, hlength], ?_⟩
    · refine ⟨hre'.ok, hre'.works, hre'.memtable, hre'.immutable, hre'.upper, hre'.lower.trans ?_,
        hre'.catalogue⟩
      rw [hlevels]
      exact hre.lower.cons f₁
    · intro g hg
      rcases List.mem_cons.mp hg with rfl | hg
      · rw [BitFile.lastKey, hf₁]
        exact Nat.lt_succ_self n
      · exact Nat.lt_succ_of_lt (hlast g hg)
  · rw [hcap', hlevels]
    exact h.capacity
  · rw [hfd', hcat]
    exact h.maxFd

/-- The turns for the keys up to `n`. -/
def turns (n : ℕ) : List (LsmAction Unit) := (List.range (n + 1)).flatMap turn

theorem exec_turns {n : ℕ} (hn : n ≤ 4) :
    ∃ s, Machine.exec LsmStore.step (format 8192) (turns n) = some s ∧ Stair n s := by
  induction n with
  | zero =>
    obtain ⟨s, i, hs, hre, hcap, hfd⟩ := exec_first (maxLevelNrFile 8192) (maxFd 8192)
      (by decide) 0 (blockRecord_positive (Nat.zero_le _) _ rfl)
    exact ⟨s, hs, ⟨i, 0, [], hre, rfl, fun g hg => absurd hg List.not_mem_nil⟩, hcap, hfd⟩
  | succ n ih =>
    obtain ⟨s, hs, hstair⟩ := ih (by omega)
    obtain ⟨s', hs', hstair'⟩ := hstair.turn (by omega)
    refine ⟨s', ?_, hstair'⟩
    have hturns : turns (n + 1) = turns n ++ turn (n + 1) := by
      unfold turns
      rw [List.range_succ, List.flatMap_append, List.flatMap_singleton]
    rw [hturns]
    exact Machine.exec_append_of hs hs'

/-- The calls made by a close with one key in the memtable, above files in level 0. -/
theorem Stair.majorCalls {n : ℕ} {s : LsmStore Unit} (h : Stair n s) {key : ℕ}
    (hkey : key ≤ 0xffffffff) :
    ∃ s', Machine.exec LsmStore.step s [.put key (some ⟨key, [], ()⟩)] = some s' ∧
      s'.tree.levels = s.tree.levels ∧
      s'.majorCalls (.reopen []) = if 4 ≤ n then [0, 1] else [0] := by
  obtain ⟨i, v, lower, hre, hlength, -⟩ := h.files
  have hput := step_put_single (s := s) (hre.memtable ▸ Memtable.create_put key _)
    (blockRecord_positive hkey)
  refine ⟨_, Machine.exec_cons_of hput rfl, rfl, ?_⟩
  have hfull : s.tree.levels.level0.isFull = true := by
    rw [BitLevel.isFull, hre.ok.tree.levels.level0.2, hre.upper]
    rfl
  have hlower : s.tree.levels.level1.isFull = decide (4 ≤ n) := by
    rw [BitLevel.isFull, h.capacity, maxLevelNrFile_smallest, hre.lower.length_eq, hlength]
  have hsize : (Memtable.single key (.new (some (⟨key, [], ()⟩ : Record Unit)))).size ≠ 0 :=
    Nat.succ_ne_zero 0
  simp only [LsmStore.majorCalls, hre.works, true_and]
  rw [if_pos hsize]
  rw [compactionCalls, if_pos hfull, hlower]
  by_cases hn : 4 ≤ n <;> simp [hn]

/-- The turns are for blocks of the device. -/
theorem along_turns {n : ℕ} (hn : n < 1000) :
    Machine.Along LsmStore.step (InDevice 8192) (format 8192)
      (turns n ++ [.put (n + 1) (some ⟨n + 1, [], ()⟩)]) := by
  refine Machine.along_of_forall fun a ha t => ?_
  rcases List.mem_append.mp ha with ha | ha
  · obtain ⟨key, hkey, ha⟩ := List.mem_flatMap.mp ha
    rw [List.mem_range] at hkey
    rw [LsmStore.turn] at ha
    simp only [List.mem_cons, List.not_mem_nil, or_false] at ha
    rcases ha with rfl | rfl
    · change key * 8 < 8192
      omega
    · trivial
  · rw [List.mem_singleton.mp ha]
    change (n + 1) * 8 < 8192
    omega

/-- Two turns make one file in each level. -/
theorem level_index_in_range_sample :
    ∃ s : LsmStore Unit, Machine.exec LsmStore.step (format 8192)
        (turns 1 ++ [.put 2 (some ⟨2, [], ()⟩)]) = some s ∧ s.majorCalls (.reopen []) = [0] ∧
      ∀ level ∈ s.majorCalls (.reopen []), level + 1 < defaultLsmTreeNrDiskLevel := by
  obtain ⟨s, hs, hstair⟩ := exec_turns (n := 1) (by decide)
  obtain ⟨s', hs', hlevels, hcalls⟩ := hstair.majorCalls (show 2 ≤ 0xffffffff by decide)
  have hrun := Machine.exec_append_of hs hs'
  refine ⟨s', hrun, hcalls, level_index_in_range 8192 (along_turns (by decide)) hrun _ fun _ => ?_⟩
  obtain ⟨i, v, lower, hre, hlength, -⟩ := hstair.files
  rw [hlevels]
  refine (List.length_filter_le _ _).trans ?_
  rw [hre.lower.length_eq, hlength]
  decide

/-- **Past the end.** Five puts, each followed by a close, fill level 1 of the smallest device
with files of one key; the next compaction calls itself for level 1. -/
theorem major_compaction_leaves_levels :
    ∃ s : LsmStore Unit, Machine.Along LsmStore.step (InDevice 8192) (format 8192)
        (turns 4 ++ [.put 5 (some ⟨5, [], ()⟩)]) ∧
      Machine.exec LsmStore.step (format 8192) (turns 4 ++ [.put 5 (some ⟨5, [], ()⟩)]) = some s ∧
      ¬∀ level ∈ s.majorCalls (.reopen []), level + 1 < defaultLsmTreeNrDiskLevel := by
  obtain ⟨s, hs, hstair⟩ := exec_turns (n := 4) (by decide)
  obtain ⟨s', hs', -, hcalls⟩ := hstair.majorCalls (show 5 ≤ 0xffffffff by decide)
  refine ⟨s', along_turns (by decide), Machine.exec_append_of hs hs', fun hall => ?_⟩
  rw [hcalls] at hall
  exact absurd (hall 1 (by simp)) (by decide)

end LsmStore

end JinDisk
