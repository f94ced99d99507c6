import JinDisk.MergeOutput
import JinDisk.Capacity

/-!
# Enough descriptors for a merge

Nobody looks at what `alloc_file` and `add_file` return. A merge opens its files one by one while
the files it reads are still there, so old and new files need descriptors, and places in the array
of level 1, at the same time. The catalogue has twice as many descriptors as level 1 may have
files. A merge of `n` files opens at most `n`: a file is completed before the last entry only when
it is full, and every entry puts out at most one record.
-/

namespace JinDisk

open KwayMerge

variable {κ : Type}

/-! ## The calls -/

/-- Is a new file opened when `first` comes from the heap? -/
def MergeState.rotates (s : MergeState κ) (first : MergeNode κ) : Bool :=
  s.pending.distinct.key != first.key &&
    decide (defaultLsmFileCapacity ≤ s.settle.builder.entries.length)

/-- The catalogues on which the loop of a merge calls `alloc_file`. -/
def mergeAllocs (level : ℕ) : MergeState κ → List (MergeNode κ) → List Catalogue
  | _, [] => []
  | s, first :: rest =>
    (if s.rotates first then [s.catalogue] else []) ++
      (s.step level first).elim [] fun s' => mergeAllocs level s' rest

/-- The catalogues on which a merge calls `alloc_file`. -/
def kwayMergeAllocs (c : Catalogue) (level : ℕ) : List (MergeNode κ) → List Catalogue
  | [] => []
  | first :: rest =>
    c :: (openBuilder c level).elim [] fun b =>
      mergeAllocs level ⟨.start first, b.1, [], [], b.2⟩ rest

/-- The catalogues on which `compaction_job_run` calls `alloc_file`: none for a move, and none
when the iterator of a file without root stops it. -/
def compactionJobAllocs (l : Levels κ) (c : Catalogue) (order : List ℕ) : List Catalogue :=
  if (l.level1.findRelativeFiles l.level0.pickDemotedFiles).isEmpty &&
      !lsmFileOverlapping l.level0.pickDemotedFiles then []
  else if (mergeInputs l).any fun f => f.entries.isEmpty then []
  else (pops MergeNode.key ((mergeInputs l).map BitFile.nodes) order).elim []
    (kwayMergeAllocs c l.level1.level)

/-- The catalogues on which `lsm_tree_minor_compaction` calls `alloc_file`, those of the major
compaction first. -/
def minorCompactionAllocs (l : Levels κ) (c : Catalogue) (order : List ℕ) : List Catalogue :=
  if l.level0.isFull then
    if l.level1.isFull then []
    else compactionJobAllocs l c order ++
      (compactionJobRun l c order).elim [] fun major => [major.catalogue]
  else [c]

/-- The levels on which `add_file` is called by changes of the levels. -/
def addCalls (l : Levels κ) : List (LevelOp κ) → List (BitLevel κ)
  | [] => []
  | .add0 f :: ops => l.level0 :: addCalls (l.apply (.add0 f)) ops
  | .add1 f :: ops => l.level1 :: addCalls (l.apply (.add1 f)) ops
  | .remove0 id :: ops => addCalls (l.apply (.remove0 id)) ops
  | .remove1 id :: ops => addCalls (l.apply (.remove1 id)) ops

/-- The major compaction ends: it moves the files, or `order` is an order in which the heap can
hand out their entries and every file has a root. -/
def JobEnds (l : Levels κ) (order : List ℕ) : Prop :=
  ((l.level1.findRelativeFiles l.level0.pickDemotedFiles).isEmpty &&
    !lsmFileOverlapping l.level0.pickDemotedFiles) = true ∨
  (∀ f ∈ mergeInputs l, f.entries ≠ []) ∧
    ∃ stream, pops MergeNode.key ((mergeInputs l).map BitFile.nodes) order = some stream

/-- The levels as a minor compaction finds them: the descriptors in use are those of at most one
file of level 0 and of fewer files of level 1 than it may have. -/
structure Compactable (maxDiskLevelCapacity : ℕ) (l : Levels κ) (c : Catalogue) : Prop where
  /-- the capacities, as `lsm_tree_init` sets them -/
  capacity0 : l.level0.capacity = BitLevel.defaultLsmLevel0NrFile
  capacity1 : l.level1.capacity = totalBit 2 lsmTreeDiskLevelCommonRatio maxDiskLevelCapacity
  /-- the number of descriptors, as `bit_catalogue_init` sets it -/
  maxFd : c.maxFd =
    totalBit defaultLsmTreeNrDiskLevel lsmTreeDiskLevelCommonRatio maxDiskLevelCapacity +
      extraBit maxDiskLevelCapacity
  /-- the files -/
  upper : l.level0.files.length ≤ 1
  lower : l.level1.files.length < l.level1.capacity
  /-- their descriptors -/
  used : {i | i < c.maxFd ∧ c.InUse i} = {i | ∃ f ∈ l.files, f.id = i}
  /-- their size -/
  size : ∀ f ∈ l.files, f.entries.length ≤ defaultLsmFileCapacity

/-! ## Counting -/

/-- What holds of a merge when `n` entries have been taken. -/
structure Counted (c : Catalogue) (n : ℕ) (s : MergeState κ) : Prop where
  /-- every file was given a descriptor -/
  allocated : Allocated c s.catalogue (s.files.map BitFile.tag)
  /-- completed files are full, and the last entry is still open -/
  count : s.written.length * defaultLsmFileCapacity + s.builder.entries.length + 1 ≤ n

namespace Counted

variable {c : Catalogue} {n level : ℕ} {s s' : MergeState κ} {first : MergeNode κ}

theorem length_settle (s : MergeState κ) :
    s.settle.builder.entries.length ≤ s.builder.entries.length + 1 := by
  simp only [MergeState.settle, List.length_append]
  cases s.pending.output <;> simp

/-- **Step lemma.** -/
theorem step (h : Counted c n s) (hs : s.step level first = some s') : Counted c (n + 1) s' := by
  have hcount := h.count
  have hsettle := length_settle s
  have hsettled : Allocated c s.settle.catalogue (s.settle.files.map BitFile.tag) := by
    have htags : s.settle.files.map BitFile.tag = s.files.map BitFile.tag := by
      simp [MergeState.settle, MergeState.files, BitFile.tag]
    rw [htags]
    exact h.allocated
  rw [MergeState.step] at hs
  split at hs
  · obtain rfl := Option.some.inj hs
    exact ⟨h.allocated, Nat.le_succ_of_le hcount⟩
  · split at hs
    · rename_i hfull
      obtain ⟨b, hb, rfl⟩ := Option.map_eq_some_iff.mp hs
      obtain ⟨hempty, halloc⟩ := hsettled.openBuilder
        (show openBuilder s.settle.catalogue level = some (b.1, b.2) from hb)
      refine ⟨?_, ?_⟩
      · simpa [MergeState.files, MergeState.settle] using halloc
      · simp only [List.length_append, List.length_singleton, hempty, List.length_nil]
        rw [Nat.add_mul]
        omega
    · obtain rfl := Option.some.inj hs
      refine ⟨hsettled, ?_⟩
      have hwritten : s.settle.written = s.written := rfl
      simp only [hwritten]
      omega

/-- A new file is opened only when there are fewer files than the entries fill. -/
theorem exists_openBuilder (h : Counted c n s) (hfull : s.rotates first = true)
    (hfree : n / defaultLsmFileCapacity < c.freeFds.length) :
    ∃ b : BitFile κ × Catalogue, openBuilder s.catalogue level = some b := by
  refine h.allocated.exists_openBuilder ?_ level
  have hcount := h.count
  have hsettle := length_settle s
  have hfull := of_decide_eq_true (Bool.and_eq_true_iff.mp hfull).2
  refine Nat.lt_of_le_of_lt ?_ hfree
  rw [Nat.le_div_iff_mul_le defaultLsmFileCapacity_pos, List.length_map, MergeState.files,
    List.length_append, List.length_singleton, Nat.add_mul]
  omega

theorem exists_step (hopen : s.rotates first = true → ∃ b : BitFile κ × Catalogue,
    openBuilder s.catalogue level = some b) : ∃ s', s.step level first = some s' := by
  rw [MergeState.step]
  split
  · exact ⟨_, rfl⟩
  · rename_i hkey
    split
    · rename_i hfull
      obtain ⟨b, hb⟩ := hopen (Bool.and_eq_true_iff.mpr ⟨by simpa using hkey, decide_eq_true hfull⟩)
      rw [hb]
      exact ⟨_, rfl⟩
    · exact ⟨_, rfl⟩

/-- **Run lemma.** All files can be opened, and the merge goes on to its end. -/
theorem run (h : Counted c n s) (level : ℕ) {rest : List (MergeNode κ)}
    (hfree : (n + rest.length - 1) / defaultLsmFileCapacity < c.freeFds.length) :
    (∀ c' ∈ mergeAllocs level s rest, ∃ b : BitFile κ × Catalogue, openBuilder c' level = some b) ∧
      ∃ s', Machine.exec (MergeState.step level) s rest = some s' ∧
        Counted c (n + rest.length) s' := by
  induction rest generalizing n s with
  | nil => exact ⟨fun c' hc' => absurd hc' List.not_mem_nil, s, rfl, h⟩
  | cons first rest ih =>
    rw [List.length_cons] at hfree
    have hopen : s.rotates first = true → ∃ b : BitFile κ × Catalogue,
        openBuilder s.catalogue level = some b := fun hfull =>
      h.exists_openBuilder hfull (Nat.lt_of_le_of_lt (Nat.div_le_div_right (by omega)) hfree)
    obtain ⟨s₁, hs₁⟩ := exists_step hopen
    have hlength : n + 1 + rest.length = n + (rest.length + 1) := by omega
    obtain ⟨hrest, s', hs', hcounted⟩ := ih (h.step hs₁) (by rw [hlength]; exact hfree)
    refine ⟨fun c' hc' => ?_, s', Machine.exec_cons_of hs₁ hs', ?_⟩
    · rw [mergeAllocs, hs₁] at hc'
      rcases List.mem_append.mp hc' with hc' | hc'
      · split at hc'
        · rename_i hfull
          obtain rfl := List.mem_singleton.mp hc'
          exact hopen hfull
        · cases hc'
      · exact hrest c' hc'
    · rw [List.length_cons, ← hlength]
      exact hcounted

/-- Before the second entry. -/
theorem start {b : BitFile κ} {c' : Catalogue} (hb : openBuilder c level = some (b, c'))
    (first : MergeNode κ) : Counted c 1 ⟨.start first, b, [], [], c'⟩ := by
  obtain ⟨hempty, halloc⟩ := (Allocated.refl c).openBuilder hb
  refine ⟨halloc, ?_⟩
  simp [hempty]

end Counted

/-- **The files of a merge.** With one free descriptor more than the entries but the last one
fill, all files can be opened, and there are at most that many. -/
theorem kwayMerge_allocs {c : Catalogue} (level : ℕ) {stream : List (MergeNode κ)}
    (hne : stream ≠ [])
    (hfree : (stream.length - 1) / defaultLsmFileCapacity < c.freeFds.length) :
    (∀ c' ∈ kwayMergeAllocs c level stream, ∃ b : BitFile κ × Catalogue,
      openBuilder c' level = some b) ∧
    ∃ s, kwayMerge c level stream = some s ∧
      Allocated c s.catalogue (s.files.map BitFile.tag) ∧
      s.written.length ≤ (stream.length - 1) / defaultLsmFileCapacity := by
  obtain ⟨first, rest, rfl⟩ := List.exists_cons_of_ne_nil hne
  obtain ⟨⟨b, c₁⟩, hb⟩ := (Allocated.refl c).exists_openBuilder (κ := κ) (Nat.lt_of_le_of_lt (Nat.zero_le _) hfree) level
  have hlength : (first :: rest).length - 1 = 1 + rest.length - 1 := by
    rw [List.length_cons]
    omega
  obtain ⟨hrest, s, hs, hcounted⟩ := (Counted.start hb first).run level
    (by rw [← hlength]; exact hfree)
  refine ⟨fun c' hc' => ?_, s.settle, ?_, ?_, ?_⟩
  · rw [kwayMergeAllocs, hb] at hc'
    rcases List.mem_cons.mp hc' with rfl | hc'
    · exact ⟨_, hb⟩
    · exact hrest c' hc'
  · rw [kwayMerge, hb, Option.bind_some, hs, Option.map_some]
  · have htags : s.settle.files.map BitFile.tag = s.files.map BitFile.tag := by
      simp [MergeState.settle, MergeState.files, BitFile.tag]
    rw [htags]
    exact hcounted.allocated
  · have hcount := hcounted.count
    have hwritten : s.settle.written = s.written := rfl
    rw [Nat.le_div_iff_mul_le defaultLsmFileCapacity_pos, hwritten, hlength]
    omega

/-! ## Free descriptors -/

/-- The call of `alloc_file` succeeds, with a descriptor that is not in use. -/
def AllocSucceeds (c : Catalogue) : Prop :=
  ∃ fd c', c.allocFile = some (fd, c') ∧ ¬c.InUse fd

theorem allocSucceeds_of_openBuilder {c : Catalogue} {level : ℕ}
    (h : ∃ b : BitFile κ × Catalogue, openBuilder c level = some b) : AllocSucceeds c := by
  obtain ⟨b, hb⟩ := h
  obtain ⟨⟨fd, c'⟩, halloc, -⟩ := Option.map_eq_some_iff.mp hb
  exact ⟨fd, c', halloc, (Catalogue.allocFile_some halloc).1⟩

theorem allocSucceeds_of_free {c : Catalogue} {fd : ℕ} (hlt : fd < c.maxFd) (hfree : ¬c.InUse fd) :
    AllocSucceeds c := by
  obtain ⟨i, c', hb, -⟩ := openBuilder_of_free (κ := Unit) hlt hfree 0
  exact allocSucceeds_of_openBuilder ⟨_, hb⟩

/-- After an `alloc_file` that succeeds the memtable is written out. -/
theorem AllocSucceeds.exists_add0 [Inhabited κ] {c : Catalogue} (h : AllocSucceeds c) (m : Memtable κ)
    (major : Compaction κ) :
    ∃ comp, (openBuilder c 0).map (fun (b : BitFile κ × Catalogue) =>
      { ops := major.ops ++ [.add0 { b.1 with entries := m.getAllEntry }]
        superseded := major.superseded
        catalogue := b.2 : Compaction κ }) = some comp := by
  obtain ⟨fd, c', halloc, -⟩ := h
  rw [openBuilder, halloc]
  exact ⟨_, rfl⟩

theorem Catalogue.maxFd_le_freeFds {c : Catalogue} {ids : List ℕ}
    (h : ∀ i, i < c.maxFd → c.InUse i → i ∈ ids) : c.maxFd ≤ c.freeFds.length + ids.length := by
  have hused : ((List.range c.maxFd).filter c.bitValidityTable.valid).length ≤ ids.length := by
    refine (List.subperm_of_subset (List.nodup_range.filter _) fun i hi => ?_).length_le
    obtain ⟨hlt, hi⟩ := List.mem_filter.mp hi
    exact h i (List.mem_range.mp hlt) hi
  have hsplit := List.length_eq_length_filter_add (l := List.range c.maxFd) c.bitValidityTable.valid
  rw [List.length_range] at hsplit
  rw [Catalogue.freeFds]
  omega

/-! ## Room in the levels -/

/-- Does the change add a file to level 0? -/
def LevelOp.isAdd0 : LevelOp κ → Bool
  | .add0 _ => true
  | _ => false

/-- Does the change add a file to level 1? -/
def LevelOp.isAdd1 : LevelOp κ → Bool
  | .add1 _ => true
  | _ => false

theorem BitLevel.length_addFile_le (l : BitLevel κ) (f : BitFile κ) :
    (l.addFile f).files.length ≤ l.files.length + 1 := by
  rcases Nat.lt_or_ge l.files.length l.maxSize with hlt | hge
  · exact (addFile_perm hlt f).length_eq.le
  · rw [addFile, if_pos hge]
    exact Nat.le_succ _

theorem BitLevel.maxSize_addFile (l : BitLevel κ) (f : BitFile κ) :
    (l.addFile f).maxSize = l.maxSize := by
  simp only [maxSize, addFile_capacity]

/-- With room for all files that are added, no call is rejected. -/
theorem addCalls_room {l : Levels κ} {ops : List (LevelOp κ)}
    (h₀ : l.level0.files.length + ops.countP LevelOp.isAdd0 ≤ l.level0.maxSize)
    (h₁ : l.level1.files.length + ops.countP LevelOp.isAdd1 ≤ l.level1.maxSize) :
    ∀ level ∈ addCalls l ops, level.files.length < level.maxSize := by
  induction ops generalizing l with
  | nil => exact fun level hlevel => absurd hlevel List.not_mem_nil
  | cons op ops ih =>
    intro level hlevel
    rw [List.countP_cons] at h₀ h₁
    cases op with
    | add0 f =>
      have hle := l.level0.length_addFile_le f
      have hmax := l.level0.maxSize_addFile f
      simp only [LevelOp.isAdd0, LevelOp.isAdd1, if_true, Bool.false_eq_true, if_false] at h₀ h₁
      rcases List.mem_cons.mp hlevel with rfl | hlevel
      · omega
      · refine ih ?_ ?_ level hlevel
        · simp only [Levels.apply, hmax]
          omega
        · exact h₁
    | add1 f =>
      have hle := l.level1.length_addFile_le f
      have hmax := l.level1.maxSize_addFile f
      simp only [LevelOp.isAdd0, LevelOp.isAdd1, if_true, Bool.false_eq_true, if_false] at h₀ h₁
      rcases List.mem_cons.mp hlevel with rfl | hlevel
      · omega
      · refine ih ?_ ?_ level hlevel
        · exact h₀
        · simp only [Levels.apply, hmax]
          omega
    | remove0 id =>
      have hle : (l.level0.removeFile id).files.length ≤ l.level0.files.length :=
        List.eraseP_sublist.length_le
      refine @ih (l.apply (.remove0 id)) ?_ h₁ level hlevel
      exact Nat.le_trans (Nat.add_le_add_right hle _) h₀
    | remove1 id =>
      have hle : (l.level1.removeFile id).files.length ≤ l.level1.files.length :=
        List.eraseP_sublist.length_le
      refine @ih (l.apply (.remove1 id)) h₀ ?_ level hlevel
      exact Nat.le_trans (Nat.add_le_add_right hle _) h₁

/-! ## A compaction -/

namespace Compactable

variable {maxDiskLevelCapacity : ℕ} {l : Levels κ} {c : Catalogue} {order : List ℕ}

/-- There are twice as many descriptors as level 1 may have files. -/
theorem maxFd_eq (h : Compactable maxDiskLevelCapacity l c) :
    c.maxFd = l.level1.capacity + l.level1.capacity := by
  rw [h.maxFd, h.capacity1]
  rfl

theorem length_files_le (h : Compactable maxDiskLevelCapacity l c) :
    l.files.length ≤ l.level1.capacity := by
  have hupper := h.upper
  have hlower := h.lower
  rw [Levels.files, List.length_append]
  omega

/-- As many descriptors are free as level 1 may have files. -/
theorem le_freeFds (h : Compactable maxDiskLevelCapacity l c) :
    l.level1.capacity ≤ c.freeFds.length := by
  have hle := @Catalogue.maxFd_le_freeFds c (l.files.map BitFile.id) fun i hlt hi => by
    have hmem : i ∈ {i | i < c.maxFd ∧ c.InUse i} := ⟨hlt, hi⟩
    rw [h.used] at hmem
    exact List.mem_map.mpr hmem
  have hfiles := h.length_files_le
  rw [h.maxFd_eq, List.length_map] at hle
  omega

theorem pickDemotedFiles_eq (h : Compactable maxDiskLevelCapacity l c) :
    l.level0.pickDemotedFiles = l.level0.files := by
  rw [BitLevel.pickDemotedFiles]
  split
  · exact List.take_of_length_le h.upper
  · rfl

theorem mergeInputs_sublist (h : Compactable maxDiskLevelCapacity l c) :
    (mergeInputs l).Sublist l.files := by
  rw [mergeInputs, h.pickDemotedFiles_eq]
  exact (List.Sublist.refl _).append (BitLevel.findRelativeFiles_sublist _ _)

/-- The entries of a merge fill no more files than are merged. -/
theorem length_pops_le (h : Compactable maxDiskLevelCapacity l c) {stream : List (MergeNode κ)}
    (hpops : pops MergeNode.key ((mergeInputs l).map BitFile.nodes) order = some stream) :
    stream.length ≤ (mergeInputs l).length * defaultLsmFileCapacity := by
  rw [length_pops hpops, List.map_map]
  have hle : ∀ n ∈ (mergeInputs l).map (List.length ∘ BitFile.nodes), n ≤ defaultLsmFileCapacity := by
    intro n hn
    obtain ⟨f, hf, rfl⟩ := List.mem_map.mp hn
    rw [Function.comp_apply, BitFile.nodes, List.length_map]
    exact h.size f (h.mergeInputs_sublist.subset hf)
  have hsum := List.sum_le_card_nsmul _ _ hle
  rw [List.length_map] at hsum
  exact hsum

/-- What a compaction that ends leaves: a free descriptor, and the files it added to level 1. -/
structure Ends (l : Levels κ) (comp : Compaction κ) : Prop where
  free : AllocSucceeds comp.catalogue
  add0 : comp.ops.countP LevelOp.isAdd0 = 0
  add1 : comp.ops.countP LevelOp.isAdd1 ≤ l.level1.capacity

/-- **A move.** -/
theorem move (h : Compactable maxDiskLevelCapacity l c) (level : ℕ) {files : List (BitFile κ)}
    (hfiles : files.length ≤ l.level1.capacity) :
    Ends l ⟨(moveFiles level c files).1, [], (moveFiles level c files).2⟩ := by
  have htable : ∀ (fs : List (BitFile κ)) (c : Catalogue),
      (moveFiles level c fs).2.bitValidityTable = c.bitValidityTable := by
    intro fs
    induction fs with
    | nil => exact fun c => rfl
    | cons f fs ih => exact fun c => ih c.getNextVersion.2
  have hcount : ∀ (fs : List (BitFile κ)) (c : Catalogue),
      (moveFiles level c fs).1.countP LevelOp.isAdd0 = 0 ∧
        (moveFiles level c fs).1.countP LevelOp.isAdd1 = fs.length := by
    intro fs
    induction fs with
    | nil => exact fun c => ⟨rfl, rfl⟩
    | cons f fs ih =>
      intro c
      obtain ⟨h₀, h₁⟩ := ih c.getNextVersion.2
      simp [moveFiles, List.countP_cons, LevelOp.isAdd0, LevelOp.isAdd1, h₀, h₁]
  refine ⟨?_, (hcount files c).1, (hcount files c).2.trans_le hfiles⟩
  obtain ⟨fd, hfd⟩ := List.exists_mem_of_length_pos
    (Nat.lt_of_lt_of_le (Nat.lt_of_le_of_lt (Nat.zero_le _) h.lower) h.le_freeFds)
  obtain ⟨hlt, hfree⟩ := Catalogue.mem_freeFds.mp hfd
  refine @allocSucceeds_of_free _ fd ?_ ?_
  · rw [Catalogue.maxFd, htable]
    exact hlt
  · rw [Catalogue.InUse, htable]
    exact hfree

/-- The compaction that a finished merge makes. -/
def mergeCompaction (l : Levels κ) (s : MergeState κ) : Compaction κ where
  ops := s.files.map .add1 ++ l.level0.pickDemotedFiles.map (fun f => .remove0 f.id) ++
    (l.level1.findRelativeFiles l.level0.pickDemotedFiles).map (fun f => .remove1 f.id)
  superseded := s.superseded
  catalogue := (mergeInputs l).foldl (fun c f => c.releaseFile f.id) s.catalogue

/-- **A merge.** -/
theorem merge (h : Compactable maxDiskLevelCapacity l c) (hupper : l.level0.files ≠ [])
    {stream : List (MergeNode κ)} (hne : stream ≠ [])
    (hpops : pops MergeNode.key ((mergeInputs l).map BitFile.nodes) order = some stream) :
    (∀ c' ∈ kwayMergeAllocs c l.level1.level stream, AllocSucceeds c') ∧
      ∃ s, kwayMerge c l.level1.level stream = some s ∧ Ends l (mergeCompaction l s) := by
  have hlength := h.length_pops_le hpops
  have hinputs : (mergeInputs l).length ≤ l.level1.capacity :=
    h.mergeInputs_sublist.length_le.trans h.length_files_le
  have hpos : 0 < stream.length := List.length_pos_of_ne_nil hne
  have hfiles : (stream.length - 1) / defaultLsmFileCapacity < (mergeInputs l).length := by
    rw [Nat.div_lt_iff_lt_mul defaultLsmFileCapacity_pos]
    omega
  obtain ⟨hallocs, s, hs, halloc, hwritten⟩ := kwayMerge_allocs l.level1.level hne
    (hfiles.trans_le (hinputs.trans h.le_freeFds))
  refine ⟨fun c' hc' => allocSucceeds_of_openBuilder (hallocs c' hc'), s, hs, ?_, ?_, ?_⟩
  · -- the descriptor of the file of level 0 is free again
    obtain ⟨f₀, hf₀⟩ := List.exists_mem_of_ne_nil _ hupper
    have hids : ∀ f ∈ mergeInputs l, f.id < s.catalogue.maxFd := by
      intro f hf
      have hmem : f.id ∈ {i | ∃ f ∈ l.files, f.id = i} := ⟨f, h.mergeInputs_sublist.subset hf, rfl⟩
      rw [← h.used] at hmem
      rw [halloc.maxFd]
      exact hmem.1
    have hf₀' : f₀ ∈ mergeInputs l := by
      rw [mergeInputs, h.pickDemotedFiles_eq]
      exact List.mem_append_left _ hf₀
    refine @allocSucceeds_of_free _ f₀.id ?_ fun hi => ?_
    · rw [mergeCompaction, Catalogue.maxFd_releaseFiles]
      exact hids f₀ hf₀'
    · exact (Catalogue.inUse_of_releaseFiles hids hi).2 f₀ hf₀' rfl
  · simp [mergeCompaction, List.countP_append, List.countP_map, LevelOp.isAdd0,
      Function.comp_def]
  · have hcount : (mergeCompaction l s).ops.countP LevelOp.isAdd1 = s.files.length := by
      simp [mergeCompaction, List.countP_append, List.countP_map, LevelOp.isAdd1, Function.comp_def]
    rw [hcount, MergeState.files, List.length_append, List.length_singleton]
    omega

/-- **`compaction_job_run`.** -/
theorem job (h : Compactable maxDiskLevelCapacity l c) (hupper : l.level0.files ≠ [])
    (order : List ℕ) :
    (∀ c' ∈ compactionJobAllocs l c order, AllocSucceeds c') ∧
      (∀ comp, compactionJobRun l c order = some comp → Ends l comp) ∧
      (JobEnds l order → ∃ comp, compactionJobRun l c order = some comp) := by
  rw [compactionJobAllocs, compactionJobRun, JobEnds]
  split
  · refine ⟨fun c' hc' => absurd hc' List.not_mem_nil, fun comp hcomp => ?_, fun _ => ⟨_, rfl⟩⟩
    obtain rfl := Option.some.inj hcomp
    refine h.move _ ?_
    rw [h.pickDemotedFiles_eq]
    exact h.upper.trans (Nat.lt_of_le_of_lt (Nat.zero_le _) h.lower)
  · rename_i hmerge
    split
    · rename_i hempty
      refine ⟨fun c' hc' => absurd hc' List.not_mem_nil, nofun, fun hends => ?_⟩
      obtain ⟨f, hf, hnil⟩ := List.any_eq_true.mp hempty
      exact absurd (List.isEmpty_iff.mp hnil) ((hends.resolve_left hmerge).1 f hf)
    · rename_i hempty
      cases hpops : pops MergeNode.key ((mergeInputs l).map BitFile.nodes) order with
      | none =>
        refine ⟨fun c' hc' => absurd hc' List.not_mem_nil, nofun, fun hends => ?_⟩
        obtain ⟨stream, hstream⟩ := (hends.resolve_left hmerge).2
        cases hstream
      | some stream =>
        have hne : stream ≠ [] := by
          rintro rfl
          obtain ⟨f₀, hf₀⟩ := List.exists_mem_of_ne_nil _ hupper
          have hmem : f₀ ∈ mergeInputs l := by
            rw [mergeInputs, h.pickDemotedFiles_eq]
            exact List.mem_append_left _ hf₀
          obtain ⟨i, hi⟩ := List.getElem?_of_mem (List.mem_map_of_mem (f := BitFile.nodes) hmem)
          cases hnodes : f₀.entries with
          | nil => exact hempty (List.any_eq_true.mpr ⟨f₀, hmem, by rw [hnodes]; rfl⟩)
          | cons e es =>
            refine absurd (mem_pops hpops hi (x := ⟨f₀.version, f₀.id, e.1, e.2⟩) ?_) List.not_mem_nil
            rw [BitFile.nodes, hnodes]
            exact List.mem_cons_self
        obtain ⟨hallocs, s, hs, hends⟩ := h.merge hupper hne hpops
        rw [Option.bind_some, hs, Option.map_some]
        refine ⟨hallocs, fun comp hcomp => ?_, fun _ => ⟨_, rfl⟩⟩
        obtain rfl := Option.some.inj hcomp
        exact hends

end Compactable

/-- **Descriptors never run out.** Whatever the files hold, every call of `alloc_file` made by a
minor compaction and by the major compaction before it returns a descriptor that is not in use,
and no call of `add_file` finds the array full; the compaction ends if its merge does not meet a
file without root. -/
theorem file_ids_suffice [Inhabited κ] {maxDiskLevelCapacity : ℕ} {l : Levels κ} {c : Catalogue}
    (h : Compactable maxDiskLevelCapacity l c) (m : Memtable κ) (order : List ℕ) :
    (∀ c' ∈ minorCompactionAllocs l c order, AllocSucceeds c') ∧
      (∀ comp, minorCompaction l c m order = some comp →
        ∀ level ∈ addCalls l comp.ops, level.files.length < level.maxSize) ∧
      ((l.level0.isFull = true → JobEnds l order) → ∃ comp, minorCompaction l c m order = some comp) := by
  have hlower := h.lower
  have hupper := h.upper
  have hmax₀ : l.level0.maxSize = 3 := by rw [BitLevel.maxSize, h.capacity0]; rfl
  have hmax₁ : l.level1.maxSize = 2 * l.level1.capacity + 1 := rfl
  have hroom : ∀ (major : Compaction κ) (f : BitFile κ), Compactable.Ends l major →
      ∀ level ∈ addCalls l (major.ops ++ [.add0 f]), level.files.length < level.maxSize := by
    intro major f hends
    have hadd₀ := hends.add0
    have hadd₁ := hends.add1
    refine addCalls_room ?_ ?_
    · rw [List.countP_append, hadd₀, hmax₀]
      simp only [List.countP_cons, List.countP_nil, LevelOp.isAdd0, if_true]
      omega
    · rw [List.countP_append, hmax₁]
      simp only [List.countP_cons, List.countP_nil, LevelOp.isAdd1, Bool.false_eq_true, if_false]
      omega
  have hfull₁ : l.level1.isFull = false := by
    rw [BitLevel.isFull, decide_eq_false_iff_not]
    omega
  rw [minorCompactionAllocs, minorCompaction]
  split
  · rename_i hfull₀
    have hne : l.level0.files ≠ [] := by
      rintro hnil
      rw [BitLevel.isFull, h.capacity0, hnil] at hfull₀
      cases hfull₀
    obtain ⟨hallocs, hends, hjob⟩ := h.job hne order
    rw [if_neg (by rw [hfull₁]; exact Bool.false_ne_true), majorCompaction, if_neg (by
      rw [hfull₁]; exact Bool.false_ne_true)]
    refine ⟨fun c' hc' => ?_, fun comp hcomp => ?_, fun hrun => ?_⟩
    · rcases List.mem_append.mp hc' with hc' | hc'
      · exact hallocs c' hc'
      · cases hmajor : compactionJobRun l c order with
        | none =>
          rw [hmajor] at hc'
          cases hc'
        | some major =>
          rw [hmajor] at hc'
          obtain rfl := List.mem_singleton.mp hc'
          exact (hends major hmajor).free
    · obtain ⟨major, hmajor, hcomp⟩ := Option.bind_eq_some_iff.mp hcomp
      obtain ⟨b, -, rfl⟩ := Option.map_eq_some_iff.mp hcomp
      exact hroom major _ (hends major hmajor)
    · obtain ⟨major, hmajor⟩ := hjob (hrun hfull₀)
      rw [hmajor, Option.bind_some]
      exact (hends major hmajor).free.exists_add0 m major
  · have hnone : Compactable.Ends l ⟨[], [], c⟩ := @Compactable.move κ _ l c h 0 [] (Nat.zero_le _)
    rw [Option.bind_some]
    refine ⟨fun c' hc' => ?_, fun comp hcomp => ?_, fun _ => ?_⟩
    · obtain rfl := List.mem_singleton.mp hc'
      exact hnone.free
    · obtain ⟨b, -, rfl⟩ := Option.map_eq_some_iff.mp hcomp
      exact hroom ⟨[], [], c⟩ _ hnone
    · exact hnone.free.exists_add0 m ⟨[], [], c⟩

/-- Two files with the same key, on the smallest device. -/
def overlappingLevels : Levels Unit :=
  ⟨⟨0, 1, [⟨0, 0, 1, [(1, ⟨0, [], ()⟩)]⟩]⟩, ⟨1, 4, [⟨1, 1, 0, [(1, ⟨1, [], ()⟩)]⟩]⟩⟩

/-- Their descriptors are in use. -/
def overlappingCatalogue : Catalogue := ⟨⟨8, fun i => i < 2, 0⟩, 2⟩

theorem compactable_overlapping :
    Compactable (maxDiskLevelCapacity 8192) overlappingLevels overlappingCatalogue := by
  refine ⟨rfl, by decide, by decide, by decide, by decide, ?_, by decide⟩
  ext i
  simp only [overlappingLevels, overlappingCatalogue, Catalogue.maxFd, Catalogue.InUse, Levels.files,
    Set.mem_ofPred_eq, decide_eq_true_eq, List.mem_append, List.mem_singleton, exists_eq_or_imp,
    exists_eq_left]
  omega

/-- A merge and the new file: two files are opened. -/
theorem file_ids_suffice_sample :
    (minorCompactionAllocs overlappingLevels overlappingCatalogue [0, 1]).length = 2 ∧
      (∀ c' ∈ minorCompactionAllocs overlappingLevels overlappingCatalogue [0, 1],
        AllocSucceeds c') ∧
      ∃ comp, minorCompaction overlappingLevels overlappingCatalogue .create [0, 1] = some comp ∧
        ∀ level ∈ addCalls overlappingLevels comp.ops, level.files.length < level.maxSize := by
  obtain ⟨hallocs, hroom, hends⟩ := file_ids_suffice compactable_overlapping .create [0, 1]
  obtain ⟨comp, hcomp⟩ := hends fun _ =>
    Or.inr ⟨by decide +kernel, Option.isSome_iff_exists.mp (by decide +kernel)⟩
  exact ⟨by decide +kernel, hallocs, comp, hcomp, hroom comp hcomp⟩

end JinDisk
