import JinDisk.MergeOutput
import JinDisk.Reopen

/-!
# What a merge releases

When the merge replaces a record of level 1 by one of level 0, the block of the old record is
free: `compaction_job_run` passes it to `rit->reset`, and to `dst->return_block` if the reverse
index still names the key. A key that was deleted in between is none of its business.

The merge remembers one old record for each key, the last one it met. A file that came to
level 1 without a merge may hold two records of a key, or a negative one; then the one it
remembers is the negative record, whose address is `INF_ADDR` (`negative_record_released`). The
releases are right exactly if no such record lies under a positive one (`exact_releases`).
-/

namespace JinDisk

open KwayMerge

variable {κ : Type}

/-- `struct reverse_index_table` -/
structure ReverseIndexTable where
  /-- number of blocks -/
  nrBlock : ℕ
  /-- the lba of each block -/
  lba : ℕ → ℕ

namespace ReverseIndexTable

/-- `reverse_index_table_reset`: the table, and `new_lba`, which keeps its value when there is no
such block. -/
def reset (t : ReverseIndexTable) (pba oldLba newLba : ℕ) : ReverseIndexTable × ℕ :=
  if pba < t.nrBlock then
    if oldLba ≠ infAddr ∧ oldLba ≠ t.lba pba then (t, t.lba pba)
    else ({ t with lba := Function.update t.lba pba infAddr }, t.lba pba)
  else (t, newLba)

/-- The addresses `compaction_job_run` passes to `dst->return_block`, in order: those for which
`rit->reset` reports the key. -/
def returnedBlocks (t : ReverseIndexTable) (newLba : ℕ) : List (ℕ × Record κ) → List ℕ
  | [] => []
  | e :: es =>
    let res := t.reset e.2.pba e.1 newLba
    (if e.1 = res.2 then [e.2.pba] else []) ++ res.1.returnedBlocks res.2 es

theorem returnedBlocks_subset (t : ReverseIndexTable) (newLba : ℕ) (es : List (ℕ × Record κ)) :
    t.returnedBlocks newLba es ⊆ es.map fun e => e.2.pba := by
  induction es generalizing t newLba with
  | nil => exact List.Subset.refl []
  | cons e es ih =>
    intro pba hpba
    rw [returnedBlocks] at hpba
    rcases List.mem_append.mp hpba with hpba | hpba
    · split at hpba
      · rw [List.mem_singleton.mp hpba]
        exact List.mem_cons_self
      · cases hpba
    · exact List.mem_cons_of_mem _ (ih _ _ hpba)

end ReverseIndexTable

/-- The records of a key in the demoted files. -/
def demotedRecords (l : Levels κ) (key : ℕ) : List (Record κ) :=
  l.level0.pickDemotedFiles.flatMap fun f => f.recordsOf key

/-- The records of a key in the relative files. -/
def relativeRecords (l : Levels κ) (key : ℕ) : List (Record κ) :=
  (l.level1.findRelativeFiles l.level0.pickDemotedFiles).flatMap fun f => f.recordsOf key

/-- The demoted file has a positive record of the key and no negative one. -/
def Overwritten (l : Levels κ) (key : ℕ) : Prop :=
  (demotedRecords l key).map Record.isNegative = [false]

instance (l : Levels κ) (key : ℕ) : Decidable (Overwritten l key) :=
  inferInstanceAs (Decidable ((demotedRecords l key).map Record.isNegative = [false]))

/-- What should be released for a key: the positive record that is overwritten. -/
def staleRecords (l : Levels κ) (key : ℕ) : List (ℕ × Record κ) :=
  if Overwritten l key then
    ((relativeRecords l key).filter fun r => !r.isNegative).map fun r => (key, r)
  else []

/-- The calls of `rit->reset` are for the stale records, each of them once, and whatever is in
the reverse index, `dst->return_block` is called for no other block. -/
structure ReleasesStale (l : Levels κ) (comp : Compaction κ) : Prop where
  /-- calls of `rit->reset` -/
  reset : ∀ key, (comp.superseded.filter fun e => e.1 = key) = staleRecords l key
  /-- calls of `dst->return_block` -/
  returned : ∀ (t : ReverseIndexTable) (newLba : ℕ), ∀ pba ∈ t.returnedBlocks newLba comp.superseded,
    ∃ key, ∃ e ∈ staleRecords l key, e.2.pba = pba

/-- A negative record lies under a positive one. -/
def BuriedNegative (l : Levels κ) : Prop :=
  ∃ key, Overwritten l key ∧ ∃ r ∈ relativeRecords l key, r.isNegative = true

/-- The second part follows from the first. -/
theorem releasesStale_of_reset {l : Levels κ} {comp : Compaction κ}
    (h : ∀ key, (comp.superseded.filter fun e => e.1 = key) = staleRecords l key) :
    ReleasesStale l comp := by
  refine ⟨h, fun t newLba pba hpba => ?_⟩
  obtain ⟨e, he, rfl⟩ := List.mem_map.mp (t.returnedBlocks_subset newLba _ hpba)
  refine ⟨e.1, e, ?_, rfl⟩
  rw [← h e.1]
  exact List.mem_filter.mpr ⟨he, by simp⟩

/-- The last record of a slot is all its positive records if there is no negative one. -/
theorem Slot.getLast?_eq_iff {E : List (Record κ)} (h : Slot E) (key : ℕ) :
    (E.getLast?.map fun r => (key, r)).toList =
        (E.filter fun r => !r.isNegative).map (fun r => (key, r)) ↔
      ∀ r ∈ E, r.isNegative = false := by
  cases h with
  | none => simp
  | positive r h => simp [h]
  | negative n h => simp [h]
  | both r n h hn =>
    have hne : n ≠ r := by
      rintro rfl
      rw [h] at hn
      cases hn
    simp [h, hn, hne]

/-- **One key** of a merge. -/
theorem Mergeable.groupSuperseded_eq {f₀ : BitFile κ} {R : List (BitFile κ)} {order : List ℕ}
    {stream : List (MergeNode κ)} (h : Mergeable f₀ R) (hne : R ≠ [])
    (hpops : pops MergeNode.key ((f₀ :: R).map BitFile.nodes) order = some stream) (key : ℕ) :
    groupSuperseded (stream.filter fun n => n.key = key) =
      if (f₀.recordsOf key).map Record.isNegative = [false] then
        (R.flatMap fun f => f.recordsOf key).getLast?.map fun r => (key, r) else none := by
  obtain ⟨v₁, id₁, hv, hid, hinter⟩ := h.interleaved hne hpops key
  exact JinDisk.groupSuperseded_eq hv hid (h.slot f₀ List.mem_cons_self key) (h.slot_relatives key)
    hinter

/-- A store whose level 0 is empty has nothing to release. -/
theorem releasesStale_of_nil {l : Levels κ} {c : Catalogue} (hlevel : l.level0.files = [])
    (hbase : l.level1.files = []) {order : List ℕ} {comp : Compaction κ}
    (hcomp : compactionJobRun l c order = some comp) :
    ReleasesStale l comp ∧ ¬BuriedNegative l := by
  have hdemoted : l.level0.pickDemotedFiles = [] := by
    unfold BitLevel.pickDemotedFiles
    rw [hlevel]
    exact ite_self []
  have hrel : l.level1.findRelativeFiles [] = [] := by
    unfold BitLevel.findRelativeFiles
    rw [hbase]
    rfl
  have hover : ∀ key, ¬Overwritten l key := by
    intro key h
    rw [Overwritten, demotedRecords, hdemoted] at h
    cases h
  unfold compactionJobRun at hcomp
  rw [hdemoted, hrel] at hcomp
  obtain rfl := Option.some.inj hcomp
  refine ⟨releasesStale_of_reset fun key => ?_, fun ⟨key, h, _⟩ => hover key h⟩
  rw [staleRecords, if_neg (hover key)]
  rfl

variable [Inhabited κ] {l : Levels κ} {c : Catalogue} {f₀ : BitFile κ} {R : List (BitFile κ)}

/-- The files of a merge in levels that are in order. -/
theorem Levels.Ok.mergeable (hok : l.Ok c) (hf₀ : l.level0.files = [f₀])
    (hR : R.Sublist l.level1.files) : Mergeable f₀ R := by
  have hmem : ∀ f ∈ f₀ :: R, f ∈ l.files := by
    intro f hf
    rcases List.mem_cons.mp hf with rfl | hf
    · exact Levels.mem_files.mpr (Or.inl (by simp [hf₀]))
    · exact Levels.mem_files.mpr (Or.inr (hR.subset hf))
  refine ⟨fun f hf => (hok.files f (hmem f hf)).sorted, fun f hf => (hok.files f (hmem f hf)).slot,
    hok.tidy.apart.sublist hR, ?_, fun g hg => ?_⟩
  · have hnodup := hok.nodup
    rw [Levels.files, hf₀, List.singleton_append] at hnodup
    exact hnodup.sublist ((hR.cons_cons f₀).map _)
  · exact hok.younger f₀ (by simp [hf₀]) g (hR.subset hg)

theorem Levels.Ok.pickDemotedFiles (hok : l.Ok c) (hf₀ : l.level0.files = [f₀]) :
    l.level0.pickDemotedFiles = [f₀] := by
  rw [BitLevel.pickDemotedFiles, if_neg (by simp [hok.level0.1]), hf₀]

/-- The records of a key in the relative files are those of one file. -/
theorem Levels.Ok.slot_relativeRecords (hok : l.Ok c) (hf₀ : l.level0.files = [f₀]) (key : ℕ) :
    Slot (relativeRecords l key) :=
  (hok.mergeable hf₀ (l.level1.findRelativeFiles_sublist _)).slot_relatives key

/-- **What a compaction passes to `rit->reset`**, key by key. -/
theorem superseded_filter (hok : l.Ok c) (hf₀ : l.level0.files = [f₀]) {order : List ℕ}
    {comp : Compaction κ} (hcomp : compactionJobRun l c order = some comp) (key : ℕ) :
    (comp.superseded.filter fun e => e.1 = key) =
      if Overwritten l key then ((relativeRecords l key).getLast?.map fun r => (key, r)).toList
      else [] := by
  have hdemoted := hok.pickDemotedFiles hf₀
  rcases compactionJobRun_cases hok hf₀ hcomp with ⟨hrel, rfl⟩ |
    ⟨before, R, after, stream, s, hinputs, -, -, hne, -, hpops, hs, rfl⟩
  · -- a move releases nothing, and there is nothing below
    have hnil : relativeRecords l key = [] := by
      rw [relativeRecords, hdemoted, hrel]
      rfl
    rw [hnil]
    exact (ite_self []).symm
  · have hrel : l.level1.findRelativeFiles l.level0.pickDemotedFiles = R := by
      rw [mergeInputs] at hinputs
      rw [hdemoted] at hinputs ⊢
      exact (List.cons.inj hinputs).2
    have hmergeable : Mergeable f₀ R :=
      hok.mergeable hf₀ (hrel ▸ l.level1.findRelativeFiles_sublist _)
    have hover : Overwritten l key ↔ (f₀.recordsOf key).map Record.isNegative = [false] := by
      rw [Overwritten, demotedRecords, hdemoted, List.flatMap_singleton]
    have hsettled := kwayMerge_settled (hmergeable.sorted_stream hpops) hs
    rw [hsettled.superseded, hmergeable.groupSuperseded_eq hne hpops]
    rw [relativeRecords, hrel]
    by_cases halone : Overwritten l key
    · rw [if_pos halone, if_pos (hover.mp halone)]
    · rw [if_neg halone, if_neg (mt hover.mpr halone)]
      rfl

/-- **Releases of a compaction.** -/
theorem releasesStale_iff (hok : l.Ok c) (hf₀ : l.level0.files = [f₀]) {order : List ℕ}
    {comp : Compaction κ} (hcomp : compactionJobRun l c order = some comp) :
    ReleasesStale l comp ↔ ¬BuriedNegative l := by
  have hkey : ∀ key, ((comp.superseded.filter fun e => e.1 = key) = staleRecords l key ↔
      (Overwritten l key → ∀ r ∈ relativeRecords l key, r.isNegative = false)) := by
    intro key
    rw [superseded_filter hok hf₀ hcomp]
    rw [staleRecords]
    by_cases halone : Overwritten l key
    · rw [if_pos halone, if_pos halone, (hok.slot_relativeRecords hf₀ key).getLast?_eq_iff key]
      exact ⟨fun h _ => h, fun h => h halone⟩
    · rw [if_neg halone, if_neg halone]
      exact ⟨fun _ h => absurd h halone, fun _ => rfl⟩
  constructor
  · rintro hstale ⟨key, hover, r, hr, hneg⟩
    rw [(hkey key).mp (hstale.reset key) hover r hr] at hneg
    cases hneg
  · intro hburied
    refine releasesStale_of_reset fun key => (hkey key).mpr fun hover r hr => ?_
    by_contra hneg
    exact hburied ⟨key, hover, r, hr, by simpa using hneg⟩

/-- **Releases.** A compaction in any reachable state releases exactly the records that are
overwritten, if and only if there is no negative record of a key of which the demoted file has
only a positive one. -/
theorem exact_releases (capacity maxFd : ℕ) (run : List (LsmAction κ)) (s : LsmStore κ)
    (hrun : Machine.exec LsmStore.step (LsmStore.init capacity maxFd) run = some s)
    (order : List ℕ) (comp : Compaction κ)
    (hcomp : compactionJobRun s.tree.levels s.tree.catalogue order = some comp) :
    ReleasesStale s.tree.levels comp ↔ ¬BuriedNegative s.tree.levels := by
  have hok := LsmStore.ok_exec hrun
  cases hlevel : s.tree.levels.level0.files with
  | nil =>
    obtain ⟨h₁, h₂⟩ := releasesStale_of_nil hlevel (hok.stored.base hlevel) hcomp
    exact ⟨fun _ => h₂, fun _ => h₁⟩
  | cons f₀ rest =>
    have hone := hok.tree.levels.one
    rw [hlevel, List.length_cons] at hone
    have hrest : rest = [] := List.length_eq_zero_iff.mp (by omega)
    exact releasesStale_iff hok.tree.levels (by rw [hlevel, hrest]) hcomp

/-- The records of the only key of a file. -/
theorem recordsOf_single {f : BitFile κ} {e : MemtableEntry κ} (key : ℕ)
    (hf : f.entries = e.records.map fun r => (key, r)) (k : ℕ) :
    f.recordsOf k = if k = key then e.records else [] := by
  rw [BitFile.recordsOf, hf]
  split
  · rename_i hkey
    rw [hkey]
    cases e <;> simp [MemtableEntry.records]
  · rename_i hkey
    simp [Ne.symm hkey]

/-- A device with one file in each level, both with records of key 0 only. -/
theorem exists_two_files (run : List (LsmAction Unit)) {e : MemtableEntry Unit}
    (hrun : Machine.exec LsmStore.step (LsmStore.init 4 8) run =
      some { (LsmStore.init 4 8 : LsmStore Unit) with
        tree := { (LsmStore.init 4 8 : LsmStore Unit).tree with memtable := .single 0 e } })
    (val : Option (Record Unit)) (hval : ∀ r ∈ val, r.isNegative = false) :
    ∃ s f₀ f₁, Machine.exec LsmStore.step (LsmStore.init 4 8)
        (run ++ [.reopen [], .put 0 val, .reopen []]) = some s ∧
      f₀.entries = ((MemtableEntry.new val).records.map fun r => (0, r)) ∧
      f₁.entries = (e.records.map fun r => (0, r)) ∧
      s.tree.levels.level0.files = [f₀] ∧ s.tree.levels.level1.files = [f₁] ∧
      s.tree.levels.level1.isFull = false ∧
      ∀ order stream, pops MergeNode.key ([f₀, f₁].map BitFile.nodes) order = some stream →
        s.tree.levels.level1.findRelativeFiles [f₀] = [f₁] ∧
        ∃ comp, compactionJobRun s.tree.levels s.tree.catalogue order = some comp := by
  obtain ⟨s, f₀, f₁, hs, hf₀, hf₁, hre, hcap, hfd⟩ := LsmStore.exec_two 4 8 (by decide) (by decide)
    (by decide) hrun val hval
  have hlower := List.perm_singleton.mp hre.lower
  have hne : ∀ e : MemtableEntry Unit, e.records ≠ [] := by
    intro e
    cases e <;> exact List.cons_ne_nil _ _
  obtain ⟨fd, hlt, huse⟩ := hre.ok.tree.levels.exists_free (by
    rw [Levels.files, hre.upper, hlower, hfd]
    exact (by decide : 2 < 8))
  refine ⟨s, f₀, f₁, hs, hf₀, hf₁, hre.upper, hlower, ?_, fun order stream hpops => ?_⟩
  · rw [BitLevel.isFull, hcap, hlower]
    rfl
  · refine exists_compactionJobRun hre.ok.tree.levels hre.upper hlower 0 ?_ ?_ hpops ?_
    · rw [recordsOf_single 0 hf₀]
      exact hne _
    · rw [recordsOf_single 0 hf₁]
      exact hne _
    · -- there are at most four entries
      have hsmall : stream.length ≤ 4 := by
        rw [length_pops hpops]
        have hcount : ∀ e : MemtableEntry Unit, e.records.length ≤ 2 := by
          intro e
          cases e <;> simp [MemtableEntry.records]
        have h₀ := hcount (.new val)
        have h₁ := hcount e
        simp only [List.map_cons, List.map_nil, BitFile.nodes, List.length_map, hf₀, hf₁,
          List.sum_cons, List.sum_nil]
        omega
      rw [Nat.div_eq_of_lt (Nat.lt_of_le_of_lt hsmall (by decide))]
      exact List.length_pos_of_mem (Catalogue.mem_freeFds.mpr ⟨hlt, huse⟩)

/-- Key 0 is written and, with the device closed in between, overwritten. -/
theorem exact_releases_sample :
    ∃ (s : LsmStore Unit) (comp : Compaction Unit),
      Machine.exec LsmStore.step (LsmStore.init 4 8)
        [.put 0 (some ⟨7, [], ()⟩), .reopen [], .put 0 (some ⟨8, [], ()⟩), .reopen []] = some s ∧
      compactionJobRun s.tree.levels s.tree.catalogue [0, 1] = some comp ∧
      ReleasesStale s.tree.levels comp := by
  have hput := LsmStore.step_put_single (s := (LsmStore.init 4 8 : LsmStore Unit))
    (Memtable.create_put 0 (some ⟨7, [], ()⟩)) (by rintro _ ⟨⟩; decide)
  obtain ⟨s, f₀, f₁, hs, hentries₀, hentries₁, hf₀, hf₁, -, hmerge⟩ := exists_two_files
    [.put 0 (some ⟨7, [], ()⟩)] (Machine.exec_cons_of hput rfl) (some ⟨8, [], ()⟩)
    (by rintro _ ⟨⟩; decide)
  have hpops : pops MergeNode.key ([f₀, f₁].map BitFile.nodes) [0, 1] =
      some [⟨f₀.version, f₀.id, 0, ⟨8, [], ()⟩⟩, ⟨f₁.version, f₁.id, 0, ⟨7, [], ()⟩⟩] := by
    unfold BitFile.nodes
    simp only [List.map_cons, List.map_nil, hentries₀, hentries₁]
    rfl
  obtain ⟨hrel, comp, hcomp⟩ := hmerge _ _ hpops
  refine ⟨s, comp, hs, hcomp, (exact_releases 4 8 _ s hs [0, 1] comp hcomp).mpr ?_⟩
  rintro ⟨key, -, r, hr, hneg⟩
  rw [relativeRecords] at hr
  rw [(LsmStore.ok_exec hs).tree.levels.pickDemotedFiles hf₀, hrel, List.flatMap_singleton,
    recordsOf_single 0 hentries₁] at hr
  split at hr
  · rw [List.mem_singleton.mp hr] at hneg
    exact absurd hneg (by decide)
  · cases hr

/-- **`INF_ADDR` is released.** Key 0 is deleted and written in one memtable, whose file comes
to level 1 by a move. It is written once more: the merge passes `INF_ADDR` to `rit->reset`, and
not the block of the old record. -/
theorem negative_record_released :
    ∃ (s : LsmStore Unit) (comp : Compaction Unit),
      Machine.exec LsmStore.step (LsmStore.init 4 8)
        [.put 0 none, .put 0 (some ⟨7, [], ()⟩), .reopen [], .put 0 (some ⟨8, [], ()⟩), .reopen []] =
          some s ∧
      compactionJobRun s.tree.levels s.tree.catalogue [0, 1, 1] = some comp ∧
      (comp.superseded.filter fun e => e.1 = 0) = [(0, .negative)] ∧
      ¬ReleasesStale s.tree.levels comp := by
  have hput₁ := LsmStore.step_put_single (s := (LsmStore.init 4 8 : LsmStore Unit))
    (Memtable.create_put 0 none) (by rintro _ ⟨⟩)
  have hput₂ := LsmStore.step_put_single (s := { (LsmStore.init 4 8 : LsmStore Unit) with
      tree := { (LsmStore.init 4 8 : LsmStore Unit).tree with
        memtable := .single 0 .negative } })
    (Memtable.single_put 0 .negative (some ⟨7, [], ()⟩)) (by rintro _ ⟨⟩; decide)
  obtain ⟨s, f₀, f₁, hs, hentries₀, hentries₁, hf₀, hf₁, -, hmerge⟩ := exists_two_files
    [.put 0 none, .put 0 (some ⟨7, [], ()⟩)] (e := .both ⟨7, [], ()⟩)
    (Machine.exec_cons_of hput₁ (Machine.exec_cons_of hput₂ rfl)) (some ⟨8, [], ()⟩)
    (by rintro _ ⟨⟩; decide)
  have hpops : pops MergeNode.key ([f₀, f₁].map BitFile.nodes) [0, 1, 1] =
      some [⟨f₀.version, f₀.id, 0, ⟨8, [], ()⟩⟩, ⟨f₁.version, f₁.id, 0, ⟨7, [], ()⟩⟩,
        ⟨f₁.version, f₁.id, 0, .negative⟩] := by
    unfold BitFile.nodes
    simp only [List.map_cons, List.map_nil, hentries₀, hentries₁]
    rfl
  obtain ⟨hrel, comp, hcomp⟩ := hmerge _ _ hpops
  have hok := (LsmStore.ok_exec hs).tree.levels
  have hover : Overwritten s.tree.levels 0 := by
    rw [Overwritten, demotedRecords]
    rw [hok.pickDemotedFiles hf₀, List.flatMap_singleton, recordsOf_single 0 hentries₀]
    rfl
  have hbelow : relativeRecords s.tree.levels 0 = [⟨7, [], ()⟩, .negative] := by
    rw [relativeRecords, hok.pickDemotedFiles hf₀, hrel, List.flatMap_singleton,
      recordsOf_single 0 hentries₁]
    rfl
  refine ⟨s, comp, hs, hcomp, ?_, fun hstale => ?_⟩
  · rw [superseded_filter hok hf₀ hcomp, if_pos hover, hbelow]
    rfl
  · refine (releasesStale_iff hok hf₀ hcomp).mp hstale ⟨0, hover, .negative, ?_, by decide⟩
    rw [hbelow]
    exact List.mem_cons_of_mem _ List.mem_cons_self

end JinDisk
