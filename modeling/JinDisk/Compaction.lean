import JinDisk.BitLevel
import JinDisk.BitBuilder
import JinDisk.Metadata
import JinDisk.Lib.KwayMerge
import JinDisk.Lib.Run

/-!
# Compaction

`compaction_job_run`, `lsm_tree_major_compaction` and `lsm_tree_minor_compaction` of
`lsm_tree.c`. A minor compaction writes a memtable to a new file of level 0; when level 0
is full, a major compaction first merges its file with the files of level 1 it overlaps.

A compaction is described by what it does to the levels, in the order of the calls
(`LevelOp`), by the superseded records it passes to `rit->reset`, and by the catalogue it
leaves. Readers see the levels after each of the calls, so this is the granularity at which
a compaction can be interleaved with anything else.

The heap of the k-way merge is the kernel's; which of several entries of one key it hands
out first is not specified, and the merge takes the order of the pops as an argument. A step
that would leave the memory of the program or use a variable that was never assigned (the
recursion of a major compaction into level 2, a file descriptor that could not be allocated,
the iterator of a file without root) is `none`.
-/

namespace JinDisk

open KwayMerge

variable {κ : Type}

/-! ## The levels -/

/-- `levels` of `struct lsm_tree`. -/
structure Levels (κ : Type) where
  /-- written by minor compactions -/
  level0 : BitLevel κ
  /-- written by major compactions -/
  level1 : BitLevel κ

/-- A change of the levels, made under `l_lock`. -/
inductive LevelOp (κ : Type) where
  /-- `bit_level_add_file` to level 0 -/
  | add0 (file : BitFile κ)
  /-- `bit_level_add_file` to level 1 -/
  | add1 (file : BitFile κ)
  /-- `bit_level_remove_file` from level 0 -/
  | remove0 (id : ℕ)
  /-- `bit_level_remove_file` from level 1 -/
  | remove1 (id : ℕ)

/-- The levels after one change. -/
def Levels.apply (l : Levels κ) : LevelOp κ → Levels κ
  | .add0 f => { l with level0 := l.level0.addFile f }
  | .add1 f => { l with level1 := l.level1.addFile f }
  | .remove0 id => { l with level0 := l.level0.removeFile id }
  | .remove1 id => { l with level1 := l.level1.removeFile id }

/-- The file whose statistics are recorded with `set_file_stats`, which is done for every file
that is added. -/
def LevelOp.added? : LevelOp κ → Option (BitFile κ)
  | .add0 f => some f
  | .add1 f => some f
  | .remove0 _ => none
  | .remove1 _ => none

/-- The levels after several changes. -/
def Levels.applyAll (l : Levels κ) (ops : List (LevelOp κ)) : Levels κ := ops.foldl Levels.apply l

/-- What a compaction does. -/
structure Compaction (κ : Type) where
  /-- the changes of the levels, in order -/
  ops : List (LevelOp κ)
  /-- key and record of every call `rit->reset(pba, key)`, in order -/
  superseded : List (ℕ × Record κ)
  /-- the catalogue afterwards -/
  catalogue : Catalogue

/-! ## The merge -/

/-- `struct kway_merge_node`: an entry, with version and descriptor of its file. -/
structure MergeNode (κ : Type) where
  /-- version of the file -/
  version : ℕ
  /-- descriptor of the file -/
  id : ℕ
  /-- key -/
  key : ℕ
  /-- record -/
  val : Record κ
  deriving DecidableEq

/-- `entry` -/
def MergeNode.entry (n : MergeNode κ) : ℕ × Record κ := (n.key, n.val)

/-- What the iterator of a file returns. -/
def BitFile.nodes (f : BitFile κ) : List (MergeNode κ) :=
  f.entries.map fun e => ⟨f.version, f.id, e.1, e.2⟩

/-- The local variables of the merge that belong to the current key. -/
structure Pending (κ : Type) where
  /-- `distinct` -/
  distinct : MergeNode κ
  /-- `new` -/
  new : Option (ℕ × Record κ)
  /-- `old` -/
  old : Option (ℕ × Record κ)

namespace Pending

/-- The first entry of a key. -/
def start (n : MergeNode κ) : Pending κ := ⟨n, none, none⟩

/-- Another entry `first` of the same key. The `val` pointers of two entries are never
equal, so that the last condition of the source always holds. -/
def meet (p : Pending κ) (first : MergeNode κ) : Pending κ :=
  if p.distinct.version < first.version then
    { p with old := some p.distinct.entry, distinct := first }
  else if p.distinct.id ≠ first.id then { p with old := some first.entry }
  else { p with new := some p.distinct.entry, distinct := first }

/-- What goes to the builder when the key is done: a negative `distinct` leaves `new` as it
is. -/
def output (p : Pending κ) : Option (ℕ × Record κ) :=
  if p.distinct.val.isNegative then p.new else some p.distinct.entry

/-- What is passed to `rit->reset` when the key is done. -/
def superseded (p : Pending κ) : Option (ℕ × Record κ) :=
  if p.distinct.val.isNegative then none else p.old

end Pending

/-- The state of the merge loop. -/
structure MergeState (κ : Type) where
  /-- the current key -/
  pending : Pending κ
  /-- the file being built -/
  builder : BitFile κ
  /-- the files completed and added -/
  written : List (BitFile κ)
  /-- the calls of `rit->reset` -/
  superseded : List (ℕ × Record κ)
  /-- the catalogue -/
  catalogue : Catalogue

/-- `alloc_file`, `get_next_version` and `get_builder`. -/
def openBuilder (c : Catalogue) (level : ℕ) : Option (BitFile κ × Catalogue) :=
  c.allocFile.map fun a => (⟨a.1, level, a.2.getNextVersion.1, []⟩, a.2.getNextVersion.2)

theorem openBuilder_level {c c' : Catalogue} {level : ℕ} {b : BitFile κ}
    (h : openBuilder c level = some (b, c')) : b.level = level := by
  obtain ⟨a, -, heq⟩ := Option.map_eq_some_iff.mp h
  rw [← (Prod.mk.inj heq).1]

/-- With a free descriptor a file can be opened. -/
theorem openBuilder_of_free {c : Catalogue} {fd : ℕ} (hlt : fd < c.maxFd) (hfree : ¬c.InUse fd)
    (level : ℕ) : ∃ i c', openBuilder c level = some ((⟨i, level, c.maxVersion, []⟩ : BitFile κ), c') ∧
      c'.maxFd = c.maxFd := by
  have hscan : c.bitValidityTable.scan 0 < c.bitValidityTable.nrSegment :=
    (SegValidator.scan_le (Nat.zero_le fd) (by simpa [Catalogue.InUse] using hfree)).trans_lt hlt
  have hnext : ∃ i t, c.bitValidityTable.next = (some i, t) := by
    rw [SegValidator.next]
    split
    · exact ⟨_, _, rfl⟩
    · exact ⟨_, _, rfl⟩
  obtain ⟨i, t, hnext⟩ := hnext
  obtain ⟨hi, -, hnr, -⟩ := SegValidator.next_some hnext
  have htake : t.take i =
      some { t with valid := Function.update t.valid i true, curSegment := t.curSegment + 1 } := by
    rw [SegValidator.take]
    exact if_pos (by rwa [hnr])
  refine ⟨i, ⟨{ t with valid := Function.update t.valid i true, curSegment := t.curSegment + 1 },
    c.maxVersion + 1⟩, ?_, hnr⟩
  rw [openBuilder, Catalogue.allocFile, hnext]
  simp only [htake, Option.map_some]
  rfl

namespace MergeState

/-- The code for a key that is done; the source has it in the loop and again after it. -/
def settle (s : MergeState κ) : MergeState κ :=
  { s with
    builder := { s.builder with entries := s.builder.entries ++ s.pending.output.toList }
    superseded := s.superseded ++ s.pending.superseded.toList }

/-- The body of the loop, for an entry `first` taken from the heap. -/
def step (level : ℕ) (s : MergeState κ) (first : MergeNode κ) : Option (MergeState κ) :=
  if s.pending.distinct.key = first.key then some { s with pending := s.pending.meet first }
  else if defaultLsmFileCapacity ≤ s.settle.builder.entries.length then
    (openBuilder s.catalogue level).map fun b =>
      { s.settle with
        pending := .start first
        written := s.written ++ [s.settle.builder]
        builder := b.1
        catalogue := b.2 }
  else some { s.settle with pending := .start first }

end MergeState

/-- The merge of the entries in the order of the pops. `distinct` starts as the first entry:
taking that entry from the heap then finds the same `val` pointer and does nothing. -/
def kwayMerge (c : Catalogue) (level : ℕ) : List (MergeNode κ) → Option (MergeState κ)
  | [] => none
  | first :: rest =>
    (openBuilder c level).bind fun b =>
      (Machine.exec (MergeState.step level) ⟨.start first, b.1, [], [], b.2⟩ rest).map
        MergeState.settle

/-- `interval_overlapping` -/
def intervalOverlapping (begin1 end1 begin2 end2 : ℕ) : Bool := !(end1 < begin2 || begin1 > end2)

/-- `lsm_file_overlapping` -/
def lsmFileOverlapping (files : List (BitFile κ)) : Bool :=
  files.any fun f => files.any fun g =>
    f.id != g.id && intervalOverlapping f.firstKey f.lastKey g.firstKey g.lastKey

/-- `bit_level_pick_demoted_files` -/
def BitLevel.pickDemotedFiles (l : BitLevel κ) : List (BitFile κ) :=
  if l.level ≠ 0 then l.files.take 1 else l.files

/-- The loop that moves files which overlap nothing: a new version, and from one level to the
other. -/
def moveFiles (level : ℕ) (c : Catalogue) : List (BitFile κ) → List (LevelOp κ) × Catalogue
  | [] => ([], c)
  | f :: files =>
    let rest := moveFiles level c.getNextVersion.2 files
    (.add1 { f with version := c.getNextVersion.1, level := level } :: .remove0 f.id :: rest.1,
      rest.2)

/-- The files `compaction_job_run` merges, those of level 0 first. -/
def mergeInputs (l : Levels κ) : List (BitFile κ) :=
  l.level0.pickDemotedFiles ++ l.level1.findRelativeFiles l.level0.pickDemotedFiles

/-- `compaction_job_run` from level 0 to level 1 -/
def compactionJobRun (l : Levels κ) (c : Catalogue) (order : List ℕ) : Option (Compaction κ) :=
  if (l.level1.findRelativeFiles l.level0.pickDemotedFiles).isEmpty &&
      !lsmFileOverlapping l.level0.pickDemotedFiles then
    let moves := moveFiles l.level1.level c l.level0.pickDemotedFiles
    some ⟨moves.1, [], moves.2⟩
  else if (mergeInputs l).any fun f => f.entries.isEmpty then none
  else
    (pops MergeNode.key ((mergeInputs l).map BitFile.nodes) order).bind fun stream =>
      (kwayMerge c l.level1.level stream).map fun s =>
        { ops := (s.written ++ [s.builder]).map .add1 ++
            l.level0.pickDemotedFiles.map (fun f => .remove0 f.id) ++
            (l.level1.findRelativeFiles l.level0.pickDemotedFiles).map (fun f => .remove1 f.id)
          superseded := s.superseded
          catalogue := (mergeInputs l).foldl (fun c f => c.releaseFile f.id) s.catalogue }

/-- `lsm_tree_major_compaction` of level 0. When level 1 is full the source goes on to level
2, which does not exist. -/
def majorCompaction (l : Levels κ) (c : Catalogue) (order : List ℕ) : Option (Compaction κ) :=
  if l.level1.isFull then none else compactionJobRun l c order

/-- `lsm_tree_minor_compaction` -/
def minorCompaction [Inhabited κ] (l : Levels κ) (c : Catalogue) (m : Memtable κ)
    (order : List ℕ) : Option (Compaction κ) :=
  (if l.level0.isFull then majorCompaction l c order else some ⟨[], [], c⟩).bind fun major =>
    (openBuilder major.catalogue 0).map fun (b : BitFile κ × Catalogue) =>
      { ops := major.ops ++ [.add0 { b.1 with entries := m.getAllEntry }]
        superseded := major.superseded
        catalogue := b.2 }

/-! ## What the merge makes of one key -/

/-- The records one key can have in a file: as in a memtable, a positive one, a negative one
or both in this order. -/
inductive Slot : List (Record κ) → Prop
  /-- the key is not in the file -/
  | none : Slot []
  /-- written -/
  | positive (r : Record κ) (h : r.isNegative = false) : Slot [r]
  /-- deleted -/
  | negative (n : Record κ) (h : n.isNegative = true) : Slot [n]
  /-- deleted in the files below and written again -/
  | both (r n : Record κ) (h : r.isNegative = false) (hn : n.isNegative = true) : Slot [r, n]

namespace Pending

/-- The merge variables after the entries `g` of one key. -/
def ofGroup : List (MergeNode κ) → Option (Pending κ)
  | [] => none
  | n :: g => some (g.foldl meet (start n))

theorem ofGroup_append {g : List (MergeNode κ)} {p : Pending κ} (h : ofGroup g = some p)
    (n : MergeNode κ) : ofGroup (g ++ [n]) = some (p.meet n) := by
  cases g with
  | nil => cases h
  | cons a g =>
    obtain rfl := Option.some.inj h
    simp [ofGroup, List.foldl_append]

/-- All entries the variables refer to satisfy `P`. -/
structure Within (p : Pending κ) (P : MergeNode κ → Prop) : Prop where
  /-- `distinct` -/
  distinct : P p.distinct
  /-- `new` -/
  new : ∀ e ∈ p.new, ∃ n, P n ∧ n.entry = e
  /-- `old` -/
  old : ∀ e ∈ p.old, ∃ n, P n ∧ n.entry = e

variable {P : MergeNode κ → Prop}

theorem Within.meet {p : Pending κ} {n : MergeNode κ} (h : p.Within P) (hn : P n) :
    (p.meet n).Within P := by
  obtain ⟨hd, hnew, hold⟩ := h
  rw [Pending.meet]
  split
  · exact ⟨hn, hnew, by rintro e ⟨⟩; exact ⟨_, hd, rfl⟩⟩
  · split
    · exact ⟨hd, hnew, by rintro e ⟨⟩; exact ⟨_, hn, rfl⟩⟩
    · exact ⟨hn, by rintro e ⟨⟩; exact ⟨_, hd, rfl⟩, hold⟩

theorem Within.foldl_meet {g : List (MergeNode κ)} {p : Pending κ} (h : p.Within P)
    (hg : ∀ n ∈ g, P n) : (g.foldl Pending.meet p).Within P := by
  induction g generalizing p with
  | nil => exact h
  | cons n g ih =>
    exact ih (h.meet (hg n List.mem_cons_self)) fun m hm => hg m (List.mem_cons_of_mem _ hm)

theorem within_of_ofGroup {g : List (MergeNode κ)} {p : Pending κ} (h : ofGroup g = some p)
    (hg : ∀ n ∈ g, P n) : p.Within P := by
  cases g with
  | nil => cases h
  | cons n g =>
    obtain rfl := Option.some.inj h
    have hstart : (start n).Within P :=
      ⟨hg n List.mem_cons_self, by simp [start], by simp [start]⟩
    exact hstart.foldl_meet fun m hm => hg m (List.mem_cons_of_mem _ hm)

theorem Within.output {p : Pending κ} (h : p.Within P) {e : ℕ × Record κ}
    (he : p.output = some e) : ∃ n, P n ∧ n.entry = e := by
  rw [Pending.output] at he
  split at he
  · exact h.new e he
  · exact ⟨_, h.distinct, Option.some.inj he⟩

theorem Within.superseded {p : Pending κ} (h : p.Within P) {e : ℕ × Record κ}
    (he : p.superseded = some e) : ∃ n, P n ∧ n.entry = e := by
  rw [Pending.superseded] at he
  split at he
  · cases he
  · exact h.old e he

end Pending

/-- What goes to the builder for the entries `g` of one key. -/
def groupOutput (g : List (MergeNode κ)) : Option (ℕ × Record κ) :=
  (Pending.ofGroup g).bind Pending.output

/-- What is passed to `rit->reset` for the entries `g` of one key. -/
def groupSuperseded (g : List (MergeNode κ)) : Option (ℕ × Record κ) :=
  (Pending.ofGroup g).bind Pending.superseded

/-- What goes to the builder is one of the entries. -/
theorem exists_mem_of_groupOutput {g : List (MergeNode κ)} {e : ℕ × Record κ}
    (h : groupOutput g = some e) : ∃ n ∈ g, n.entry = e := by
  obtain ⟨p, hp, he⟩ := Option.bind_eq_some_iff.mp h
  exact (Pending.within_of_ofGroup hp fun n hn => hn).output he

/-- The entries with `records` of a key in a file. -/
def nodesOf (version id key : ℕ) (records : List (Record κ)) : List (MergeNode κ) :=
  records.map fun r => ⟨version, id, key, r⟩

/-- A deleted key comes back: the negative record of the newer file is taken after both a
positive and a negative record of the older one. -/
def Resurrects (g : List (MergeNode κ)) : Prop :=
  ∃ a b c, g = [a, b, c] ∧ a.version < c.version ∧ b.version < c.version ∧
    c.val.isNegative = true

section Group

variable {v₀ id₀ v₁ id₁ key : ℕ} {E₀ E₁ : List (Record κ)}
  {g : List (MergeNode κ)}

/-- A deleted key that comes back is alone and negative in the newer file, and has both records
in the older one; its positive record goes to the builder. -/
theorem groupOutput_of_resurrects (hv : v₁ < v₀) (h₀ : Slot E₀) (h₁ : Slot E₁)
    (hg : Interleaved (nodesOf v₀ id₀ key E₀) (nodesOf v₁ id₁ key E₁) g) (hres : Resurrects g) :
    ∃ n r n', E₀ = [n] ∧ n.isNegative = true ∧ E₁ = [r, n'] ∧ r.isNegative = false ∧
      g = [⟨v₁, id₁, key, r⟩, ⟨v₁, id₁, key, n'⟩, ⟨v₀, id₀, key, n⟩] ∧
      groupOutput g = some (key, r) := by
  have hv' : ¬v₀ < v₁ := by omega
  -- the shapes of the two slots, each with its interleavings
  cases h₀ <;> cases h₁ <;> simp only [nodesOf, List.map_nil, List.map_cons] at hg <;>
    iterate 5 (all_goals try cases ‹Interleaved _ _ _›)
  all_goals simp [Resurrects, *] at hres
  simp [groupOutput, Pending.ofGroup, Pending.start, Pending.meet, Pending.output,
    MergeNode.entry, *]

/-- Otherwise the newest record of the key goes to the builder, if it is positive. -/
theorem groupOutput_of_not_resurrects (hv : v₁ < v₀) (hid : id₀ ≠ id₁) (h₀ : Slot E₀)
    (h₁ : Slot E₁) (hg : Interleaved (nodesOf v₀ id₀ key E₀) (nodesOf v₁ id₁ key E₁) g)
    (hres : ¬Resurrects g) :
    groupOutput g = (Record.positive? (E₀ ++ E₁).head?).map fun r => (key, r) := by
  have hv' : ¬v₀ < v₁ := by omega
  cases h₀ <;> cases h₁ <;> simp only [nodesOf, List.map_nil, List.map_cons] at hg <;>
    iterate 5 (all_goals try cases ‹Interleaved _ _ _›)
  all_goals simp [Resurrects, *] at hres
  all_goals
    simp [groupOutput, Pending.ofGroup, Pending.start, Pending.meet, Pending.output,
      MergeNode.entry, Record.positive?, Option.filter, *]

/-- What is passed to `rit->reset`: if the newer file has a positive record alone, the last
record of the older one. -/
theorem groupSuperseded_eq (hv : v₁ < v₀) (hid : id₀ ≠ id₁) (h₀ : Slot E₀) (h₁ : Slot E₁)
    (hg : Interleaved (nodesOf v₀ id₀ key E₀) (nodesOf v₁ id₁ key E₁) g) :
    groupSuperseded g = (if (E₀.map Record.isNegative) = [false] then
      E₁.getLast?.map fun r => (key, r) else none) := by
  have hv' : ¬v₀ < v₁ := by omega
  cases h₀ <;> cases h₁ <;> simp only [nodesOf, List.map_nil, List.map_cons] at hg <;>
    iterate 5 (all_goals try cases ‹Interleaved _ _ _›)
  all_goals
    simp [groupSuperseded, Pending.ofGroup, Pending.start, Pending.meet, Pending.superseded,
      MergeNode.entry, *]

/-- The newest record of the key, if it is positive, is what goes to the builder. -/
theorem groupOutput_of_positive (hv : v₁ < v₀) (hid : id₀ ≠ id₁) (h₀ : Slot E₀) (h₁ : Slot E₁)
    (hg : Interleaved (nodesOf v₀ id₀ key E₀) (nodesOf v₁ id₁ key E₁) g) {r : Record κ}
    (hr : (E₀ ++ E₁).head? = some r) (hpos : r.isNegative = false) :
    groupOutput g = some (key, r) := by
  rw [groupOutput_of_not_resurrects hv hid h₀ h₁ hg, hr, Record.positive?_eq_some.mpr ⟨rfl, hpos⟩]
  · rfl
  · intro hres
    obtain ⟨n, -, -, rfl, hn, -⟩ := groupOutput_of_resurrects hv h₀ h₁ hg hres
    obtain rfl := Option.some.inj hr
    rw [hn] at hpos
    cases hpos

/-- What goes to the builder is the newest record of the key, unless a deleted key comes
back; it is positive in any case. -/
theorem groupOutput_eq_some (hv : v₁ < v₀) (hid : id₀ ≠ id₁) (h₀ : Slot E₀) (h₁ : Slot E₁)
    (hg : Interleaved (nodesOf v₀ id₀ key E₀) (nodesOf v₁ id₁ key E₁) g)
    {e : ℕ × Record κ} (he : groupOutput g = some e) :
    e.2.isNegative = false ∧ ((E₀ ++ E₁).head? = some e.2 ∨ Resurrects g) := by
  by_cases hres : Resurrects g
  · obtain ⟨-, r, -, -, -, -, hpos, -, hsome⟩ := groupOutput_of_resurrects hv h₀ h₁ hg hres
    obtain rfl := Option.some.inj (hsome.symm.trans he)
    exact ⟨hpos, Or.inr hres⟩
  · rw [groupOutput_of_not_resurrects hv hid h₀ h₁ hg hres] at he
    obtain ⟨r, hr, rfl⟩ := Option.map_eq_some_iff.mp he
    obtain ⟨hhead, hpos⟩ := Record.positive?_eq_some.mp hr
    exact ⟨hpos, Or.inl hhead⟩

/-- A positive record is passed to `rit->reset` only if the older file has nothing else of the
key and the newer file has a positive record alone. -/
theorem groupSuperseded_eq_some (hv : v₁ < v₀) (hid : id₀ ≠ id₁) (h₀ : Slot E₀) (h₁ : Slot E₁)
    (hg : Interleaved (nodesOf v₀ id₀ key E₀) (nodesOf v₁ id₁ key E₁) g)
    {e : ℕ × Record κ} (he : groupSuperseded g = some e) (hpos : e.2.isNegative = false) :
    E₁ = [e.2] ∧ ∃ r, E₀ = [r] ∧ r.isNegative = false := by
  rw [groupSuperseded_eq hv hid h₀ h₁ hg] at he
  split at he
  · rename_i halone
    obtain ⟨r, hr, rfl⟩ := Option.map_eq_some_iff.mp he
    obtain ⟨r₀, rfl, hr₀⟩ := List.map_eq_singleton_iff.mp halone
    refine ⟨?_, r₀, rfl, hr₀⟩
    -- the last record of a slot is positive only if it is the only one
    cases h₁ with
    | none => cases hr
    | positive r' h => simpa using hr
    | negative n hn => simp_all
    | both r' n h hn => simp_all
  · cases he

end Group

/-! ## The merge loop -/

/-- Descriptor and version of a file. -/
def BitFile.tag (f : BitFile κ) : ℕ × ℕ := (f.id, f.version)

/-- The files with these descriptors and versions were allocated on the way from catalogue `c`
to catalogue `c'`. -/
structure Allocated (c c' : Catalogue) (tags : List (ℕ × ℕ)) : Prop where
  /-- no descriptor is given out twice -/
  nodup : (tags.map Prod.fst).Nodup
  /-- nor was one in use before -/
  fresh : ∀ t ∈ tags, ¬c.InUse t.1
  /-- all are in use afterwards -/
  inUse : ∀ t ∈ tags, c'.InUse t.1
  /-- what was in use stays so -/
  keep : ∀ i, c.InUse i → c'.InUse i
  /-- nothing else is in use -/
  only : ∀ i, c'.InUse i → c.InUse i ∨ i ∈ tags.map Prod.fst ∧ i < c.maxFd
  /-- the number of descriptors does not change -/
  maxFd : c'.maxFd = c.maxFd
  /-- the versions are new -/
  version : ∀ t ∈ tags, c.maxVersion ≤ t.2 ∧ t.2 < c'.maxVersion
  /-- versions only grow -/
  maxVersion : c.maxVersion ≤ c'.maxVersion

theorem Allocated.refl (c : Catalogue) : Allocated c c [] :=
  ⟨by simp, by simp, by simp, fun _ h => h, fun _ h => Or.inl h, rfl, by simp, le_rfl⟩

/-- Opening a builder allocates one more file, which is still empty. -/
theorem Allocated.openBuilder {c c' c'' : Catalogue} {tags : List (ℕ × ℕ)} {level : ℕ}
    {b : BitFile κ} (h : Allocated c c' tags) (hb : openBuilder c' level = some (b, c'')) :
    b.entries = [] ∧ Allocated c c'' (tags ++ [b.tag]) := by
  rw [JinDisk.openBuilder] at hb
  obtain ⟨⟨fd, c₁⟩, halloc, heq⟩ := Option.map_eq_some_iff.mp hb
  simp only [Catalogue.getNextVersion, Prod.mk.injEq] at heq
  obtain ⟨rfl, rfl⟩ := heq
  obtain ⟨hfree, huse, hversion, hlt, hmaxFd⟩ := Catalogue.allocFile_some halloc
  have hold : ∀ i, c'.InUse i → c₁.InUse i := fun i hi => (huse i).mpr (Or.inr hi)
  refine ⟨rfl, ?_, ?_, ?_, fun i hi => hold i (h.keep i hi), ?_, hmaxFd.trans h.maxFd, ?_, ?_⟩
  · -- the new descriptor was free, the others are in use
    rw [List.map_append, List.nodup_append]
    refine ⟨h.nodup, by simp, fun i hi j hj hij => ?_⟩
    obtain ⟨t, ht, rfl⟩ := List.mem_map.mp hi
    simp only [List.map_cons, List.map_nil, List.mem_singleton, BitFile.tag] at hj
    exact hfree (hj ▸ hij ▸ h.inUse t ht)
  · intro t ht
    rcases List.mem_append.mp ht with ht | ht
    · exact h.fresh t ht
    · obtain rfl := List.mem_singleton.mp ht
      exact fun hi => hfree (h.keep _ hi)
  · intro t ht
    rcases List.mem_append.mp ht with ht | ht
    · exact hold _ (h.inUse t ht)
    · obtain rfl := List.mem_singleton.mp ht
      exact (huse _).mpr (Or.inl rfl)
  · intro i hi
    rw [List.map_append, List.mem_append]
    rcases (huse i).mp hi with rfl | hi
    · exact Or.inr ⟨Or.inr (by simp [BitFile.tag]), h.maxFd ▸ hlt⟩
    · exact (h.only i hi).imp_right fun ⟨htag, hlt⟩ => ⟨Or.inl htag, hlt⟩
  · intro t ht
    have hmax := h.maxVersion
    rcases List.mem_append.mp ht with ht | ht
    · obtain ⟨h₁, h₂⟩ := h.version t ht
      exact ⟨h₁, by simp only; omega⟩
    · obtain rfl := List.mem_singleton.mp ht
      simp only [BitFile.tag]
      omega
  · have := h.maxVersion
    simp only
    omega

namespace MergeState

/-- The entries given to builders so far. -/
def output (s : MergeState κ) : List (ℕ × Record κ) :=
  s.written.flatMap BitFile.entries ++ s.builder.entries

/-- The files built so far, the open one last. -/
def files (s : MergeState κ) : List (BitFile κ) := s.written ++ [s.builder]

theorem output_eq (s : MergeState κ) : s.output = s.files.flatMap BitFile.entries := by
  simp [output, files]

/-- What holds when the entries `pre` have been taken and all their keys are done. -/
structure Settled (c : Catalogue) (pre : List (MergeNode κ)) (s : MergeState κ) : Prop where
  /-- each key was treated by itself -/
  output : ∀ k, (s.output.filter fun e => e.1 = k) =
    (groupOutput (pre.filter fun n => n.key = k)).toList
  /-- also for the superseded records -/
  superseded : ∀ k, (s.superseded.filter fun e => e.1 = k) =
    (groupSuperseded (pre.filter fun n => n.key = k)).toList
  /-- the output is in order -/
  sorted : s.output.Pairwise fun a b => a.1 < b.1
  /-- at most one entry goes out for each that comes in -/
  count : s.output.length ≤ pre.length
  /-- completed files are full -/
  full : ∀ f ∈ s.written, f.entries.length = defaultLsmFileCapacity
  /-- the open one has at most as much -/
  room : s.builder.entries.length ≤ defaultLsmFileCapacity
  /-- the files are new -/
  allocated : Allocated c s.catalogue (s.files.map BitFile.tag)

/-- What holds when the entries `pre` have been taken and the last key is still open. -/
structure Merging (c : Catalogue) (pre : List (MergeNode κ)) (s : MergeState κ) : Prop where
  /-- nothing beyond the current key was taken -/
  keys : ∀ n ∈ pre, n.key ≤ s.pending.distinct.key
  /-- the variables describe the entries of the current key -/
  pending : Pending.ofGroup (pre.filter fun n => n.key = s.pending.distinct.key) = some s.pending
  /-- the keys before it are done -/
  settled : Settled c (pre.filter fun n => n.key < s.pending.distinct.key) s
  /-- the open file is not full -/
  room : s.builder.entries.length < defaultLsmFileCapacity

end MergeState

theorem defaultLsmFileCapacity_pos : 0 < defaultLsmFileCapacity := by
  rw [defaultLsmFileCapacity]
  omega

namespace MergeState

variable {c : Catalogue} {pre : List (MergeNode κ)} {s : MergeState κ}

/-- The current key was taken from the heap. -/
theorem Merging.exists_mem (h : Merging c pre s) : ∃ n ∈ pre, n.key = s.pending.distinct.key := by
  have hg := h.pending
  cases hf : pre.filter fun n => n.key = s.pending.distinct.key with
  | nil =>
    rw [hf] at hg
    cases hg
  | cons n g =>
    have hn : n ∈ pre.filter fun n => n.key = s.pending.distinct.key := by
      rw [hf]
      exact List.mem_cons_self
    obtain ⟨hmem, hkey⟩ := List.mem_filter.mp hn
    exact ⟨n, hmem, by simpa using hkey⟩

theorem Merging.within (h : Merging c pre s) :
    s.pending.Within fun n => n.key = s.pending.distinct.key :=
  Pending.within_of_ofGroup h.pending fun n hn => by simpa using (List.mem_filter.mp hn).2

theorem Merging.output_key (h : Merging c pre s) {e : ℕ × Record κ}
    (he : s.pending.output = some e) : e.1 = s.pending.distinct.key := by
  obtain ⟨n, hn, rfl⟩ := h.within.output he
  exact hn

theorem Merging.superseded_key (h : Merging c pre s) {e : ℕ × Record κ}
    (he : s.pending.superseded = some e) : e.1 = s.pending.distinct.key := by
  obtain ⟨n, hn, rfl⟩ := h.within.superseded he
  exact hn

/-- Entries of a finished key are those below the current one. -/
theorem filter_lt_filter_eq (pre : List (MergeNode κ)) {k cur : ℕ} (hk : k < cur) :
    ((pre.filter fun n => n.key < cur).filter fun n => n.key = k) =
      pre.filter fun n => n.key = k := by
  rw [List.filter_filter]
  refine List.filter_congr fun n _ => ?_
  by_cases hn : n.key = k <;> simp [hn, hk]

theorem filter_lt_filter_eq_nil (pre : List (MergeNode κ)) {k cur : ℕ} (hk : cur ≤ k) :
    ((pre.filter fun n => n.key < cur).filter fun n => n.key = k) = [] := by
  rw [List.filter_filter, List.filter_eq_nil_iff]
  intro n _
  simp only [Bool.and_eq_true, decide_eq_true_eq, not_and, not_lt]
  omega

/-- What was put out so far lies below the current key. -/
theorem Merging.output_lt (h : Merging c pre s) {e : ℕ × Record κ} (he : e ∈ s.output) :
    e.1 < s.pending.distinct.key := by
  by_contra hge
  have hmem : e ∈ s.output.filter fun x => x.1 = e.1 :=
    List.mem_filter.mpr ⟨he, by simp⟩
  rw [h.settled.output, filter_lt_filter_eq_nil pre (not_lt.mp hge)] at hmem
  cases hmem

@[simp] theorem settle_output (s : MergeState κ) :
    s.settle.output = s.output ++ s.pending.output.toList := by
  simp [settle, output]

/-- The current key is done: what `F` makes of its entries is appended. -/
theorem Merging.filter_append_toList (h : Merging c pre s)
    {F : List (MergeNode κ) → Option (ℕ × Record κ)} (hnil : F [] = none)
    {out : List (ℕ × Record κ)} {new : Option (ℕ × Record κ)}
    (hout : ∀ k, (out.filter fun e => e.1 = k) =
      (F ((pre.filter fun n => n.key < s.pending.distinct.key).filter fun n => n.key = k)).toList)
    (hnew : F (pre.filter fun n => n.key = s.pending.distinct.key) = new)
    (hkey : ∀ e, new = some e → e.1 = s.pending.distinct.key) (k : ℕ) :
    ((out ++ new.toList).filter fun e => e.1 = k) = (F (pre.filter fun n => n.key = k)).toList := by
  rw [List.filter_append, hout]
  rcases Nat.lt_trichotomy k s.pending.distinct.key with hlt | rfl | hgt
  · have hother : (new.toList.filter fun e => e.1 = k) = [] := by
      refine List.filter_eq_nil_iff.mpr fun e he => ?_
      have := hkey e (Option.mem_toList.mp he)
      simp only [decide_eq_true_eq]
      omega
    rw [filter_lt_filter_eq pre hlt, hother, List.append_nil]
  · rw [filter_lt_filter_eq_nil pre le_rfl, List.filter_eq_self.mpr, hnil, hnew]
    · rfl
    · intro e he
      simpa using hkey e (Option.mem_toList.mp he)
  · rw [filter_lt_filter_eq_nil pre hgt.le, List.filter_eq_nil_iff.mpr,
      List.filter_eq_nil_iff.mpr, List.append_nil]
    · intro n hn
      have := h.keys n hn
      simp only [decide_eq_true_eq]
      omega
    · intro e he
      have := hkey e (Option.mem_toList.mp he)
      simp only [decide_eq_true_eq]
      omega

/-- Finishing the current key. -/
theorem Merging.settle (h : Merging c pre s) : Settled c pre s.settle where
  output k := by
    rw [settle_output]
    refine h.filter_append_toList rfl h.settled.output ?_ (fun e he => h.output_key he) k
    simp only [groupOutput, h.pending]
    rfl
  superseded k := by
    refine h.filter_append_toList rfl h.settled.superseded ?_ (fun e he => h.superseded_key he) k
    simp only [groupSuperseded, h.pending]
    rfl
  sorted := by
    rw [settle_output]
    refine List.pairwise_append.mpr ⟨h.settled.sorted, ?_, fun a ha b hb => ?_⟩
    · cases s.pending.output <;> simp
    · rw [h.output_key (Option.mem_toList.mp hb)]
      exact h.output_lt ha
  count := by
    obtain ⟨n, hn, hkey⟩ := h.exists_mem
    have hlt : (pre.filter fun n => n.key < s.pending.distinct.key).length < pre.length :=
      List.length_filter_lt_length_iff_exists.mpr ⟨n, hn, by simp [hkey]⟩
    have hone : s.pending.output.toList.length ≤ 1 := by cases s.pending.output <;> simp
    have := h.settled.count
    rw [settle_output, List.length_append]
    omega
  full := h.settled.full
  room := by
    have hone : s.pending.output.toList.length ≤ 1 := by cases s.pending.output <;> simp
    have := h.room
    simp only [MergeState.settle, List.length_append]
    omega
  allocated := by
    have := h.settled.allocated
    simpa [files, MergeState.settle, BitFile.tag] using this

/-- Another entry of the current key. -/
theorem Merging.meet (h : Merging c pre s) {first : MergeNode κ}
    (hkey : s.pending.distinct.key = first.key) :
    Merging c (pre ++ [first]) { s with pending := s.pending.meet first } := by
  have hd : (s.pending.meet first).distinct.key = s.pending.distinct.key :=
    (h.within.meet hkey.symm).distinct
  refine ⟨fun n hn => ?_, ?_, ?_, h.room⟩
  · simp only [hd]
    rcases List.mem_append.mp hn with hn | hn
    · exact h.keys n hn
    · rw [List.mem_singleton.mp hn, hkey]
  · simp only [hd]
    rw [List.filter_append, List.filter_cons_of_pos (by simpa using hkey.symm), List.filter_nil]
    exact Pending.ofGroup_append h.pending first
  · simp only [hd]
    rw [List.filter_append, List.filter_cons_of_neg (by simp [hkey]), List.filter_nil,
      List.append_nil]
    obtain ⟨h₁, h₂, h₃, h₄, h₅, h₆, h₇⟩ := h.settled
    exact ⟨h₁, h₂, h₃, h₄, h₅, h₆, h₇⟩

/-- The first entry of a new key, all keys taken so far being done. -/
theorem Settled.start (h : Settled c pre s) {first : MergeNode κ}
    (hlt : ∀ n ∈ pre, n.key < first.key)
    (hroom : s.builder.entries.length < defaultLsmFileCapacity) :
    Merging c (pre ++ [first]) { s with pending := .start first } := by
  refine ⟨fun n hn => ?_, ?_, ?_, hroom⟩
  · rcases List.mem_append.mp hn with hn | hn
    · exact (hlt n hn).le
    · rw [List.mem_singleton.mp hn]
      exact le_rfl
  · change Pending.ofGroup ((pre ++ [first]).filter fun n => n.key = first.key) = _
    have hnil : (pre.filter fun n => n.key = first.key) = [] := by
      refine List.filter_eq_nil_iff.mpr fun n hn => ?_
      have := hlt n hn
      simp only [decide_eq_true_eq]
      omega
    rw [List.filter_append, hnil, List.filter_cons_of_pos (by simp)]
    rfl
  · change Settled c ((pre ++ [first]).filter fun n => n.key < first.key) _
    rw [List.filter_append, List.filter_cons_of_neg (by simp), List.filter_nil, List.append_nil,
      List.filter_eq_self.mpr fun n hn => by simpa using hlt n hn]
    obtain ⟨h₁, h₂, h₃, h₄, h₅, h₆, h₇⟩ := h
    exact ⟨h₁, h₂, h₃, h₄, h₅, h₆, h₇⟩

/-- A full file is completed and another one opened. -/
theorem Settled.roll (h : Settled c pre s) {level : ℕ} {b : BitFile κ} {c' : Catalogue}
    (hfull : defaultLsmFileCapacity ≤ s.builder.entries.length)
    (hb : openBuilder s.catalogue level = some (b, c')) :
    Settled c pre { s with written := s.written ++ [s.builder], builder := b, catalogue := c' } := by
  obtain ⟨hempty, halloc⟩ := h.allocated.openBuilder hb
  have hout : MergeState.output
      { s with written := s.written ++ [s.builder], builder := b, catalogue := c' } = s.output := by
    simp [MergeState.output, hempty]
  refine ⟨by simpa only [hout] using h.output, h.superseded, by simpa only [hout] using h.sorted,
    by simpa only [hout] using h.count, fun f hf => ?_, ?_, ?_⟩
  · rcases List.mem_append.mp hf with hf | hf
    · exact h.full f hf
    · rw [List.mem_singleton.mp hf]
      exact le_antisymm h.room hfull
  · simp [hempty]
  · simpa [files] using halloc

/-- **One step of the loop.** -/
theorem Merging.step (h : Merging c pre s) {level : ℕ} {first : MergeNode κ} {s' : MergeState κ}
    (hle : ∀ n ∈ pre, n.key ≤ first.key) (hs : s.step level first = some s') :
    Merging c (pre ++ [first]) s' := by
  rw [MergeState.step] at hs
  split at hs
  · rename_i hkey
    obtain rfl := Option.some.inj hs
    exact h.meet hkey
  · rename_i hkey
    have hlt : ∀ n ∈ pre, n.key < first.key := by
      intro n hn
      obtain ⟨m, hm, hmk⟩ := h.exists_mem
      have h₁ := h.keys n hn
      have h₂ := hle m hm
      omega
    split at hs
    · rename_i hfull
      obtain ⟨⟨b, c'⟩, hb, rfl⟩ := Option.map_eq_some_iff.mp hs
      refine (h.settle.roll hfull hb).start hlt ?_
      rw [(h.settle.allocated.openBuilder hb).1]
      exact defaultLsmFileCapacity_pos
    · rename_i hroom
      obtain rfl := Option.some.inj hs
      exact h.settle.start hlt (not_le.mp hroom)

/-- Files are built for the lower level. -/
theorem step_level {level : ℕ} {first : MergeNode κ} {s' : MergeState κ}
    (h : ∀ f ∈ s.files, f.level = level) (hs : s.step level first = some s') :
    ∀ f ∈ s'.files, f.level = level := by
  have hsettle : ∀ f ∈ s.settle.files, f.level = level := by
    intro f hf
    rcases List.mem_append.mp hf with hf | hf
    · exact h f (List.mem_append_left _ hf)
    · rw [List.mem_singleton.mp hf]
      exact h s.builder (List.mem_append_right _ List.mem_cons_self)
  rw [MergeState.step] at hs
  split at hs
  · obtain rfl := Option.some.inj hs
    exact h
  · split at hs
    · obtain ⟨⟨b, c'⟩, hb, rfl⟩ := Option.map_eq_some_iff.mp hs
      intro f hf
      rcases List.mem_append.mp hf with hf | hf
      · exact hsettle f hf
      · rw [List.mem_singleton.mp hf]
        exact openBuilder_level hb
    · obtain rfl := Option.some.inj hs
      exact hsettle

/-- The whole loop. -/
theorem Merging.exec (h : Merging c pre s) {level : ℕ} {rest : List (MergeNode κ)}
    {s' : MergeState κ} (hsorted : (pre ++ rest).Pairwise fun a b => a.key ≤ b.key)
    (hs : Machine.exec (MergeState.step level) s rest = some s') : Merging c (pre ++ rest) s' := by
  induction rest generalizing pre s with
  | nil =>
    obtain rfl := Option.some.inj hs
    rwa [List.append_nil]
  | cons first rest ih =>
    obtain ⟨s₁, hs₁, hrest⟩ := Machine.exec_cons_eq_some hs
    have hle : ∀ n ∈ pre, n.key ≤ first.key := fun n hn =>
      (List.pairwise_append.mp hsorted).2.2 n hn first List.mem_cons_self
    rw [List.append_cons] at hsorted ⊢
    exact ih (h.step hle hs₁) hsorted hrest

/-- Before the first entry. -/
theorem settled_nil {level : ℕ} {b : BitFile κ} {c' : Catalogue}
    (hb : openBuilder c level = some (b, c')) (p : Pending κ) :
    Settled c [] ⟨p, b, [], [], c'⟩ := by
  obtain ⟨hempty, halloc⟩ := (Allocated.refl c).openBuilder hb
  have hout : MergeState.output ⟨p, b, [], [], c'⟩ = [] := by simp [MergeState.output, hempty]
  refine ⟨fun k => ?_, fun k => rfl, ?_, ?_, by simp, by simp [hempty], halloc⟩
  · rw [hout]
    rfl
  · rw [hout]
    exact List.Pairwise.nil
  · rw [hout]
    exact le_rfl

/-- Before the second entry. -/
theorem merging_start {level : ℕ} {b : BitFile κ} {c' : Catalogue}
    (hb : openBuilder c level = some (b, c')) (first : MergeNode κ) :
    Merging c [first] ⟨.start first, b, [], [], c'⟩ := by
  have hempty : b.entries = [] := ((Allocated.refl c).openBuilder hb).1
  exact (settled_nil hb (.start first)).start (by simp)
    (by simpa [hempty] using defaultLsmFileCapacity_pos)

theorem Settled.superseded_of_mem (h : Settled c pre s) {e : ℕ × Record κ} (he : e ∈ s.superseded) :
    groupSuperseded (pre.filter fun n => n.key = e.1) = some e := by
  have hmem : e ∈ s.superseded.filter fun x => x.1 = e.1 := List.mem_filter.mpr ⟨he, by simp⟩
  rw [h.superseded] at hmem
  exact Option.mem_toList.mp hmem

end MergeState

/-- **The merge.** In a merge of sorted entries each key is treated by itself. -/
theorem kwayMerge_settled {c : Catalogue} {level : ℕ} {stream : List (MergeNode κ)}
    {s : MergeState κ} (hsorted : stream.Pairwise fun a b => a.key ≤ b.key)
    (h : kwayMerge c level stream = some s) : s.Settled c stream := by
  cases stream with
  | nil => cases h
  | cons first rest =>
    obtain ⟨⟨b, c'⟩, hb, hrest⟩ := Option.bind_eq_some_iff.mp h
    obtain ⟨s₁, hs₁, rfl⟩ := Option.map_eq_some_iff.mp hrest
    exact ((MergeState.merging_start hb first).exec hsorted hs₁).settle

/-- All files of a merge are built for the lower level. -/
theorem kwayMerge_level {c : Catalogue} {level : ℕ} {stream : List (MergeNode κ)}
    {s : MergeState κ} (h : kwayMerge c level stream = some s) : ∀ f ∈ s.files, f.level = level := by
  cases stream with
  | nil => cases h
  | cons first rest =>
    obtain ⟨⟨b, c'⟩, hb, hrest⟩ := Option.bind_eq_some_iff.mp h
    obtain ⟨s₁, hs₁, rfl⟩ := Option.map_eq_some_iff.mp hrest
    have hstart : ∀ f ∈ MergeState.files ⟨.start first, b, [], [], c'⟩, f.level = level := by
      intro f hf
      rw [List.mem_singleton.mp hf]
      exact openBuilder_level hb
    have hend : ∀ f ∈ s₁.files, f.level = level :=
      Machine.invariant_of_all (fun _ _ _ h hs => MergeState.step_level h hs) hstart hs₁
    intro f hf
    rcases List.mem_append.mp hf with hf | hf
    · exact hend f (List.mem_append_left _ hf)
    · rw [List.mem_singleton.mp hf]
      exact hend s₁.builder (List.mem_append_right _ List.mem_cons_self)

end JinDisk
