import JinDisk.Compaction
import Mathlib.Algebra.Order.BigOperators.Group.List
import Mathlib.Algebra.Order.Ring.Nat
import Mathlib.Data.List.Nodup

/-!
# What a compaction preserves

The newest record of a key in the levels is the first one found in level 0 and then in level
1. This file shows what a compaction does to it: a positive newest record stays the newest
one, is found in some file after every single change of the levels, and nothing else becomes
newest unless the merge brings a deleted key back.

`Levels.Ok` collects what the searches and the merge rely on: level 0 has at most one file,
the ranges in level 1 do not overlap, files have descriptors of their own that the catalogue
counts as used, and the file of level 0 is younger than everything below it.
-/

namespace JinDisk

open KwayMerge

variable {κ : Type}

/-! ## Adding and removing several files -/

namespace BitLevel

theorem addFile_level (l : BitLevel κ) (f : BitFile κ) : (l.addFile f).level = l.level := by
  rw [addFile]
  split <;> rfl

theorem addFile_capacity (l : BitLevel κ) (f : BitFile κ) :
    (l.addFile f).capacity = l.capacity := by
  rw [addFile]
  split <;> rfl

/-- `bit_level_add_file` for each of several files. -/
def addFiles (l : BitLevel κ) (fs : List (BitFile κ)) : BitLevel κ := fs.foldl addFile l

/-- `bit_level_remove_file` for each of several files. -/
def removeFiles (l : BitLevel κ) (fs : List (BitFile κ)) : BitLevel κ :=
  fs.foldl (fun l f => l.removeFile f.id) l

/-- With enough room all files are added. -/
theorem addFiles_spec {l : BitLevel κ} (hsorted : l.Sorted) {fs : List (BitFile κ)}
    (hroom : l.files.length + fs.length ≤ l.maxSize) :
    (l.addFiles fs).files.Perm (fs ++ l.files) ∧ (l.addFiles fs).Sorted ∧
      (l.addFiles fs).level = l.level ∧ (l.addFiles fs).capacity = l.capacity := by
  induction fs generalizing l with
  | nil => exact ⟨List.Perm.refl _, hsorted, rfl, rfl⟩
  | cons f fs ih =>
    rw [List.length_cons] at hroom
    have hperm := addFile_perm (l := l) (by omega) f
    have hmax : (l.addFile f).maxSize = l.maxSize := by simp only [maxSize, addFile_capacity]
    obtain ⟨hp, hs, hlevel, hcap⟩ := ih (hsorted.addFile f) (by
      rw [hperm.length_eq, List.length_cons, hmax]
      omega)
    refine ⟨hp.trans ?_, hs, hlevel.trans (addFile_level l f), hcap.trans (addFile_capacity l f)⟩
    exact (hperm.append_left fs).trans List.perm_middle

theorem removeFile_files {l : BitLevel κ} (hids : (l.files.map BitFile.id).Nodup) (id : ℕ) :
    (l.removeFile id).files = l.files.filter fun f => f.id ≠ id := by
  obtain ⟨level, capacity, files⟩ := l
  simp only [removeFile] at hids ⊢
  induction files with
  | nil => rfl
  | cons f fs ih =>
    rw [List.map_cons, List.nodup_cons] at hids
    by_cases hf : f.id = id
    · -- no other file has the descriptor
      have hrest : (fs.filter fun g => g.id ≠ id) = fs := by
        refine List.filter_eq_self.mpr fun g hg => ?_
        simp only [decide_eq_true_eq]
        exact fun hg' => hids.1 (hf.trans hg'.symm ▸ List.mem_map_of_mem hg)
      rw [List.eraseP_cons_of_pos (by simpa using hf), List.filter_cons_of_neg (by simpa using hf),
        hrest]
    · rw [List.eraseP_cons_of_neg (by simpa using hf), List.filter_cons_of_pos (by simpa using hf),
        ih hids.2]

/-- Removing files takes out exactly those with the same descriptors. -/
theorem removeFiles_files {l : BitLevel κ} (hids : (l.files.map BitFile.id).Nodup)
    (fs : List (BitFile κ)) :
    (l.removeFiles fs).files = l.files.filter fun f => f.id ∉ fs.map BitFile.id := by
  induction fs generalizing l with
  | nil => simp [removeFiles]
  | cons g fs ih =>
    have hone := removeFile_files hids g.id
    have hids' : ((l.removeFile g.id).files.map BitFile.id).Nodup :=
      hids.sublist (List.eraseP_sublist.map _)
    have hstep := ih hids'
    rw [removeFiles, List.foldl_cons]
    rw [removeFiles] at hstep
    rw [hstep, hone, List.filter_filter]
    refine List.filter_congr fun f _ => ?_
    by_cases hf : f.id = g.id <;> simp [hf]

theorem removeFiles_sublist (l : BitLevel κ) (fs : List (BitFile κ)) :
    (l.removeFiles fs).files.Sublist l.files := by
  induction fs generalizing l with
  | nil => exact List.Sublist.refl _
  | cons g fs ih => exact (ih (l.removeFile g.id)).trans List.eraseP_sublist

theorem removeFiles_level (l : BitLevel κ) (fs : List (BitFile κ)) :
    (l.removeFiles fs).level = l.level ∧ (l.removeFiles fs).capacity = l.capacity := by
  induction fs generalizing l with
  | nil => exact ⟨rfl, rfl⟩
  | cons g fs ih => exact ih (l.removeFile g.id)

end BitLevel

namespace Levels

@[simp] theorem applyAll_nil (l : Levels κ) : l.applyAll [] = l := rfl

theorem applyAll_append (l : Levels κ) (a b : List (LevelOp κ)) :
    l.applyAll (a ++ b) = (l.applyAll a).applyAll b := List.foldl_append

theorem applyAll_add1 (l : Levels κ) (fs : List (BitFile κ)) :
    l.applyAll (fs.map .add1) = { l with level1 := l.level1.addFiles fs } := by
  induction fs generalizing l with
  | nil => rfl
  | cons f fs ih => exact ih _

theorem applyAll_remove0 (l : Levels κ) (fs : List (BitFile κ)) :
    l.applyAll (fs.map fun f => .remove0 f.id) =
      { l with level0 := l.level0.removeFiles fs } := by
  induction fs generalizing l with
  | nil => rfl
  | cons f fs ih => exact ih _

theorem applyAll_remove1 (l : Levels κ) (fs : List (BitFile κ)) :
    l.applyAll (fs.map fun f => .remove1 f.id) =
      { l with level1 := l.level1.removeFiles fs } := by
  induction fs generalizing l with
  | nil => rfl
  | cons f fs ih => exact ih _

/-! ## The invariant of the levels -/

/-- All files. -/
def files (l : Levels κ) : List (BitFile κ) := l.level0.files ++ l.level1.files

/-- The newest record of a key. -/
def newest (l : Levels κ) (key : ℕ) : Option (Record κ) :=
  (l.level0.recordsOf key ++ l.level1.recordsOf key).head?

end Levels

/-- What holds of every file. -/
structure BitFile.Ok [Inhabited κ] (f : BitFile κ) : Prop where
  /-- its keys do not decrease -/
  sorted : f.Sorted
  /-- a key has what a memtable entry can have -/
  slot : ∀ key, Slot (f.recordsOf key)
  /-- it fits its place in the index region -/
  size : f.entries.length ≤ defaultLsmFileCapacity

/-- What holds of the levels between compactions. -/
structure Levels.Ok [Inhabited κ] (l : Levels κ) (c : Catalogue) : Prop where
  /-- the numbers of the levels -/
  level0 : l.level0.level = 0 ∧ l.level0.capacity = 1
  level1 : l.level1.level ≠ 0
  /-- level 0 never has a second file -/
  one : l.level0.files.length ≤ 1
  /-- the ranges of level 1 do not overlap -/
  tidy : l.level1.Tidy
  /-- the files -/
  files : ∀ f ∈ l.files, f.Ok
  /-- are recorded with their level -/
  tag0 : ∀ f ∈ l.level0.files, f.level = l.level0.level
  tag1 : ∀ f ∈ l.level1.files, f.level = l.level1.level
  /-- descriptors are unique -/
  nodup : (l.files.map BitFile.id).Nodup
  /-- and in use -/
  inUse : ∀ f ∈ l.files, c.InUse f.id
  /-- no other descriptor is -/
  owned : ∀ i, c.InUse i → i < c.maxFd ∧ ∃ f ∈ l.files, f.id = i
  /-- the versions of level 1 were handed out -/
  version : ∀ f ∈ l.level1.files, f.version < c.maxVersion
  /-- level 0 is younger than level 1 -/
  younger : ∀ f ∈ l.level0.files, ∀ g ∈ l.level1.files, g.version < f.version

/-! ## The entries of one key in a merge -/

theorem BitFile.nodes_filter (f : BitFile κ) (key : ℕ) :
    (f.nodes.filter fun n => n.key = key) = nodesOf f.version f.id key (f.recordsOf key) := by
  simp only [BitFile.nodes, nodesOf, BitFile.recordsOf, List.filter_map, List.map_map]
  refine List.map_congr_left fun e he => ?_
  have : e.1 = key := by simpa using (List.mem_filter.mp he).2
  simp [this]

theorem BitFile.mem_nodes {f : BitFile κ} {n : MergeNode κ} :
    n ∈ f.nodes ↔ n.version = f.version ∧ n.id = f.id ∧ (n.key, n.val) ∈ f.entries := by
  obtain ⟨v, i, k, r⟩ := n
  simp only [BitFile.nodes, List.mem_map, MergeNode.mk.injEq]
  constructor
  · rintro ⟨e, he, rfl, rfl, rfl, rfl⟩
    exact ⟨rfl, rfl, he⟩
  · rintro ⟨rfl, rfl, he⟩
    exact ⟨_, he, rfl, rfl, rfl, rfl⟩

/-- Of files with ranges of their own at most one has entries of a key. -/
theorem exists_split_of_apart {R : List (BitFile κ)} (hR : R.Pairwise BitFile.Apart)
    (hne : R ≠ []) (key : ℕ) :
    ∃ R₁ g R₂, R = R₁ ++ g :: R₂ ∧ ∀ h ∈ R₁ ++ R₂, h.recordsOf key = [] := by
  by_cases hkey : ∃ g ∈ R, g.recordsOf key ≠ []
  · obtain ⟨g, hg, hgkey⟩ := hkey
    obtain ⟨R₁, R₂, rfl⟩ := List.append_of_mem hg
    obtain ⟨a, ha⟩ := List.exists_mem_of_ne_nil _ hgkey
    have ha' := BitFile.mem_recordsOf.mp ha
    obtain ⟨-, hright, hcross⟩ := List.pairwise_append.mp hR
    refine ⟨R₁, g, R₂, rfl, fun h hh => BitFile.recordsOf_eq_nil.mpr fun e he hek => ?_⟩
    have hapart : h.Apart g := by
      rcases List.mem_append.mp hh with hh | hh
      · exact hcross h hh g List.mem_cons_self
      · exact (List.rel_of_pairwise_cons hright hh).symm
    rcases hapart with hbefore | hbefore
    · have := hbefore e he _ ha'
      simp only at this
      omega
    · have := hbefore _ ha' e he
      simp only at this
      omega
  · push Not at hkey
    cases R with
    | nil => exact absurd rfl hne
    | cons g R => exact ⟨[], g, R, rfl, fun h hh => hkey h (List.mem_cons_of_mem _ hh)⟩

theorem flatMap_recordsOf_split {R₁ R₂ : List (BitFile κ)} {g : BitFile κ} {key : ℕ}
    (h : ∀ f ∈ R₁ ++ R₂, f.recordsOf key = []) :
    (R₁ ++ g :: R₂).flatMap (fun f => f.recordsOf key) = g.recordsOf key := by
  have h₁ : R₁.flatMap (fun f => f.recordsOf key) = [] :=
    List.flatMap_eq_nil_iff.mpr fun f hf => h f (List.mem_append_left _ hf)
  have h₂ : R₂.flatMap (fun f => f.recordsOf key) = [] :=
    List.flatMap_eq_nil_iff.mpr fun f hf => h f (List.mem_append_right _ hf)
  rw [List.flatMap_append, List.flatMap_cons, h₁, h₂, List.nil_append, List.append_nil]

/-- Another source of the merge than the one at the end of `R₁` belongs to another file. -/
theorem mem_of_getElem?_ne {α : Type} {R₁ R₂ : List α} {g h : α} {j : ℕ}
    (hj : (R₁ ++ g :: R₂)[j]? = some h) (hne : j ≠ R₁.length) : h ∈ R₁ ++ R₂ := by
  rcases Nat.lt_or_ge j R₁.length with hlt | hge
  · rw [List.getElem?_append_left hlt] at hj
    exact List.mem_append_left _ (List.mem_of_getElem? hj)
  · rw [List.getElem?_append_right hge, List.getElem?_cons, if_neg (by omega)] at hj
    exact List.mem_append_right _ (List.mem_of_getElem? hj)

/-- **One key in a merge.** The entries of a key come out of the heap as an interleaving of its
entries in the newer file and in one older file. -/
theorem stream_interleaved {f₀ : BitFile κ} {R : List (BitFile κ)} {order : List ℕ}
    {stream : List (MergeNode κ)} (hR : R.Pairwise BitFile.Apart) (hne : R ≠ [])
    (hids : ∀ g ∈ R, g.id ≠ f₀.id)
    (hpops : pops MergeNode.key ((f₀ :: R).map BitFile.nodes) order = some stream) (key : ℕ) :
    ∃ g ∈ R, R.flatMap (fun f => f.recordsOf key) = g.recordsOf key ∧
      Interleaved (nodesOf f₀.version f₀.id key (f₀.recordsOf key))
        (nodesOf g.version g.id key (g.recordsOf key)) (stream.filter fun n => n.key = key) := by
  obtain ⟨R₁, g, R₂, rfl, hothers⟩ := exists_split_of_apart hR hne key
  have hg : g ∈ R₁ ++ g :: R₂ := List.mem_append_right _ List.mem_cons_self
  refine ⟨g, hg, flatMap_recordsOf_split hothers, ?_⟩
  have hsrc₀ : ((f₀ :: (R₁ ++ g :: R₂)).map BitFile.nodes)[0]? = some f₀.nodes := rfl
  have hsrc : ((f₀ :: (R₁ ++ g :: R₂)).map BitFile.nodes)[R₁.length + 1]? = some g.nodes := by simp
  -- the entries of the newer file come from the first source only
  have hnewer : (stream.filter fun n => n.id = f₀.id && n.key = key) =
      nodesOf f₀.version f₀.id key (f₀.recordsOf key) := by
    rw [pops_filter hpops (fun n => n.id = f₀.id && n.key = key) hsrc₀ ?_]
    · rw [← BitFile.nodes_filter]
      refine List.filter_congr fun n hn => ?_
      simp [(BitFile.mem_nodes.mp hn).2.1]
    · intro j s hj hj0 n hn
      obtain ⟨h, hh, rfl⟩ := Option.map_eq_some_iff.mp (List.getElem?_map.symm.trans hj)
      obtain ⟨j, rfl⟩ := Nat.exists_eq_succ_of_ne_zero hj0
      have hmem : h ∈ R₁ ++ g :: R₂ := List.mem_of_getElem? hh
      simp [(BitFile.mem_nodes.mp hn).2.1, hids h hmem]
  -- those of the older files from the source of `g` only
  have holder : (stream.filter fun n => !(n.id = f₀.id) && n.key = key) =
      nodesOf g.version g.id key (g.recordsOf key) := by
    rw [pops_filter hpops (fun n => !(n.id = f₀.id) && n.key = key) hsrc ?_]
    · rw [← BitFile.nodes_filter]
      refine List.filter_congr fun n hn => ?_
      simp [(BitFile.mem_nodes.mp hn).2.1, hids g hg]
    · intro j s hj hj0 n hn
      obtain ⟨h, hh, rfl⟩ := Option.map_eq_some_iff.mp (List.getElem?_map.symm.trans hj)
      obtain ⟨-, hid, hmem⟩ := BitFile.mem_nodes.mp hn
      have hh' : ((f₀ :: R₁) ++ g :: R₂)[j]? = some h := hh
      have hcases : h ∈ (f₀ :: R₁) ++ R₂ := mem_of_getElem?_ne hh' (by simpa using hj0)
      rcases List.mem_cons.mp hcases with rfl | hcases
      · simp [hid]
      · have hkey : n.key ≠ key := BitFile.recordsOf_eq_nil.mp (hothers h hcases) _ hmem
        simp [hkey]
  have hinter := interleaved_filter (fun n => n.id = f₀.id) (stream.filter fun n => n.key = key)
  rw [List.filter_filter, List.filter_filter, hnewer, holder] at hinter
  exact hinter

/-! ## Records of a key in a tidy level -/

namespace BitLevel

theorem recordsOf_eq_nil {l : BitLevel κ} {key : ℕ} :
    l.recordsOf key = [] ↔ ∀ f ∈ l.files, f.recordsOf key = [] := List.flatMap_eq_nil_iff

theorem Tidy.recordsOf_of_mem {l : BitLevel κ} (h : l.Tidy) {f : BitFile κ} (hf : f ∈ l.files)
    {key : ℕ} (hkey : f.recordsOf key ≠ []) : l.recordsOf key = f.recordsOf key := by
  obtain ⟨i, hi, rfl⟩ := List.getElem_of_mem hf
  obtain ⟨r, hr⟩ := List.exists_mem_of_ne_nil _ hkey
  have he := BitFile.mem_recordsOf.mp hr
  exact h.recordsOf_eq (List.getElem?_eq_getElem hi) ⟨_, he, le_rfl⟩ ⟨_, he, le_rfl⟩

/-- Two tidy levels with the same files for a key. -/
theorem Tidy.recordsOf_congr {l l' : BitLevel κ} (h : l.Tidy) (h' : l'.Tidy) {key : ℕ}
    (hsame : ∀ f, f.recordsOf key ≠ [] → (f ∈ l.files ↔ f ∈ l'.files)) :
    l.recordsOf key = l'.recordsOf key := by
  by_cases hkey : ∃ f ∈ l.files, f.recordsOf key ≠ []
  · obtain ⟨f, hf, hne⟩ := hkey
    rw [h.recordsOf_of_mem hf hne, h'.recordsOf_of_mem ((hsame f hne).mp hf) hne]
  · push Not at hkey
    rw [recordsOf_eq_nil.mpr hkey, eq_comm, recordsOf_eq_nil]
    intro f hf
    by_contra hne
    exact hne (hkey f ((hsame f hne).mpr hf))

end BitLevel

/-! ## A major compaction -/

/-- The merge of a major compaction brings a deleted key back. -/
def Resurrecting (l : Levels κ) (order : List ℕ) : Prop :=
  ∃ stream key, pops MergeNode.key ((mergeInputs l).map BitFile.nodes) order = some stream ∧
    Resurrects (stream.filter fun n => n.key = key)

/-- What a major compaction that started with levels `l` and catalogue `c` does. -/
structure MajorSpec [Inhabited κ] (l : Levels κ) (c : Catalogue) (order : List ℕ)
    (comp : Compaction κ) : Prop where
  /-- level 0 is empty afterwards -/
  empty : (l.applyAll comp.ops).level0.files = []
  /-- the levels are in order again -/
  ok : (l.applyAll comp.ops).Ok comp.catalogue
  /-- versions grow -/
  version : c.maxVersion ≤ comp.catalogue.maxVersion
  /-- a positive newest record stays the newest -/
  keeps : ∀ key r, l.newest key = some r → r.isNegative = false →
    (l.applyAll comp.ops).newest key = some r
  /-- nothing else becomes newest, unless a deleted key comes back -/
  reflects : ¬Resurrecting l order → ∀ key r, (l.applyAll comp.ops).newest key = some r →
    l.newest key = some r
  /-- no record appears -/
  mem : ∀ f ∈ (l.applyAll comp.ops).files, ∀ e ∈ f.entries, ∃ g ∈ l.files, e ∈ g.entries
  /-- a superseded record is alone in level 1, under a record that is alone in level 0 -/
  superseded : ∀ e ∈ comp.superseded, e.2.isNegative = false →
    l.level1.recordsOf e.1 = [e.2] ∧ ∃ r, l.level0.recordsOf e.1 = [r] ∧ r.isNegative = false
  /-- the files that are added are there afterwards -/
  added : ∀ f ∈ comp.ops.filterMap LevelOp.added?, f ∈ (l.applyAll comp.ops).files
  /-- and the others were there before -/
  kept : ∀ f ∈ (l.applyAll comp.ops).files, f ∈ comp.ops.filterMap LevelOp.added? ∨
    f ∈ l.files ∧ ∀ g ∈ comp.ops.filterMap LevelOp.added?, g.id ≠ f.id
  /-- at any moment all files of before or all files of afterwards are there -/
  covered : ∀ n, (∀ f ∈ l.files, f ∈ (l.applyAll (comp.ops.take n)).files) ∨
    ∀ f ∈ (l.applyAll comp.ops).files, f ∈ (l.applyAll (comp.ops.take n)).files

theorem Levels.mem_files {l : Levels κ} {f : BitFile κ} :
    f ∈ l.files ↔ f ∈ l.level0.files ∨ f ∈ l.level1.files := List.mem_append

theorem Levels.recordsOf_level0 {l : Levels κ} {f₀ : BitFile κ} (hf₀ : l.level0.files = [f₀])
    (key : ℕ) : l.level0.recordsOf key = f₀.recordsOf key := by
  rw [BitLevel.recordsOf, hf₀, List.flatMap_singleton]

/-- The newest record of a key is in one of the files. -/
theorem Levels.exists_file_of_newest {l : Levels κ} {key : ℕ} {r : Record κ}
    (h : l.newest key = some r) : ∃ f ∈ l.files, (key, r) ∈ f.entries := by
  have hmem := List.mem_of_mem_head? h
  rcases List.mem_append.mp hmem with hr | hr
  · obtain ⟨f, hf, hr⟩ := List.mem_flatMap.mp hr
    exact ⟨f, Levels.mem_files.mpr (Or.inl hf), BitFile.mem_recordsOf.mp hr⟩
  · obtain ⟨f, hf, hr⟩ := List.mem_flatMap.mp hr
    exact ⟨f, Levels.mem_files.mpr (Or.inr hf), BitFile.mem_recordsOf.mp hr⟩

/-- Without files in level 0 the newest record is that of level 1. -/
theorem Levels.newest_of_empty {l : Levels κ} (hempty : l.level0.files = []) (key : ℕ) :
    l.newest key = (l.level1.recordsOf key).head? := by
  rw [newest, BitLevel.recordsOf_eq_nil.mpr (by simp [hempty]), List.nil_append]

theorem BitLevel.length_lt_of_not_full {l : BitLevel κ} (hfull : l.isFull = false) :
    l.files.length < l.capacity := by
  rw [isFull] at hfull
  simpa using hfull

/-- A level with one more file that lies apart from all others is tidy. -/
theorem BitLevel.Tidy.addFile {l : BitLevel κ} (h : l.Tidy) {f : BitFile κ} (hf : f.Sorted)
    (hroom : l.files.length < l.maxSize) (hapart : ∀ g ∈ l.files, f.Apart g) :
    (l.addFile f).Tidy := by
  have hperm := BitLevel.addFile_perm hroom f
  refine ⟨h.sorted.addFile f, fun g hg => ?_, ?_⟩
  · rcases List.mem_cons.mp (hperm.mem_iff.mp hg) with rfl | hg
    · exact hf
    · exact h.files g hg
  · rw [hperm.pairwise_iff fun hfg => BitFile.Apart.symm hfg]
    exact List.pairwise_cons.mpr ⟨hapart, h.apart⟩

/-- The calls of a merge. -/
def mergeOps (f₀ : BitFile κ) (R : List (BitFile κ)) (s : MergeState κ) : List (LevelOp κ) :=
  s.files.map .add1 ++ [f₀].map (fun f => .remove0 f.id) ++ R.map fun f => .remove1 f.id

theorem Levels.applyAll_mergeOps (l : Levels κ) (f₀ : BitFile κ) (R : List (BitFile κ)) (s : MergeState κ) :
    l.applyAll (mergeOps f₀ R s) =
      ⟨l.level0.removeFiles [f₀], (l.level1.addFiles s.files).removeFiles R⟩ := by
  rw [mergeOps, Levels.applyAll_append, Levels.applyAll_append, Levels.applyAll_add1,
    Levels.applyAll_remove0, Levels.applyAll_remove1]

/-- A call that takes a file out. -/
def LevelOp.IsRemove : LevelOp κ → Prop
  | .add0 _ => False
  | .add1 _ => False
  | .remove0 _ => True
  | .remove1 _ => True

theorem Levels.applyAll_subset {ops : List (LevelOp κ)} (hops : ∀ op ∈ ops, op.IsRemove)
    (l : Levels κ) : (l.applyAll ops).files ⊆ l.files := by
  induction ops generalizing l with
  | nil => exact List.Subset.refl _
  | cons op ops ih =>
    refine List.Subset.trans (ih (fun o ho => hops o (List.mem_cons_of_mem _ ho)) (l.apply op)) ?_
    intro f hf
    rcases Levels.mem_files.mp hf with hf | hf
    all_goals
      cases op with
      | add0 _ => exact (hops _ List.mem_cons_self).elim
      | add1 _ => exact (hops _ List.mem_cons_self).elim
      | remove0 id =>
        first
        | exact Levels.mem_files.mpr (Or.inl (List.mem_of_mem_eraseP hf))
        | exact Levels.mem_files.mpr (Or.inr hf)
      | remove1 id =>
        first
        | exact Levels.mem_files.mpr (Or.inr (List.mem_of_mem_eraseP hf))
        | exact Levels.mem_files.mpr (Or.inl hf)

theorem Catalogue.inUse_releaseFiles {c : Catalogue} {i : ℕ} (hi : c.InUse i)
    {fs : List (BitFile κ)} (hne : ∀ f ∈ fs, i ≠ f.id) :
    (fs.foldl (fun c f => c.releaseFile f.id) c).InUse i := by
  induction fs generalizing c with
  | nil => exact hi
  | cons f fs ih =>
    exact ih (inUse_releaseFile hi (hne f List.mem_cons_self)) fun g hg =>
      hne g (List.mem_cons_of_mem _ hg)

theorem Catalogue.inUse_of_releaseFiles {c : Catalogue} {i : ℕ} {fs : List (BitFile κ)}
    (hfs : ∀ f ∈ fs, f.id < c.maxFd) (hi : (fs.foldl (fun c f => c.releaseFile f.id) c).InUse i) :
    c.InUse i ∧ ∀ f ∈ fs, i ≠ f.id := by
  induction fs generalizing c with
  | nil => exact ⟨hi, by simp⟩
  | cons f fs ih =>
    obtain ⟨huse, hne⟩ := ih (fun g hg => by
      rw [maxFd_releaseFile]
      exact hfs g (List.mem_cons_of_mem _ hg)) hi
    refine ⟨inUse_of_releaseFile huse, fun g hg => ?_⟩
    rcases List.mem_cons.mp hg with rfl | hg
    · rintro rfl
      exact not_inUse_releaseFile (hfs g List.mem_cons_self) huse
    · exact hne g hg

theorem Catalogue.maxFd_releaseFiles (c : Catalogue) (fs : List (BitFile κ)) :
    (fs.foldl (fun c f => c.releaseFile f.id) c).maxFd = c.maxFd := by
  induction fs generalizing c with
  | nil => rfl
  | cons f fs ih => exact (ih _).trans (maxFd_releaseFile c f.id)

theorem Catalogue.maxVersion_releaseFiles (c : Catalogue) (fs : List (BitFile κ)) :
    (fs.foldl (fun c f => c.releaseFile f.id) c).maxVersion = c.maxVersion := by
  induction fs generalizing c with
  | nil => rfl
  | cons f fs ih => exact ih _

section Major

variable [Inhabited κ] {l : Levels κ} {c : Catalogue} {order : List ℕ} {f₀ : BitFile κ}

/-- Levels whose level 0 was emptied and whose level 1 has some old and some new files. -/
theorem Levels.Ok.replace (hok : l.Ok c) {lnew : Levels κ} {c' : Catalogue}
    {added kept : List (BitFile κ)} (hempty : lnew.level0.files = [])
    (hlevel0 : lnew.level0.level = l.level0.level ∧ lnew.level0.capacity = l.level0.capacity)
    (hlevel1 : lnew.level1.level = l.level1.level) (htidy : lnew.level1.Tidy)
    (hperm : lnew.level1.files.Perm (added ++ kept)) (hkept : ∀ f ∈ kept, f ∈ l.level1.files)
    (hadded : ∀ f ∈ added, f.Ok) (htag : ∀ f ∈ added, f.level = l.level1.level) (hnodup : ((added ++ kept).map BitFile.id).Nodup)
    (huse : ∀ f ∈ added ++ kept, c'.InUse f.id)
    (howned : ∀ i, c'.InUse i → i < c'.maxFd ∧ ∃ f ∈ added ++ kept, f.id = i)
    (hversion : ∀ f ∈ added, f.version < c'.maxVersion)
    (hmax : c.maxVersion ≤ c'.maxVersion) : lnew.Ok c' := by
  have hfiles : lnew.files.Perm (added ++ kept) := by
    rw [Levels.files]
    rwa [hempty, List.nil_append]
  have hold : ∀ f ∈ kept, f ∈ l.files := fun f hf => Levels.mem_files.mpr (Or.inr (hkept f hf))
  refine ⟨?_, ?_, ?_, htidy, fun f hf => ?_, ?_, fun f hf => ?_, ?_, fun f hf => ?_, fun i hi => ?_,
    fun f hf => ?_, ?_⟩
  · rw [hlevel0.1, hlevel0.2]
    exact hok.level0
  · rw [hlevel1]
    exact hok.level1
  · simp [hempty]
  · rcases List.mem_append.mp (hfiles.mem_iff.mp hf) with hf | hf
    · exact hadded f hf
    · exact hok.files f (hold f hf)
  · simp [hempty]
  · rw [hlevel1]
    rcases List.mem_append.mp (hperm.mem_iff.mp hf) with hf | hf
    · exact htag f hf
    · exact hok.tag1 f (hkept f hf)
  · exact (hfiles.map _).nodup_iff.mpr hnodup
  · exact huse f (hfiles.mem_iff.mp hf)
  · obtain ⟨hlt, f, hf, hid⟩ := howned i hi
    exact ⟨hlt, f, hfiles.mem_iff.mpr hf, hid⟩
  · rcases List.mem_append.mp (hperm.mem_iff.mp hf) with hf | hf
    · exact hversion f hf
    · exact Nat.lt_of_lt_of_le (hok.version f (hkept f hf)) hmax
  · simp [hempty]

/-- The file of level 0 overlaps nothing in level 1 and moves there. -/
theorem majorSpec_move (hok : l.Ok c) (hf₀ : l.level0.files = [f₀])
    (hfull : l.level1.isFull = false) (hrel : l.level1.findRelativeFiles [f₀] = []) :
    MajorSpec l c order
      ⟨(moveFiles l.level1.level c [f₀]).1, [], (moveFiles l.level1.level c [f₀]).2⟩ := by
  have hmem₀ : f₀ ∈ l.files := Levels.mem_files.mpr (Or.inl (by simp [hf₀]))
  have hlt := BitLevel.length_lt_of_not_full hfull
  have hroom : l.level1.files.length < l.level1.maxSize := by
    unfold BitLevel.maxSize
    omega
  obtain ⟨f₁, hf₁⟩ : ∃ f₁ : BitFile κ,
    f₁ = { f₀ with version := c.maxVersion, level := l.level1.level } := ⟨_, rfl⟩
  have hid : f₁.id = f₀.id := by rw [hf₁]
  have hentries : f₁.entries = f₀.entries := by rw [hf₁]
  have hversion : f₁.version = c.maxVersion := by rw [hf₁]
  have hrec : ∀ key, f₁.recordsOf key = f₀.recordsOf key := fun key => by
    unfold BitFile.recordsOf
    rw [hentries]
  have hmove : moveFiles l.level1.level c [f₀] =
      ([.add1 f₁, .remove0 f₀.id], { c with maxVersion := c.maxVersion + 1 }) := by
    rw [hf₁]
    rfl
  rw [hmove]
  obtain ⟨lnew, hlnew⟩ : ∃ lnew : Levels κ, lnew = l.applyAll [.add1 f₁, .remove0 f₀.id] := ⟨_, rfl⟩
  have hlevel1 : lnew.level1 = l.level1.addFile f₁ := by rw [hlnew]; rfl
  have hempty : lnew.level0.files = [] := by
    have : lnew.level0.files = l.level0.files.eraseP fun f => f.id = f₀.id := by rw [hlnew]; rfl
    rw [this, hf₀]
    simp
  have hperm : lnew.level1.files.Perm ([f₁] ++ l.level1.files) := by
    rw [hlevel1]
    exact BitLevel.addFile_perm hroom f₁
  have hfiles : lnew.files = lnew.level1.files := by
    rw [Levels.files, hempty, List.nil_append]
  have hok₁ : f₁.Ok := by
    obtain ⟨hs, hslot, hsize⟩ := hok.files f₀ hmem₀
    refine ⟨?_, fun key => hrec key ▸ hslot key, hentries ▸ hsize⟩
    unfold BitFile.Sorted
    rw [hentries]
    exact hs
  have htidy : lnew.level1.Tidy := by
    rw [hlevel1]
    refine hok.tidy.addFile hok₁.sorted hroom fun g hg => ?_
    obtain ⟨before, after, hsplit, hbefore, hafter⟩ :=
      hok.tidy.findRelativeFiles_spec
        (fun f hf => List.mem_singleton.mp hf ▸ (hok.files f₀ hmem₀).sorted)
        (fun f hf => by rw [hrel] at hf; cases hf)
    rw [hrel, List.append_nil] at hsplit
    rw [hsplit] at hg
    unfold BitFile.Apart BitFile.Before
    rw [hentries]
    rcases List.mem_append.mp hg with hg | hg
    · exact Or.inr (hbefore g hg f₀ List.mem_cons_self)
    · exact Or.inl (hafter g hg f₀ List.mem_cons_self)
  -- the records of a key are where they were, one level further down
  have hnewest : ∀ key, lnew.newest key = l.newest key := by
    intro key
    rw [Levels.newest_of_empty hempty]
    rw [Levels.newest, Levels.recordsOf_level0 hf₀]
    by_cases hkey : f₀.recordsOf key = []
    · rw [hkey, List.nil_append]
      refine congrArg List.head? (htidy.recordsOf_congr hok.tidy fun f hf => ?_)
      rw [hperm.mem_iff, List.singleton_append, List.mem_cons]
      refine or_iff_right fun hff => hf ?_
      rw [hff, hrec, hkey]
    · have hf₁mem : f₁ ∈ lnew.level1.files := hperm.mem_iff.mpr List.mem_cons_self
      rw [htidy.recordsOf_of_mem hf₁mem (by rwa [hrec]), hrec, List.head?_append_of_ne_nil _ hkey]
  have hids : l.files.map BitFile.id = ([f₁] ++ l.level1.files).map BitFile.id := by
    rw [Levels.files, hf₀, List.map_append, List.map_append, List.map_singleton,
      List.map_singleton, hid]
  refine ⟨hlnew ▸ hempty, ?_, Nat.le_succ _, ?_, ?_, ?_, by simp, ?_, ?_, fun n => ?_⟩
  · rw [← hlnew]
    refine hok.replace hempty ?_ ?_ htidy hperm (fun f hf => hf) (by simpa using hok₁)
      (by simp [hf₁]) (hids ▸ hok.nodup) (fun f hf => ?_) (fun i hi => ?_) (by simp [hversion]) (Nat.le_succ _)
    · rw [hlnew]
      exact ⟨rfl, rfl⟩
    · rw [hlevel1, BitLevel.addFile_level]
    · rcases List.mem_append.mp hf with hf | hf
      · rw [List.mem_singleton.mp hf, hid]
        exact hok.inUse f₀ hmem₀
      · exact hok.inUse f (Levels.mem_files.mpr (Or.inr hf))
    · -- the same descriptors are in use
      obtain ⟨hlt, f, hf, rfl⟩ := hok.owned i hi
      exact ⟨hlt, List.mem_map.mp (hids ▸ List.mem_map_of_mem hf)⟩
  · intro key r hr _
    rw [← hlnew, hnewest]
    exact hr
  · intro _ key r hr
    rwa [← hlnew, hnewest] at hr
  · rw [← hlnew, hfiles]
    intro f hf e he
    rcases List.mem_cons.mp (hperm.mem_iff.mp hf) with rfl | hf
    · exact ⟨f₀, hmem₀, hentries ▸ he⟩
    · exact ⟨f, Levels.mem_files.mpr (Or.inr hf), he⟩
  · rw [← hlnew, hfiles]
    intro f hf
    simp only [LevelOp.added?, List.filterMap_cons, List.filterMap_nil, List.mem_singleton] at hf
    exact hperm.mem_iff.mpr (hf ▸ List.mem_cons_self)
  · rw [← hlnew, hfiles]
    intro f hf
    simp only [LevelOp.added?, List.filterMap_cons, List.filterMap_nil, List.mem_singleton,
      forall_eq]
    rcases List.mem_cons.mp (hperm.mem_iff.mp hf) with rfl | hf
    · exact Or.inl rfl
    · have hnodup := hids ▸ hok.nodup
      rw [List.singleton_append, List.map_cons, List.nodup_cons] at hnodup
      exact Or.inr ⟨Levels.mem_files.mpr (Or.inr hf), fun heq =>
        hnodup.1 (heq ▸ List.mem_map_of_mem hf)⟩
  · -- the file is in level 1 before it leaves level 0
    rw [← hlnew]
    match n with
    | 0 => exact Or.inl fun f hf => hf
    | 1 =>
      refine Or.inr fun f hf => Levels.mem_files.mpr (Or.inr ?_)
      rw [hfiles, hlevel1] at hf
      exact hf
    | n + 2 =>
      refine Or.inr fun f hf => ?_
      rw [hlnew] at hf
      simpa only [List.take_succ_cons, List.take_nil] using hf

/-! ### Merging -/

/-- The situation of a merge: file `f₀` of level 0 goes together with the files `R` of level 1
into the files of `s`. -/
structure Merge (l : Levels κ) (c : Catalogue) (order : List ℕ) (f₀ : BitFile κ)
    (before R after : List (BitFile κ)) (stream : List (MergeNode κ)) (s : MergeState κ) :
    Prop where
  /-- the levels were in order -/
  ok : l.Ok c
  /-- the file of level 0 -/
  upper : l.level0.files = [f₀]
  /-- level 1 is not full -/
  notFull : l.level1.isFull = false
  /-- the files of level 1 -/
  split : l.level1.files = before ++ R ++ after
  /-- what stays in level 1 lies below the file -/
  below : ∀ g ∈ before, g.Before f₀
  /-- or above it -/
  above : ∀ g ∈ after, f₀.Before g
  /-- there is something to merge with -/
  ne : R ≠ []
  /-- the entries in the order of the heap -/
  pops : pops MergeNode.key ((f₀ :: R).map BitFile.nodes) order = some stream
  /-- the merge -/
  merge : kwayMerge c l.level1.level stream = some s

namespace Merge

variable {before R after : List (BitFile κ)} {stream : List (MergeNode κ)} {s : MergeState κ}

theorem mem_upper (h : Merge l c order f₀ before R after stream s) : f₀ ∈ l.files :=
  Levels.mem_files.mpr (Or.inl (by simp [h.upper]))

theorem mem_lower (h : Merge l c order f₀ before R after stream s) {g : BitFile κ}
    (hg : g ∈ before ++ R ++ after) : g ∈ l.files :=
  Levels.mem_files.mpr (Or.inr (h.split ▸ hg))

theorem mem_relatives (h : Merge l c order f₀ before R after stream s) {g : BitFile κ}
    (hg : g ∈ R) : g ∈ l.files :=
  h.mem_lower (List.mem_append_left _ (List.mem_append_right _ hg))

theorem before_lower (h : Merge l c order f₀ before R after stream s) :
    (before ++ R ++ after).Pairwise BitFile.Before := h.split ▸ h.ok.tidy.before

theorem before_relatives (h : Merge l c order f₀ before R after stream s) :
    R.Pairwise BitFile.Before :=
  (List.pairwise_append.mp (List.pairwise_append.mp h.before_lower).1).2.1

theorem id_ne (h : Merge l c order f₀ before R after stream s) {g : BitFile κ}
    (hg : g ∈ before ++ R ++ after) : g.id ≠ f₀.id := by
  have hnodup := h.ok.nodup
  rw [Levels.files, h.upper, h.split, List.singleton_append, List.map_cons,
    List.nodup_cons] at hnodup
  exact fun heq => hnodup.1 (heq ▸ List.mem_map_of_mem hg)

/-- What stays in level 1 lies below or above everything that is merged. -/
theorem kept_apart (h : Merge l c order f₀ before R after stream s) {g : BitFile κ}
    (hg : g ∈ before ++ after) :
    (∀ f ∈ f₀ :: R, g.Before f) ∨ ∀ f ∈ f₀ :: R, f.Before g := by
  obtain ⟨hleft, -, hcross⟩ := List.pairwise_append.mp h.before_lower
  rcases List.mem_append.mp hg with hg | hg
  · left
    intro f hf
    rcases List.mem_cons.mp hf with rfl | hf
    · exact h.below g hg
    · exact (List.pairwise_append.mp hleft).2.2 g hg f hf
  · right
    intro f hf
    rcases List.mem_cons.mp hf with rfl | hf
    · exact h.above g hg
    · exact hcross f (List.mem_append_right _ hf) g hg

theorem sorted (h : Merge l c order f₀ before R after stream s) :
    stream.Pairwise fun a b => a.key ≤ b.key := by
  refine pops_sorted h.pops fun src hsrc => ?_
  obtain ⟨f, hf, rfl⟩ := List.mem_map.mp hsrc
  have hsorted : f.Sorted := by
    rcases List.mem_cons.mp hf with rfl | hf
    · exact (h.ok.files f h.mem_upper).sorted
    · exact (h.ok.files f (h.mem_relatives hf)).sorted
  exact List.pairwise_map.mpr hsorted

theorem settled (h : Merge l c order f₀ before R after stream s) : s.Settled c stream :=
  kwayMerge_settled h.sorted h.merge

/-- The entries of one key, with what the merge makes of them. -/
theorem interleaved (h : Merge l c order f₀ before R after stream s) (key : ℕ) :
    ∃ v₁ id₁, v₁ < f₀.version ∧ f₀.id ≠ id₁ ∧ Slot (R.flatMap fun f => f.recordsOf key) ∧
      Interleaved (nodesOf f₀.version f₀.id key (f₀.recordsOf key))
        (nodesOf v₁ id₁ key (R.flatMap fun f => f.recordsOf key))
        (stream.filter fun n => n.key = key) := by
  have hids : ∀ g ∈ R, g.id ≠ f₀.id := fun g hg =>
    h.id_ne (List.mem_append_left _ (List.mem_append_right _ hg))
  obtain ⟨g, hg, hrec, hinter⟩ := stream_interleaved (h.before_relatives.imp Or.inl) h.ne hids h.pops key
  have hlower : g ∈ l.level1.files :=
    h.split ▸ List.mem_append_left _ (List.mem_append_right _ hg)
  refine ⟨g.version, g.id, h.ok.younger f₀ (by simp [h.upper]) g hlower, (hids g hg).symm, ?_, ?_⟩
  · rw [hrec]
    exact (h.ok.files g (h.mem_relatives hg)).slot key
  · rw [hrec]
    exact hinter

/-- An entry of a new file is an entry of one of the merged files. -/
theorem exists_input (h : Merge l c order f₀ before R after stream s) {e : ℕ × Record κ}
    (he : e ∈ s.output) : ∃ f ∈ f₀ :: R, e ∈ f.entries := by
  have hmem : e ∈ s.output.filter fun x => x.1 = e.1 := List.mem_filter.mpr ⟨he, by simp⟩
  rw [h.settled.output] at hmem
  obtain ⟨n, hn, rfl⟩ := exists_mem_of_groupOutput (Option.mem_toList.mp hmem)
  obtain ⟨src, hsrc, hn'⟩ := mem_of_mem_pops h.pops (List.mem_filter.mp hn).1
  obtain ⟨f, hf, rfl⟩ := List.mem_map.mp hsrc
  exact ⟨f, hf, (BitFile.mem_nodes.mp hn').2.2⟩

/-- The records of a key in the new files. -/
theorem recordsOf_files (h : Merge l c order f₀ before R after stream s) (key : ℕ) :
    (s.files.flatMap fun f => f.recordsOf key) =
      (groupOutput (stream.filter fun n => n.key = key)).toList.map Prod.snd := by
  rw [← h.settled.output key, s.output_eq]
  simp only [BitFile.recordsOf, List.filter_flatMap, List.map_flatMap]

/-- The new files have ranges of their own. -/
theorem before_files (h : Merge l c order f₀ before R after stream s) :
    s.files.Pairwise BitFile.Before := by
  have hsorted := h.settled.sorted
  rw [s.output_eq, List.pairwise_flatMap] at hsorted
  exact hsorted.2

theorem files_ok (h : Merge l c order f₀ before R after stream s) {f : BitFile κ}
    (hf : f ∈ s.files) : f.Ok := by
  have hsorted := h.settled.sorted
  rw [s.output_eq, List.pairwise_flatMap] at hsorted
  refine ⟨(hsorted.1 f hf).imp fun hlt => hlt.le, fun key => ?_, ?_⟩
  · -- at most one record of a key goes out
    have hsub : (f.recordsOf key).Sublist (s.files.flatMap fun f => f.recordsOf key) :=
      List.sublist_flatten_of_mem (List.mem_map_of_mem hf)
    rw [h.recordsOf_files] at hsub
    obtain ⟨v₁, id₁, hv, hid, hslot, hinter⟩ := h.interleaved key
    cases hout : groupOutput (stream.filter fun n => n.key = key) with
    | none =>
      rw [hout] at hsub
      rw [List.sublist_nil.mp hsub]
      exact .none
    | some e =>
      rw [hout] at hsub
      have hpos := (groupOutput_eq_some hv hid ((h.ok.files f₀ h.mem_upper).slot key) hslot hinter
        hout).1
      rcases List.sublist_singleton.mp hsub with hnil | hone
      · rw [hnil]
        exact .none
      · rw [hone]
        exact .positive _ hpos
  · rcases List.mem_append.mp hf with hf | hf
    · exact (h.settled.full f hf).le
    · rw [List.mem_singleton.mp hf]
      exact h.settled.room

/-- The number of new files. -/
theorem length_files (h : Merge l c order f₀ before R after stream s) :
    s.files.length ≤ R.length + 2 := by
  -- every file but the last is full, and no more comes out than goes in
  have hout : s.written.length * defaultLsmFileCapacity ≤ s.output.length := by
    have hfull : (s.written.flatMap BitFile.entries).length =
        s.written.length * defaultLsmFileCapacity := by
      rw [List.length_flatMap, List.map_congr_left h.settled.full, List.map_const',
        List.sum_replicate_nat]
    rw [MergeState.output, List.length_append, hfull]
    omega
  have hin : stream.length ≤ (R.length + 1) * defaultLsmFileCapacity := by
    rw [length_pops h.pops, List.map_map]
    refine (List.sum_le_card_nsmul _ defaultLsmFileCapacity fun n hn => ?_).trans (by simp)
    obtain ⟨f, hf, rfl⟩ := List.mem_map.mp hn
    simp only [Function.comp_apply, BitFile.nodes, List.length_map]
    rcases List.mem_cons.mp hf with rfl | hf
    · exact (h.ok.files f h.mem_upper).size
    · exact (h.ok.files f (h.mem_relatives hf)).size
  have hle : s.written.length ≤ R.length + 1 :=
    Nat.le_of_mul_le_mul_right ((hout.trans h.settled.count).trans hin) defaultLsmFileCapacity_pos
  rw [MergeState.files, List.length_append, List.length_singleton]
  omega

/-- The descriptors of the new files. -/
theorem nodup_files (h : Merge l c order f₀ before R after stream s) :
    ((s.files ++ l.level1.files).map BitFile.id).Nodup := by
  have halloc := h.settled.allocated
  have hids : s.files.map BitFile.id = (s.files.map BitFile.tag).map Prod.fst := by
    rw [List.map_map]
    rfl
  rw [List.map_append, List.nodup_append]
  refine ⟨hids ▸ halloc.nodup, ?_, fun i hi j hj hij => ?_⟩
  · have := h.ok.nodup
    rw [Levels.files, List.map_append] at this
    exact (List.nodup_append.mp this).2.1
  · obtain ⟨f, hf, rfl⟩ := List.mem_map.mp hi
    obtain ⟨g, hg, rfl⟩ := List.mem_map.mp hj
    have huse := h.ok.inUse g (Levels.mem_files.mpr (Or.inr hg))
    exact halloc.fresh f.tag (List.mem_map_of_mem hf) (by simpa [BitFile.tag, hij] using huse)

theorem room (h : Merge l c order f₀ before R after stream s) :
    l.level1.files.length + s.files.length ≤ l.level1.maxSize := by
  have hlt := BitLevel.length_lt_of_not_full h.notFull
  have hnew := h.length_files
  have hsplit := congrArg List.length h.split
  simp only [List.length_append] at hsplit
  rw [BitLevel.maxSize, BitLevel.defaultLsmLevel0NrFile]
  omega

theorem empty (h : Merge l c order f₀ before R after stream s) :
    (l.applyAll (mergeOps f₀ R s)).level0.files = [] := by
  rw [Levels.applyAll_mergeOps]
  simp [BitLevel.removeFiles, BitLevel.removeFile, h.upper]

/-- The files of level 1 afterwards: the new ones and those that were not merged. -/
theorem perm (h : Merge l c order f₀ before R after stream s) :
    (l.applyAll (mergeOps f₀ R s)).level1.files.Perm (s.files ++ (before ++ after)) := by
  obtain ⟨hperm, -, -, -⟩ := BitLevel.addFiles_spec h.ok.tidy.sorted h.room
  have hnodup : ((l.level1.addFiles s.files).files.map BitFile.id).Nodup :=
    (hperm.map _).nodup_iff.mpr h.nodup_files
  rw [Levels.applyAll_mergeOps]
  simp only
  rw [BitLevel.removeFiles_files hnodup]
  refine (hperm.filter _).trans ?_
  have hids := h.nodup_files
  rw [h.split, List.map_append, List.map_append, List.map_append, List.nodup_append,
    List.nodup_append, List.nodup_append] at hids
  obtain ⟨-, ⟨⟨-, -, hbR⟩, -, hRa⟩, hnew⟩ := hids
  have hkeep : ∀ fs : List (BitFile κ), (∀ f ∈ fs, f.id ∉ R.map BitFile.id) →
      (fs.filter fun f => f.id ∉ R.map BitFile.id) = fs := fun fs hfs =>
    List.filter_eq_self.mpr fun f hf => by simpa using hfs f hf
  have hR : (R.filter fun f => f.id ∉ R.map BitFile.id) = [] := by
    refine List.filter_eq_nil_iff.mpr fun f hf => ?_
    simpa using ⟨f, hf, rfl⟩
  rw [h.split, List.filter_append, List.filter_append, List.filter_append, hR, List.append_nil,
    hkeep s.files, hkeep before, hkeep after]
  · intro f hf hmem
    exact hRa f.id (List.mem_append_right _ hmem) f.id (List.mem_map_of_mem hf) rfl
  · intro f hf hmem
    exact hbR f.id (List.mem_map_of_mem hf) f.id hmem rfl
  · intro f hf hmem
    exact hnew f.id (List.mem_map_of_mem hf) f.id
      (List.mem_append_left _ (List.mem_append_right _ hmem)) rfl

/-- Files that stay lie apart from the new ones. -/
theorem apart (h : Merge l c order f₀ before R after stream s) {f g : BitFile κ}
    (hf : f ∈ s.files) (hg : g ∈ before ++ after) : f.Apart g := by
  have hinput : ∀ e ∈ f.entries, ∃ x ∈ f₀ :: R, e ∈ x.entries := fun e he => by
    refine h.exists_input ?_
    rw [s.output_eq]
    exact List.mem_flatMap.mpr ⟨f, hf, he⟩
  rcases h.kept_apart hg with hlow | hhigh
  · right
    intro a ha b hb
    obtain ⟨x, hx, hbx⟩ := hinput b hb
    exact hlow x hx a ha b hbx
  · left
    intro b hb a ha
    obtain ⟨x, hx, hbx⟩ := hinput b hb
    exact hhigh x hx b hbx a ha

theorem tidy (h : Merge l c order f₀ before R after stream s) :
    (l.applyAll (mergeOps f₀ R s)).level1.Tidy := by
  obtain ⟨-, hsorted, -, -⟩ := BitLevel.addFiles_spec h.ok.tidy.sorted h.room
  refine ⟨?_, fun f hf => ?_, ?_⟩
  · rw [Levels.applyAll_mergeOps]
    exact hsorted.sublist (BitLevel.removeFiles_sublist _ _)
  · rcases List.mem_append.mp (h.perm.mem_iff.mp hf) with hf | hf
    · exact (h.files_ok hf).sorted
    · refine (h.ok.files f (h.mem_lower ?_)).sorted
      rcases List.mem_append.mp hf with hf | hf
      · exact List.mem_append_left _ (List.mem_append_left _ hf)
      · exact List.mem_append_right _ hf
  · rw [h.perm.pairwise_iff fun hfg => BitFile.Apart.symm hfg]
    refine List.pairwise_append.mpr ⟨h.before_files.imp Or.inl, ?_, fun f hf g hg => h.apart hf hg⟩
    have hsub : (before ++ after).Sublist (before ++ R ++ after) :=
      (List.sublist_append_left before R).append (List.Sublist.refl after)
    exact (h.before_lower.sublist hsub).imp Or.inl

/-- A key that is merged has no records in the files that stay. -/
theorem recordsOf_lower (h : Merge l c order f₀ before R after stream s) {key : ℕ}
    (hkey : f₀.recordsOf key ++ (R.flatMap fun f => f.recordsOf key) ≠ []) :
    l.level1.recordsOf key = R.flatMap fun f => f.recordsOf key := by
  obtain ⟨f, hf, r, hr⟩ : ∃ f ∈ f₀ :: R, ∃ r, (key, r) ∈ f.entries := by
    obtain ⟨r, hr⟩ := List.exists_mem_of_ne_nil _ hkey
    rcases List.mem_append.mp hr with hr | hr
    · exact ⟨f₀, List.mem_cons_self, r, BitFile.mem_recordsOf.mp hr⟩
    · obtain ⟨f, hf, hr⟩ := List.mem_flatMap.mp hr
      exact ⟨f, List.mem_cons_of_mem _ hf, r, BitFile.mem_recordsOf.mp hr⟩
  have hkept : ∀ g ∈ before ++ after, g.recordsOf key = [] := by
    refine fun g hg => BitFile.recordsOf_eq_nil.mpr fun e he hek => ?_
    rcases h.kept_apart hg with hlow | hhigh
    · have := hlow f hf e he _ hr
      simp only at this
      omega
    · have := hhigh f hf _ hr e he
      simp only at this
      omega
  rw [BitLevel.recordsOf]
  rw [h.split, List.flatMap_append, List.flatMap_append,
    List.flatMap_eq_nil_iff.mpr fun g hg => hkept g (List.mem_append_left _ hg),
    List.flatMap_eq_nil_iff.mpr fun g hg => hkept g (List.mem_append_right _ hg),
    List.nil_append, List.append_nil]

/-- What the merge puts out for a key is what level 1 then has of it. -/
theorem recordsOf_new (h : Merge l c order f₀ before R after stream s) {key : ℕ}
    {e : ℕ × Record κ} (he : groupOutput (stream.filter fun n => n.key = key) = some e) :
    (l.applyAll (mergeOps f₀ R s)).level1.recordsOf key = [e.2] := by
  have hfiles := h.recordsOf_files key
  rw [he] at hfiles
  obtain ⟨f, hf, hfkey⟩ := List.mem_flatMap.mp
    (hfiles ▸ List.mem_cons_self : e.2 ∈ s.files.flatMap fun f => f.recordsOf key)
  have hne : f.recordsOf key ≠ [] := List.ne_nil_of_mem hfkey
  rw [h.tidy.recordsOf_of_mem (h.perm.mem_iff.mpr (List.mem_append_left _ hf)) hne]
  have hsub : (f.recordsOf key).Sublist (s.files.flatMap fun f => f.recordsOf key) :=
    List.sublist_flatten_of_mem (List.mem_map_of_mem hf)
  rw [hfiles] at hsub
  exact (List.sublist_singleton.mp hsub).resolve_left hne

/-- A file that stays keeps its records the ones of level 1. -/
theorem recordsOf_kept (h : Merge l c order f₀ before R after stream s) {g : BitFile κ}
    (hg : g ∈ before ++ after) {key : ℕ} (hkey : g.recordsOf key ≠ []) :
    l.level1.recordsOf key = g.recordsOf key ∧
      (l.applyAll (mergeOps f₀ R s)).level1.recordsOf key = g.recordsOf key := by
  refine ⟨h.ok.tidy.recordsOf_of_mem ?_ hkey,
    h.tidy.recordsOf_of_mem (h.perm.mem_iff.mpr (List.mem_append_right _ hg)) hkey⟩
  rw [h.split]
  rcases List.mem_append.mp hg with hg | hg
  · exact List.mem_append_left _ (List.mem_append_left _ hg)
  · exact List.mem_append_right _ hg

theorem newest_eq (h : Merge l c order f₀ before R after stream s) (key : ℕ) :
    l.newest key = (f₀.recordsOf key ++ l.level1.recordsOf key).head? := by
  rw [Levels.newest, Levels.recordsOf_level0 h.upper]

theorem keeps (h : Merge l c order f₀ before R after stream s) {key : ℕ} {r : Record κ}
    (hr : l.newest key = some r) (hpos : r.isNegative = false) :
    (l.applyAll (mergeOps f₀ R s)).newest key = some r := by
  rw [Levels.newest_of_empty h.empty]
  rw [h.newest_eq] at hr
  by_cases hkey : f₀.recordsOf key ++ (R.flatMap fun f => f.recordsOf key) = []
  · -- the key is in a file that stays
    obtain ⟨h₀, hR⟩ := List.append_eq_nil_iff.mp hkey
    rw [h₀, List.nil_append] at hr
    have hmem : r ∈ l.level1.recordsOf key := List.mem_of_mem_head? hr
    obtain ⟨g, hg, hgr⟩ := List.mem_flatMap.mp hmem
    have hne : g.recordsOf key ≠ [] := List.ne_nil_of_mem hgr
    have hgkept : g ∈ before ++ after := by
      rw [h.split] at hg
      rcases List.mem_append.mp hg with hg | hg
      · rcases List.mem_append.mp hg with hg | hg
        · exact List.mem_append_left _ hg
        · exact absurd (List.flatMap_eq_nil_iff.mp hR g hg) hne
      · exact List.mem_append_right _ hg
    obtain ⟨hold, hnew⟩ := h.recordsOf_kept hgkept hne
    rw [hnew, ← hold]
    exact hr
  · rw [h.recordsOf_lower hkey] at hr
    obtain ⟨v₁, id₁, hv, hid, hslot, hinter⟩ := h.interleaved key
    rw [h.recordsOf_new (groupOutput_of_positive hv hid ((h.ok.files f₀ h.mem_upper).slot key)
      hslot hinter hr hpos)]
    rfl

theorem reflects (h : Merge l c order f₀ before R after stream s) {key : ℕ}
    (hres : ¬Resurrects (stream.filter fun n => n.key = key)) {r : Record κ}
    (hr : (l.applyAll (mergeOps f₀ R s)).newest key = some r) : l.newest key = some r := by
  rw [Levels.newest_of_empty h.empty] at hr
  rw [h.newest_eq]
  obtain ⟨g, hg, hgr⟩ := List.mem_flatMap.mp (List.mem_of_mem_head? hr)
  have hne : g.recordsOf key ≠ [] := List.ne_nil_of_mem hgr
  rcases List.mem_append.mp (h.perm.mem_iff.mp hg) with hnew | hkept
  · -- a new file: the key was put out
    cases hout : groupOutput (stream.filter fun n => n.key = key) with
    | none =>
      have hfiles := h.recordsOf_files key
      rw [hout] at hfiles
      exact absurd (List.flatMap_eq_nil_iff.mp hfiles g hnew) hne
    | some e =>
      rw [h.recordsOf_new hout] at hr
      obtain ⟨v₁, id₁, hv, hid, hslot, hinter⟩ := h.interleaved key
      have hhead := (groupOutput_eq_some hv hid ((h.ok.files f₀ h.mem_upper).slot key) hslot hinter
        hout).2.resolve_right hres
      have hkey : f₀.recordsOf key ++ (R.flatMap fun f => f.recordsOf key) ≠ [] := by
        intro hnil
        rw [hnil] at hhead
        cases hhead
      rw [h.recordsOf_lower hkey, hhead]
      exact hr
  · obtain ⟨hold, hlower⟩ := h.recordsOf_kept hkept hne
    have h₀ : f₀.recordsOf key = [] := by
      have he := BitFile.mem_recordsOf.mp hgr
      refine BitFile.recordsOf_eq_nil.mpr fun e he' hek => ?_
      rcases h.kept_apart hkept with hlow | hhigh
      · have := hlow f₀ List.mem_cons_self _ he e he'
        simp only at this
        omega
      · have := hhigh f₀ List.mem_cons_self e he' _ he
        simp only at this
        omega
    rw [h₀, List.nil_append, hold, ← hlower]
    exact hr

theorem covered (h : Merge l c order f₀ before R after stream s) (n : ℕ) :
    (∀ f ∈ l.files, f ∈ (l.applyAll ((mergeOps f₀ R s).take n)).files) ∨
      ∀ f ∈ (l.applyAll (mergeOps f₀ R s)).files,
        f ∈ (l.applyAll ((mergeOps f₀ R s).take n)).files := by
  have hops : mergeOps f₀ R s = s.files.map .add1 ++
      ([f₀].map (fun f => .remove0 f.id) ++ R.map fun f => .remove1 f.id) := by
    rw [mergeOps, List.append_assoc]
  rcases Nat.lt_or_ge s.files.length n with hlt | hge
  · -- all new files are there; the rest of the calls only take files out
    right
    intro f hf
    rw [← List.take_append_drop n (mergeOps f₀ R s), Levels.applyAll_append] at hf
    refine Levels.applyAll_subset (fun op hop => ?_) _ hf
    rw [hops, List.drop_append, List.drop_eq_nil_of_le (by simpa using hlt.le),
      List.nil_append] at hop
    rcases List.mem_append.mp (List.mem_of_mem_drop hop) with hop | hop <;>
    · obtain ⟨g, -, rfl⟩ := List.mem_map.mp hop
      trivial
  · left
    intro f hf
    rw [hops, List.take_append_of_le_length (by simpa using hge), ← List.map_take,
      Levels.applyAll_add1]
    have hroom := h.room
    obtain ⟨hperm, -, -, -⟩ := BitLevel.addFiles_spec h.ok.tidy.sorted (show
        l.level1.files.length + (s.files.take n).length ≤ l.level1.maxSize by
      have := List.length_take_le n s.files
      omega)
    rcases Levels.mem_files.mp hf with hf | hf
    · exact Levels.mem_files.mpr (Or.inl hf)
    · exact Levels.mem_files.mpr (Or.inr (hperm.mem_iff.mpr (List.mem_append_right _ hf)))

/-- **A merge** does what a major compaction should. -/
theorem majorSpec (h : Merge l c order f₀ before R after stream s)
    (hinputs : mergeInputs l = f₀ :: R) :
    MajorSpec l c order ⟨mergeOps f₀ R s, s.superseded,
      (f₀ :: R).foldl (fun c f => c.releaseFile f.id) s.catalogue⟩ := by
  have halloc := h.settled.allocated
  have hkept : ∀ g ∈ before ++ after, g ∈ before ++ R ++ after := fun g hg => by
    rcases List.mem_append.mp hg with hg | hg
    · exact List.mem_append_left _ (List.mem_append_left _ hg)
    · exact List.mem_append_right _ hg
  have hinput : ∀ f ∈ f₀ :: R, f ∈ l.files := fun f hf => by
    rcases List.mem_cons.mp hf with rfl | hf
    · exact h.mem_upper
    · exact h.mem_relatives hf
  have hfiles : (l.applyAll (mergeOps f₀ R s)).files =
      (l.applyAll (mergeOps f₀ R s)).level1.files := by
    rw [Levels.files, h.empty, List.nil_append]
  have hadded : (mergeOps f₀ R s).filterMap LevelOp.added? = s.files := by
    simp [mergeOps, LevelOp.added?, List.filterMap_append, List.filterMap_map, Function.comp_def]
  refine ⟨h.empty, ?_, ?_, fun key r => h.keeps, fun hres key r hr => ?_, fun f hf e he => ?_,
    fun e he hpos => ?_, ?_, ?_, h.covered⟩
  · refine h.ok.replace h.empty ?_ ?_ h.tidy h.perm (fun g hg => h.split ▸ hkept g hg)
      (fun f hf => h.files_ok hf) (kwayMerge_level h.merge) ?_ (fun f hf => ?_) (fun i hi => ?_)
      (fun f hf => ?_) ?_
    · rw [Levels.applyAll_mergeOps]
      exact ⟨rfl, rfl⟩
    · rw [Levels.applyAll_mergeOps]
      exact (BitLevel.removeFiles_level _ _).1.trans
        (BitLevel.addFiles_spec h.ok.tidy.sorted h.room).2.2.1
    · refine h.nodup_files.sublist (List.Sublist.map _ (List.Sublist.append_left ?_ _))
      rw [h.split]
      exact (List.sublist_append_left before R).append (List.Sublist.refl after)
    · -- no descriptor in use is one of the released ones
      have hinUse : s.catalogue.InUse f.id ∧ ∀ g ∈ f₀ :: R, f.id ≠ g.id := by
        rcases List.mem_append.mp hf with hf | hf
        · refine ⟨halloc.inUse f.tag (List.mem_map_of_mem hf), fun g hg heq => ?_⟩
          exact halloc.fresh f.tag (List.mem_map_of_mem hf)
            (by simpa [BitFile.tag, heq] using h.ok.inUse g (hinput g hg))
        · refine ⟨halloc.keep _ (h.ok.inUse f (h.mem_lower (hkept f hf))), fun g hg heq => ?_⟩
          rcases List.mem_cons.mp hg with rfl | hg
          · exact h.id_ne (hkept f hf) heq
          · have hids := h.nodup_files
            rw [h.split, List.map_append, List.nodup_append, List.map_append, List.map_append,
              List.nodup_append, List.nodup_append] at hids
            obtain ⟨-, ⟨⟨-, -, hbR⟩, -, hRa⟩, -⟩ := hids
            rcases List.mem_append.mp hf with hf | hf
            · exact hbR f.id (List.mem_map_of_mem hf) g.id (List.mem_map_of_mem hg) heq
            · exact hRa g.id (List.mem_append_right _ (List.mem_map_of_mem hg)) f.id
                (List.mem_map_of_mem hf) heq.symm
      exact Catalogue.inUse_releaseFiles hinUse.1 hinUse.2
    · -- what is still in use was allocated in the merge or belongs to a file that stays
      rw [Catalogue.maxFd_releaseFiles, halloc.maxFd]
      obtain ⟨huse, hreleased⟩ := Catalogue.inUse_of_releaseFiles (fun f hf => by
        rw [halloc.maxFd]
        exact (h.ok.owned f.id (h.ok.inUse f (hinput f hf))).1) hi
      rcases halloc.only i huse with hold | ⟨hnew, hlt⟩
      · obtain ⟨hlt, f, hf, rfl⟩ := h.ok.owned i hold
        refine ⟨hlt, f, List.mem_append_right _ ?_, rfl⟩
        have hgone : f ∉ f₀ :: R := fun hmem => hreleased f hmem rfl
        rcases Levels.mem_files.mp hf with hf | hf
        · rw [h.upper, List.mem_singleton] at hf
          exact absurd (hf ▸ List.mem_cons_self) hgone
        · rw [h.split] at hf
          rcases List.mem_append.mp hf with hf | hf
          · rcases List.mem_append.mp hf with hf | hf
            · exact List.mem_append_left _ hf
            · exact absurd (List.mem_cons_of_mem _ hf) hgone
          · exact List.mem_append_right _ hf
      · obtain ⟨t, ht, rfl⟩ := List.mem_map.mp hnew
        obtain ⟨f, hf, rfl⟩ := List.mem_map.mp ht
        exact ⟨hlt, f, List.mem_append_left _ hf, rfl⟩
    · rw [Catalogue.maxVersion_releaseFiles]
      exact (halloc.version f.tag (List.mem_map_of_mem hf)).2
    · rw [Catalogue.maxVersion_releaseFiles]
      exact halloc.maxVersion
  · rw [Catalogue.maxVersion_releaseFiles]
    exact halloc.maxVersion
  · refine h.reflects (fun hk => hres ⟨stream, key, ?_, hk⟩) hr
    rw [hinputs]
    exact h.pops
  · rw [hfiles] at hf
    rcases List.mem_append.mp (h.perm.mem_iff.mp hf) with hf | hf
    · have hout : e ∈ s.output := by
        rw [s.output_eq]
        exact List.mem_flatMap.mpr ⟨f, hf, he⟩
      obtain ⟨g, hg, heg⟩ := h.exists_input hout
      exact ⟨g, hinput g hg, heg⟩
    · exact ⟨f, h.mem_lower (hkept f hf), he⟩
  · obtain ⟨v₁, id₁, hv, hid, hslot, hinter⟩ := h.interleaved e.1
    obtain ⟨hlower, r, hupper, hr⟩ := groupSuperseded_eq_some hv hid
      ((h.ok.files f₀ h.mem_upper).slot e.1) hslot hinter (h.settled.superseded_of_mem he) hpos
    refine ⟨?_, r, ?_, hr⟩
    · rw [h.recordsOf_lower (by simp [hupper]), hlower]
    · rw [Levels.recordsOf_level0 h.upper, hupper]
  · rw [hadded, hfiles]
    exact fun f hf => h.perm.mem_iff.mpr (List.mem_append_left _ hf)
  · rw [hadded, hfiles]
    intro f hf
    rcases List.mem_append.mp (h.perm.mem_iff.mp hf) with hf | hf
    · exact Or.inl hf
    · refine Or.inr ⟨h.mem_lower (hkept f hf), fun g hg heq => ?_⟩
      have hids := h.nodup_files
      rw [List.map_append, List.nodup_append] at hids
      exact hids.2.2 g.id (List.mem_map_of_mem hg) f.id
        (List.mem_map_of_mem (h.split ▸ hkept f hf)) heq

end Merge

/-- The two ways through `compaction_job_run`: the file of level 0 is moved, or merged with the
files it overlaps. -/
theorem compactionJobRun_cases (hok : l.Ok c) (hf₀ : l.level0.files = [f₀])
    {comp : Compaction κ} (h : compactionJobRun l c order = some comp) :
    l.level1.findRelativeFiles [f₀] = [] ∧
        comp = ⟨(moveFiles l.level1.level c [f₀]).1, [], (moveFiles l.level1.level c [f₀]).2⟩ ∨
      ∃ before R after stream s, mergeInputs l = f₀ :: R ∧ (∀ f ∈ f₀ :: R, f.entries ≠ []) ∧
        (l.level1.isFull = false → Merge l c order f₀ before R after stream s) ∧
        R ≠ [] ∧ l.level1.files = before ++ R ++ after ∧
        pops MergeNode.key ((f₀ :: R).map BitFile.nodes) order = some stream ∧
        kwayMerge c l.level1.level stream = some s ∧
        comp = ⟨mergeOps f₀ R s, s.superseded,
          (f₀ :: R).foldl (fun c f => c.releaseFile f.id) s.catalogue⟩ := by
  have hdemoted : l.level0.pickDemotedFiles = [f₀] := by
    rw [BitLevel.pickDemotedFiles, if_neg (by simp [hok.level0.1]), hf₀]
  have hinputs : mergeInputs l = f₀ :: l.level1.findRelativeFiles [f₀] := by
    rw [mergeInputs, hdemoted, List.singleton_append]
  unfold compactionJobRun at h
  rw [hdemoted, hinputs] at h
  split at h
  · rename_i hmove
    simp only [Bool.and_eq_true, List.isEmpty_iff] at hmove
    exact Or.inl ⟨hmove.1, (Option.some.inj h).symm⟩
  · rename_i hmerge
    split at h
    · cases h
    · rename_i hempty
      obtain ⟨stream, hpops, hmap⟩ := Option.bind_eq_some_iff.mp h
      obtain ⟨s, hs, rfl⟩ := Option.map_eq_some_iff.mp hmap
      have hnonempty : ∀ f ∈ f₀ :: l.level1.findRelativeFiles [f₀], f.entries ≠ [] := by
        intro f hf hnil
        exact hempty (List.any_eq_true.mpr ⟨f, hf, by simp [hnil]⟩)
      have hmem₀ : f₀ ∈ l.files := Levels.mem_files.mpr (Or.inl (by simp [hf₀]))
      obtain ⟨before, after, hsplit, hbefore, hafter⟩ :=
        hok.tidy.findRelativeFiles_spec
          (fun f hf => List.mem_singleton.mp hf ▸ (hok.files f₀ hmem₀).sorted)
          fun f hf => hnonempty f (List.mem_cons_of_mem _ hf)
      have hne : l.level1.findRelativeFiles [f₀] ≠ [] := by
        intro hnil
        rw [hnil] at hmerge
        simp [lsmFileOverlapping] at hmerge
      refine Or.inr ⟨before, _, after, stream, s, hinputs, hnonempty, fun hfull => ?_, hne, hsplit,
        hpops, hs, rfl⟩
      exact ⟨hok, hf₀, hfull, hsplit, fun g hg => hbefore g hg f₀ List.mem_cons_self,
        fun g hg => hafter g hg f₀ List.mem_cons_self, hne, hpops, hs⟩

/-- **Major compaction.** -/
theorem majorCompaction_spec (hok : l.Ok c) (hf₀ : l.level0.files = [f₀])
    {comp : Compaction κ} (h : majorCompaction l c order = some comp) :
    MajorSpec l c order comp := by
  rw [majorCompaction] at h
  split at h
  · cases h
  · rename_i hfull
    have hfull : l.level1.isFull = false := by simpa using hfull
    rcases compactionJobRun_cases hok hf₀ h with ⟨hrel, rfl⟩ |
      ⟨before, R, after, stream, s, hinputs, -, hm, -, -, -, -, rfl⟩
    · exact majorSpec_move hok hf₀ hfull hrel
    · exact (hm hfull).majorSpec hinputs

end Major

end JinDisk
