import Mathlib.Data.List.Pairwise
import Mathlib.Data.List.Perm.Basic
import Mathlib.Order.Basic
import JinDisk.Memtable
import JinDisk.Lib.BinarySearch

/-!
# Index files and levels

`bit_file_*` and `bit_level_*` of `lsm_tree.c`. An index file is an immutable sorted run of
records; a level is an array of files in the order of their key ranges. Files are found by
three different binary searches: where to insert one, which one holds a key, and which ones
a compaction has to merge with.

The nodes of a file and its caches are not modelled here: a file is the list of entries its
leaves hold. A file built from no entries exists all the same, with the range from 0 to 0;
its root cannot be decoded, so that `cached_root` is `NULL` and looking into the file is a
`NULL` dereference. Operations that would fault return `none`.
-/

namespace JinDisk

open BinarySearch

variable {κ : Type}

/-- `struct bit_file` -/
structure BitFile (κ : Type) where
  /-- descriptor in the catalogue -/
  id : ℕ
  /-- the level it was built for -/
  level : ℕ
  /-- files built later have larger versions -/
  version : ℕ
  /-- keys and records in the order of the leaves -/
  entries : List (ℕ × Record κ)
  deriving DecidableEq

namespace BitFile

/-- `first_key`, which stays 0 when no entry is added. -/
def firstKey (f : BitFile κ) : ℕ := (f.entries.head?.map Prod.fst).getD 0

/-- `last_key` -/
def lastKey (f : BitFile κ) : ℕ := (f.entries.getLast?.map Prod.fst).getD 0

/-- The records of a key, in order. -/
def recordsOf (f : BitFile κ) (key : ℕ) : List (Record κ) :=
  (f.entries.filter fun e => e.1 = key).map Prod.snd

/-- `bit_file_search`: the first record of the key, if there is one. -/
def search (f : BitFile κ) (key : ℕ) : Option (Option (Record κ)) :=
  if key < f.firstKey ∨ f.lastKey < key then some none
  else if f.entries.isEmpty then none
  else some (f.recordsOf key).head?

/-- `bit_file_cmp` -/
def cmp (f g : BitFile κ) : ℤ :=
  if f.firstKey = g.firstKey then (f.lastKey : ℤ) - g.lastKey
  else (f.firstKey : ℤ) - g.firstKey

/-- `bit_file_cmp_key` -/
def cmpKey (key : ℕ) (f : BitFile κ) : Ordering :=
  if f.firstKey ≤ key ∧ key ≤ f.lastKey then .eq
  else if key < f.firstKey then .lt
  else .gt

end BitFile

/-- `struct bit_level` -/
structure BitLevel (κ : Type) where
  /-- number of the level -/
  level : ℕ
  /-- when the level counts as full -/
  capacity : ℕ
  /-- `bit_files` -/
  files : List (BitFile κ)

namespace BitLevel

/-- `bit_level_create` -/
def create (level capacity : ℕ) : BitLevel κ := ⟨level, capacity, []⟩

/-- `DEFAULT_LSM_LEVEL0_NR_FILE` -/
def defaultLsmLevel0NrFile : ℕ := 1

/-- The length of the array. -/
def maxSize (l : BitLevel κ) : ℕ := 2 * l.capacity + defaultLsmLevel0NrFile

/-- `bit_level_is_full` -/
def isFull (l : BitLevel κ) : Bool := l.capacity ≤ l.files.length

/-- `bit_level_search_file`: the position for a new file. -/
def searchFile (l : BitLevel κ) (file : BitFile κ) : ℕ :=
  match l.files.head?, l.files.getLast? with
  | some first, some last =>
    if 0 ≤ first.cmp file then 0
    else if last.cmp file ≤ 0 then l.files.length
    else
      partitionPoint (fun mid => (l.files[mid]?).any fun f => f.cmp file < 0) 0
        (l.files.length - 1)
  | _, _ => 0

/-- `bit_level_add_file`. In a full array nothing happens; nobody looks at the error. -/
def addFile (l : BitLevel κ) (file : BitFile κ) : BitLevel κ :=
  if l.maxSize ≤ l.files.length then l
  else
    { l with
      files := l.files.take (l.searchFile file) ++ file :: l.files.drop (l.searchFile file) }

/-- `bit_level_remove_file` -/
def removeFile (l : BitLevel κ) (id : ℕ) : BitLevel κ :=
  { l with files := l.files.eraseP fun f => f.id = id }

/-- How the key compares with the file at an index. -/
def cmpKeyAt (l : BitLevel κ) (key i : ℕ) : Ordering :=
  match l.files[i]? with
  | some f => f.cmpKey key
  | none => .lt

/-- `bit_level_locate_file` -/
def locateFile (l : BitLevel κ) (key : ℕ) : Option (BitFile κ) :=
  (bsearch (l.cmpKeyAt key) 0 l.files.length).bind fun i => l.files[i]?

/-- `bit_level_linear_search`: the found record of the file with the largest version. -/
def linearSearch (l : BitLevel κ) (key : ℕ) : Option (Option (Record κ)) :=
  (l.files.foldlM (fun acc f =>
    if f.version < acc.1 then some acc
    else if key < f.firstKey ∨ f.lastKey < key then some acc
    else (f.search key).map fun r => if r.isSome then (f.version, r) else acc)
    (0, none)).map Prod.snd

/-- `bit_level_search` -/
def search (l : BitLevel κ) (key : ℕ) : Option (Option (Record κ)) :=
  if l.level = 0 then l.linearSearch key
  else
    match l.locateFile key with
    | none => some none
    | some f => f.search key

/-- `bit_level_lower_bound` -/
def lowerBound (l : BitLevel κ) (key : ℕ) : ℕ :=
  match l.files.head?, l.files.getLast? with
  | some first, some last =>
    if key < first.firstKey then 0
    else if last.lastKey < key then l.files.length
    else BinarySearch.lowerBound (l.cmpKeyAt key) 0 l.files.length
  | _, _ => 0

/-- `bit_level_find_relative_files`: the files whose range meets the one of `files`. -/
def findRelativeFiles (l : BitLevel κ) (files : List (BitFile κ)) : List (BitFile κ) :=
  let firstKey := files.foldl (fun k f => min k f.firstKey) 0xffffffff
  let lastKey := files.foldl (fun k f => max k f.lastKey) 0
  match l.files.head?, l.files.getLast? with
  | some first, some last =>
    if lastKey < first.firstKey ∨ last.lastKey < firstKey then []
    else (l.files.drop (l.lowerBound firstKey)).takeWhile fun f => f.firstKey ≤ lastKey
  | _, _ => []

/-- The records of a key in a level. -/
def recordsOf (l : BitLevel κ) (key : ℕ) : List (Record κ) :=
  l.files.flatMap fun f => f.recordsOf key

end BitLevel

/-! ## One file -/

namespace BitFile

/-- The keys do not decrease. -/
def Sorted (f : BitFile κ) : Prop := f.entries.Pairwise fun a b => a.1 ≤ b.1

theorem mem_recordsOf {f : BitFile κ} {key : ℕ} {r : Record κ} :
    r ∈ f.recordsOf key ↔ (key, r) ∈ f.entries := by
  simp [recordsOf]

theorem recordsOf_eq_nil {f : BitFile κ} {key : ℕ} :
    f.recordsOf key = [] ↔ ∀ e ∈ f.entries, e.1 ≠ key := by
  simp [recordsOf, List.filter_eq_nil_iff]

theorem firstKey_le {f : BitFile κ} (h : f.Sorted) {e : ℕ × Record κ} (he : e ∈ f.entries) :
    f.firstKey ≤ e.1 := by
  rw [Sorted] at h
  rw [firstKey]
  cases hf : f.entries with
  | nil =>
    rw [hf] at he
    cases he
  | cons a l =>
    rw [hf] at h he
    rcases List.mem_cons.mp he with rfl | he'
    · exact le_rfl
    · exact List.rel_of_pairwise_cons h he'

theorem le_lastKey {f : BitFile κ} (h : f.Sorted) {e : ℕ × Record κ} (he : e ∈ f.entries) :
    e.1 ≤ f.lastKey := by
  rw [Sorted] at h
  rw [lastKey]
  obtain ⟨l, a, hf⟩ := (List.eq_nil_or_concat' f.entries).resolve_left (List.ne_nil_of_mem he)
  rw [hf] at h he ⊢
  rw [List.getLast?_concat]
  rcases List.mem_append.mp he with he' | he'
  · exact (List.pairwise_append.mp h).2.2 e he' a List.mem_cons_self
  · rw [List.mem_singleton.mp he']
    exact le_rfl

/-- A file that is not empty has entries at both ends of its range. -/
theorem exists_firstKey {f : BitFile κ} (h : f.entries ≠ []) : ∃ e ∈ f.entries, e.1 = f.firstKey := by
  rw [firstKey]
  cases hf : f.entries with
  | nil => exact absurd hf h
  | cons a l => exact ⟨a, List.mem_cons_self, rfl⟩

theorem exists_lastKey {f : BitFile κ} (h : f.entries ≠ []) : ∃ e ∈ f.entries, e.1 = f.lastKey := by
  rw [lastKey]
  obtain ⟨l, a, hf⟩ := (List.eq_nil_or_concat' f.entries).resolve_left h
  rw [hf]
  exact ⟨a, by simp, by simp⟩

theorem firstKey_of_empty {f : BitFile κ} (h : f.entries = []) : f.firstKey = 0 := by
  simp [firstKey, h]

theorem lastKey_of_empty {f : BitFile κ} (h : f.entries = []) : f.lastKey = 0 := by
  simp [lastKey, h]

/-! ### The order of files in a level -/

/-- The order behind `bit_file_cmp`. -/
def Le (f g : BitFile κ) : Prop :=
  f.firstKey < g.firstKey ∨ f.firstKey = g.firstKey ∧ f.lastKey ≤ g.lastKey

theorem cmp_nonpos_iff {f g : BitFile κ} : f.cmp g ≤ 0 ↔ f.Le g := by
  rw [cmp, Le]
  split <;> omega

theorem cmp_nonneg_iff {f g : BitFile κ} : 0 ≤ f.cmp g ↔ g.Le f := by
  rw [cmp, Le]
  split <;> omega

theorem Le.trans {f g h : BitFile κ} (h₁ : f.Le g) (h₂ : g.Le h) : f.Le h := by
  rw [Le] at *
  omega

theorem Le.firstKey_le {f g : BitFile κ} (h : f.Le g) : f.firstKey ≤ g.firstKey := by
  rw [Le] at h
  omega

/-- Every key of `f` is smaller than every key of `g`. -/
def Before (f g : BitFile κ) : Prop := ∀ a ∈ f.entries, ∀ b ∈ g.entries, a.1 < b.1

/-- The files have no common range of keys. -/
def Apart (f g : BitFile κ) : Prop := f.Before g ∨ g.Before f

theorem Apart.symm {f g : BitFile κ} (h : f.Apart g) : g.Apart f := Or.symm h

/-- Of two files apart, the one that comes first in the order lies before the other. -/
theorem Le.before {f g : BitFile κ} (hle : f.Le g) (h : f.Apart g) : f.Before g := by
  rcases h with h | h
  · exact h
  · intro a ha b hb
    obtain ⟨x, hx, hxf⟩ := exists_firstKey (List.ne_nil_of_mem ha)
    obtain ⟨y, hy, hyg⟩ := exists_firstKey (List.ne_nil_of_mem hb)
    have hlt : y.1 < x.1 := h y hy x hx
    have := hle.firstKey_le
    omega

/-- The upper ends are ordered as well. -/
theorem Le.lastKey_le {f g : BitFile κ} (hle : f.Le g) (h : f.Before g) :
    f.lastKey ≤ g.lastKey := by
  by_cases hf : f.entries = []
  · rw [lastKey_of_empty hf]
    exact Nat.zero_le _
  · by_cases hg : g.entries = []
    · -- only an empty range lies below the empty file
      have h₁ := firstKey_of_empty hg
      have h₂ := lastKey_of_empty hg
      rw [Le] at hle
      omega
    · obtain ⟨a, ha, hal⟩ := exists_lastKey hf
      obtain ⟨b, hb, hbl⟩ := exists_lastKey hg
      have := h a ha b hb
      omega

end BitFile

/-! ## One level -/

namespace BitLevel

/-- The files are in the order of `bit_file_cmp`. -/
def Sorted (l : BitLevel κ) : Prop := l.files.Pairwise BitFile.Le

/-- What holds of a file and every later one holds of the files in two slots. -/
theorem rel_of_lt {l : BitLevel κ} {R : BitFile κ → BitFile κ → Prop} (h : l.files.Pairwise R)
    {i j : ℕ} {f g : BitFile κ} (hij : i < j) (hf : l.files[i]? = some f)
    (hg : l.files[j]? = some g) : R f g := by
  obtain ⟨hi, rfl⟩ := List.getElem?_eq_some_iff.mp hf
  obtain ⟨hj, rfl⟩ := List.getElem?_eq_some_iff.mp hg
  exact List.pairwise_iff_getElem.mp h i j hi hj hij

theorem Sorted.le_of_le {l : BitLevel κ} (h : l.Sorted) {i j : ℕ} {f g : BitFile κ} (hij : i < j)
    (hf : l.files[i]? = some f) (hg : l.files[j]? = some g) : f.Le g := rel_of_lt h hij hf hg

/-- In front of a file that compares smaller than `file`, all files do. -/
theorem Sorted.below_of_le {l : BitLevel κ} (h : l.Sorted) {file : BitFile κ} (i j : ℕ)
    (hij : i ≤ j) (hj : j < l.files.length)
    (hb : ((l.files[j]?).any fun f => f.cmp file < 0) = true) :
    ((l.files[i]?).any fun f => f.cmp file < 0) = true := by
  rcases Nat.eq_or_lt_of_le hij with rfl | hlt
  · exact hb
  · have hi' := List.getElem?_eq_getElem (Nat.lt_trans hlt hj)
    have hj' := List.getElem?_eq_getElem hj
    rw [hj'] at hb
    rw [hi']
    simp only [Option.any_some, decide_eq_true_eq] at hb ⊢
    refine Int.not_le.mp fun hge => ?_
    have hle := (BitFile.cmp_nonneg_iff.mp hge).trans (h.le_of_le hlt hi' hj')
    exact absurd (BitFile.cmp_nonneg_iff.mpr hle) (Int.not_le.mpr hb)

/-- The ends of the array of files, as indices. -/
theorem ends_eq_some {l : BitLevel κ} {first last : BitFile κ} (hfirst : l.files.head? = some first)
    (hlast : l.files.getLast? = some last) :
    l.files[0]? = some first ∧ l.files[l.files.length - 1]? = some last :=
  ⟨by rw [← hfirst, List.head?_eq_getElem?], by rw [← hlast, List.getLast?_eq_getElem?]⟩

theorem files_eq_nil_of_ends {l : BitLevel κ}
    (h : ∀ first last, l.files.head? = some first → l.files.getLast? = some last → False) :
    l.files = [] := by
  cases hl : l.files with
  | nil => rfl
  | cons f fs =>
    exact (h f ((f :: fs).getLast (by simp)) (by rw [hl]; rfl)
      (by rw [hl, List.getLast?_eq_some_getLast])).elim

/-- The position for a new file keeps the order. -/
theorem searchFile_spec {l : BitLevel κ} (h : l.Sorted) (file : BitFile κ) :
    (∀ i f, i < l.searchFile file → l.files[i]? = some f → f.Le file) ∧
      ∀ i f, l.searchFile file ≤ i → l.files[i]? = some f → file.Le f := by
  rw [searchFile]
  split
  · rename_i first last hfirst hlast
    obtain ⟨hfirst₀, hlast₀⟩ := ends_eq_some hfirst hlast
    split
    · rename_i hcmp
      have hle : file.Le first := BitFile.cmp_nonneg_iff.mp hcmp
      refine ⟨fun i f hi => absurd hi (Nat.not_lt_zero i), fun i f _ hf => ?_⟩
      rcases Nat.eq_zero_or_pos i with rfl | hi
      · exact Option.some.inj (hfirst₀.symm.trans hf) ▸ hle
      · exact hle.trans (h.le_of_le hi hfirst₀ hf)
    · split
      · rename_i hcmp
        have hle : last.Le file := BitFile.cmp_nonpos_iff.mp hcmp
        refine ⟨fun i f hi hf => ?_, fun i f hi hf => ?_⟩
        · rcases Nat.lt_or_ge i (l.files.length - 1) with hi' | hi'
          · exact (h.le_of_le hi' hf hlast₀).trans hle
          · rw [show i = l.files.length - 1 by omega] at hf
            exact Option.some.inj (hlast₀.symm.trans hf) ▸ hle
        · exact absurd (List.getElem?_eq_some_iff.mp hf).1 (by omega)
      · -- the loop: the files that compare smaller come first
        rename_i hcmp
        obtain ⟨-, -, hbefore, hafter⟩ :=
          partitionPoint_spec h.below_of_le (Nat.zero_le _) (Nat.sub_le l.files.length 1)
        refine ⟨fun i f hi hf => ?_, fun i f hi hf => ?_⟩
        · have := hbefore i (Nat.zero_le i) hi
          rw [hf] at this
          simp only [Option.any_some, decide_eq_true_eq] at this
          exact BitFile.cmp_nonpos_iff.mp (Int.le_of_lt this)
        · rcases Nat.lt_or_ge i (l.files.length - 1) with hi' | hi'
          · have := hafter i hi hi'
            rw [hf] at this
            simp only [Option.any_some, decide_eq_false_iff_not] at this
            exact BitFile.cmp_nonneg_iff.mp (Int.not_lt.mp this)
          · have hlen := (List.getElem?_eq_some_iff.mp hf).1
            rw [show i = l.files.length - 1 by omega] at hf
            obtain rfl := Option.some.inj (hlast₀.symm.trans hf)
            exact BitFile.cmp_nonneg_iff.mp (Int.le_of_lt (Int.not_le.mp hcmp))
  · rename_i hnone
    rw [files_eq_nil_of_ends hnone]
    exact ⟨fun i f _ hf => by simp at hf, fun i f _ hf => by simp at hf⟩

theorem addFile_of_lt {l : BitLevel κ} (hroom : l.files.length < l.maxSize) (file : BitFile κ) :
    l.addFile file =
      { l with
        files := l.files.take (l.searchFile file) ++ file :: l.files.drop (l.searchFile file) } :=
  if_neg (Nat.not_le_of_lt hroom)

theorem addFile_perm {l : BitLevel κ} (hroom : l.files.length < l.maxSize) (file : BitFile κ) :
    (l.addFile file).files.Perm (file :: l.files) := by
  rw [addFile_of_lt hroom]
  refine List.perm_middle.trans ?_
  rw [List.take_append_drop]

theorem Sorted.addFile {l : BitLevel κ} (h : l.Sorted) (file : BitFile κ) :
    (l.addFile file).Sorted := by
  rw [BitLevel.addFile]
  split
  · exact h
  · obtain ⟨hbefore, hafter⟩ := searchFile_spec h file
    have hparts : (l.files.take (l.searchFile file) ++
        l.files.drop (l.searchFile file)).Pairwise BitFile.Le := by
      rw [List.take_append_drop]
      exact h
    obtain ⟨htake, hdrop, hcross⟩ := List.pairwise_append.mp hparts
    have hle₁ : ∀ f ∈ l.files.take (l.searchFile file), f.Le file := by
      intro f hf
      obtain ⟨i, hi, rfl⟩ := List.mem_take_iff_getElem.mp hf
      exact hbefore i _ (by omega) (List.getElem?_eq_getElem _)
    have hle₂ : ∀ f ∈ l.files.drop (l.searchFile file), file.Le f := by
      intro f hf
      obtain ⟨i, hi, rfl⟩ := List.mem_drop_iff_getElem.mp hf
      exact hafter _ _ (Nat.le_add_right _ i) (List.getElem?_eq_getElem _)
    refine List.pairwise_append.mpr ⟨htake, List.pairwise_cons.mpr ⟨hle₂, hdrop⟩, ?_⟩
    intro f hf g hg
    rcases List.mem_cons.mp hg with rfl | hg'
    · exact hle₁ f hf
    · exact hcross f hf g hg'

theorem Sorted.removeFile {l : BitLevel κ} (h : l.Sorted) (id : ℕ) : (l.removeFile id).Sorted :=
  h.sublist List.eraseP_sublist

/-! ### A level whose files have ranges of their own -/

/-- The files are in order, sorted, and no two of them share a range of keys. -/
structure Tidy (l : BitLevel κ) : Prop where
  /-- the order of the array -/
  sorted : l.Sorted
  /-- the order within the files -/
  files : ∀ f ∈ l.files, f.Sorted
  /-- no range overlaps another -/
  apart : l.files.Pairwise BitFile.Apart

theorem Tidy.before {l : BitLevel κ} (h : l.Tidy) : l.files.Pairwise BitFile.Before :=
  (h.sorted.and h.apart).imp fun hfg => hfg.1.before hfg.2

theorem Tidy.before_of_lt {l : BitLevel κ} (h : l.Tidy) {i j : ℕ} {f g : BitFile κ} (hij : i < j)
    (hf : l.files[i]? = some f) (hg : l.files[j]? = some g) : f.Before g :=
  rel_of_lt h.before hij hf hg

theorem Tidy.firstKey_le {l : BitLevel κ} (h : l.Tidy) {i j : ℕ} {f g : BitFile κ} (hij : i ≤ j)
    (hf : l.files[i]? = some f) (hg : l.files[j]? = some g) : f.firstKey ≤ g.firstKey := by
  rcases Nat.eq_or_lt_of_le hij with rfl | hlt
  · obtain rfl := Option.some.inj (hf.symm.trans hg)
    exact le_rfl
  · exact (h.sorted.le_of_le hlt hf hg).firstKey_le

theorem Tidy.lastKey_le {l : BitLevel κ} (h : l.Tidy) {i j : ℕ} {f g : BitFile κ} (hij : i ≤ j)
    (hf : l.files[i]? = some f) (hg : l.files[j]? = some g) : f.lastKey ≤ g.lastKey := by
  rcases Nat.eq_or_lt_of_le hij with rfl | hlt
  · obtain rfl := Option.some.inj (hf.symm.trans hg)
    exact le_rfl
  · exact (h.sorted.le_of_le hlt hf hg).lastKey_le (h.before_of_lt hlt hf hg)

/-- `bsearch` finds its way if no file ends before the key behind one with the key in its range. -/
theorem Sorted.descending {l : BitLevel κ} (h : l.Sorted) {key : ℕ}
    (hlast : ∀ (i j : ℕ) (f g : BitFile κ), i < j → l.files[i]? = some f → l.files[j]? = some g →
      f.firstKey ≤ key → key ≤ f.lastKey → key ≤ g.lastKey) :
    Descending (l.cmpKeyAt key) l.files.length := by
  refine ⟨fun i j hij hj hgt => ?_, fun i j hij hj hlt => ?_⟩
  all_goals
    rcases Nat.eq_or_lt_of_le hij with rfl | hij
    · assumption
    · have hi' := List.getElem?_eq_getElem (Nat.lt_trans hij hj)
      have hj' := List.getElem?_eq_getElem hj
      have hfirst := (h.le_of_le hij hi' hj').firstKey_le
      have hlast' := hlast i j _ _ hij hi' hj'
      simp only [cmpKeyAt, hi', hj', BitFile.cmpKey] at *
      grind

theorem Tidy.descending {l : BitLevel κ} (h : l.Tidy) (key : ℕ) :
    Descending (l.cmpKeyAt key) l.files.length :=
  h.sorted.descending fun _ _ _ _ hij hf hg _ hkey => hkey.trans (h.lastKey_le hij.le hf hg)

/-- The file of a tidy level that holds a key, and nothing of the key elsewhere. -/
theorem Tidy.recordsOf_eq {l : BitLevel κ} (h : l.Tidy) {i : ℕ} {f : BitFile κ}
    (hf : l.files[i]? = some f) {key : ℕ} (hfirst : ∃ a ∈ f.entries, a.1 ≤ key)
    (hlast : ∃ b ∈ f.entries, key ≤ b.1) : l.recordsOf key = f.recordsOf key := by
  obtain ⟨a, ha, hakey⟩ := hfirst
  obtain ⟨b, hb, hbkey⟩ := hlast
  obtain ⟨hi, hget⟩ := List.getElem?_eq_some_iff.mp hf
  have hsplit : l.files = l.files.take i ++ f :: l.files.drop (i + 1) := by
    rw [← hget, ← List.drop_eq_getElem_cons hi, List.take_append_drop]
  have hpair := h.before
  rw [hsplit] at hpair
  obtain ⟨-, hrest, hcross⟩ := List.pairwise_append.mp hpair
  have hbefore : (l.files.take i).flatMap (fun g => g.recordsOf key) = [] := by
    refine List.flatMap_eq_nil_iff.mpr fun g hg => BitFile.recordsOf_eq_nil.mpr fun e he hek => ?_
    have := hcross g hg f List.mem_cons_self e he a ha
    omega
  have hafter : (l.files.drop (i + 1)).flatMap (fun g => g.recordsOf key) = [] := by
    refine List.flatMap_eq_nil_iff.mpr fun g hg => BitFile.recordsOf_eq_nil.mpr fun e he hek => ?_
    have := List.rel_of_pairwise_cons hrest hg b hb e he
    omega
  rw [recordsOf]
  rw [hsplit, List.flatMap_append, List.flatMap_cons, hbefore, hafter, List.nil_append,
    List.append_nil]

/-- Two files of a tidy level have no key in common. -/
theorem Tidy.recordsOf_eq_nil_of_ne {l : BitLevel κ} (ht : l.Tidy) {f g : BitFile κ} (hf : f ∈ l.files)
    (hg : g ∈ l.files) (hne : f ≠ g) {a : ℕ} (ha : g.recordsOf a ≠ []) : f.recordsOf a = [] := by
  have hsymm : Std.Symm (BitFile.Apart : BitFile κ → BitFile κ → Prop) :=
    ⟨fun _ _ => BitFile.Apart.symm⟩
  have hapart := ht.apart.forall hf hg hne
  obtain ⟨r, hr⟩ := List.exists_mem_of_ne_nil _ ha
  have hmem := BitFile.mem_recordsOf.mp hr
  refine BitFile.recordsOf_eq_nil.mpr fun e he hkey => ?_
  rcases hapart with hlt | hlt
  · have := hlt e he _ hmem
    simp only at this
    omega
  · have := hlt _ hmem e he
    simp only at this
    omega

/-- No range holds the key. -/
theorem recordsOf_of_locateFile_none {l : BitLevel κ} (hfiles : ∀ f ∈ l.files, f.Sorted) {key : ℕ}
    (hdesc : Descending (l.cmpKeyAt key) l.files.length) (hnone : l.locateFile key = none) :
    l.recordsOf key = [] := by
  rw [locateFile] at hnone
  refine List.flatMap_eq_nil_iff.mpr fun f hf => BitFile.recordsOf_eq_nil.mpr fun e he hek => ?_
  obtain ⟨i, hi, rfl⟩ := List.getElem_of_mem hf
  have hget := List.getElem?_eq_getElem hi
  have hrange : l.cmpKeyAt key i = .eq := by
    have h₁ := BitFile.firstKey_le (hfiles _ hf) he
    have h₂ := BitFile.le_lastKey (hfiles _ hf) he
    simp only [cmpKeyAt, hget, BitFile.cmpKey]
    rw [if_pos (by omega)]
  cases hb : bsearch (l.cmpKeyAt key) 0 l.files.length with
  | none =>
    exact bsearch_eq_none hdesc (by omega) hb (Nat.zero_le i) (by omega) hrange
  | some j =>
    obtain ⟨-, hj, -⟩ := bsearch_eq_some hb
    rw [hb, Option.bind_some, List.getElem?_eq_getElem (by omega)] at hnone
    cases hnone

theorem Tidy.recordsOf_of_locateFile_none {l : BitLevel κ} (h : l.Tidy) {key : ℕ}
    (hnone : l.locateFile key = none) : l.recordsOf key = [] :=
  BitLevel.recordsOf_of_locateFile_none h.files (h.descending key) hnone

/-- The file that is located has the key in its range. -/
theorem locateFile_eq_some {l : BitLevel κ} {key : ℕ} {f : BitFile κ}
    (hsome : l.locateFile key = some f) :
    (∃ i : ℕ, l.files[i]? = some f) ∧ f.firstKey ≤ key ∧ key ≤ f.lastKey := by
  obtain ⟨i, hb, hf⟩ := Option.bind_eq_some_iff.mp hsome
  obtain ⟨-, -, heq⟩ := bsearch_eq_some hb
  refine ⟨⟨i, hf⟩, ?_⟩
  simp only [cmpKeyAt, hf, BitFile.cmpKey] at heq
  split at heq
  · assumption
  · split at heq <;> cases heq

/-- If it is not empty, it has all records of the key. -/
theorem Tidy.recordsOf_of_locateFile {l : BitLevel κ} (h : l.Tidy) {key : ℕ} {f : BitFile κ}
    (hsome : l.locateFile key = some f) (hne : f.entries ≠ []) :
    l.recordsOf key = f.recordsOf key := by
  obtain ⟨⟨i, hf⟩, hfirst, hlast⟩ := locateFile_eq_some hsome
  obtain ⟨a, ha, hak⟩ := BitFile.exists_firstKey hne
  obtain ⟨b, hb, hbk⟩ := BitFile.exists_lastKey hne
  exact h.recordsOf_eq hf ⟨a, ha, by omega⟩ ⟨b, hb, by omega⟩

/-- **Search in a level** whose ranges descend at the key. A search that does not fault returns the
first record of the key, provided that a file with the key in its range has the first record. -/
theorem search_eq_head? {l : BitLevel κ} (hlevel : l.level ≠ 0) (hfiles : ∀ f ∈ l.files, f.Sorted)
    {key : ℕ} (hdesc : Descending (l.cmpKeyAt key) l.files.length)
    (hhead : ∀ f, l.locateFile key = some f → f.entries ≠ [] →
      (l.recordsOf key).head? = (f.recordsOf key).head?)
    {res : Option (Record κ)} (hs : l.search key = some res) : res = (l.recordsOf key).head? := by
  simp only [search, if_neg hlevel] at hs
  split at hs
  · rename_i hnone
    obtain rfl := Option.some.inj hs
    rw [recordsOf_of_locateFile_none hfiles hdesc hnone]
    rfl
  · rename_i f hsome
    obtain ⟨-, hfirst, hlast⟩ := locateFile_eq_some hsome
    rw [BitFile.search, if_neg (by omega)] at hs
    split at hs
    · cases hs
    · rename_i hne
      rw [hhead f hsome fun hnil => hne (List.isEmpty_iff.mpr hnil)]
      exact (Option.some.inj hs).symm

/-- **Search in a tidy level.** -/
theorem Tidy.search_eq {l : BitLevel κ} (h : l.Tidy) (hlevel : l.level ≠ 0) {key : ℕ}
    {res : Option (Record κ)} (hs : l.search key = some res) : res = (l.recordsOf key).head? := by
  refine search_eq_head? hlevel h.files (h.descending key) (fun f hsome hne => ?_) hs
  rw [h.recordsOf_of_locateFile hsome hne]

/-! ### The files to merge with -/

theorem foldl_min_le {files : List (BitFile κ)} {k : ℕ} :
    files.foldl (fun k f => min k f.firstKey) k ≤ k ∧
      ∀ f ∈ files, files.foldl (fun k f => min k f.firstKey) k ≤ f.firstKey := by
  induction files generalizing k with
  | nil => exact ⟨le_rfl, fun f hf => absurd hf List.not_mem_nil⟩
  | cons g files ih =>
    obtain ⟨hk, hall⟩ := ih (k := min k g.firstKey)
    refine ⟨hk.trans (Nat.min_le_left _ _), fun f hf => ?_⟩
    rcases List.mem_cons.mp hf with rfl | hf'
    · exact hk.trans (Nat.min_le_right _ _)
    · exact hall f hf'

theorem le_foldl_max {files : List (BitFile κ)} {k : ℕ} :
    k ≤ files.foldl (fun k f => max k f.lastKey) k ∧
      ∀ f ∈ files, f.lastKey ≤ files.foldl (fun k f => max k f.lastKey) k := by
  induction files generalizing k with
  | nil => exact ⟨le_rfl, fun f hf => absurd hf List.not_mem_nil⟩
  | cons g files ih =>
    obtain ⟨hk, hall⟩ := ih (k := max k g.lastKey)
    refine ⟨(Nat.le_max_left _ _).trans hk, fun f hf => ?_⟩
    rcases List.mem_cons.mp hf with rfl | hf'
    · exact (Nat.le_max_right _ _).trans hk
    · exact hall f hf'

/-- In front of the lower bound of `key` all keys are smaller, unless the search stopped at an
empty file. -/
theorem Tidy.lowerBound_spec {l : BitLevel κ} (h : l.Tidy) (key : ℕ)
    (hne : ∀ f, l.files[l.lowerBound key]? = some f → f.firstKey ≤ key → f.entries ≠ [])
    {i : ℕ} {g : BitFile κ} (hi : i < l.lowerBound key) (hg : l.files[i]? = some g)
    {e : ℕ × Record κ} (he : e ∈ g.entries) : e.1 < key := by
  have hlast : e.1 ≤ g.lastKey := BitFile.le_lastKey (h.files g (List.mem_of_getElem? hg)) he
  rw [lowerBound] at hi hne
  split at hi
  · rename_i first last hfirst hend
    obtain ⟨-, hend₀⟩ := ends_eq_some hfirst hend
    simp only [hfirst, hend] at hne
    split at hi
    · exact absurd hi (Nat.not_lt_zero i)
    · split at hi
      · have := h.lastKey_le (by omega) hg hend₀
        omega
      · rw [if_neg (by assumption), if_neg (by assumption)] at hne
        obtain ⟨-, -, hspec⟩ := BinarySearch.lowerBound_spec (h.descending key) (Nat.zero_le _) le_rfl
        rcases hspec with ⟨hlt, heq⟩ | hgt
        · -- the loop met a file with the key in its range
          have hf := List.getElem?_eq_getElem hlt
          simp only [cmpKeyAt, hf, BitFile.cmpKey] at heq
          split at heq
          · rename_i hrange
            obtain ⟨x, hx, hxk⟩ := BitFile.exists_firstKey (hne _ hf hrange.1)
            have := h.before_of_lt hi hg hf e he x hx
            omega
          · split at heq <;> cases heq
        · have := hgt i (Nat.zero_le i) hi
          simp only [cmpKeyAt, hg, BitFile.cmpKey] at this
          split at this
          · cases this
          · split at this
            · cases this
            · omega
  · exact absurd hi (Nat.not_lt_zero i)

theorem findRelativeFiles_sublist (l : BitLevel κ) (files : List (BitFile κ)) :
    (l.findRelativeFiles files).Sublist l.files := by
  simp only [findRelativeFiles]
  split
  · split
    · exact List.nil_sublist _
    · exact (List.takeWhile_sublist _).trans (List.drop_sublist _ _)
  · exact List.nil_sublist _

/-- **The files to merge with.** They are consecutive; what lies in front of them in the level
is below, and what lies after them is above every key of `files`. -/
theorem Tidy.findRelativeFiles_spec {l : BitLevel κ} (h : l.Tidy) {files : List (BitFile κ)}
    (hfiles : ∀ f ∈ files, f.Sorted)
    (hne : ∀ f ∈ l.findRelativeFiles files, f.entries ≠ []) :
    ∃ before after, l.files = before ++ l.findRelativeFiles files ++ after ∧
      (∀ g ∈ before, ∀ f ∈ files, g.Before f) ∧ ∀ g ∈ after, ∀ f ∈ files, f.Before g := by
  -- the range searched for covers the files
  have hlow : ∀ f ∈ files, ∀ x ∈ f.entries,
      files.foldl (fun k f => min k f.firstKey) 0xffffffff ≤ x.1 := fun f hf x hx =>
    (foldl_min_le.2 f hf).trans (BitFile.firstKey_le (hfiles f hf) hx)
  have hhigh : ∀ f ∈ files, ∀ x ∈ f.entries,
      x.1 ≤ files.foldl (fun k f => max k f.lastKey) 0 := fun f hf x hx =>
    (BitFile.le_lastKey (hfiles f hf) hx).trans (le_foldl_max.2 f hf)
  rw [findRelativeFiles] at hne ⊢
  generalize files.foldl (fun k f => min k f.firstKey) 0xffffffff = low at *
  generalize files.foldl (fun k f => max k f.lastKey) 0 = high at *
  cases hends : l.files with
  | nil => exact ⟨[], [], by simp, by simp, by simp⟩
  | cons first rest =>
    rw [← hends]
    have hfirst : l.files.head? = some first := by rw [hends]; rfl
    obtain ⟨last, hlast⟩ : ∃ last, l.files.getLast? = some last :=
      ⟨_, List.getLast?_eq_some_getLast (by rw [hends]; exact List.cons_ne_nil _ _)⟩
    obtain ⟨hfirst₀, hlast₀⟩ := ends_eq_some hfirst hlast
    simp only [hfirst, hlast] at hne ⊢
    split
    · rename_i hout
      rcases hout with hout | hout
      · -- the whole level lies above
        refine ⟨[], l.files, by simp, by simp, fun g hg f hf x hx e he => ?_⟩
        obtain ⟨i, hi, rfl⟩ := List.getElem_of_mem hg
        have h₁ := h.firstKey_le (Nat.zero_le i) hfirst₀ (List.getElem?_eq_getElem hi)
        have h₂ := BitFile.firstKey_le (h.files _ hg) he
        have h₃ := hhigh f hf x hx
        omega
      · -- the whole level lies below
        refine ⟨l.files, [], by simp, fun g hg f hf e he x hx => ?_, by simp⟩
        obtain ⟨i, hi, rfl⟩ := List.getElem_of_mem hg
        have h₁ := h.lastKey_le (by omega) (List.getElem?_eq_getElem hi) hlast₀
        have h₂ := BitFile.le_lastKey (h.files _ hg) he
        have h₃ := hlow f hf x hx
        omega
    · rename_i hin
      rw [if_neg hin] at hne
      refine ⟨l.files.take (l.lowerBound low),
        (l.files.drop (l.lowerBound low)).dropWhile fun f => f.firstKey ≤ high, ?_,
        fun g hg f hf e he x hx => ?_, fun g hg f hf x hx e he => ?_⟩
      · rw [List.append_assoc, List.takeWhile_append_dropWhile, List.take_append_drop]
      · obtain ⟨i, hi, rfl⟩ := List.mem_take_iff_getElem.mp hg
        refine Nat.lt_of_lt_of_le (h.lowerBound_spec low (fun f' hf' hle => ?_) (by omega)
          (List.getElem?_eq_getElem _) he) (hlow f hf x hx)
        -- the file at the lower bound is one of those to merge with
        obtain ⟨hlt, rfl⟩ := List.getElem?_eq_some_iff.mp hf'
        refine hne _ ?_
        have hle' := (hle.trans (hlow f hf x hx)).trans (hhigh f hf x hx)
        rw [List.drop_eq_getElem_cons hlt, List.takeWhile_cons_of_pos (by simpa using hle')]
        exact List.mem_cons_self
      · cases hrest : (l.files.drop (l.lowerBound low)).dropWhile fun f => f.firstKey ≤ high with
        | nil =>
          rw [hrest] at hg
          cases hg
        | cons g₀ gs =>
          -- the first file left out starts above, and the ones after it do too
          have hg₀ : high < g₀.firstKey := by
            have := List.head?_dropWhile_not (fun f : BitFile κ => f.firstKey ≤ high)
              (l.files.drop (l.lowerBound low))
            rw [hrest] at this
            simpa using this
          have hle : g₀.firstKey ≤ g.firstKey := by
            rw [hrest] at hg
            have hsub : (g₀ :: gs).Sublist l.files := by
              rw [← hrest]
              exact (List.dropWhile_sublist _).trans (List.drop_sublist _ _)
            rcases List.mem_cons.mp hg with rfl | hg'
            · exact le_rfl
            · exact (List.rel_of_pairwise_cons (h.sorted.sublist hsub) hg').firstKey_le
          have hmem : g ∈ l.files :=
            List.mem_of_mem_drop ((List.dropWhile_sublist _).subset hg)
          have h₁ := BitFile.firstKey_le (h.files g hmem) he
          have h₂ := hhigh f hf x hx
          omega

/-! ### The upper level -/

/-- Search in a level 0 with at most one file. -/
theorem linearSearch_eq {l : BitLevel κ} (hone : l.files.length ≤ 1)
    (hsorted : ∀ f ∈ l.files, f.Sorted) {key : ℕ} {res : Option (Record κ)}
    (hs : l.linearSearch key = some res) : res = (l.recordsOf key).head? := by
  rw [linearSearch] at hs
  rw [recordsOf]
  match hfiles : l.files with
  | [] =>
    rw [hfiles] at hs
    exact (Option.some.inj hs).symm
  | [f] =>
    rw [hfiles] at hs hsorted
    simp only [List.foldlM_cons, List.foldlM_nil, Nat.not_lt_zero, if_false] at hs
    rw [List.flatMap_singleton]
    split at hs
    · -- the key is out of range
      rename_i hout
      have hmiss : f.recordsOf key = [] := by
        refine BitFile.recordsOf_eq_nil.mpr fun e he hek => ?_
        have h₁ := BitFile.firstKey_le (hsorted f List.mem_cons_self) he
        have h₂ := BitFile.le_lastKey (hsorted f List.mem_cons_self) he
        omega
      rw [hmiss]
      exact (Option.some.inj hs).symm
    · rename_i hin
      rw [BitFile.search, if_neg hin] at hs
      split at hs
      · cases hs
      · cases hr : (f.recordsOf key).head? <;> simp_all
  | f :: g :: fs =>
    rw [hfiles] at hone
    simp at hone

/-! ### Searches that fault -/

theorem BitFile.search_eq_none {f : BitFile κ} {key : ℕ} :
    f.search key = none ↔ f.firstKey ≤ key ∧ key ≤ f.lastKey ∧ f.entries = [] := by
  rw [BitFile.search]
  split
  · rename_i hout
    refine iff_of_false (by simp) fun h => ?_
    omega
  · rename_i hin
    split
    · rename_i hempty
      exact iff_of_true rfl ⟨by omega, by omega, List.isEmpty_iff.mp hempty⟩
    · rename_i hne
      exact iff_of_false (by simp) fun h => hne (List.isEmpty_iff.mpr h.2.2)

/-- In level 0 with at most one file, a lookup of key 0 in an empty file. -/
theorem linearSearch_eq_none {l : BitLevel κ} (hone : l.files.length ≤ 1) {key : ℕ} :
    l.linearSearch key = none ↔ ∃ f ∈ l.files, f.entries = [] ∧ key = 0 := by
  rw [linearSearch]
  match hfiles : l.files with
  | [] => simp
  | [f] =>
    simp only [List.foldlM_cons, List.foldlM_nil, Nat.not_lt_zero, if_false, List.mem_singleton,
      exists_eq_left]
    have hends : f.entries = [] → f.firstKey = 0 ∧ f.lastKey = 0 := fun hnil =>
      ⟨BitFile.firstKey_of_empty hnil, BitFile.lastKey_of_empty hnil⟩
    split
    · -- the key is out of range
      rename_i hout
      refine iff_of_false (by simp) fun h => ?_
      have := hends h.1
      omega
    · rename_i hin
      have hsearch : f.search key = none ↔ f.entries = [] ∧ key = 0 := by
        rw [BitFile.search_eq_none]
        refine ⟨fun h => ⟨h.2.2, ?_⟩, fun h => ⟨by omega, by omega, h.1⟩⟩
        have := hends h.2.2
        omega
      rw [← hsearch]
      cases f.search key <;> simp
  | f :: g :: fs =>
    rw [hfiles] at hone
    simp at hone

/-- Below level 0, a lookup that is led to an empty file. -/
theorem search_eq_none {l : BitLevel κ} (hlevel : l.level ≠ 0) {key : ℕ} :
    l.search key = none ↔ ∃ f, l.locateFile key = some f ∧ f.entries = [] := by
  simp only [search, if_neg hlevel]
  cases hlocate : l.locateFile key with
  | none => simp
  | some f =>
    obtain ⟨-, hfirst, hlast⟩ := locateFile_eq_some hlocate
    simp only [BitFile.search_eq_none, Option.some.injEq, exists_eq_left']
    exact ⟨fun h => h.2.2, fun h => ⟨hfirst, hlast, h⟩⟩

end BitLevel

end JinDisk
