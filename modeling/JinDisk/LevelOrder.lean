import Mathlib.Order.Bounds.Basic
import JinDisk.LevelArray
import JinDisk.Lib.Run

/-!
# The files of a level and their ranges

Files are added to the array of a level and removed from it one by one, and while a compaction is
under way old and new files share keys. The order of the array does not depend on that, it is by first
and last key in every run. When the ranges are apart again, the order makes the comparison of a key with
the files monotone, and both searches for a key can be relied on: the one for the file that has it,
and the one for the first file that a compaction must merge with.
-/

namespace JinDisk

variable {κ : Type}

/-- The ranges of the keys are disjoint. -/
def BitFile.RangeApart (f g : BitFile κ) : Prop := f.lastKey < g.firstKey ∨ g.lastKey < f.firstKey

theorem BitFile.RangeApart.symm {f g : BitFile κ} (h : f.RangeApart g) : g.RangeApart f := Or.symm h

/-- A level in order, whose files have disjoint ranges. -/
structure BitLevel.Ranged (l : BitLevel κ) : Prop where
  /-- the order of the array -/
  sorted : l.Sorted
  /-- the ranges -/
  range : ∀ f ∈ l.files, f.firstKey ≤ f.lastKey
  /-- they are disjoint -/
  apart : l.files.Pairwise BitFile.RangeApart

namespace BitLevel.Ranged

variable {l : BitLevel κ}

/-- Each file lies below the next ones. -/
theorem below (h : l.Ranged) : l.files.Pairwise fun f g => f.lastKey < g.firstKey := by
  refine (h.sorted.and h.apart).imp_of_mem fun {f g} hf hg hfg => ?_
  rcases hfg.2 with hlt | hlt
  · exact hlt
  · have hle := hfg.1.firstKey_le
    have hrange := h.range g hg
    omega

theorem lt_of_lt (h : l.Ranged) {i j : ℕ} {f g : BitFile κ} (hij : i < j)
    (hf : l.files[i]? = some f) (hg : l.files[j]? = some g) : f.lastKey < g.firstKey :=
  rel_of_lt h.below hij hf hg

/-- The comparison of a key with the files is monotone. -/
theorem descending (h : l.Ranged) (key : ℕ) :
    BinarySearch.Descending (l.cmpKeyAt key) l.files.length := by
  refine h.sorted.descending fun i j f g hij hf hg _ hkey => ?_
  have hlt := h.lt_of_lt hij hf hg
  have hrange := h.range g (List.mem_of_getElem? hg)
  omega

end BitLevel.Ranged

/-! ## Files come and go -/

namespace LevelArray

/-- A call that changes the array. -/
inductive Call (κ : Type) where
  /-- `bit_level_add_file` -/
  | add (file : BitFile κ)
  /-- `bit_level_remove_file` -/
  | remove (id : ℕ)

/-- The array after a call. -/
def step (a : LevelArray κ) : Call κ → Option (LevelArray κ)
  | .add file => (a.addFile file).map Prod.fst
  | .remove id => (a.removeFile id).map Prod.fst

/-- The files that are there after a call, in no particular order. A file is added under a descriptor
of its own and while there is room for it. -/
def contents (maxSize : ℕ) (files : List (BitFile κ)) : Call κ → Option (List (BitFile κ))
  | .add file =>
    if (∀ f ∈ files, f.id ≠ file.id) ∧ files.length < maxSize then some (file :: files) else none
  | .remove id => some (files.filter fun f => f.id ≠ id)

/-- What is known of the kernel's `bsearch`: with a monotone comparison it finds an index that
compares equal, if there is one. -/
def BsearchFinds (bsearch : (ℕ → Ordering) → ℕ → Option ℕ) : Prop :=
  ∀ cmp n, BinarySearch.Descending cmp n →
    (∀ i, bsearch cmp n = some i → i < n ∧ cmp i = .eq) ∧
      (bsearch cmp n = none → ∀ i < n, cmp i ≠ .eq)

/-- The array holds these files, in order. -/
structure Keeps (a : LevelArray κ) (capacity : ℕ) (files : List (BitFile κ)) (l : BitLevel κ) : Prop where
  /-- the array and its list -/
  refines : a.Refines l
  /-- the capacity -/
  capacity_eq : l.capacity = capacity
  /-- the order -/
  sorted : l.Sorted
  /-- the files -/
  perm : l.files.Perm files
  /-- each has its own descriptor -/
  ids : (files.map BitFile.id).Nodup

variable {a : LevelArray κ} {l : BitLevel κ} {capacity : ℕ} {files files' : List (BitFile κ)}

theorem keeps_create (capacity : ℕ) :
    (create capacity : LevelArray κ).Keeps capacity [] (.create 1 capacity) where
  refines := refines_create 1 capacity
  capacity_eq := rfl
  sorted := List.Pairwise.nil
  perm := List.Perm.nil
  ids := List.nodup_nil

/-- With distinct descriptors only one file goes. -/
theorem eraseP_eq_filter {files : List (BitFile κ)} (h : (files.map BitFile.id).Nodup) (id : ℕ) :
    (files.eraseP fun f => f.id = id) = files.filter fun f => f.id ≠ id := by
  induction files with
  | nil => rfl
  | cons f files ih =>
    obtain ⟨hnot, hrest⟩ := List.nodup_cons.mp h
    by_cases hid : f.id = id
    · rw [List.eraseP_cons_of_pos (by simpa using hid), List.filter_cons_of_neg (by simpa using hid)]
      refine (List.filter_eq_self.mpr fun g hg => ?_).symm
      have hne : g.id ≠ id := fun heq => hnot (hid.trans heq.symm ▸ List.mem_map_of_mem hg)
      simpa using hne
    · rw [List.eraseP_cons_of_neg (by simpa using hid), List.filter_cons_of_pos (by simpa using hid),
        ih hrest]

/-- **One call.** -/
theorem Keeps.step (h : a.Keeps capacity files l) {call : Call κ}
    (hcall : contents (2 * capacity + BitLevel.defaultLsmLevel0NrFile) files call = some files') :
    ∃ a' l', a.step call = some a' ∧ a'.Keeps capacity files' l' := by
  cases call with
  | add file =>
    rw [contents] at hcall
    split at hcall
    · rename_i hallowed
      obtain rfl := Option.some.inj hcall
      have hroom : l.files.length < l.maxSize := by
        rw [BitLevel.maxSize, h.capacity_eq, h.perm.length_eq]
        exact hallowed.2
      obtain ⟨a', hadd, href⟩ := h.refines.addFile file
      refine ⟨a', l.addFile file, congrArg (Option.map Prod.fst) hadd, href, ?_, h.sorted.addFile file,
        (BitLevel.addFile_perm hroom file).trans (h.perm.cons file), ?_⟩
      · rw [BitLevel.addFile_of_lt hroom]
        exact h.capacity_eq
      · refine List.nodup_cons.mpr ⟨fun hmem => ?_, h.ids⟩
        obtain ⟨f, hf, hid⟩ := List.mem_map.mp hmem
        exact hallowed.1 f hf hid
    · cases hcall
  | remove id =>
    obtain rfl := Option.some.inj hcall
    obtain ⟨a', hremove, href⟩ := h.refines.removeFile id
    have hids : (l.files.map BitFile.id).Nodup := (h.perm.map _).nodup_iff.mpr h.ids
    refine ⟨a', l.removeFile id, congrArg (Option.map Prod.fst) hremove, href, h.capacity_eq,
      h.sorted.removeFile id, ?_, h.ids.sublist (List.filter_sublist.map _)⟩
    rw [BitLevel.removeFile, eraseP_eq_filter hids]
    exact h.perm.filter _

/-- **Run lemma.** -/
theorem Keeps.exec (h : a.Keeps capacity files l) {calls : List (Call κ)}
    (hcalls : Machine.exec (contents (2 * capacity + BitLevel.defaultLsmLevel0NrFile)) files calls =
      some files') :
    ∃ a' l', Machine.exec LevelArray.step a calls = some a' ∧ a'.Keeps capacity files' l' := by
  induction calls generalizing a l files with
  | nil =>
    obtain rfl := Option.some.inj hcalls
    exact ⟨a, l, rfl, h⟩
  | cons call calls ih =>
    obtain ⟨files₁, hcall, hrest⟩ := Machine.exec_cons_eq_some hcalls
    obtain ⟨a₁, l₁, hstep, h₁⟩ := h.step hcall
    obtain ⟨a', l', hexec, h'⟩ := ih h₁ hrest
    exact ⟨a', l', Machine.exec_cons_of hstep hexec, h'⟩

/-! ## The file of a key -/

/-- **`bit_level_locate_file`** in a level with disjoint ranges. -/
theorem Refines.locateFile_iff (h : a.Refines l) (hl : l.Ranged)
    {bsearch : (ℕ → Ordering) → ℕ → Option ℕ} (hb : BsearchFinds bsearch) (key : ℕ) (f : BitFile κ) :
    a.locateFile key bsearch = some f ↔ f ∈ l.files ∧ f.firstKey ≤ key ∧ key ≤ f.lastKey := by
  have hcmp : (fun i => ((a.read i).map fun f => f.cmpKey key).getD .lt) = l.cmpKeyAt key := by
    funext i
    rw [h.read, BitLevel.cmpKeyAt]
    cases l.files[i]? <;> rfl
  have heq : ∀ {i} {g : BitFile κ}, l.files[i]? = some g →
      (l.cmpKeyAt key i = .eq ↔ g.firstKey ≤ key ∧ key ≤ g.lastKey) := by
    intro i g hg
    rw [BitLevel.cmpKeyAt, hg]
    simp only [BitFile.cmpKey]
    split
    · rename_i hrange
      exact iff_of_true rfl hrange
    · rename_i hrange
      refine iff_of_false ?_ hrange
      split <;> exact Ordering.noConfusion
  obtain ⟨hsome, hnone⟩ := hb _ _ (hl.descending key)
  rw [LevelArray.locateFile, hcmp, h.size]
  constructor
  · intro hlocate
    obtain ⟨i, hi, hf⟩ := Option.bind_eq_some_iff.mp hlocate
    rw [h.read] at hf
    exact ⟨List.mem_of_getElem? hf, (heq hf).mp (hsome i hi).2⟩
  · rintro ⟨hf, hrange⟩
    obtain ⟨i, hi, rfl⟩ := List.getElem_of_mem hf
    have hget := List.getElem?_eq_getElem hi
    cases hsearch : bsearch (l.cmpKeyAt key) l.files.length with
    | none => exact absurd ((heq hget).mpr hrange) (hnone hsearch i hi)
    | some j =>
      obtain ⟨hj, hcmpj⟩ := hsome j hsearch
      have hget' := List.getElem?_eq_getElem hj
      have hrange' := (heq hget').mp hcmpj
      -- two files with the key in their ranges are the same
      have hij : i = j := by
        rcases Nat.lt_trichotomy i j with hlt | hsame | hlt
        · have hbelow := hl.lt_of_lt hlt hget hget'
          omega
        · exact hsame
        · have hbelow := hl.lt_of_lt hlt hget' hget
          omega
      subst hij
      rw [Option.bind_some, h.read, hget]

/-- **Level arrays stay sorted, and lookups find the right file.** After any calls the array is in
order and has the files that were added and not removed. If their ranges are disjoint, the file that is
located for a key is the one whose range has it. -/
theorem level_array_sorted (capacity : ℕ) (calls : List (Call κ)) (files : List (BitFile κ))
    (hcalls : Machine.exec (contents (2 * capacity + BitLevel.defaultLsmLevel0NrFile)) [] calls =
      some files) :
    ∃ (a : LevelArray κ) (bitFiles : List (BitFile κ)),
      Machine.exec LevelArray.step (.create capacity) calls = some a ∧
      a.size = bitFiles.length ∧ (∀ i, a.read i = bitFiles[i]?) ∧ bitFiles.Pairwise BitFile.Le ∧
      bitFiles.Perm files ∧
      ∀ bsearch, BsearchFinds bsearch → (∀ f ∈ files, f.firstKey ≤ f.lastKey) →
        files.Pairwise BitFile.RangeApart → ∀ key f,
          (a.locateFile key bsearch = some f ↔ f ∈ files ∧ f.firstKey ≤ key ∧ key ≤ f.lastKey) := by
  obtain ⟨a, l, hexec, h⟩ := (keeps_create capacity).exec hcalls
  refine ⟨a, l.files, hexec, h.refines.size, h.refines.read, h.sorted, h.perm,
    fun bsearch hb hrange hapart key f => ?_⟩
  have hl : l.Ranged := ⟨h.sorted, fun f hf => hrange f (h.perm.mem_iff.mp hf),
    h.perm.symm.pairwise hapart fun hfg => hfg.symm⟩
  rw [h.refines.locateFile_iff hl hb, h.perm.mem_iff]

/-- The search of the C library does. -/
theorem bsearchFinds_bsearch : BsearchFinds fun cmp n => BinarySearch.bsearch cmp 0 n := by
  intro cmp n hcmp
  refine ⟨fun i hi => ?_, fun hnone i hi => ?_⟩
  · obtain ⟨-, hlt, heq⟩ := BinarySearch.bsearch_eq_some hi
    exact ⟨by omega, heq⟩
  · exact BinarySearch.bsearch_eq_none hcmp (Nat.zero_add n).le hnone (Nat.zero_le i) (by omega)

/-- A file with one key. -/
def singleKey (id key : ℕ) : BitFile Unit := ⟨id, 1, id, [(key, ⟨key, [], ()⟩)]⟩

/-- Two files come, one of them goes. -/
theorem level_array_sorted_sample :
    ∃ a : LevelArray Unit, Machine.exec LevelArray.step (.create 2)
        [.add (singleKey 0 7), .add (singleKey 1 3), .remove 0] = some a ∧
      a.locateFile 3 (fun cmp n => BinarySearch.bsearch cmp 0 n) = some (singleKey 1 3) := by
  obtain ⟨a, bitFiles, hexec, -, -, -, -, hlocate⟩ := level_array_sorted 2
    [.add (singleKey 0 7), .add (singleKey 1 3), .remove 0] [singleKey 1 3] (by decide)
  exact ⟨a, hexec, (hlocate _ bsearchFinds_bsearch (by decide) (List.pairwise_singleton _ _) 3 _).mpr
    (by decide)⟩

/-! ## The files to merge with -/

end LevelArray

namespace BitLevel

variable {l : BitLevel κ}

theorem lowerBound_le (hl : l.Ranged) (key : ℕ) : l.lowerBound key ≤ l.files.length := by
  rw [lowerBound]
  split
  · split
    · exact Nat.zero_le _
    · split
      · exact le_rfl
      · exact (BinarySearch.lowerBound_spec (hl.descending key) (Nat.zero_le _) le_rfl).2.1
  · exact Nat.zero_le _

/-- In front of the lower bound of a key all files lie below it. -/
theorem Ranged.lt_of_lt_lowerBound (hl : l.Ranged) {key i : ℕ} {g : BitFile κ}
    (hi : i < l.lowerBound key) (hg : l.files[i]? = some g) : g.lastKey < key := by
  rw [lowerBound] at hi
  split at hi
  · rename_i first last hfirst hlast
    obtain ⟨-, hend⟩ := ends_eq_some hfirst hlast
    split at hi
    · exact absurd hi (Nat.not_lt_zero i)
    · split at hi
      · -- the key lies behind the last file
        rename_i hkey
        rcases Nat.lt_or_ge i (l.files.length - 1) with hlt | hge
        · have hbelow := hl.lt_of_lt hlt hg hend
          have hrange := hl.range last (List.mem_of_getElem? hend)
          omega
        · rw [show i = l.files.length - 1 by omega] at hg
          exact Option.some.inj (hend.symm.trans hg) ▸ hkey
      · obtain ⟨-, -, ⟨hlt, heq⟩ | hgt⟩ :=
          BinarySearch.lowerBound_spec (hl.descending key) (Nat.zero_le _) le_rfl
        · -- the loop met the file that has the key
          have hf := List.getElem?_eq_getElem hlt
          rw [cmpKeyAt, hf] at heq
          simp only [BitFile.cmpKey] at heq
          split at heq
          · rename_i hrange
            exact (hl.lt_of_lt hi hg hf).trans_le hrange.1
          · split at heq <;> cases heq
        · have hcmp := hgt i (Nat.zero_le i) hi
          rw [cmpKeyAt, hg] at hcmp
          simp only [BitFile.cmpKey] at hcmp
          split at hcmp
          · cases hcmp
          · split at hcmp
            · cases hcmp
            · omega
  · exact absurd hi (Nat.not_lt_zero i)

/-- The smallest first key of the files to be merged is what the loop comes to. -/
theorem foldl_min_eq {files : List (BitFile κ)} {k lo : ℕ} (hk : ∀ f ∈ files, f.firstKey ≤ k)
    (hlo : IsLeast {key | ∃ f ∈ files, f.firstKey = key} lo) :
    files.foldl (fun k f => min k f.firstKey) k = lo := by
  obtain ⟨⟨f, hf, rfl⟩, hleast⟩ := hlo
  refine le_antisymm (foldl_min_le.2 f hf) ?_
  have hge : ∀ (files : List (BitFile κ)) k, f.firstKey ≤ k → (∀ g ∈ files, f.firstKey ≤ g.firstKey) →
      f.firstKey ≤ files.foldl (fun k f => min k f.firstKey) k := by
    intro files
    induction files with
    | nil => exact fun k hk _ => hk
    | cons g files ih =>
      exact fun k hk hall => ih _ (le_min hk (hall g List.mem_cons_self)) fun x hx =>
        hall x (List.mem_cons_of_mem g hx)
  exact hge files k (hk f hf) fun g hg => hleast ⟨g, hg, rfl⟩

/-- And so is the largest last key. -/
theorem foldl_max_eq {files : List (BitFile κ)} {hi : ℕ}
    (hhi : IsGreatest {key | ∃ f ∈ files, f.lastKey = key} hi) :
    files.foldl (fun k f => max k f.lastKey) 0 = hi := by
  obtain ⟨⟨f, hf, rfl⟩, hgreatest⟩ := hhi
  refine le_antisymm ?_ (le_foldl_max.2 f hf)
  have hle : ∀ (files : List (BitFile κ)) k, k ≤ f.lastKey → (∀ g ∈ files, g.lastKey ≤ f.lastKey) →
      files.foldl (fun k f => max k f.lastKey) k ≤ f.lastKey := by
    intro files
    induction files with
    | nil => exact fun k hk _ => hk
    | cons g files ih =>
      exact fun k hk hall => ih _ (max_le hk (hall g List.mem_cons_self)) fun x hx =>
        hall x (List.mem_cons_of_mem g hx)
  exact hle files 0 (Nat.zero_le _) fun g hg => hgreatest ⟨g, hg, rfl⟩

/-- **The files to merge with** lie one behind the other. Those in front of them lie below the keys
that are demoted, and those behind lie above. -/
theorem Ranged.findRelativeFiles_spec (hl : l.Ranged) {demoted : List (BitFile κ)} {lo hi : ℕ}
    (hkeys : ∀ f ∈ demoted, f.firstKey ≤ 0xffffffff)
    (hlo : IsLeast {key | ∃ f ∈ demoted, f.firstKey = key} lo)
    (hhi : IsGreatest {key | ∃ f ∈ demoted, f.lastKey = key} hi) :
    ∃ before after, l.files = before ++ l.findRelativeFiles demoted ++ after ∧
      (∀ g ∈ before, g.lastKey < lo) ∧ (∀ g ∈ l.findRelativeFiles demoted, g.firstKey ≤ hi) ∧
      ∀ g ∈ after, hi < g.firstKey := by
  -- first and last keys are ordered
  have hfirst_le : ∀ {i j : ℕ} {f g : BitFile κ}, i ≤ j → l.files[i]? = some f →
      l.files[j]? = some g → f.firstKey ≤ g.firstKey ∧ f.lastKey ≤ g.lastKey := by
    intro i j f g hij hf hg
    rcases Nat.eq_or_lt_of_le hij with rfl | hlt
    · obtain rfl := Option.some.inj (hf.symm.trans hg)
      exact ⟨le_rfl, le_rfl⟩
    · have hbelow := hl.lt_of_lt hlt hf hg
      have h₁ := hl.range f (List.mem_of_getElem? hf)
      have h₂ := hl.range g (List.mem_of_getElem? hg)
      omega
  simp only [findRelativeFiles, foldl_min_eq hkeys hlo, foldl_max_eq hhi]
  split
  · rename_i first last hfirst hlast
    obtain ⟨hfirst₀, hlast₀⟩ := ends_eq_some hfirst hlast
    by_cases hout : hi < first.firstKey ∨ last.lastKey < lo
    · rw [if_pos hout]
      rcases hout with hout | hout
      · -- the whole level lies above
        refine ⟨[], l.files, rfl, fun g hg => (List.not_mem_nil hg).elim,
          fun g hg => (List.not_mem_nil hg).elim, fun g hg => ?_⟩
        obtain ⟨i, hi', rfl⟩ := List.getElem_of_mem hg
        exact hout.trans_le (hfirst_le (Nat.zero_le i) hfirst₀ (List.getElem?_eq_getElem hi')).1
      · -- the whole level lies below
        refine ⟨l.files, [], by rw [List.append_nil, List.append_nil], fun g hg => ?_,
          fun g hg => (List.not_mem_nil hg).elim, fun g hg => (List.not_mem_nil hg).elim⟩
        obtain ⟨i, hi', rfl⟩ := List.getElem_of_mem hg
        exact (hfirst_le (by omega) (List.getElem?_eq_getElem hi') hlast₀).2.trans_lt hout
    · rw [if_neg hout]
      refine ⟨l.files.take (l.lowerBound lo),
        (l.files.drop (l.lowerBound lo)).dropWhile fun f => f.firstKey ≤ hi, ?_, fun g hg => ?_,
        fun g hg => ?_, fun g hg => ?_⟩
      · rw [List.append_assoc, List.takeWhile_append_dropWhile, List.take_append_drop]
      · obtain ⟨i, hi', rfl⟩ := List.mem_take_iff_getElem.mp hg
        exact hl.lt_of_lt_lowerBound (by omega) (List.getElem?_eq_getElem _)
      · simpa using List.all_eq_true.mp List.all_takeWhile g hg
      · -- the first file that is left out lies above, and so do the next ones
        obtain ⟨g₀, gs, hrest⟩ := List.exists_cons_of_ne_nil (List.ne_nil_of_mem hg)
        have hg₀ : hi < g₀.firstKey := by
          have hhead := List.head?_dropWhile_not (fun f : BitFile κ => f.firstKey ≤ hi)
            (l.files.drop (l.lowerBound lo))
          rw [hrest] at hhead
          simpa using hhead
        rw [hrest] at hg
        rcases List.mem_cons.mp hg with rfl | hg'
        · exact hg₀
        · have hsub : (g₀ :: gs).Sublist l.files :=
            hrest ▸ (List.dropWhile_sublist _).trans (List.drop_sublist _ _)
          exact hg₀.trans_le (List.rel_of_pairwise_cons (hl.sorted.sublist hsub) hg').firstKey_le
  · rename_i hnone
    refine ⟨[], [], by rw [files_eq_nil_of_ends hnone]; rfl, ?_, ?_, ?_⟩ <;>
      exact fun g hg => (List.not_mem_nil hg).elim

end BitLevel

/-- **Relative files cover every overlap.** The search for the files to merge with goes over the array
without leaving it. It returns consecutive files: all that meet the keys of the demoted files, and none
that lies above them. The files left are below everything that is merged, or above it. -/
theorem relative_files_cover {a : LevelArray κ} {l : BitLevel κ} (h : a.Refines l)
    (hne : l.files ≠ []) (hl : l.Ranged) (demoted : List (BitFile κ))
    (hkeys : ∀ f ∈ demoted, f.firstKey < 2 ^ 32) (lo hi : ℕ)
    (hlo : IsLeast {key | ∃ f ∈ demoted, f.firstKey = key} lo)
    (hhi : IsGreatest {key | ∃ f ∈ demoted, f.lastKey = key} hi) :
    (∀ key, ∃ pos : ℕ, a.lowerBound key = some (pos : ℤ) ∧ pos ≤ l.files.length) ∧
      ∃ before relatives after, a.findRelativeFiles demoted = some relatives ∧
        l.files = before ++ relatives ++ after ∧
        (∀ f ∈ l.files, f.firstKey ≤ hi → lo ≤ f.lastKey → f ∈ relatives) ∧
        (∀ f ∈ relatives, f.firstKey ≤ hi) ∧
        (∀ g ∈ before, ∀ f ∈ demoted ++ relatives, g.lastKey < f.firstKey) ∧
        ∀ g ∈ after, ∀ f ∈ demoted ++ relatives, f.lastKey < g.firstKey := by
  refine ⟨fun key => ⟨_, h.lowerBound hne key, BitLevel.lowerBound_le hl key⟩, ?_⟩
  obtain ⟨before, after, hsplit, hbefore, hrel, hafter⟩ :=
    hl.findRelativeFiles_spec (fun f hf => Nat.le_of_lt_succ (hkeys f hf)) hlo hhi
  refine ⟨before, _, after, h.findRelativeFiles demoted, hsplit, fun f hf hfirst hlast => ?_, hrel,
    fun g hg f hf => ?_, fun g hg f hf => ?_⟩
  · rw [hsplit, List.mem_append, List.mem_append] at hf
    rcases hf with (hf | hf) | hf
    · exact absurd (hbefore f hf) (Nat.not_lt.mpr hlast)
    · exact hf
    · exact absurd (hafter f hf) (Nat.not_lt.mpr hfirst)
  · rcases List.mem_append.mp hf with hf | hf
    · exact (hbefore g hg).trans_le (hlo.2 ⟨f, hf, rfl⟩)
    · have hbelow := hl.below
      rw [hsplit, List.append_assoc] at hbelow
      exact (List.pairwise_append.mp hbelow).2.2 g hg f (List.mem_append_left _ hf)
  · rcases List.mem_append.mp hf with hf | hf
    · exact (hhi.2 ⟨f, hf, rfl⟩).trans_lt (hafter g hg)
    · have hbelow := hl.below
      rw [hsplit] at hbelow
      exact (List.pairwise_append.mp hbelow).2.2 f (List.mem_append_right _ hf) g hg

/-- Two files in an array of three slots. -/
def twoFiles : LevelArray Unit :=
  ⟨2, 3, [some (LevelArray.singleKey 0 3), some (LevelArray.singleKey 1 7), none]⟩

/-- A file with key 7 is merged with the one of the two that has this key. -/
theorem relative_files_cover_sample :
    ∃ relatives, twoFiles.findRelativeFiles [LevelArray.singleKey 2 7] = some relatives ∧
      LevelArray.singleKey 1 7 ∈ relatives := by
  obtain ⟨l, hl⟩ : ∃ l : BitLevel Unit,
      l = ⟨1, 1, [LevelArray.singleKey 0 3, LevelArray.singleKey 1 7]⟩ := ⟨_, rfl⟩
  have href : twoFiles.Refines l := by
    refine ⟨by rw [hl]; rfl, by rw [hl]; rfl, rfl, fun i hi => ?_⟩
    rw [hl] at hi ⊢
    match i, hi with
    | 0, _ => rfl
    | 1, _ => rfl
  have hranged : l.Ranged := by
    refine ⟨?_, ?_, ?_⟩
    · rw [hl]
      exact List.pairwise_pair.mpr (Or.inl (by decide))
    · rw [hl]
      decide
    · rw [hl]
      exact List.pairwise_pair.mpr (Or.inl (by decide))
  obtain ⟨-, before, relatives, after, hfind, -, hcover, -⟩ := relative_files_cover href
    (by rw [hl]; exact List.cons_ne_nil _ _) hranged [LevelArray.singleKey 2 7] (by decide) 7 7
    ⟨⟨_, List.mem_singleton_self _, rfl⟩, by rintro _ ⟨f, hf, rfl⟩; rw [List.mem_singleton.mp hf]; decide⟩
    ⟨⟨_, List.mem_singleton_self _, rfl⟩, by rintro _ ⟨f, hf, rfl⟩; rw [List.mem_singleton.mp hf]; decide⟩
  exact ⟨relatives, hfind, hcover _ (by rw [hl]; exact List.mem_cons_of_mem _ List.mem_cons_self)
    (by decide) (by decide)⟩

end JinDisk
