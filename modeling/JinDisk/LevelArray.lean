import JinDisk.BitLevel
import JinDisk.Lib.FilledArray

/-!
# The array of a level

`struct bit_level` has its files in an array of fixed length, the first `size` slots in use. The
functions of `lsm_tree.c` are given here as they go over this array: with unsigned and with signed
indices, with `memmove`, and with reads that have nothing to give where there is no file. They do what
`BitLevel` does with a list (`Refines`).

`bsearch` comes from the kernel. It is a parameter, and all that is known of it is what it finds if
the comparison is monotone.
-/

namespace JinDisk

open FilledArray BinarySearch

variable {κ : Type}

/-- `ENOSPC` -/
def ENOSPC : ℤ := 28

/-- `struct bit_level`, with its array -/
structure LevelArray (κ : Type) where
  /-- how many files there are -/
  size : ℕ
  /-- the length of the array -/
  maxSize : ℕ
  /-- `bit_files`; a slot that was never written is `none` -/
  bitFiles : List (Option (BitFile κ))

namespace LevelArray

/-- `bit_level_init` -/
def create (capacity : ℕ) : LevelArray κ where
  size := 0
  maxSize := 2 * capacity + BitLevel.defaultLsmLevel0NrFile
  bitFiles := List.replicate (2 * capacity + BitLevel.defaultLsmLevel0NrFile) none

variable (a : LevelArray κ) (file : BitFile κ) (key : ℕ)

/-- `bit_files[i]`; behind the last file there is nothing to read. -/
def read (i : ℕ) : Option (BitFile κ) := if i < a.size then (a.bitFiles[i]?).join else none

/-- The same for a signed index. -/
def readInt (i : ℤ) : Option (BitFile κ) := if 0 ≤ i then a.read i.toNat else none

/-- The loop of `bit_level_search_file`. -/
def searchLoop (low high : ℕ) : Option ℕ :=
  if low < high then
    (a.read (low + (high - low) / 2)).bind fun f =>
      if f.cmp file < 0 then searchLoop (low + (high - low) / 2 + 1) high
      else searchLoop low (low + (high - low) / 2)
  else some low
termination_by high - low

/-- `bit_level_search_file` -/
def searchFile : Option ℕ :=
  if a.size = 0 then some 0
  else
    (a.read 0).bind fun first =>
      if 0 ≤ first.cmp file then some 0
      else
        (a.read (a.size - 1)).bind fun last =>
          if last.cmp file ≤ 0 then some a.size else a.searchLoop file 0 (a.size - 1)

/-- `bit_level_locate_file` -/
def locateFile (bsearch : (ℕ → Ordering) → ℕ → Option ℕ) : Option (BitFile κ) :=
  (bsearch (fun i => ((a.read i).map fun f => f.cmpKey key).getD .lt) a.size).bind a.read

/-- `bit_level_add_file`: the level and the return code. -/
def addFile : Option (LevelArray κ × ℤ) :=
  if a.maxSize ≤ a.size then some (a, -ENOSPC)
  else
    (a.searchFile file).bind fun pos =>
      (if pos + 1 < a.maxSize then memmove a.bitFiles (pos + 1) pos (a.size - pos)
        else some a.bitFiles).bind fun slots =>
          if pos < slots.length then
            some ({ a with size := a.size + 1, bitFiles := slots.set pos (some file) }, 0)
          else none

/-- The loop of `bit_level_remove_file`. -/
def removeLoop (id pos : ℕ) : Option (LevelArray κ × ℤ) :=
  if pos < a.size then
    (a.read pos).bind fun f =>
      if f.id = id then
        (memmove a.bitFiles pos (pos + 1) (a.size - pos - 1)).map fun slots =>
          ({ a with size := a.size - 1, bitFiles := slots }, 0)
      else removeLoop id (pos + 1)
  else some (a, -EINVAL)
termination_by a.size - pos

/-- `bit_level_remove_file` -/
def removeFile (id : ℕ) : Option (LevelArray κ × ℤ) := a.removeLoop id 0

/-- The loop of `bit_level_lower_bound`. Its indices are of type `int`, which has room for the
length of any array that `kmalloc` returns. -/
def lowerBoundLoop (low high : ℤ) : Option ℤ :=
  if low < high then
    (a.readInt (low + (high - low) / 2)).bind fun f =>
      if f.firstKey ≤ key ∧ key ≤ f.lastKey then some (low + (high - low) / 2)
      else if key < f.firstKey then lowerBoundLoop low (low + (high - low) / 2 - 1)
      else lowerBoundLoop (low + (high - low) / 2 + 1) high
  else some low
termination_by (high - low).toNat

/-- `bit_level_lower_bound` -/
def lowerBound : Option ℤ :=
  (a.read 0).bind fun first =>
    if key < first.firstKey then some 0
    else
      (a.readInt (a.size - 1)).bind fun last =>
        if last.lastKey < key then some a.size else a.lowerBoundLoop key 0 (a.size - 1)

/-- The loop of `bit_level_find_relative_files`. -/
def relativesFrom (lastKey pos : ℕ) : Option (List (BitFile κ)) :=
  if pos < a.size then
    (a.read pos).bind fun f =>
      if f.firstKey ≤ lastKey then (relativesFrom lastKey (pos + 1)).map fun fs => f :: fs
      else some []
  else some []
termination_by a.size - pos

/-- `bit_level_find_relative_files` -/
def findRelativeFiles (files : List (BitFile κ)) : Option (List (BitFile κ)) :=
  if a.size = 0 then some []
  else
    let firstKey := files.foldl (fun k f => min k f.firstKey) 0xffffffff
    let lastKey := files.foldl (fun k f => max k f.lastKey) 0
    (a.read 0).bind fun first =>
      if lastKey < first.firstKey then some []
      else
        (a.read (a.size - 1)).bind fun last =>
          if last.lastKey < firstKey then some []
          else (a.lowerBound firstKey).bind fun pos => a.relativesFrom lastKey pos.toNat

/-- The array holds the files of the level. -/
structure Refines (a : LevelArray κ) (l : BitLevel κ) : Prop where
  /-- `size` -/
  size : a.size = l.files.length
  /-- `max_size` -/
  maxSize : a.maxSize = l.maxSize
  /-- the array is as long as it should be -/
  length : a.bitFiles.length = a.maxSize
  /-- the files -/
  filled : Filled a.bitFiles l.files

variable {a file key} {l : BitLevel κ}

theorem refines_create (level capacity : ℕ) :
    (create capacity : LevelArray κ).Refines (BitLevel.create level capacity) where
  size := rfl
  maxSize := rfl
  length := List.length_replicate
  filled i hi := absurd hi (Nat.not_lt_zero i)

namespace Refines

theorem read (h : a.Refines l) (i : ℕ) : a.read i = l.files[i]? := by
  rw [LevelArray.read, h.size]
  split
  · rename_i hi
    rw [h.filled i hi]
    rfl
  · rename_i hi
    rw [List.getElem?_eq_none (Nat.not_lt.mp hi)]

theorem readInt (h : a.Refines l) (i : ℕ) : a.readInt i = l.files[i]? := by
  rw [LevelArray.readInt, if_pos (Int.natCast_nonneg i), Int.toNat_natCast, h.read]

theorem size_le (h : a.Refines l) : a.size ≤ a.maxSize := by
  rw [h.size, ← h.length]
  exact h.filled.length_le

/-- The ends of a level with files. -/
theorem ends (h : a.Refines l) (hne : l.files ≠ []) :
    ∃ first last, l.files.head? = some first ∧ l.files.getLast? = some last ∧
      a.size ≠ 0 ∧ a.read 0 = some first ∧ a.read (a.size - 1) = some last := by
  have hpos := List.length_pos_iff.mpr hne
  refine ⟨l.files.head hne, l.files.getLast hne, List.head?_eq_some_head hne,
    List.getLast?_eq_some_getLast hne, by rw [h.size]; omega, ?_, ?_⟩
  · rw [h.read, ← List.head?_eq_getElem?, List.head?_eq_some_head hne]
  · rw [h.read, h.size, ← List.getLast?_eq_getElem?, List.getLast?_eq_some_getLast hne]

/-! ### Where a file goes -/

theorem searchLoop (h : a.Refines l) {low high : ℕ} (hhigh : high ≤ l.files.length) :
    a.searchLoop file low high =
      some (partitionPoint (fun mid => (l.files[mid]?).any fun f => f.cmp file < 0) low high) := by
  fun_induction partitionPoint (fun mid => (l.files[mid]?).any fun f => f.cmp file < 0) low high with
  | case1 low high hlt hmid ih =>
    have hf := List.getElem?_eq_getElem (l := l.files) (i := low + (high - low) / 2) (by omega)
    rw [hf, Option.any_some] at hmid
    rw [LevelArray.searchLoop, if_pos hlt, h.read, hf, Option.bind_some, if_pos (by simpa using hmid)]
    exact ih hhigh
  | case2 low high hlt hmid ih =>
    have hf := List.getElem?_eq_getElem (l := l.files) (i := low + (high - low) / 2) (by omega)
    rw [hf, Option.any_some] at hmid
    rw [LevelArray.searchLoop, if_pos hlt, h.read, hf, Option.bind_some, if_neg (by simpa using hmid)]
    exact ih (by omega)
  | case3 low high hlt => rw [LevelArray.searchLoop, if_neg hlt]

theorem searchFile (h : a.Refines l) (file : BitFile κ) :
    a.searchFile file = some (l.searchFile file) := by
  by_cases hne : l.files = []
  · rw [LevelArray.searchFile, if_pos (by rw [h.size, hne]; rfl), BitLevel.searchFile, hne]
    rfl
  · obtain ⟨first, last, hfirst, hlast, hsize, hread, hread'⟩ := h.ends hne
    rw [LevelArray.searchFile, if_neg hsize, hread, hread', Option.bind_some, Option.bind_some,
      h.searchLoop (by rw [h.size]; omega), BitLevel.searchFile, hfirst, hlast, h.size]
    simp only
    split
    · rfl
    · split <;> rfl

theorem searchFile_le (l : BitLevel κ) (file : BitFile κ) : l.searchFile file ≤ l.files.length := by
  rw [BitLevel.searchFile]
  split
  · split
    · exact Nat.zero_le _
    · split
      · exact le_rfl
      · exact (partitionPoint_le (Nat.zero_le _)).trans (Nat.sub_le _ _)
  · exact Nat.zero_le _

/-- **`bit_level_add_file`** -/
theorem addFile (h : a.Refines l) (file : BitFile κ) :
    ∃ a', a.addFile file = some (a', if l.maxSize ≤ l.files.length then -ENOSPC else 0) ∧
      a'.Refines (l.addFile file) := by
  rw [LevelArray.addFile, h.maxSize, h.size]
  by_cases hroom : l.maxSize ≤ l.files.length
  · rw [if_pos hroom, if_pos hroom, BitLevel.addFile, if_pos hroom]
    exact ⟨a, rfl, h⟩
  · rw [if_neg hroom, if_neg hroom, h.searchFile, Option.bind_some,
      BitLevel.addFile_of_lt (Nat.not_le.mp hroom)]
    have hpos := searchFile_le l file
    have hlen : a.bitFiles.length = l.maxSize := h.length.trans h.maxSize
    generalize l.searchFile file = pos at hpos ⊢
    -- the slots afterwards, and what is in them
    obtain ⟨slots, hslots, hslen, hfilled⟩ : ∃ slots,
        (if pos + 1 < l.maxSize then memmove a.bitFiles (pos + 1) pos (l.files.length - pos)
          else some a.bitFiles) = some slots ∧ slots.length = a.bitFiles.length ∧
        Filled (slots.set pos (some file)) (l.files.take pos ++ file :: l.files.drop pos) := by
      split
      · obtain ⟨slots, hmove⟩ : ∃ slots,
            memmove a.bitFiles (pos + 1) pos (l.files.length - pos) = some slots :=
          ⟨_, if_pos (by omega)⟩
        exact ⟨slots, hmove, length_memmove hmove, h.filled.insert hpos (by omega) hmove file⟩
      · obtain rfl : pos = l.files.length := by omega
        refine ⟨a.bitFiles, rfl, rfl, ?_⟩
        rw [List.take_length, List.drop_length]
        exact h.filled.append (by omega) file
    rw [hslots, Option.bind_some, if_pos (by omega)]
    refine ⟨_, rfl, ?_, rfl, ?_, hfilled⟩
    · show l.files.length + 1 = (l.files.take pos ++ file :: l.files.drop pos).length
      rw [List.length_append, List.length_cons, List.length_take, List.length_drop]
      omega
    · show (slots.set pos (some file)).length = l.maxSize
      rw [List.length_set, hslen, hlen]

/-! ### Removal -/

theorem removeFile_eq {id pos : ℕ} {f : BitFile κ}
    (hbefore : ∀ i g, i < pos → l.files[i]? = some g → g.id ≠ id) (hf : l.files[pos]? = some f)
    (hid : f.id = id) : (l.removeFile id).files = l.files.eraseIdx pos := by
  obtain ⟨hlt, rfl⟩ := List.getElem?_eq_some_iff.mp hf
  have hfind : l.files.findIdx? (fun g => g.id = id) = some pos := by
    refine List.findIdx?_eq_some_iff_getElem.mpr ⟨hlt, by simpa using hid, fun i hi => ?_⟩
    simpa using hbefore i _ hi (List.getElem?_eq_getElem _)
  rw [BitLevel.removeFile, List.eraseP_eq_eraseIdx, hfind]

theorem removeLoop (h : a.Refines l) {id pos : ℕ}
    (hbefore : ∀ i f, i < pos → l.files[i]? = some f → f.id ≠ id) :
    ∃ a', a.removeLoop id pos =
        some (a', if l.files.any fun f => f.id = id then 0 else -EINVAL) ∧
      a'.Refines (l.removeFile id) := by
  by_cases hpos : pos < l.files.length
  · have hf := List.getElem?_eq_getElem hpos
    rw [LevelArray.removeLoop, if_pos (by rw [h.size]; exact hpos), h.read, hf, Option.bind_some]
    by_cases hid : (l.files[pos]).id = id
    · -- the file is here
      have hany : (l.files.any fun f => f.id = id) = true :=
        List.any_eq_true.mpr ⟨_, List.getElem_mem hpos, by simpa using hid⟩
      have hle := h.filled.length_le
      obtain ⟨slots, hmove⟩ : ∃ slots,
          memmove a.bitFiles pos (pos + 1) (l.files.length - pos - 1) = some slots :=
        ⟨_, if_pos (by omega)⟩
      rw [if_pos hid, h.size, hmove, hany]
      have hfiles := removeFile_eq hbefore hf hid
      refine ⟨_, rfl, ?_, h.maxSize, (length_memmove hmove).trans h.length, ?_⟩
      · show l.files.length - 1 = (l.removeFile id).files.length
        rw [hfiles, List.length_eraseIdx_of_lt hpos]
      · rw [hfiles]
        exact h.filled.erase hpos hmove
    · rw [if_neg hid]
      refine removeLoop h fun i f hi hf' => ?_
      rcases Nat.lt_succ_iff_lt_or_eq.mp hi with hi | rfl
      · exact hbefore i f hi hf'
      · obtain rfl := Option.some.inj (hf.symm.trans hf')
        exact hid
  · -- no file has the descriptor
    have hnone : ∀ f ∈ l.files, ¬(decide (f.id = id)) = true := by
      intro f hf
      obtain ⟨i, hi, rfl⟩ := List.getElem_of_mem hf
      simpa using hbefore i _ (by omega) (List.getElem?_eq_getElem hi)
    have hany : (l.files.any fun f => f.id = id) = false := by
      rw [List.any_eq_false]
      exact hnone
    rw [LevelArray.removeLoop, if_neg (by rw [h.size]; exact hpos), hany]
    refine ⟨a, rfl, ?_⟩
    rw [BitLevel.removeFile, List.eraseP_of_forall_not hnone]
    exact h
termination_by l.files.length - pos

/-- **`bit_level_remove_file`** -/
theorem removeFile (h : a.Refines l) (id : ℕ) :
    ∃ a', a.removeFile id = some (a', if l.files.any fun f => f.id = id then 0 else -EINVAL) ∧
      a'.Refines (l.removeFile id) :=
  h.removeLoop fun i _ hi => absurd hi (Nat.not_lt_zero i)

/-! ### The files to merge with -/

/-- One pass of the loop. The end is one less here than in `BinarySearch.lowerBound`. -/
theorem lowerBoundLoop_step (h : a.Refines l) {low stop : ℕ} (hlt : low + 1 < stop)
    (hstop : stop ≤ l.files.length) :
    a.lowerBoundLoop key low ((stop : ℤ) - 1) =
      match l.cmpKeyAt key (low + (stop - 1 - low) / 2) with
      | .eq => some ((low + (stop - 1 - low) / 2 : ℕ) : ℤ)
      | .lt => a.lowerBoundLoop key low (((low + (stop - 1 - low) / 2 : ℕ) : ℤ) - 1)
      | .gt => a.lowerBoundLoop key ((low + (stop - 1 - low) / 2 + 1 : ℕ) : ℤ) ((stop : ℤ) - 1) := by
  have hmid : (low : ℤ) + ((stop : ℤ) - 1 - low) / 2 = ((low + (stop - 1 - low) / 2 : ℕ) : ℤ) := by
    omega
  have hf := List.getElem?_eq_getElem (l := l.files) (i := low + (stop - 1 - low) / 2) (by omega)
  rw [LevelArray.lowerBoundLoop, if_pos (by omega), hmid, h.readInt, BitLevel.cmpKeyAt, hf,
    Option.bind_some]
  simp only [BitFile.cmpKey]
  split
  · rfl
  · split <;> rfl

theorem lowerBoundLoop (h : a.Refines l) {low stop : ℕ} (hstop : stop ≤ l.files.length) :
    a.lowerBoundLoop key low ((stop : ℤ) - 1) =
      some (BinarySearch.lowerBound (l.cmpKeyAt key) low stop : ℤ) := by
  fun_induction BinarySearch.lowerBound (l.cmpKeyAt key) low stop with
  | case1 low stop hlt hcmp => rw [h.lowerBoundLoop_step hlt hstop, hcmp]
  | case2 low stop hlt hcmp ih =>
    rw [h.lowerBoundLoop_step hlt hstop, hcmp]
    exact ih (by omega)
  | case3 low stop hlt hcmp ih =>
    rw [h.lowerBoundLoop_step hlt hstop, hcmp]
    exact ih hstop
  | case4 low stop hlt => rw [LevelArray.lowerBoundLoop, if_neg (by omega)]

/-- **`bit_level_lower_bound`** of a level with files. -/
theorem lowerBound (h : a.Refines l) (hne : l.files ≠ []) (key : ℕ) :
    a.lowerBound key = some (l.lowerBound key : ℤ) := by
  obtain ⟨first, last, hfirst, hlast, hsize, hread, hread'⟩ := h.ends hne
  have hlast' : a.readInt ((a.size : ℤ) - 1) = some last := by
    rw [show (a.size : ℤ) - 1 = ((a.size - 1 : ℕ) : ℤ) by omega, h.readInt, ← h.read, hread']
  have hloop : a.lowerBoundLoop key 0 ((a.size : ℤ) - 1) =
      some (BinarySearch.lowerBound (l.cmpKeyAt key) 0 a.size : ℤ) := h.lowerBoundLoop h.size.le
  rw [LevelArray.lowerBound, hread, hlast', Option.bind_some, Option.bind_some, hloop,
    BitLevel.lowerBound, hfirst, hlast, h.size]
  simp only
  split
  · rfl
  · split <;> rfl

theorem relativesFrom (h : a.Refines l) (lastKey pos : ℕ) :
    a.relativesFrom lastKey pos =
      some ((l.files.drop pos).takeWhile fun f => f.firstKey ≤ lastKey) := by
  by_cases hpos : pos < l.files.length
  · have hrest := relativesFrom h lastKey (pos + 1)
    rw [LevelArray.relativesFrom, if_pos (by rw [h.size]; exact hpos), h.read,
      List.getElem?_eq_getElem hpos, Option.bind_some, List.drop_eq_getElem_cons hpos, hrest]
    by_cases hkey : (l.files[pos]).firstKey ≤ lastKey
    · rw [if_pos hkey, List.takeWhile_cons_of_pos (by simpa using hkey)]
      rfl
    · rw [if_neg hkey, List.takeWhile_cons_of_neg (by simpa using hkey)]
  · rw [LevelArray.relativesFrom, if_neg (by rw [h.size]; exact hpos),
      List.drop_of_length_le (Nat.not_lt.mp hpos)]
    rfl
termination_by l.files.length - pos

/-- **`bit_level_find_relative_files`** -/
theorem findRelativeFiles (h : a.Refines l) (files : List (BitFile κ)) :
    a.findRelativeFiles files = some (l.findRelativeFiles files) := by
  by_cases hne : l.files = []
  · rw [LevelArray.findRelativeFiles, if_pos (by rw [h.size, hne]; rfl), BitLevel.findRelativeFiles,
      hne]
    rfl
  · obtain ⟨first, last, hfirst, hlast, hsize, hread, hread'⟩ := h.ends hne
    simp only [LevelArray.findRelativeFiles, BitLevel.findRelativeFiles, if_neg hsize, hread, hread',
      hfirst, hlast, h.lowerBound hne, h.relativesFrom, Option.bind_some, Int.toNat_natCast]
    by_cases hlow : files.foldl (fun k f => max k f.lastKey) 0 < first.firstKey
    · rw [if_pos hlow, if_pos (Or.inl hlow)]
    · rw [if_neg hlow]
      split
      · rename_i hhigh
        rw [if_pos (Or.inr hhigh)]
      · rename_i hhigh
        rw [if_neg (not_or.mpr ⟨hlow, hhigh⟩)]

end Refines

end LevelArray

end JinDisk
