import JinDisk.Reopen

/-!
# Searches during a compaction

`lsm_tree_search` takes the lock of one level at a time, and `compaction_job_run` takes it for every
file it adds or removes. The new files are added to level 1 before the file of level 0 is removed, and
the files of level 1 they replace are removed last. In between the ranges of level 1 overlap, and
`bsearch` lands on an old file, a new one or none at all.

The machine makes the calls of one compaction and the steps of one search in any order.
-/

namespace JinDisk

open BinarySearch KwayMerge Machine

variable {κ : Type}

/-! ## The race -/

/-- Where a search is. -/
inductive SearchPhase (κ : Type) where
  /-- the memtables come next -/
  | memtables
  /-- level 0 comes next -/
  | level0
  /-- level 1 comes next -/
  | level1
  /-- it returned -/
  | done (res : Option (Record κ))
  /-- it looked into a file without root -/
  | fault
  deriving DecidableEq

/-- A search and a compaction at work. -/
structure SearchRace (κ : Type) where
  /-- the number of calls the compaction has made -/
  applied : ℕ
  /-- the search -/
  phase : SearchPhase κ

/-- Whose turn it is. -/
inductive RaceAction where
  /-- the compaction adds or removes a file -/
  | compact
  /-- the search looks into the memtables or into a level -/
  | search
  deriving DecidableEq

namespace SearchRace

/-- Nothing is done yet. -/
def init : SearchRace κ := ⟨0, .memtables⟩

/-- The phase after a lookup. -/
def next (found : Option (Option (Record κ))) (miss : SearchPhase κ) : SearchPhase κ :=
  match found with
  | none => .fault
  | some none => miss
  | some (some r) => .done (some r)

section Step

variable [Inhabited κ] (t : LsmTree κ) (ops : List (LevelOp κ)) (key : ℕ)

/-- The levels after the calls so far. -/
def levels (s : SearchRace κ) : Levels κ := t.levels.applyAll (ops.take s.applied)

/-- One step. `t` is the tree before the compaction, whose calls are `ops`. -/
def step (s : SearchRace κ) : RaceAction → Option (SearchRace κ)
  | .compact => if s.applied < ops.length then some { s with applied := s.applied + 1 } else none
  | .search =>
    some { s with
      phase := match s.phase with
        | .memtables =>
          next (some ((t.memtable.get key).or (t.immutable.bind fun m => m.get key))) .level0
        | .level0 => next ((s.levels t ops).level0.search key) .level1
        | .level1 => next ((s.levels t ops).level1.search key) (.done none)
        | phase => phase }

/-- A search without a compaction is `LsmTree.search`. -/
theorem exec_search : exec (step t ops key) init [.search, .search, .search] =
    some ⟨0, (t.search key).elim .fault .done⟩ := by
  change some _ = some _
  have hlevels : ∀ phase, levels t ops ⟨0, phase⟩ = t.levels := fun _ => rfl
  simp only [init, hlevels, LsmTree.search]
  cases t.memtable.get key with
  | some r => rfl
  | none =>
    cases t.immutable.bind fun m => m.get key with
    | some r => rfl
    | none =>
      cases t.levels.level0.search key with
      | none => rfl
      | some res =>
        cases res with
        | some r => rfl
        | none =>
          cases t.levels.level1.search key with
          | none => rfl
          | some res' =>
            cases res' with
            | none => rfl
            | some r => rfl

/-- The search found what was newest before the compaction, if it has returned. -/
def Undisturbed (s : SearchRace κ) : Prop :=
  s.phase ≠ .fault ∧ ∀ res, s.phase = .done res → Record.positive? res = t.mapping key

/-- Level 1 holds new files, and old ones that they replace. -/
def Mixed (s : SearchRace κ) : Prop :=
  t.levels.level1.findRelativeFiles t.levels.level0.pickDemotedFiles ≠ [] ∧
    0 < s.applied ∧ s.applied < ops.length

/-- The key lies below or above all files that are merged. -/
def Outside : Prop :=
  (∀ f ∈ mergeInputs t.levels, key < f.firstKey) ∨ ∀ f ∈ mergeInputs t.levels, f.lastKey < key

/-- The merge brings the deleted key back. -/
def Resurrected (order : List ℕ) : Prop :=
  ∃ stream, pops MergeNode.key ((mergeInputs t.levels).map BitFile.nodes) order = some stream ∧
    Resurrects (stream.filter fun n => n.key = key)

/-- The steps at which a search reads a level as it should be. Level 1 is not mixed when the key lies
in the range of the merge, and after the compaction the key was not brought back by it. For key 0
there is no file without entries. -/
def Clear (order : List ℕ) (s : SearchRace κ) : RaceAction → Prop
  | .compact => True
  | .search =>
    match s.phase with
    | .level0 => key = 0 → ∀ f ∈ (s.levels t ops).level0.files, f.entries ≠ []
    | .level1 => (key = 0 → ∀ f ∈ (s.levels t ops).level1.files, f.entries ≠ []) ∧
      (s.Mixed t ops → Outside t key) ∧ (s.applied = ops.length → ¬Resurrected t key order)
    | _ => True

end Step

end SearchRace

/-! ## Lookups -/

theorem BitFile.firstKey_le_lastKey {f : BitFile κ} (h : f.Sorted) : f.firstKey ≤ f.lastKey := by
  by_cases hne : f.entries = []
  · rw [firstKey_of_empty hne, lastKey_of_empty hne]
  · obtain ⟨e, he, hek⟩ := exists_firstKey hne
    rw [← hek]
    exact le_lastKey h he

theorem BitFile.search_isSome {f : BitFile κ} {key : ℕ} (h : key = 0 → f.entries ≠ []) :
    (f.search key).isSome = true := by
  rw [BitFile.search]
  split
  · rfl
  · rename_i hrange
    split
    · rename_i hempty
      have hnil := List.isEmpty_iff.mp hempty
      rw [firstKey_of_empty hnil, lastKey_of_empty hnil] at hrange
      exact absurd hnil (h (by omega))
    · rfl

/-- A file with the key in its range has entries, unless the key is 0. -/
theorem ne_nil_of_range {f : BitFile κ} {key : ℕ} (hzero : key = 0 → f.entries ≠ [])
    (hlast : key ≤ f.lastKey) : f.entries ≠ [] := by
  intro hnil
  rw [BitFile.lastKey_of_empty hnil] at hlast
  exact hzero (Nat.le_zero.mp hlast) hnil

/-- A search faults in files without entries only, and there with key 0. -/
theorem BitLevel.search_isSome {l : BitLevel κ} {key : ℕ}
    (h : key = 0 → ∀ f ∈ l.files, f.entries ≠ []) : (l.search key).isSome = true := by
  rw [BitLevel.search]
  split
  · rw [BitLevel.linearSearch, Option.isSome_map]
    obtain ⟨acc, hacc⟩ : ∃ acc : ℕ × Option (Record κ), acc = (0, none) := ⟨_, rfl⟩
    rw [← hacc]
    clear hacc
    have hfiles : ∀ f ∈ l.files, (f.search key).isSome = true := fun f hf =>
      BitFile.search_isSome fun hkey => h hkey f hf
    revert hfiles
    generalize l.files = files
    intro hfiles
    induction files generalizing acc with
    | nil => rfl
    | cons f files ih =>
      obtain ⟨r, hr⟩ := Option.isSome_iff_exists.mp (hfiles f List.mem_cons_self)
      have hrest := fun acc => ih acc fun g hg => hfiles g (List.mem_cons_of_mem _ hg)
      rw [List.foldlM_cons]
      split
      · exact hrest acc
      · split
        · exact hrest acc
        · rw [hr]
          exact hrest _
  · split
    · rfl
    · rename_i f hlocate
      obtain ⟨⟨i, hi⟩, -, -⟩ := BitLevel.locateFile_eq_some hlocate
      exact BitFile.search_isSome fun hkey => h hkey f (List.mem_of_getElem? hi)

/-! ## The levels during a compaction -/

namespace Levels

theorem applyAll_sorted {l : Levels κ} (h : l.level1.Sorted) (ops : List (LevelOp κ)) :
    (l.applyAll ops).level1.Sorted := by
  induction ops generalizing l with
  | nil => exact h
  | cons op ops ih =>
    refine ih ?_
    cases op with
    | add0 f => exact h
    | add1 f => exact h.addFile f
    | remove0 id => exact h
    | remove1 id => exact h.removeFile id

theorem mem_applyAll_level1 {l : Levels κ} {ops : List (LevelOp κ)} {f : BitFile κ}
    (hf : f ∈ (l.applyAll ops).level1.files) : f ∈ l.level1.files ∨ .add1 f ∈ ops := by
  induction ops generalizing l with
  | nil => exact Or.inl hf
  | cons op ops ih =>
    rcases ih hf with hf | hf
    · cases op with
      | add0 g => exact Or.inl hf
      | add1 g =>
        by_cases hroom : l.level1.files.length < l.level1.maxSize
        · rcases List.mem_cons.mp ((BitLevel.addFile_perm hroom g).mem_iff.mp hf) with rfl | hf
          · exact Or.inr List.mem_cons_self
          · exact Or.inl hf
        · have hsame : l.level1.addFile g = l.level1 := if_pos (Nat.not_lt.mp hroom)
          rw [show (l.apply (.add1 g)).level1 = l.level1.addFile g from rfl, hsame] at hf
          exact Or.inl hf
      | remove0 id => exact Or.inl hf
      | remove1 id => exact Or.inl (List.mem_of_mem_eraseP hf)
    · exact Or.inr (List.mem_cons_of_mem _ hf)

/-- Only minor compactions add files to level 0. -/
theorem applyAll_level0 {ops : List (LevelOp κ)} (hops : ∀ f, .add0 f ∉ ops) (l : Levels κ) :
    (l.applyAll ops).level0.files.Sublist l.level0.files ∧
      (l.applyAll ops).level0.level = l.level0.level := by
  induction ops generalizing l with
  | nil => exact ⟨List.Sublist.refl _, rfl⟩
  | cons op ops ih =>
    obtain ⟨hsub, hlevel⟩ := ih (fun f hf => hops f (List.mem_cons_of_mem _ hf)) (l.apply op)
    cases op with
    | add0 f => exact absurd List.mem_cons_self (hops f)
    | add1 f => exact ⟨hsub, hlevel⟩
    | remove0 id => exact ⟨hsub.trans List.eraseP_sublist, hlevel⟩
    | remove1 id => exact ⟨hsub, hlevel⟩

end Levels

/-! ## Keys outside of a merge -/

/-- The first record of a key, when only one file has records of it. -/
theorem head?_flatMap_recordsOf {files : List (BitFile κ)} {f : BitFile κ} {key : ℕ} (hf : f ∈ files)
    (hothers : ∀ g ∈ files, g = f ∨ g.recordsOf key = []) :
    (files.flatMap fun g => g.recordsOf key).head? = (f.recordsOf key).head? := by
  cases hrec : f.recordsOf key with
  | nil =>
    refine List.head?_eq_none_iff.mpr (List.flatMap_eq_nil_iff.mpr fun g hg => ?_)
    rcases hothers g hg with rfl | hnil
    · exact hrec
    · exact hnil
  | cons r rs =>
    induction files with
    | nil => cases hf
    | cons g files ih =>
      rw [List.flatMap_cons]
      rcases hothers g List.mem_cons_self with rfl | hnil
      · rw [hrec]
        rfl
      · rw [hnil, List.nil_append]
        rcases List.mem_cons.mp hf with rfl | hf
        · cases hrec.symm.trans hnil
        · exact ih hf fun x hx => hothers x (List.mem_cons_of_mem _ hx)

namespace Merge

variable [Inhabited κ] {l : Levels κ} {c : Catalogue} {order : List ℕ} {f₀ : BitFile κ}
  {before R after : List (BitFile κ)} {stream : List (MergeNode κ)} {s : MergeState κ} {key : ℕ}

/-- The key is not in the range of what is merged. -/
def Beyond (f₀ : BitFile κ) (R : List (BitFile κ)) (key : ℕ) : Prop :=
  (∀ f ∈ f₀ :: R, key < f.firstKey) ∨ ∀ f ∈ f₀ :: R, f.lastKey < key

/-- A file that is merged or written by the merge. -/
def Zone (R : List (BitFile κ)) (s : MergeState κ) (f : BitFile κ) : Prop := f ∈ R ∨ f ∈ s.files

theorem input_sorted (h : Merge l c order f₀ before R after stream s) {f : BitFile κ}
    (hf : f ∈ f₀ :: R) : f.Sorted := by
  rcases List.mem_cons.mp hf with rfl | hf
  · exact (h.ok.files f h.mem_upper).sorted
  · exact (h.ok.files f (h.mem_relatives hf)).sorted

/-- The entries of such a file come from the merged files. -/
theorem Zone.exists_input (h : Merge l c order f₀ before R after stream s) {f : BitFile κ}
    (hf : Zone R s f) {e : ℕ × Record κ} (he : e ∈ f.entries) : ∃ x ∈ f₀ :: R, e ∈ x.entries := by
  rcases hf with hf | hf
  · exact ⟨f, List.mem_cons_of_mem _ hf, he⟩
  · refine h.exists_input ?_
    rw [s.output_eq]
    exact List.mem_flatMap.mpr ⟨f, hf, he⟩

/-- No entry of it lies on the other side of the key. -/
theorem Beyond.not_between (h : Merge l c order f₀ before R after stream s) (hkey : Beyond f₀ R key)
    {f : BitFile κ} (hf : Zone R s f) {a b : ℕ × Record κ} (ha : a ∈ f.entries) (hb : b ∈ f.entries)
    (hak : a.1 ≤ key) (hkb : key ≤ b.1) : False := by
  obtain ⟨x, hx, hax⟩ := Zone.exists_input h hf ha
  obtain ⟨y, hy, hby⟩ := Zone.exists_input h hf hb
  rcases hkey with hlow | hhigh
  · have hle := BitFile.firstKey_le (h.input_sorted hx) hax
    exact absurd (hlow x hx) (Nat.not_lt.mpr (hle.trans hak))
  · have hle := BitFile.le_lastKey (h.input_sorted hy) hby
    exact absurd (hhigh y hy) (Nat.not_lt.mpr (hkb.trans hle))

theorem Beyond.recordsOf_eq_nil (h : Merge l c order f₀ before R after stream s)
    (hkey : Beyond f₀ R key) {f : BitFile κ} (hf : Zone R s f) : f.recordsOf key = [] := by
  refine BitFile.recordsOf_eq_nil.mpr fun e he hek => ?_
  exact hkey.not_between h hf he he hek.le hek.ge

/-- What level 1 can hold during the merge: files that stay, and files of the zone. -/
structure During (l : BitLevel κ) (before R after : List (BitFile κ)) (s : MergeState κ) : Prop where
  level : l.level ≠ 0
  sorted : l.Sorted
  files : ∀ f ∈ l.files, f ∈ before ++ after ∨ Zone R s f
  kept : ∀ f ∈ before ++ after, f ∈ l.files

theorem During.file_sorted {lev : BitLevel κ} (hd : During lev before R after s)
    (h : Merge l c order f₀ before R after stream s) {f : BitFile κ} (hf : f ∈ lev.files) :
    f.Sorted := by
  rcases hd.files f hf with hf | hf | hf
  · refine (h.ok.files f (h.mem_lower ?_)).sorted
    rcases List.mem_append.mp hf with hf | hf
    · exact List.mem_append_left _ (List.mem_append_left _ hf)
    · exact List.mem_append_right _ hf
  · exact (h.ok.files f (h.mem_relatives hf)).sorted
  · exact (h.files_ok hf).sorted

theorem mem_level1_of_kept (h : Merge l c order f₀ before R after stream s) {f : BitFile κ}
    (hf : f ∈ before ++ after) : f ∈ l.level1.files := by
  rw [h.split]
  rcases List.mem_append.mp hf with hf | hf
  · exact List.mem_append_left _ (List.mem_append_left _ hf)
  · exact List.mem_append_right _ hf

/-- A file with the key in its range is one that stays. -/
theorem During.kept_of_range {lev : BitLevel κ} (hd : During lev before R after s)
    (h : Merge l c order f₀ before R after stream s) (hkey : Beyond f₀ R key) {f : BitFile κ}
    (hf : f ∈ lev.files) (hne : f.entries ≠ []) (hfirst : f.firstKey ≤ key) (hlast : key ≤ f.lastKey) :
    f ∈ before ++ after := by
  refine (hd.files f hf).resolve_right fun hzone => ?_
  obtain ⟨a, ha, hak⟩ := BitFile.exists_firstKey hne
  obtain ⟨b, hb, hbk⟩ := BitFile.exists_lastKey hne
  exact hkey.not_between h hzone ha hb (hak.trans_le hfirst) (hlast.trans hbk.ge)

/-- A file behind the one with the key does not end before the key. -/
theorem During.not_before {lev : BitLevel κ} (hd : During lev before R after s)
    (h : Merge l c order f₀ before R after stream s) (hinputs : ∀ x ∈ f₀ :: R, x.entries ≠ [])
    (hkey : Beyond f₀ R key) {f g : BitFile κ} (hf : f ∈ before ++ after) (hne : f.entries ≠ [])
    (hlast : key ≤ f.lastKey) (hg : g ∈ lev.files) (hle : f.Le g) (hgt : g.lastKey < key) :
    False := by
  have hgrange := BitFile.firstKey_le_lastKey (hd.file_sorted h hg)
  obtain ⟨a, ha, hak⟩ := BitFile.exists_firstKey hne
  obtain ⟨b, hb, hbk⟩ := BitFile.exists_lastKey hne
  by_cases hgne : g.entries = []
  · have h₁ := BitFile.firstKey_of_empty hgne
    have h₂ := BitFile.lastKey_of_empty hgne
    rw [BitFile.Le] at hle
    omega
  · obtain ⟨d, hd', hdk⟩ := BitFile.exists_firstKey hgne
    rcases hd.files g hg with hkept | hzone
    · -- two files that stay are apart
      have hneq : f ≠ g := by
        rintro rfl
        exact absurd hgt (Nat.not_lt.mpr hlast)
      have hsymm : Std.Symm (BitFile.Apart : BitFile κ → BitFile κ → Prop) :=
        ⟨fun _ _ => BitFile.Apart.symm⟩
      have hapart := h.ok.tidy.apart.forall (h.mem_level1_of_kept hf) (h.mem_level1_of_kept hkept) hneq
      have hlt := hle.before hapart b hb d hd'
      omega
    · obtain ⟨x, hx, hdx⟩ := Zone.exists_input h hzone hd'
      rcases hkey with hlow | hhigh
      · have hxle := BitFile.firstKey_le (h.input_sorted hx) hdx
        have hxlt := hlow x hx
        omega
      · rcases h.kept_apart hf with hfbelow | hfabove
        · obtain ⟨e, he, hek⟩ := BitFile.exists_lastKey (hinputs f₀ List.mem_cons_self)
          have hlt := hfbelow f₀ List.mem_cons_self b hb e he
          have hlt' := hhigh f₀ List.mem_cons_self
          omega
        · have hlt := hfabove x hx d hdx a ha
          have hfirst := hle.firstKey_le
          omega

/-- `bsearch` is not misled. -/
theorem During.descending {lev : BitLevel κ} (hd : During lev before R after s)
    (h : Merge l c order f₀ before R after stream s) (hinputs : ∀ x ∈ f₀ :: R, x.entries ≠ [])
    (hkey : Beyond f₀ R key) (hzero : key = 0 → ∀ f ∈ lev.files, f.entries ≠ []) :
    Descending (lev.cmpKeyAt key) lev.files.length := by
  refine hd.sorted.descending fun i j f g hij hi hj hfirst hlast => ?_
  have hf := List.mem_of_getElem? hi
  have hne : f.entries ≠ [] := ne_nil_of_range (fun hk => hzero hk f hf) hlast
  refine Nat.not_lt.mp (hd.not_before h hinputs hkey ?_ hne hlast (List.mem_of_getElem? hj) ?_)
  · exact hd.kept_of_range h hkey hf hne hfirst hlast
  · exact hd.sorted.le_of_le hij hi hj

theorem During.kept_of_recordsOf {lev : BitLevel κ} (hd : During lev before R after s)
    (h : Merge l c order f₀ before R after stream s) (hkey : Beyond f₀ R key) {f : BitFile κ}
    (hf : f ∈ lev.files) (hne : f.recordsOf key ≠ []) : f ∈ before ++ after := by
  refine (hd.files f hf).resolve_right fun hzone => ?_
  exact hne (hkey.recordsOf_eq_nil h hzone)

/-- The first record of the key is that of a file with the key in its range. -/
theorem During.head?_eq {lev : BitLevel κ} (hd : During lev before R after s)
    (h : Merge l c order f₀ before R after stream s) (hkey : Beyond f₀ R key) {f : BitFile κ}
    (hf : f ∈ before ++ after) (hne : f.entries ≠ []) (hfirst : f.firstKey ≤ key)
    (hlast : key ≤ f.lastKey) : (lev.recordsOf key).head? = (f.recordsOf key).head? := by
  have hmem := h.mem_level1_of_kept hf
  refine head?_flatMap_recordsOf (hd.kept f hf) fun g hg => ?_
  by_contra hcon
  obtain ⟨hgf, hgne⟩ := not_or.mp hcon
  have hgmem := h.mem_level1_of_kept (hd.kept_of_recordsOf h hkey hg hgne)
  -- both files are in the level before the merge, which is tidy
  have hfrec : l.level1.recordsOf key = f.recordsOf key := by
    obtain ⟨i, hi, hget⟩ := List.getElem_of_mem hmem
    obtain ⟨a, ha, hak⟩ := BitFile.exists_firstKey hne
    obtain ⟨b, hb, hbk⟩ := BitFile.exists_lastKey hne
    exact h.ok.tidy.recordsOf_eq ((List.getElem?_eq_getElem hi).trans (congrArg some hget))
      ⟨a, ha, hak.trans_le hfirst⟩ ⟨b, hb, hlast.trans hbk.ge⟩
  have hgrec := h.ok.tidy.recordsOf_of_mem hgmem hgne
  refine hgne (h.ok.tidy.recordsOf_eq_nil_of_ne hgmem hmem hgf ?_)
  rw [← hfrec, hgrec]
  exact hgne

/-- **Outside of the merge** a search of level 1 finds what it found before. -/
theorem During.search_eq {lev : BitLevel κ} (hd : During lev before R after s)
    (h : Merge l c order f₀ before R after stream s) (hinputs : ∀ x ∈ f₀ :: R, x.entries ≠ [])
    (hkey : Beyond f₀ R key) (hzero : key = 0 → ∀ f ∈ lev.files, f.entries ≠ [])
    {res : Option (Record κ)} (hs : lev.search key = some res) : res = l.newest key := by
  have hres : res = (lev.recordsOf key).head? := by
    refine BitLevel.search_eq_head? hd.level (fun f hf => hd.file_sorted h hf)
      (hd.descending h hinputs hkey hzero) (fun f hlocate hne => ?_) hs
    obtain ⟨⟨i, hi⟩, hfirst, hlast⟩ := BitLevel.locateFile_eq_some hlocate
    have hkept := hd.kept_of_range h hkey (List.mem_of_getElem? hi) hne hfirst hlast
    exact hd.head?_eq h hkey hkept hne hfirst hlast
  have hupper : f₀.recordsOf key = [] := by
    refine BitFile.recordsOf_eq_nil.mpr fun e he hek => ?_
    have hsorted := h.input_sorted (f := f₀) List.mem_cons_self
    rcases hkey with hlow | hhigh
    · have hlt := hlow f₀ List.mem_cons_self
      have hle := BitFile.firstKey_le hsorted he
      omega
    · have hlt := hhigh f₀ List.mem_cons_self
      have hle := BitFile.le_lastKey hsorted he
      omega
  rw [hres, h.newest_eq, hupper, List.nil_append]
  by_cases hex : ∃ f ∈ before ++ after, f.recordsOf key ≠ []
  · obtain ⟨f, hf, hne⟩ := hex
    have hmem := h.mem_level1_of_kept hf
    have hsorted := h.ok.tidy.files f hmem
    obtain ⟨r, hr⟩ := List.exists_mem_of_ne_nil _ hne
    have he := BitFile.mem_recordsOf.mp hr
    rw [hd.head?_eq h hkey hf (List.ne_nil_of_mem he) (BitFile.firstKey_le hsorted he)
      (BitFile.le_lastKey hsorted he), h.ok.tidy.recordsOf_of_mem hmem hne]
  · have hkept : ∀ f ∈ before ++ after, f.recordsOf key = [] := fun f hf => by
      by_contra hne
      exact hex ⟨f, hf, hne⟩
    have hnow : lev.recordsOf key = [] := by
      refine BitLevel.recordsOf_eq_nil.mpr fun f hf => ?_
      rcases hd.files f hf with hf | hzone
      · exact hkept f hf
      · exact hkey.recordsOf_eq_nil h hzone
    have hthen : l.level1.recordsOf key = [] := by
      refine BitLevel.recordsOf_eq_nil.mpr fun f hf => ?_
      rw [h.split, List.mem_append, List.mem_append] at hf
      rcases hf with (hf | hf) | hf
      · exact hkept f (List.mem_append_left _ hf)
      · exact hkey.recordsOf_eq_nil h (Or.inl hf)
      · exact hkept f (List.mem_append_right _ hf)
    rw [hnow, hthen]

omit [Inhabited κ] in
theorem add0_not_mem_mergeOps (f₀ : BitFile κ) (R : List (BitFile κ)) (s : MergeState κ)
    (f : BitFile κ) : .add0 f ∉ mergeOps f₀ R s := by
  intro hop
  rw [mergeOps, List.mem_append, List.mem_append] at hop
  rcases hop with (hop | hop) | hop
  all_goals
    obtain ⟨g, -, heq⟩ := List.mem_map.mp hop
    cases heq

/-- The level between two calls of the merge. -/
theorem during (h : Merge l c order f₀ before R after stream s) (n : ℕ) :
    During (l.applyAll ((mergeOps f₀ R s).take n)).level1 before R after s where
  level := by
    rw [(l.applyAll_level1 _).1]
    exact h.ok.level1
  sorted := Levels.applyAll_sorted h.ok.tidy.sorted _
  files := by
    intro f hf
    rcases Levels.mem_applyAll_level1 hf with hf | hf
    · rw [h.split, List.mem_append, List.mem_append] at hf
      rcases hf with (hf | hf) | hf
      · exact Or.inl (List.mem_append_left _ hf)
      · exact Or.inr (Or.inl hf)
      · exact Or.inl (List.mem_append_right _ hf)
    · have hop := List.mem_of_mem_take hf
      rw [mergeOps, List.mem_append, List.mem_append] at hop
      rcases hop with (hop | hop) | hop
      · obtain ⟨g, hg, heq⟩ := List.mem_map.mp hop
        cases heq
        exact Or.inr (Or.inr hg)
      · obtain ⟨g, -, heq⟩ := List.mem_map.mp hop
        cases heq
      · obtain ⟨g, -, heq⟩ := List.mem_map.mp hop
        cases heq
  kept := by
    intro f hf
    have hmem : f ∈ (l.applyAll ((mergeOps f₀ R s).take n)).files := by
      rcases h.covered n with hold | hnew
      · exact hold f (Levels.mem_files.mpr (Or.inr (h.mem_level1_of_kept hf)))
      · refine hnew f (Levels.mem_files.mpr (Or.inr (h.perm.mem_iff.mpr ?_)))
        exact List.mem_append_right _ hf
    refine (Levels.mem_files.mp hmem).resolve_left fun hupper => ?_
    have hno : ∀ g, .add0 g ∉ (mergeOps f₀ R s).take n := fun g hg =>
      add0_not_mem_mergeOps f₀ R s g (List.mem_of_mem_take hg)
    obtain ⟨hsub, -⟩ := Levels.applyAll_level0 hno l
    have hmem₀ := hsub.subset hupper
    rw [h.upper, List.mem_singleton] at hmem₀
    have hlower : f ∈ before ++ R ++ after := h.split ▸ h.mem_level1_of_kept hf
    exact h.id_ne hlower (congrArg BitFile.id hmem₀)

end Merge

/-! ## Level 1 during a compaction -/

section Compaction

/-- A key that is moved does not come back. -/
theorem not_resurrected_of_move {t : LsmTree κ} {f₀ : BitFile κ}
    (hinputs : mergeInputs t.levels = [f₀]) (key : ℕ) (order : List ℕ) :
    ¬SearchRace.Resurrected t key order := by
  rintro ⟨stream, hpops, a, b, c, hgroup, hac, -, -⟩
  have hversion : ∀ n ∈ [a, b, c], n.version = f₀.version := by
    intro n hn
    rw [← hgroup] at hn
    obtain ⟨src, hsrc, hmem⟩ := mem_of_mem_pops hpops (List.mem_filter.mp hn).1
    rw [hinputs, List.map_singleton, List.mem_singleton] at hsrc
    rw [hsrc] at hmem
    exact (BitFile.mem_nodes.mp hmem).1
  rw [hversion a (by simp), hversion c (by simp)] at hac
  exact Nat.lt_irrefl _ hac

variable [Inhabited κ] {t : LsmTree κ} {order : List ℕ} {comp : Compaction κ} {f₀ : BitFile κ}
  {key : ℕ}

/-- The calls of a compaction that moves the file of level 0, and of one that merges it. -/
theorem majorCompaction_cases (hok : t.Ok) (hf₀ : t.levels.level0.files = [f₀])
    (hcomp : majorCompaction t.levels t.catalogue order = some comp) :
    t.levels.level1.findRelativeFiles t.levels.level0.pickDemotedFiles = [] ∧
        mergeInputs t.levels = [f₀] ∧ (∃ f₁, comp.ops = [.add1 f₁, .remove0 f₀.id]) ∨
      ∃ before R after stream s, mergeInputs t.levels = f₀ :: R ∧
        t.levels.level1.findRelativeFiles t.levels.level0.pickDemotedFiles ≠ [] ∧
        (∀ f ∈ f₀ :: R, f.entries ≠ []) ∧
        Merge t.levels t.catalogue order f₀ before R after stream s ∧ comp.ops = mergeOps f₀ R s := by
  have hdemoted : t.levels.level0.pickDemotedFiles = [f₀] := by
    rw [BitLevel.pickDemotedFiles, if_neg (not_not.mpr hok.levels.level0.1), hf₀]
  have hinputs : mergeInputs t.levels = f₀ :: t.levels.level1.findRelativeFiles [f₀] := by
    rw [mergeInputs, hdemoted, List.singleton_append]
  rw [majorCompaction] at hcomp
  split at hcomp
  · cases hcomp
  · rename_i hfull
    rcases compactionJobRun_cases hok.levels hf₀ hcomp with ⟨hrel, rfl⟩ |
      ⟨before, R, after, stream, s, hR, hne, hm, hRne, -, -, -, rfl⟩
    · refine Or.inl ⟨?_, ?_, _, rfl⟩
      · rw [hdemoted, hrel]
      · rw [hinputs, hrel]
    · refine Or.inr ⟨before, R, after, stream, s, hR, ?_, hne,
        hm (Bool.eq_false_of_not_eq_true hfull), rfl⟩
      rw [hinputs] at hR
      rw [hdemoted, (List.cons.inj hR).2]
      exact hRne

/-- **After the compaction** the levels map the key as before, unless it came back. -/
theorem positive?_newest_applyAll (hok : t.Ok) (hf₀ : t.levels.level0.files = [f₀])
    (hcomp : majorCompaction t.levels t.catalogue order = some comp)
    (hres : ¬SearchRace.Resurrected t key order) :
    Record.positive? ((t.levels.applyAll comp.ops).newest key) =
      Record.positive? (t.levels.newest key) := by
  have hspec := majorCompaction_spec hok.levels hf₀ hcomp
  have hreflects : ∀ r, (t.levels.applyAll comp.ops).newest key = some r →
      t.levels.newest key = some r := by
    intro r hr
    rcases majorCompaction_cases hok hf₀ hcomp with ⟨-, hinputs, -⟩ |
      ⟨before, R, after, stream, s, hinputs, -, -, hm, hops⟩
    · refine hspec.reflects ?_ key r hr
      rintro ⟨stream, k, hpops, hk⟩
      exact not_resurrected_of_move hinputs k order ⟨stream, hpops, hk⟩
    · rw [hops] at hr
      refine hm.reflects (fun hk => hres ⟨stream, ?_, hk⟩) hr
      rw [hinputs]
      exact hm.pops
  refine Option.ext fun r => ?_
  rw [Record.positive?_eq_some, Record.positive?_eq_some]
  constructor
  · rintro ⟨hr, hpos⟩
    exact ⟨hreflects r hr, hpos⟩
  · rintro ⟨hr, hpos⟩
    exact ⟨hspec.keeps key r hr hpos, hpos⟩

theorem add0_not_mem_ops (hok : t.Ok) (hf₀ : t.levels.level0.files = [f₀])
    (hcomp : majorCompaction t.levels t.catalogue order = some comp) (f : BitFile κ) :
    .add0 f ∉ comp.ops := by
  rcases majorCompaction_cases hok hf₀ hcomp with ⟨-, -, f₁, hops⟩ |
    ⟨before, R, after, stream, s, -, -, -, -, hops⟩
  · rw [hops]
    simp
  · rw [hops]
    exact Merge.add0_not_mem_mergeOps f₀ R s f

/-- **Level 1 between two calls.** A search for a key that was not found in level 0 finds what was
newest before the compaction. -/
theorem search_level1 (hok : t.Ok) (hf₀ : t.levels.level0.files = [f₀])
    (hcomp : majorCompaction t.levels t.catalogue order = some comp) {s : SearchRace κ}
    (happlied : s.applied ≤ comp.ops.length)
    (hmiss : (s.levels t comp.ops).level0.files = [] ∨ t.levels.level0.recordsOf key = [])
    (hzero : key = 0 → ∀ f ∈ (s.levels t comp.ops).level1.files, f.entries ≠ [])
    (hmixed : s.Mixed t comp.ops → SearchRace.Outside t key)
    (hres : s.applied = comp.ops.length → ¬SearchRace.Resurrected t key order)
    {res : Option (Record κ)} (hs : (s.levels t comp.ops).level1.search key = some res) :
    Record.positive? res = Record.positive? (t.levels.newest key) := by
  have hspec := majorCompaction_spec hok.levels hf₀ hcomp
  -- with the files of afterwards in level 1
  have hfinal : (s.levels t comp.ops).level1 = (t.levels.applyAll comp.ops).level1 →
      ¬SearchRace.Resurrected t key order →
      Record.positive? res = Record.positive? (t.levels.newest key) := by
    intro heq hres
    rw [heq] at hs
    rw [hspec.ok.tidy.search_eq hspec.ok.level1 hs, ← Levels.newest_of_empty hspec.empty,
      positive?_newest_applyAll hok hf₀ hcomp hres]
  rcases Nat.eq_zero_or_pos s.applied with hfirst | hpos
  · -- with the files of before
    have hlevels : s.levels t comp.ops = t.levels := by
      rw [SearchRace.levels, hfirst]
      rfl
    rw [hlevels] at hs hmiss
    have hnil := hmiss.resolve_left (by rw [hf₀]; exact List.cons_ne_nil _ _)
    rw [Levels.newest, hnil, List.nil_append, hok.levels.tidy.search_eq hok.levels.level1 hs]
  · rcases Nat.eq_or_lt_of_le happlied with hlast | hlt
    · refine hfinal ?_ (hres hlast)
      rw [SearchRace.levels, hlast, List.take_length]
    · rcases majorCompaction_cases hok hf₀ hcomp with ⟨-, hinputs, f₁, hops⟩ |
        ⟨before, R, after, stream, m, hinputs, hrel, hne, hm, hops⟩
      · refine hfinal ?_ (not_resurrected_of_move hinputs key order)
        rw [hops] at hlt
        have hone : s.applied = 1 := by
          simp only [List.length_cons, List.length_nil] at hlt
          omega
        rw [SearchRace.levels, hone, hops]
        rfl
      · have hout := hmixed ⟨hrel, hpos, hlt⟩
        rw [SearchRace.Outside, hinputs] at hout
        rw [SearchRace.levels, hops] at hs hzero
        rw [(hm.during s.applied).search_eq hm hne hout hzero hs]

end Compaction

/-! ## Runs -/

namespace SearchRace

/-- How many steps of the search are done. -/
def rank (s : SearchRace κ) : ℕ :=
  match s.phase with
  | .memtables => 0
  | .level0 => 1
  | .level1 => 2
  | .done _ => 3
  | .fault => 3

variable [Inhabited κ] {t : LsmTree κ} {order : List ℕ} {comp : Compaction κ} {f₀ : BitFile κ}
  {key : ℕ} {s s' : SearchRace κ}

theorem rank_step {ops : List (LevelOp κ)} {a : RaceAction} (hs : s.step t ops key a = some s') :
    min 3 (s.rank + [a].count .search) ≤ s'.rank := by
  cases a with
  | compact =>
    rw [step] at hs
    split at hs
    · obtain rfl := Option.some.inj hs
      exact Nat.min_le_right _ _
    · cases hs
  | search =>
    rw [step] at hs
    obtain rfl := Option.some.inj hs
    have hnext : ∀ found (miss : SearchPhase κ) n, n ≤ rank ⟨s.applied, miss⟩ → n ≤ 3 →
        n ≤ rank ⟨s.applied, next found miss⟩ := by
      intro found miss n hmiss hle
      match found with
      | none => exact hle
      | some none => exact hmiss
      | some (some r) => exact hle
    obtain ⟨applied, phase⟩ := s
    cases phase with
    | memtables => exact hnext _ _ 1 le_rfl (by decide)
    | level0 => exact hnext _ _ 2 le_rfl (by decide)
    | level1 => exact hnext _ _ 3 le_rfl (by decide)
    | done res => exact Nat.min_le_left _ _
    | fault => exact Nat.min_le_left _ _

/-- Three steps of a search are enough. -/
theorem rank_exec {ops : List (LevelOp κ)} {as : List RaceAction}
    (hrun : exec (step t ops key) s as = some s') : min 3 (s.rank + as.count .search) ≤ s'.rank := by
  induction as generalizing s with
  | nil =>
    obtain rfl := Option.some.inj hrun
    exact Nat.min_le_right _ _
  | cons a as ih =>
    obtain ⟨u, hu, hrun'⟩ := exec_cons_eq_some hrun
    have hstep := rank_step hu
    have hrest := ih hrun'
    have hcount : (a :: as).count .search = [a].count .search + as.count .search := by
      rw [← List.count_append]
      rfl
    omega

/-- What holds at any time. -/
structure Inv (t : LsmTree κ) (comp : Compaction κ) (key : ℕ) (s : SearchRace κ) : Prop where
  /-- the calls are made once -/
  applied : s.applied ≤ comp.ops.length
  /-- the search is right so far -/
  undisturbed : s.Undisturbed t key
  /-- the levels are searched if the memtables do not have the key -/
  memtables : s.phase = .level0 ∨ s.phase = .level1 →
    (t.memtable.get key).or (t.immutable.bind fun m => m.get key) = none
  /-- level 1 is searched if level 0 did not have the key, or has lost its file -/
  level0 : s.phase = .level1 →
    (s.levels t comp.ops).level0.files = [] ∨ t.levels.level0.recordsOf key = []

theorem inv_init (t : LsmTree κ) (comp : Compaction κ) (key : ℕ) : init.Inv t comp key := by
  refine ⟨Nat.zero_le _, ⟨fun h => ?_, fun res h => ?_⟩, fun h => ?_, fun h => ?_⟩
  · cases h
  · cases h
  · rcases h with h | h <;> cases h
  · cases h

/-- The key is mapped as the levels map it, if the memtables do not have it. -/
theorem mapping_of_miss
    (hmiss : (t.memtable.get key).or (t.immutable.bind fun m => m.get key) = none) :
    t.mapping key = Record.positive? (t.levels.newest key) := by
  obtain ⟨hmem, himm⟩ := Option.or_eq_none_iff.mp hmiss
  rw [LsmTree.mapping, LsmTree.newest, hmem, himm, Option.none_or, Option.none_or]

theorem Inv.compact (h : s.Inv t comp key) (hno : ∀ f, .add0 f ∉ comp.ops)
    (hs : s.step t comp.ops key .compact = some s') : s'.Inv t comp key := by
  rw [step] at hs
  split at hs
  · rename_i hlt
    obtain rfl := Option.some.inj hs
    refine ⟨hlt, h.undisturbed, h.memtables, fun hphase => ?_⟩
    refine (h.level0 hphase).imp_left fun hempty => ?_
    -- what left level 0 does not come back
    have htake : comp.ops.take (s.applied + 1) = comp.ops.take s.applied ++ [comp.ops[s.applied]] :=
      List.take_succ_eq_append_getElem hlt
    have hno' : ∀ f, .add0 f ∉ [comp.ops[s.applied]] := fun f hf =>
      hno f (List.mem_singleton.mp hf ▸ List.getElem_mem hlt)
    obtain ⟨hsub, -⟩ := Levels.applyAll_level0 hno' (s.levels t comp.ops)
    rw [hempty] at hsub
    rw [levels, htake, Levels.applyAll_append]
    exact List.sublist_nil.mp hsub
  · cases hs

/-- The search returns. -/
theorem inv_done {n : ℕ} (hn : n ≤ comp.ops.length) {res : Option (Record κ)}
    (hres : Record.positive? res = t.mapping key) : Inv t comp key ⟨n, .done res⟩ := by
  refine ⟨hn, ⟨fun h => ?_, fun res' h => ?_⟩, fun h => ?_, fun h => ?_⟩
  · cases h
  · cases h
    exact hres
  · rcases h with h | h <;> cases h
  · cases h

/-- The search goes on. -/
theorem inv_pass {n : ℕ} (hn : n ≤ comp.ops.length) {phase : SearchPhase κ}
    (hphase : phase = .level0 ∨ phase = .level1)
    (hmiss : (t.memtable.get key).or (t.immutable.bind fun m => m.get key) = none)
    (hlevel0 : phase = .level1 → (levels t comp.ops ⟨n, phase⟩).level0.files = [] ∨
      t.levels.level0.recordsOf key = []) : Inv t comp key ⟨n, phase⟩ := by
  refine ⟨hn, ⟨fun h => ?_, fun res h => ?_⟩, fun _ => hmiss, hlevel0⟩
  · change phase = .fault at h
    rcases hphase with rfl | rfl <;> cases h
  · change phase = .done res at h
    rcases hphase with rfl | rfl <;> cases h

/-- The search of the memtables. -/
theorem Inv.search_memtables (h : s.Inv t comp key) :
    Inv t comp key ⟨s.applied, next (some ((t.memtable.get key).or
      (t.immutable.bind fun m => m.get key))) .level0⟩ := by
  cases hfound : (t.memtable.get key).or (t.immutable.bind fun m => m.get key) with
  | none => exact inv_pass h.applied (Or.inl rfl) hfound fun hp => by cases hp
  | some r =>
    refine inv_done h.applied ?_
    rw [LsmTree.mapping, LsmTree.newest, ← Option.or_assoc, hfound, Option.some_or]

/-- The search of level 0. -/
theorem Inv.search_level0 (h : s.Inv t comp key) (hok : t.Ok) (hf₀ : t.levels.level0.files = [f₀])
    (hno : ∀ f, .add0 f ∉ comp.ops) (hphase : s.phase = .level0)
    (hzero : key = 0 → ∀ f ∈ (s.levels t comp.ops).level0.files, f.entries ≠ []) :
    Inv t comp key ⟨s.applied, next ((s.levels t comp.ops).level0.search key) .level1⟩ := by
  obtain ⟨res, hres⟩ := Option.isSome_iff_exists.mp (BitLevel.search_isSome hzero)
  have hmiss := h.memtables (Or.inl hphase)
  have hno' : ∀ f, .add0 f ∉ comp.ops.take s.applied := fun f hf => hno f (List.mem_of_mem_take hf)
  obtain ⟨hsub, hlevel⟩ : (s.levels t comp.ops).level0.files.Sublist t.levels.level0.files ∧
      (s.levels t comp.ops).level0.level = t.levels.level0.level :=
    Levels.applyAll_level0 hno' t.levels
  have hres' : res = ((s.levels t comp.ops).level0.recordsOf key).head? := by
    rw [BitLevel.search, if_pos (hlevel.trans hok.levels.level0.1)] at hres
    refine BitLevel.linearSearch_eq (hsub.length_le.trans hok.levels.one) (fun f hf => ?_) hres
    exact (hok.levels.files f (Levels.mem_files.mpr (Or.inl (hsub.subset hf)))).sorted
  rw [BitLevel.recordsOf] at hres'
  rw [hf₀] at hsub
  rw [hres]
  -- the file is still there, or not
  rcases List.sublist_singleton.mp hsub with hempty | hsame
  · rw [hempty, List.flatMap_nil, List.head?_nil] at hres'
    subst hres'
    exact inv_pass h.applied (Or.inr rfl) hmiss fun _ => Or.inl hempty
  · rw [hsame, ← hf₀] at hres'
    cases res with
    | none =>
      refine inv_pass h.applied (Or.inr rfl) hmiss fun _ => Or.inr ?_
      exact List.head?_eq_none_iff.mp hres'.symm
    | some r =>
      refine inv_done h.applied ?_
      rw [mapping_of_miss hmiss, Levels.newest, List.head?_append, BitLevel.recordsOf, ← hres',
        Option.some_or]

/-- **Step lemma.** -/
theorem Inv.step (h : s.Inv t comp key) (hok : t.Ok) (hf₀ : t.levels.level0.files = [f₀])
    (hcomp : majorCompaction t.levels t.catalogue order = some comp) {a : RaceAction}
    (hclear : s.Clear t comp.ops key order a) (hs : s.step t comp.ops key a = some s') :
    s'.Inv t comp key := by
  have hno := add0_not_mem_ops hok hf₀ hcomp
  cases a with
  | compact => exact h.compact hno hs
  | search =>
    rw [SearchRace.step] at hs
    obtain rfl := Option.some.inj hs
    rw [Clear] at hclear
    cases hphase : s.phase with
    | memtables => exact h.search_memtables
    | level0 =>
      rw [hphase] at hclear
      exact h.search_level0 hok hf₀ hno hphase hclear
    | level1 =>
      rw [hphase] at hclear
      obtain ⟨hzero, hmixed, hres⟩ := hclear
      obtain ⟨res, hfound⟩ := Option.isSome_iff_exists.mp (BitLevel.search_isSome hzero)
      have hright : Record.positive? res = t.mapping key := by
        rw [mapping_of_miss (h.memtables (Or.inr hphase))]
        exact search_level1 hok hf₀ hcomp h.applied (h.level0 hphase) hzero hmixed hres hfound
      simp only [hfound]
      cases res with
      | none => exact inv_done h.applied hright
      | some r => exact inv_done h.applied hright
    | done res =>
      exact inv_done h.applied (h.undisturbed.2 res hphase)
    | fault => exact absurd hphase h.undisturbed.1

end SearchRace

/-- **Lookups during a compaction.** Whatever state the device is in when the file of level 0 is
compacted, and in whatever order the calls of the compaction and the steps of a search come: if the
steps of the search read the levels as they should be, it finds the record that was newest before the
compaction, or nothing if that was negative or there was none; and it returns. -/
theorem search_undisturbed [Inhabited κ] (capacity maxFd : ℕ) (run : List (LsmAction κ))
    (s : LsmStore κ) (hrun : exec LsmStore.step (LsmStore.init capacity maxFd) run = some s)
    (hfull : s.tree.levels.level0.isFull = true) (order : List ℕ) (comp : Compaction κ)
    (hcomp : majorCompaction s.tree.levels s.tree.catalogue order = some comp) (key : ℕ)
    (as : List RaceAction) (u : SearchRace κ)
    (hclear : Along (SearchRace.step s.tree comp.ops key)
      (SearchRace.Clear s.tree comp.ops key order) SearchRace.init as)
    (hexec : exec (SearchRace.step s.tree comp.ops key) SearchRace.init as = some u) :
    u.Undisturbed s.tree key ∧ (3 ≤ as.count .search → ∃ res, u.phase = .done res) := by
  have hok := (LsmStore.ok_exec hrun).tree
  obtain ⟨f₀, hf₀⟩ : ∃ f₀, s.tree.levels.level0.files = [f₀] := by
    have hone := hok.levels.one
    rw [BitLevel.isFull, hok.levels.level0.2, decide_eq_true_eq] at hfull
    exact List.length_eq_one_iff.mp (Nat.le_antisymm hone hfull)
  have hinv : u.Inv s.tree comp key :=
    Machine.invariant (fun _ _ _ h hclear hs => h.step hok hf₀ hcomp hclear hs)
      (SearchRace.inv_init s.tree comp key) hclear hexec
  refine ⟨hinv.undisturbed, fun hcount => ?_⟩
  have hrank := SearchRace.rank_exec hexec
  have hle : 3 ≤ u.rank := by omega
  rw [SearchRace.rank] at hle
  cases hphase : u.phase with
  | done res => exact ⟨res, rfl⟩
  | fault => exact absurd hphase hinv.undisturbed.1
  | memtables => simp [hphase] at hle
  | level0 => simp [hphase] at hle
  | level1 => simp [hphase] at hle

/-- Keys 0 and 10 are written, and key 5 between them; the first two move to level 1 when the device
is closed for the second time. -/
def overlapping : List (LsmAction Unit) :=
  [.put 0 (some ⟨7, [], ()⟩), .put 10 (some ⟨8, [], ()⟩), .reopen [],
    .put 5 (some ⟨9, [], ()⟩), .reopen []]

/-- The search of a key in this device against the compaction of its level 0, with what the key is
mapped to. -/
def overlappingRace (key : ℕ) (as : List RaceAction) :
    Option (Bool × SearchPhase Unit × Option (Record Unit)) :=
  (exec LsmStore.step (LsmStore.init 4 8) overlapping).bind fun s =>
    (majorCompaction s.tree.levels s.tree.catalogue [1, 0, 1]).bind fun comp =>
      (exec (SearchRace.step s.tree comp.ops key) SearchRace.init as).map fun u =>
        (s.tree.levels.level0.isFull, u.phase, s.tree.mapping key)

theorem overlappingRace_eq_some {key : ℕ} {as : List RaceAction} {phase : SearchPhase Unit}
    {r : Option (Record Unit)} (h : overlappingRace key as = some (true, phase, r)) :
    ∃ s comp u, exec LsmStore.step (LsmStore.init 4 8) overlapping = some s ∧
      s.tree.levels.level0.isFull = true ∧
      majorCompaction s.tree.levels s.tree.catalogue [1, 0, 1] = some comp ∧
      exec (SearchRace.step s.tree comp.ops key) SearchRace.init as = some u ∧
      u.phase = phase ∧ s.tree.mapping key = r := by
  obtain ⟨s, hs, h⟩ := Option.bind_eq_some_iff.mp h
  obtain ⟨comp, hcomp, h⟩ := Option.bind_eq_some_iff.mp h
  obtain ⟨u, hu, h⟩ := Option.map_eq_some_iff.mp h
  simp only [Prod.mk.injEq] at h
  exact ⟨s, comp, u, hs, h.1, hcomp, hu, h.2⟩

/-- Key 5 is searched in level 0 while the new file is in level 1 already. -/
theorem search_undisturbed_sample :
    ∃ s comp u, exec LsmStore.step (LsmStore.init 4 8) overlapping = some s ∧
      majorCompaction s.tree.levels s.tree.catalogue [1, 0, 1] = some comp ∧
      exec (SearchRace.step s.tree comp.ops 5) SearchRace.init
        [.compact, .search, .search, .compact, .compact] = some u ∧
      u.phase = .done (some ⟨9, [], ()⟩) ∧ u.Undisturbed s.tree 5 := by
  obtain ⟨s, comp, u, hs, hfull, hcomp, hu, hphase, -⟩ := overlappingRace_eq_some
    (show overlappingRace 5 [.compact, .search, .search, .compact, .compact] =
      some (true, .done (some ⟨9, [], ()⟩), some ⟨9, [], ()⟩) by decide +kernel)
  have hclear : Along (SearchRace.step s.tree comp.ops 5)
      (SearchRace.Clear s.tree comp.ops 5 [1, 0, 1]) SearchRace.init
      [.compact, .search, .search, .compact, .compact] := by
    refine ⟨trivial, fun s₁ h₁ => ⟨?_, fun s₂ h₂ => ⟨?_, fun _ _ =>
      ⟨trivial, fun _ _ => ⟨trivial, fun _ _ => trivial⟩⟩⟩⟩⟩
    · -- the memtables come first
      rw [SearchRace.step] at h₁
      split at h₁
      · obtain rfl := Option.some.inj h₁
        trivial
      · cases h₁
    · rw [SearchRace.step] at h₁
      split at h₁
      · obtain rfl := Option.some.inj h₁
        rw [SearchRace.step] at h₂
        obtain rfl := Option.some.inj h₂
        cases (s.tree.memtable.get 5).or (s.tree.immutable.bind fun m => m.get 5) with
        | none => exact fun hzero => absurd hzero (by decide)
        | some r => trivial
      · cases h₁
  exact ⟨s, comp, u, hs, hcomp, hu, hphase, (search_undisturbed 4 8 overlapping s hs hfull [1, 0, 1] comp
    hcomp 5 _ u hclear hu).1⟩

/-- **A search misses a record.** The new file is added to level 1 and the one of key 5 removed from
level 0. The search passes level 0, and in level 1 `bsearch` lands on the old file. -/
theorem search_lands_on_old_file :
    ∃ s comp u, exec LsmStore.step (LsmStore.init 4 8) overlapping = some s ∧
      s.tree.levels.level0.isFull = true ∧
      majorCompaction s.tree.levels s.tree.catalogue [1, 0, 1] = some comp ∧
      exec (SearchRace.step s.tree comp.ops 5) SearchRace.init
        [.compact, .compact, .search, .search, .search] = some u ∧
      u.phase = .done none ∧ s.tree.mapping 5 = some ⟨9, [], ()⟩ ∧ ¬u.Undisturbed s.tree 5 := by
  obtain ⟨s, comp, u, hs, hfull, hcomp, hu, hphase, hmapping⟩ := overlappingRace_eq_some
    (show overlappingRace 5 [.compact, .compact, .search, .search, .search] =
      some (true, .done none, some ⟨9, [], ()⟩) by decide +kernel)
  refine ⟨s, comp, u, hs, hfull, hcomp, hu, hphase, hmapping, fun hund => ?_⟩
  have hright := hund.2 none hphase
  rw [hmapping] at hright
  cases hright

end JinDisk
