import JinDisk.Levels

/-!
# The LSM tree

`lsm_tree_put`, `lsm_tree_search` and the effect of a whole minor compaction. A put goes to
the memtable; a full memtable becomes the immutable one, whose predecessor is destroyed at
that moment, and is written to level 0 by a minor compaction some time later. The immutable
memtable stays in memory after that, until the next rotation.

`newest` is the first record of a key in the order of the search. What the device means by
it is the mapping: the newest record if it is positive, nothing if it is negative or absent.
`LsmTree.Compacted` says that the immutable memtable has been written to level 0. As long as
every rotation finds the tree in that state, puts and compactions leave the mapping to be
what the puts made it.
-/

namespace JinDisk

variable {κ : Type}

/-- `DEFAULT_MEMTABLE_CAPACITY` -/
def defaultMemtableCapacity : ℕ := defaultLsmFileCapacity

/-- `struct lsm_tree` -/
structure LsmTree (κ : Type) where
  /-- the memtable that takes the puts -/
  memtable : Memtable κ
  /-- `immutable_memtable` -/
  immutable : Option (Memtable κ)
  /-- the files -/
  levels : Levels κ
  /-- the allocation of files -/
  catalogue : Catalogue

namespace LsmTree

/-- `lsm_tree_init` for a formatted device: `capacity` files in level 1 and places for `maxFd`
files. -/
def init (capacity maxFd : ℕ) : LsmTree κ where
  memtable := .create
  immutable := none
  levels := ⟨.create 0 BitLevel.defaultLsmLevel0NrFile, .create 1 capacity⟩
  catalogue := ⟨.format maxFd, 0⟩

/-- Does `lsm_tree_put` rotate the memtables? -/
def rotates (t : LsmTree κ) (key : ℕ) (val : Option (Record κ)) : Bool :=
  defaultMemtableCapacity ≤ (t.memtable.put key val).1.size

/-- `lsm_tree_put`: the tree and the superseded record that is passed to `rit->reset`. A
rotation destroys the immutable memtable there is. -/
def put (t : LsmTree κ) (key : ℕ) (val : Option (Record κ)) : LsmTree κ × Option (Record κ) :=
  (if t.rotates key val then
      { t with memtable := .create, immutable := some (t.memtable.put key val).1 }
    else { t with memtable := (t.memtable.put key val).1 },
    (t.memtable.put key val).2)

theorem put_levels (t : LsmTree κ) (key : ℕ) (val : Option (Record κ)) :
    (t.put key val).1.levels = t.levels ∧ (t.put key val).1.catalogue = t.catalogue := by
  rw [put]
  split <;> exact ⟨rfl, rfl⟩

variable [Inhabited κ]

/-- `lsm_tree_search` -/
def search (t : LsmTree κ) (key : ℕ) : Option (Option (Record κ)) :=
  match t.memtable.get key with
  | some r => some (some r)
  | none =>
    match t.immutable.bind fun m => m.get key with
    | some r => some (some r)
    | none =>
      match t.levels.level0.search key with
      | none => none
      | some (some r) => some (some r)
      | some none => t.levels.level1.search key

/-- A minor compaction of memtable `m`, run to its end. -/
def compactMemtable (t : LsmTree κ) (m : Memtable κ) (order : List ℕ) :
    Option (LsmTree κ × List (ℕ × Record κ)) :=
  (minorCompaction t.levels t.catalogue m order).map fun comp =>
    ({ t with levels := t.levels.applyAll comp.ops, catalogue := comp.catalogue },
      comp.superseded)

/-- The newest record of a key. -/
def newest (t : LsmTree κ) (key : ℕ) : Option (Record κ) :=
  (t.memtable.get key).or ((t.immutable.bind fun m => m.get key).or (t.levels.newest key))

end LsmTree

variable [Inhabited κ]

/-! ## A minor compaction -/

/-- What holds of a memtable. -/
structure Memtable.Ok (m : Memtable κ) : Prop where
  /-- the `val` pointers hold positive records -/
  positive : ∀ (key : ℕ) (e : MemtableEntry κ) (r : Record κ), m.root[key]? = some e →
    e.val = some r → r.isNegative = false
  /-- the counter is right -/
  size : m.size = m.getAllEntry.length

theorem Memtable.ok_create : (Memtable.create : Memtable κ).Ok := by
  refine ⟨fun key e r he => ?_, ?_⟩
  · simp [Memtable.create] at he
  · simp [Memtable.create, Memtable.getAllEntry]

theorem Memtable.Ok.put {m : Memtable κ} (h : m.Ok) (key : ℕ) {val : Option (Record κ)}
    (hval : ∀ r ∈ val, r.isNegative = false) : (m.put key val).1.Ok := by
  refine ⟨fun a e r he hr => ?_, Memtable.size_put h.size key val⟩
  rw [Memtable.put_root, RbTree.getElem?_insert] at he
  split at he
  · obtain rfl := Option.some.inj he
    rw [Memtable.putEntry] at hr
    have hr' : val = some r := by
      cases hm : m.root[key]? with
      | none => cases val <;> simp_all [MemtableEntry.new, MemtableEntry.val]
      | some e =>
        cases val with
        | none => simp_all [MemtableEntry.update, MemtableEntry.val]
        | some r' =>
          simp only [hm, MemtableEntry.update] at hr
          split at hr <;> exact hr
    exact hval r hr'
  · exact h.positive a e r he hr

theorem Memtable.Ok.slot {m : Memtable κ} (h : m.Ok) (key : ℕ) :
    Slot ((m.root[key]?.map MemtableEntry.records).getD []) := by
  cases he : m.root[key]? with
  | none => exact .none
  | some e =>
    cases e with
    | positive r => exact .positive r (h.positive key _ r he rfl)
    | negative => exact .negative _ Record.negative_isNegative
    | both r => exact .both r _ (h.positive key _ r he rfl) Record.negative_isNegative

/-- The file written for a memtable. -/
theorem Memtable.Ok.file {m : Memtable κ} (h : m.Ok) (hsize : m.size ≤ defaultLsmFileCapacity)
    {f : BitFile κ} (hf : f.entries = m.getAllEntry) : f.Ok := by
  refine ⟨?_, fun key => ?_, ?_⟩
  · rw [BitFile.Sorted, hf]
    exact m.getAllEntry_sorted
  · rw [BitFile.recordsOf, hf, m.getAllEntry_filter]
    exact h.slot key
  · rw [hf, ← h.size]
    exact hsize

/-- Its first record of a key is the one the memtable finds. -/
theorem Memtable.head?_recordsOf {m : Memtable κ} {f : BitFile κ} (hf : f.entries = m.getAllEntry)
    (key : ℕ) : (f.recordsOf key).head? = m.get key := by
  rw [BitFile.recordsOf, hf, m.getAllEntry_filter]
  rw [Memtable.get]
  cases m.root[key]? with
  | none => rfl
  | some e => cases e <;> rfl

/-- Once the file is level 0 the levels find what the memtable finds. -/
theorem Memtable.newest_of_file {m : Memtable κ} {l : Levels κ} {f : BitFile κ}
    (hf : l.level0.files = [f]) (hentries : f.entries = m.getAllEntry) {key : ℕ} {r : Record κ}
    (hr : m.get key = some r) : l.newest key = some r := by
  rw [Levels.newest]
  rw [Levels.recordsOf_level0 hf, List.head?_append, Memtable.head?_recordsOf hentries, hr,
    Option.some_or]

/-- What a minor compaction of memtable `m` does, with levels `l` and catalogue `c` at its
start. -/
structure MinorSpec (l : Levels κ) (m : Memtable κ) (order : List ℕ) (comp : Compaction κ) :
    Prop where
  /-- the levels are in order again -/
  ok : (l.applyAll comp.ops).Ok comp.catalogue
  /-- level 0 has the file of the memtable -/
  file : ∃ f, (l.applyAll comp.ops).level0.files = [f] ∧ f.entries = m.getAllEntry
  /-- a positive newest record below the memtable stays the newest -/
  keeps : ∀ key r, m.get key = none → l.newest key = some r → r.isNegative = false →
    (l.applyAll comp.ops).newest key = some r
  /-- nothing else becomes newest, unless a deleted key comes back -/
  reflects : ¬Resurrecting l order → ∀ key r, m.get key = none →
    (l.applyAll comp.ops).newest key = some r → l.newest key = some r
  /-- no record appears -/
  mem : ∀ f ∈ (l.applyAll comp.ops).files, ∀ e ∈ f.entries,
    e ∈ m.getAllEntry ∨ ∃ g ∈ l.files, e ∈ g.entries
  /-- a superseded record is alone in level 1, under a record that is alone in level 0 -/
  superseded : ∀ e ∈ comp.superseded, e.2.isNegative = false →
    l.level1.recordsOf e.1 = [e.2] ∧ ∃ r, l.level0.recordsOf e.1 = [r] ∧ r.isNegative = false
  /-- the files that are added are there afterwards -/
  added : ∀ f ∈ comp.ops.filterMap LevelOp.added?, f ∈ (l.applyAll comp.ops).files
  /-- and the others were there before -/
  kept : ∀ f ∈ (l.applyAll comp.ops).files, f ∈ comp.ops.filterMap LevelOp.added? ∨
    f ∈ l.files ∧ ∀ g ∈ comp.ops.filterMap LevelOp.added?, g.id ≠ f.id
  /-- a positive newest record is in some file at any moment -/
  found : ∀ n key r, l.newest key = some r → r.isNegative = false →
    ∃ f ∈ (l.applyAll (comp.ops.take n)).files, (key, r) ∈ f.entries

/-- Adding the file of a memtable to levels whose level 0 is empty. -/
theorem minorSpec_add {l : Levels κ} {c c' : Catalogue} {m : Memtable κ} {b : BitFile κ}
    (hok : l.Ok c) (hempty : l.level0.files = []) (hm : m.Ok)
    (hsize : m.size ≤ defaultLsmFileCapacity) (hb : openBuilder c 0 = some (b, c')) :
    ∃ f : BitFile κ, f = { b with entries := m.getAllEntry } ∧ f.entries = m.getAllEntry ∧
      (l.apply (.add0 { b with entries := m.getAllEntry })).level0.files = [f] ∧
      (l.apply (.add0 { b with entries := m.getAllEntry })).level1 = l.level1 ∧
      (l.apply (.add0 { b with entries := m.getAllEntry })).Ok c' := by
  obtain ⟨-, halloc⟩ := (Allocated.refl c).openBuilder hb
  obtain ⟨f, hf⟩ : ∃ f : BitFile κ, f = { b with entries := m.getAllEntry } := ⟨_, rfl⟩
  have hentries : f.entries = m.getAllEntry := by rw [hf]
  have htag : b.tag = f.tag := by rw [hf]; rfl
  rw [← hf]
  have hroom : l.level0.files.length < l.level0.maxSize := by
    rw [hempty, BitLevel.maxSize, BitLevel.defaultLsmLevel0NrFile]
    simp
  have hfiles : (l.apply (.add0 f)).level0.files = [f] := by
    have hperm := BitLevel.addFile_perm hroom f
    rw [hempty] at hperm
    exact List.perm_singleton.mp hperm
  have hall : (l.apply (.add0 f)).files = f :: l.level1.files := by
    rw [Levels.files, hfiles]
    rfl
  have hold : ∀ g ∈ l.level1.files, g ∈ l.files := fun g hg => Levels.mem_files.mpr (Or.inr hg)
  have hfresh := halloc.fresh f.tag (by simp [htag])
  have hversion := halloc.version f.tag (by simp [htag])
  refine ⟨f, rfl, hentries, hfiles, rfl, ?_⟩
  have hlevel : f.level = 0 := by
    rw [hf]
    exact (openBuilder_level hb : b.level = 0)
  refine ⟨?_, hok.level1, by simp [hfiles], hok.tidy, ?_, ?_, hok.tag1, ?_, ?_, ?_, ?_, ?_⟩
  · simp only [Levels.apply, BitLevel.addFile_level, BitLevel.addFile_capacity]
    exact hok.level0
  · rw [hall]
    intro g hg
    rcases List.mem_cons.mp hg with rfl | hg
    · exact hm.file hsize hentries
    · exact hok.files g (hold g hg)
  · rw [hfiles]
    intro g hg
    rw [List.mem_singleton.mp hg, hlevel]
    simp only [Levels.apply, BitLevel.addFile_level]
    exact hok.level0.1.symm
  · rw [hall, List.map_cons, List.nodup_cons]
    refine ⟨fun hmem => ?_, ?_⟩
    · obtain ⟨g, hg, hid⟩ := List.mem_map.mp hmem
      exact hfresh (by simpa [BitFile.tag, hid] using hok.inUse g (hold g hg))
    · have hnodup := hok.nodup
      rw [Levels.files] at hnodup
      rwa [hempty, List.nil_append] at hnodup
  · rw [hall]
    intro g hg
    rcases List.mem_cons.mp hg with rfl | hg
    · exact halloc.inUse g.tag (by simp [htag])
    · exact halloc.keep _ (hok.inUse g (hold g hg))
  · rw [hall, halloc.maxFd]
    intro i hi
    rcases halloc.only i hi with hi | ⟨hi, hlt⟩
    · obtain ⟨hlt, g, hg, hid⟩ := hok.owned i hi
      rw [Levels.files, hempty, List.nil_append] at hg
      exact ⟨hlt, g, List.mem_cons_of_mem _ hg, hid⟩
    · refine ⟨hlt, f, List.mem_cons_self, ?_⟩
      rw [htag] at hi
      simpa [BitFile.tag, eq_comm] using hi
  · intro g hg
    exact Nat.lt_of_lt_of_le (hok.version g hg) halloc.maxVersion
  · rw [hfiles]
    intro g hg h hh
    rw [List.mem_singleton.mp hg]
    exact Nat.lt_of_lt_of_le (hok.version h hh) hversion.1

/-- No major compaction is needed. -/
theorem majorSpec_nil {l : Levels κ} {c : Catalogue} (hok : l.Ok c)
    (hempty : l.level0.files = []) (order : List ℕ) : MajorSpec l c order ⟨[], [], c⟩ where
  empty := hempty
  ok := hok
  version := le_rfl
  keeps _ _ hr _ := hr
  reflects _ _ _ hr := hr
  mem f hf e he := ⟨f, hf, he⟩
  superseded _ he := absurd he List.not_mem_nil
  added _ hf := absurd hf List.not_mem_nil
  kept f hf := Or.inr ⟨hf, fun g hg => absurd hg List.not_mem_nil⟩
  covered n := by
    rw [List.take_nil]
    exact Or.inl fun f hf => hf

/-- The major compaction at the start of a minor one. -/
theorem major_of_minor {l : Levels κ} {c : Catalogue} {order : List ℕ} {major : Compaction κ}
    (hok : l.Ok c)
    (h : (if l.level0.isFull then majorCompaction l c order else some ⟨[], [], c⟩) = some major) :
    MajorSpec l c order major := by
  have hcap := hok.level0.2
  split at h
  · rename_i hfull
    rw [BitLevel.isFull] at hfull
    simp only [hcap, decide_eq_true_eq] at hfull
    obtain ⟨f₀, hf₀⟩ := List.length_eq_one_iff.mp (le_antisymm hok.one hfull)
    exact majorCompaction_spec hok hf₀ h
  · rename_i hfull
    obtain rfl := Option.some.inj h
    rw [BitLevel.isFull] at hfull
    simp only [hcap, decide_eq_true_eq, not_le, Nat.lt_one_iff, List.length_eq_zero_iff] at hfull
    exact majorSpec_nil hok hfull order

/-- **Minor compaction.** -/
theorem minorCompaction_spec {l : Levels κ} {c : Catalogue} {m : Memtable κ} {order : List ℕ}
    {comp : Compaction κ} (hok : l.Ok c) (hm : m.Ok) (hsize : m.size ≤ defaultLsmFileCapacity)
    (h : minorCompaction l c m order = some comp) : MinorSpec l m order comp := by
  rw [minorCompaction] at h
  obtain ⟨major, hmajor, hmap⟩ := Option.bind_eq_some_iff.mp h
  obtain ⟨⟨b, c'⟩, hb, rfl⟩ := Option.map_eq_some_iff.mp hmap
  have hspec := major_of_minor hok hmajor
  obtain ⟨f, hf, hentries, hlevel0, hlevel1, hok'⟩ := minorSpec_add hspec.ok hspec.empty hm hsize hb
  obtain ⟨op, hop⟩ : ∃ op : LevelOp κ, op = .add0 { b with entries := m.getAllEntry } := ⟨_, rfl⟩
  have happly : l.applyAll (major.ops ++ [op]) = (l.applyAll major.ops).apply op :=
    Levels.applyAll_append l major.ops [op]
  simp only [← hop] at hlevel0 hlevel1 hok' ⊢
  -- below the file of the memtable the newest record is that of the major compaction
  have hmiss : ∀ key, m.get key = none → (l.applyAll (major.ops ++ [op])).newest key =
      (l.applyAll major.ops).newest key := by
    intro key hkey
    rw [Levels.newest_of_empty hspec.empty, happly]
    rw [Levels.newest]
    rw [Levels.recordsOf_level0 hlevel0, hlevel1,
      List.head?_eq_none_iff.mp ((Memtable.head?_recordsOf hentries key).trans hkey),
      List.nil_append]
  have hmem : ∀ g ∈ (l.applyAll (major.ops ++ [op])).files,
      g = f ∨ g ∈ (l.applyAll major.ops).files := by
    intro g hg
    rw [happly] at hg
    rcases Levels.mem_files.mp hg with hg | hg
    · rw [hlevel0] at hg
      exact Or.inl (List.mem_singleton.mp hg)
    · rw [hlevel1] at hg
      exact Or.inr (Levels.mem_files.mpr (Or.inr hg))
  have hlower : ∀ g ∈ (l.applyAll major.ops).files, g ∈ (l.applyAll (major.ops ++ [op])).files := by
    intro g hg
    refine Levels.mem_files.mpr (Or.inr ?_)
    rw [happly, hlevel1]
    rcases Levels.mem_files.mp hg with hg | hg
    · rw [hspec.empty] at hg
      cases hg
    · exact hg
  have hfile : f ∈ (l.applyAll (major.ops ++ [op])).files := by
    rw [happly]
    exact Levels.mem_files.mpr (Or.inl (by simp [hlevel0]))
  have hadded : (major.ops ++ [op]).filterMap LevelOp.added? =
      major.ops.filterMap LevelOp.added? ++ [f] := by
    rw [List.filterMap_append, hop, hf]
    rfl
  refine ⟨happly ▸ hok', ⟨f, happly ▸ hlevel0, hentries⟩, ?_, ?_, ?_, hspec.superseded, ?_, ?_, ?_⟩
  · intro key r hkey hr hpos
    rw [hmiss key hkey]
    exact hspec.keeps key r hr hpos
  · intro hres key r hkey hr
    rw [hmiss key hkey] at hr
    exact hspec.reflects hres key r hr
  · intro g hg e he
    rcases hmem g hg with rfl | hg
    · exact Or.inl (hentries ▸ he)
    · exact Or.inr (hspec.mem g hg e he)
  · rw [hadded]
    intro g hg
    rcases List.mem_append.mp hg with hg | hg
    · exact hlower g (hspec.added g hg)
    · exact List.mem_singleton.mp hg ▸ hfile
  · rw [hadded]
    intro g hg
    rcases hmem g hg with rfl | hold
    · exact Or.inl (List.mem_append_right _ List.mem_cons_self)
    · rcases hspec.kept g hold with hnew | ⟨hold', hids⟩
      · exact Or.inl (List.mem_append_left _ hnew)
      · -- the new file has a descriptor of its own
        by_cases hgf : g = f
        · exact Or.inl (List.mem_append_right _ (List.mem_singleton.mpr hgf))
        · refine Or.inr ⟨hold', fun k hk heq => ?_⟩
          rcases List.mem_append.mp hk with hk | hk
          · exact hids k hk heq
          · rw [List.mem_singleton.mp hk] at heq
            exact hgf (List.inj_on_of_nodup_map (happly ▸ hok').nodup hg hfile heq.symm)
  · intro n key r hr hpos
    have hafter := Levels.exists_file_of_newest (hspec.keeps key r hr hpos)
    rcases Nat.lt_or_ge major.ops.length n with hlt | hge
    · rw [List.take_of_length_le (by simp only [List.length_append, List.length_singleton]; omega)]
      obtain ⟨g, hg, hgr⟩ := hafter
      exact ⟨g, hlower g hg, hgr⟩
    · rw [List.take_append_of_le_length hge]
      rcases hspec.covered n with hold | hnew
      · obtain ⟨g, hg, hgr⟩ := Levels.exists_file_of_newest hr
        exact ⟨g, hold g hg, hgr⟩
      · obtain ⟨g, hg, hgr⟩ := hafter
        exact ⟨g, hnew g hg, hgr⟩

/-- What comes to level 1 was in one of the levels. -/
theorem mem_level1_of_minorCompaction {l : Levels κ} {c : Catalogue} {m : Memtable κ}
    {order : List ℕ} {comp : Compaction κ} (hok : l.Ok c)
    (h : minorCompaction l c m order = some comp) :
    ∀ f ∈ (l.applyAll comp.ops).level1.files, ∀ e ∈ f.entries, ∃ g ∈ l.files, e ∈ g.entries := by
  unfold minorCompaction at h
  obtain ⟨major, hmajor, hmap⟩ := Option.bind_eq_some_iff.mp h
  obtain ⟨⟨b, c'⟩, hb, rfl⟩ := Option.map_eq_some_iff.mp hmap
  intro f hf
  have happly := Levels.applyAll_append l major.ops [.add0 { b with entries := m.getAllEntry }]
  rw [happly] at hf
  exact (major_of_minor hok hmajor).mem f (Levels.mem_files.mpr (Or.inr hf))

/-! ## The tree -/

namespace LsmTree

/-- What holds of the tree at any time. -/
structure Ok (t : LsmTree κ) : Prop where
  /-- the memtable -/
  memtable : t.memtable.Ok
  /-- it is rotated as soon as it is full -/
  room : t.memtable.size < defaultMemtableCapacity
  /-- the immutable memtable -/
  immutable : ∀ m ∈ t.immutable, m.Ok ∧ m.size ≤ defaultLsmFileCapacity
  /-- the levels -/
  levels : t.levels.Ok t.catalogue

/-- The immutable memtable, if there is one, is in level 0. -/
def Compacted (t : LsmTree κ) : Prop :=
  ∀ m ∈ t.immutable, ∃ f, t.levels.level0.files = [f] ∧ f.entries = m.getAllEntry

theorem ok_init (capacity maxFd : ℕ) : (init capacity maxFd : LsmTree κ).Ok := by
  refine ⟨Memtable.ok_create, defaultLsmFileCapacity_pos, by simp [init], ?_⟩
  refine ⟨⟨rfl, rfl⟩, Nat.one_ne_zero, Nat.zero_le _, ?_, ?_, ?_, ?_, ?_, ?_, ?_, ?_, ?_⟩
  · exact ⟨List.Pairwise.nil, fun f hf => absurd hf List.not_mem_nil, List.Pairwise.nil⟩
  all_goals simp [Levels.files, init, BitLevel.create, Catalogue.InUse, SegValidator.format]

theorem compacted_init (capacity maxFd : ℕ) : (init capacity maxFd : LsmTree κ).Compacted := by
  simp [Compacted, init]

/-- **Search** finds the newest record. -/
theorem Ok.search_eq {t : LsmTree κ} (h : t.Ok) {key : ℕ} {res : Option (Record κ)}
    (hs : t.search key = some res) : res = t.newest key := by
  rw [search] at hs
  rw [newest]
  cases hm : t.memtable.get key with
  | some r =>
    rw [hm] at hs
    exact (Option.some.inj hs).symm
  | none =>
    rw [hm] at hs
    rw [Option.none_or]
    cases hi : t.immutable.bind fun m => m.get key with
    | some r =>
      rw [hi] at hs
      exact (Option.some.inj hs).symm
    | none =>
      rw [hi] at hs
      rw [Option.none_or]
      simp only at hs
      rw [Levels.newest]
      cases h₀ : t.levels.level0.search key with
      | none =>
        rw [h₀] at hs
        cases hs
      | some res₀ =>
        have hupper : res₀ = (t.levels.level0.recordsOf key).head? := by
          rw [BitLevel.search, if_pos h.levels.level0.1] at h₀
          exact BitLevel.linearSearch_eq h.levels.one (fun f hf =>
            (h.levels.files f (Levels.mem_files.mpr (Or.inl hf))).sorted) h₀
        rw [h₀] at hs
        cases res₀ with
        | some r =>
          rw [List.head?_append, ← hupper]
          exact (Option.some.inj hs).symm
        | none =>
          rw [List.head?_append, ← hupper, Option.none_or]
          exact h.levels.tidy.search_eq h.levels.level1 hs

theorem Ok.put {t : LsmTree κ} (h : t.Ok) (key : ℕ) {val : Option (Record κ)}
    (hval : ∀ r ∈ val, r.isNegative = false) : (t.put key val).1.Ok := by
  have hm := h.memtable.put key hval
  rw [LsmTree.put]
  split
  · -- the memtable that rotates is exactly full
    refine ⟨Memtable.ok_create, defaultLsmFileCapacity_pos, fun m hm' => ?_, h.levels⟩
    obtain rfl := Option.some.inj hm'
    refine ⟨hm, ?_⟩
    have hroom := h.room
    have hle := t.memtable.size_put_le key val
    rw [defaultMemtableCapacity] at hroom
    omega
  · rename_i hrot
    refine ⟨hm, ?_, h.immutable, h.levels⟩
    rw [rotates] at hrot
    simpa using hrot

/-- What the immutable memtable finds, the levels find too once it is compacted. -/
theorem Compacted.newest_levels {t : LsmTree κ} (h : t.Compacted) {key : ℕ} {r : Record κ}
    (hr : (t.immutable.bind fun m => m.get key) = some r) : t.levels.newest key = some r := by
  obtain ⟨m, hm, hr⟩ := Option.bind_eq_some_iff.mp hr
  obtain ⟨f, hf, hentries⟩ := h m hm
  exact Memtable.newest_of_file hf hentries hr

theorem Compacted.newest_eq {t : LsmTree κ} (h : t.Compacted) (key : ℕ) :
    t.newest key = (t.memtable.get key).or (t.levels.newest key) := by
  rw [newest]
  cases hi : t.immutable.bind fun m => m.get key with
  | none => rw [Option.none_or]
  | some r => rw [Option.some_or, h.newest_levels hi]

/-- **Puts.** A put changes the newest record of its key and no other, provided that a
rotation finds the immutable memtable compacted. -/
theorem newest_put {t : LsmTree κ} {key : ℕ} {val : Option (Record κ)}
    (h : t.rotates key val = true → t.Compacted) (a : ℕ) :
    (t.put key val).1.newest a = if key = a then some (val.getD .negative) else t.newest a := by
  rw [LsmTree.put]
  split
  · rename_i hrot
    rw [(h hrot).newest_eq]
    have hcreate : (Memtable.create : Memtable κ).get a = none := by
      simp [Memtable.get, Memtable.create]
    rw [newest]
    simp only [hcreate, Option.none_or, Option.bind_some, Memtable.get_put]
    split <;> rfl
  · rw [newest]
    simp only [Memtable.get_put]
    split <;> rfl

end LsmTree

/-! ## The mapping -/

namespace LsmTree

/-- Where the device finds a key. -/
def mapping (t : LsmTree κ) (key : ℕ) : Option (Record κ) := Record.positive? (t.newest key)

theorem mapping_eq_some {t : LsmTree κ} {key : ℕ} {r : Record κ} :
    t.mapping key = some r ↔ t.newest key = some r ∧ r.isNegative = false :=
  Record.positive?_eq_some

theorem mapping_init (capacity maxFd : ℕ) (key : ℕ) :
    (init capacity maxFd : LsmTree κ).mapping key = none := by
  simp [mapping, newest, init, Memtable.create, Memtable.get, Levels.newest, BitLevel.create,
    BitLevel.recordsOf, Record.positive?]

/-- A put is an update of the mapping. -/
theorem mapping_put {t : LsmTree κ} {key : ℕ} {val : Option (Record κ)}
    (hval : ∀ r ∈ val, r.isNegative = false) (h : t.rotates key val = true → t.Compacted) :
    (t.put key val).1.mapping = Function.update t.mapping key val := by
  funext a
  unfold mapping
  rw [newest_put h, Function.update_apply]
  by_cases ha : key = a
  · rw [if_pos ha, if_pos ha.symm]
    cases val with
    | none => simp [Record.positive?]
    | some r => simpa [Record.positive?] using hval r rfl
  · rw [if_neg ha, if_neg (Ne.symm ha)]

/-- What a minor compaction of the immutable memtable changes. -/
theorem Ok.compactMemtable_cases {t t' : LsmTree κ} (h : t.Ok) {m : Memtable κ} {order : List ℕ}
    {sup : List (ℕ × Record κ)} (hm : m ∈ t.immutable)
    (hc : t.compactMemtable m order = some (t', sup)) :
    ∃ comp, MinorSpec t.levels m order comp ∧
      t' = { t with levels := t.levels.applyAll comp.ops, catalogue := comp.catalogue } := by
  obtain ⟨comp, hcomp, heq⟩ := Option.map_eq_some_iff.mp hc
  obtain ⟨hmok, hsize⟩ := h.immutable m hm
  exact ⟨comp, minorCompaction_spec h.levels hmok hsize hcomp, (Prod.mk.inj heq).1.symm⟩

/-- **A whole minor compaction** of the immutable memtable. -/
theorem Ok.compactMemtable {t t' : LsmTree κ} (h : t.Ok) {m : Memtable κ} {order : List ℕ}
    {sup : List (ℕ × Record κ)} (hm : m ∈ t.immutable)
    (hc : t.compactMemtable m order = some (t', sup)) : t'.Ok ∧ t'.Compacted := by
  obtain ⟨comp, hspec, rfl⟩ := h.compactMemtable_cases hm hc
  refine ⟨⟨h.memtable, h.room, h.immutable, hspec.ok⟩, fun m' hm' => ?_⟩
  obtain rfl := Option.some.inj (hm.symm.trans hm')
  exact hspec.file

/-- A positive newest record stays the newest. -/
theorem Ok.mapping_compactMemtable_of_some {t t' : LsmTree κ} (h : t.Ok) {m : Memtable κ}
    {order : List ℕ} {sup : List (ℕ × Record κ)} (hm : m ∈ t.immutable)
    (hc : t.compactMemtable m order = some (t', sup)) {key : ℕ} {r : Record κ}
    (hr : t.mapping key = some r) : t'.mapping key = some r := by
  obtain ⟨comp, hspec, rfl⟩ := h.compactMemtable_cases hm hc
  obtain ⟨hnewest, hpos⟩ := mapping_eq_some.mp hr
  refine mapping_eq_some.mpr ⟨?_, hpos⟩
  rw [newest] at hnewest ⊢
  simp only [Option.mem_def.mp hm, Option.bind_some] at hnewest ⊢
  cases hmem : t.memtable.get key with
  | some _ => rwa [hmem] at hnewest
  | none =>
    rw [hmem, Option.none_or] at hnewest
    rw [Option.none_or]
    cases hmiss : m.get key with
    | some _ => rwa [hmiss] at hnewest
    | none =>
      rw [hmiss, Option.none_or] at hnewest
      rw [Option.none_or]
      exact hspec.keeps key r hmiss hnewest hpos

/-- It does not change the mapping, unless it brings a deleted key back. -/
theorem Ok.mapping_compactMemtable {t t' : LsmTree κ} (h : t.Ok) {m : Memtable κ}
    {order : List ℕ} {sup : List (ℕ × Record κ)} (hm : m ∈ t.immutable)
    (hc : t.compactMemtable m order = some (t', sup)) (hres : ¬Resurrecting t.levels order) :
    t'.mapping = t.mapping := by
  obtain ⟨comp, hspec, rfl⟩ := h.compactMemtable_cases hm hc
  funext key
  refine Option.ext fun r => ?_
  rw [mapping_eq_some, mapping_eq_some]
  refine and_congr_left fun hpos => ?_
  unfold newest
  simp only [Option.mem_def.mp hm, Option.bind_some]
  cases t.memtable.get key with
  | some _ => rfl
  | none =>
    cases hmiss : m.get key with
    | some _ => rfl
    | none =>
      simp only [Option.none_or]
      exact ⟨hspec.reflects hres key r hmiss, fun hr => hspec.keeps key r hmiss hr hpos⟩

end LsmTree

end JinDisk
