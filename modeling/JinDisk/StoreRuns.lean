import JinDisk.Reopen

/-!
# What the store keeps

A run of the store is puts, compactions of the worker and cycles of closing and opening the
device. Its content is a fold over the run: a put is an update, and everything else leaves the
content as it is. `LsmTree.mapping` is the same thing read off the memtables and the levels.

The two differ for two reasons only, both of them named in `LsmStore.Good`: a rotation that
destroys an immutable memtable the worker has not come to yet, and a merge that takes the
entries of a deleted key in an order that brings it back. Closing adds neither: the worker is
waited for, and the memtable becomes a file before it is destroyed.
-/

namespace JinDisk

variable {κ : Type}

/-! ## The content of a run -/

/-- A put is an update of the content. -/
def LsmAction.update (content : ℕ → Option (Record κ)) : LsmAction κ → ℕ → Option (Record κ)
  | .put key val => Function.update content key val
  | .compact _ => content
  | .reopen _ => content

/-- What the puts of a run leave. -/
def lastPut (run : List (LsmAction κ)) : ℕ → Option (Record κ) :=
  run.foldl LsmAction.update fun _ => none

/-- A merge that takes no entry brings nothing back. -/
theorem not_resurrecting_nil (l : Levels κ) : ¬Resurrecting l [] := by
  rintro ⟨stream, key, hpops, a, b, c, hg, -⟩
  rw [(KwayMerge.pops_nil_eq_some hpops).1] at hg
  cases hg

variable [Inhabited κ]

theorem Memtable.get_create (key : ℕ) : (Memtable.create : Memtable κ).get key = none := by
  simp [Memtable.get, Memtable.create]

/-! ## Closing and opening -/

namespace LsmTree

/-- The memtable becomes the immutable one, whatever there was. -/
def rotated (t : LsmTree κ) : LsmTree κ :=
  { t with memtable := .create, immutable := some t.memtable }

theorem Ok.rotated {t : LsmTree κ} (h : t.Ok) : t.rotated.Ok where
  memtable := Memtable.ok_create
  room := defaultLsmFileCapacity_pos
  immutable m hm := by
    obtain rfl := Option.some.inj hm
    exact ⟨h.memtable, Nat.le_of_lt h.room⟩
  levels := h.levels

theorem mapping_rotated {t : LsmTree κ} (h : t.Compacted) : t.rotated.mapping = t.mapping := by
  funext key
  rw [mapping, mapping, h.newest_eq, newest, rotated]
  simp only [Memtable.get_create, Option.none_or, Option.bind_some]

end LsmTree

namespace LsmStore

/-- The levels have the same records when they are loaded. -/
theorem Ok.recordsOf_load {s : LsmStore κ} (h : s.Ok) (key : ℕ) :
    s.load.tree.levels.level0.recordsOf key = s.tree.levels.level0.recordsOf key ∧
      s.load.tree.levels.level1.recordsOf key = s.tree.levels.level1.recordsOf key := by
  obtain ⟨hre, -⟩ := h.reopened_load
  refine ⟨?_, hre.ok.tree.levels.tidy.recordsOf_congr h.tree.levels.tidy fun f _ => hre.lower.mem_iff⟩
  rw [BitLevel.recordsOf, hre.upper]
  rfl

/-- A device that has been opened finds what the levels had. -/
theorem Ok.newest_load {s : LsmStore κ} (h : s.Ok) (key : ℕ) :
    s.load.tree.newest key = s.tree.levels.newest key := by
  obtain ⟨hupper, hlower⟩ := h.recordsOf_load key
  rw [LsmTree.newest, show s.load.tree.memtable = .create from rfl,
    show s.load.tree.immutable = none from rfl, Memtable.get_create, Option.none_or, Option.bind_none,
    Option.none_or, Levels.newest, Levels.newest, hupper, hlower]

/-- An empty memtable. -/
theorem get_of_size_eq_zero {m : Memtable κ} (h : m.Ok) (hsize : m.size = 0) (key : ℕ) :
    m.get key = none := by
  have hnil : m.getAllEntry = [] := List.length_eq_zero_iff.mp (h.size ▸ hsize)
  obtain ⟨f, hf⟩ : ∃ f : BitFile κ, f.entries = m.getAllEntry := ⟨⟨0, 0, 0, m.getAllEntry⟩, rfl⟩
  rw [← Memtable.head?_recordsOf hf, BitFile.recordsOf, hf, hnil]
  rfl

/-- Closing with nothing in the memtable loses nothing once the immutable memtable is a file. -/
theorem Ok.mapping_load {s : LsmStore κ} (h : s.Ok) (hcomp : s.tree.Compacted)
    (hsize : s.tree.memtable.size = 0) : s.load.tree.mapping = s.tree.mapping := by
  funext key
  rw [LsmTree.mapping, h.newest_load, LsmTree.mapping, hcomp.newest_eq,
    get_of_size_eq_zero h.tree.memtable hsize, Option.none_or]

/-- Closing writes the memtable as the compaction after a rotation would. -/
theorem load_minorCompact (s : LsmStore κ) (works : ℕ) (m : Memtable κ) (order : List ℕ) :
    (s.minorCompact m order).map load =
      (minorCompact { s with tree := s.tree.rotated, works } m order).map load := by
  rw [minorCompact, minorCompact, Option.map_map, Option.map_map]
  rfl

/-! ## Runs -/

/-- The steps that keep the content. -/
def Good (s : LsmStore κ) : LsmAction κ → Prop
  | .put key val => s.tree.rotates key val = true → s.works = 0
  | .compact order => ¬Resurrecting s.tree.levels order
  | .reopen order => s.tree.memtable.size ≠ 0 → ¬Resurrecting s.tree.levels order

/-- What holds of the store between two good steps. -/
structure Keeps (s : LsmStore κ) (content : ℕ → Option (Record κ)) : Prop where
  /-- it is in order -/
  ok : s.Ok
  /-- there is one work for the immutable memtable at most -/
  works : s.works ≤ 1
  /-- without a work it is in level 0 -/
  compacted : s.works = 0 → s.tree.Compacted
  /-- a key is found as it was put -/
  mapping : s.tree.mapping = content

theorem keeps_init (capacity maxFd : ℕ) :
    (init capacity maxFd : LsmStore κ).Keeps fun _ => none where
  ok := ok_init capacity maxFd
  works := Nat.zero_le 1
  compacted _ := LsmTree.compacted_init capacity maxFd
  mapping := funext fun key => LsmTree.mapping_init capacity maxFd key

theorem Keeps.put {s : LsmStore κ} {content : ℕ → Option (Record κ)} (h : s.Keeps content)
    {key : ℕ} {val : Option (Record κ)} {s' : LsmStore κ} (hgood : s.Good (.put key val))
    (hs : s.step (.put key val) = some s') (hval : ∀ r ∈ val, r.isNegative = false)
    (hs' : s' = { s with
      tree := (s.tree.put key val).1
      works := if s.tree.rotates key val then s.works + 1 else s.works }) :
    s'.Keeps (Function.update content key val) := by
  have hmapping := LsmTree.mapping_put hval fun hrot => h.compacted (hgood hrot)
  have hok := h.ok.step hs
  subst hs'
  refine ⟨hok, ?_, ?_, hmapping.trans (h.mapping ▸ rfl)⟩
  · by_cases hrot : s.tree.rotates key val = true
    · simp [hrot, hgood hrot]
    · simpa [hrot] using h.works
  · intro hworks m hm
    by_cases hrot : s.tree.rotates key val = true
    · simp [hrot] at hworks
    · simp only [LsmTree.put, hrot, Bool.false_eq_true, if_false] at hworks hm ⊢
      exact h.compacted hworks m hm

/-- The worker runs the only work there is. -/
theorem Keeps.compact {s t : LsmStore κ} {content : ℕ → Option (Record κ)} (h : s.Keeps content)
    {order : List ℕ} (hgood : s.Good (.compact order)) {m : Memtable κ}
    (hm : s.tree.immutable = some m) (ht : s.minorCompact m order = some t) :
    Keeps { t with works := 0 } content := by
  obtain ⟨hmok, hsize⟩ := h.ok.tree.immutable m hm
  have hok := h.ok.minorCompact hmok hsize ht
  obtain ⟨comp, hrun, rfl⟩ := Option.map_eq_some_iff.mp ht
  have hcompact : s.tree.compactMemtable m order = some
      ({ s.tree with levels := s.tree.levels.applyAll comp.ops, catalogue := comp.catalogue },
        comp.superseded) := by
    rw [LsmTree.compactMemtable, hrun]
    rfl
  refine ⟨⟨hok.tree, hok.stored⟩, Nat.zero_le 1, fun _ => (h.ok.tree.compactMemtable hm hcompact).2, ?_⟩
  exact (h.ok.tree.mapping_compactMemtable hm hcompact hgood).trans h.mapping

/-- Closing rotates once more. -/
theorem Keeps.rotated {s : LsmStore κ} {content : ℕ → Option (Record κ)} (h : s.Keeps content)
    (hworks : s.works = 0) : Keeps { s with tree := s.tree.rotated, works := 1 } content where
  ok := ⟨h.ok.tree.rotated, h.ok.stored⟩
  works := le_rfl
  compacted hzero := by cases hzero
  mapping := (LsmTree.mapping_rotated (h.compacted hworks)).trans h.mapping

/-- Opening, when closing has left nothing in the memtable. -/
theorem Keeps.load {s : LsmStore κ} {content : ℕ → Option (Record κ)} (h : s.Keeps content)
    (hworks : s.works = 0) (hsize : s.tree.memtable.size = 0) : s.load.Keeps content where
  ok := h.ok.load
  works := Nat.zero_le 1
  compacted _ m hm := by cases hm
  mapping := (h.ok.mapping_load (h.compacted hworks) hsize).trans h.mapping

/-- **One good step.** -/
theorem Keeps.step {s s' : LsmStore κ} {content : ℕ → Option (Record κ)} (h : s.Keeps content)
    {a : LsmAction κ} (hgood : s.Good a) (hs : s.step a = some s') :
    s'.Keeps (a.update content) := by
  rcases step_cases hs with ⟨key, val, rfl, hval, hs'⟩ | ⟨order, n, m, t, rfl, hworks, hm, ht, rfl⟩ |
    ⟨order, rfl, hworks, hsize, rfl⟩ | ⟨order, t, rfl, hworks, hne, ht, rfl⟩
  · exact h.put hgood hs hval hs'
  · obtain rfl : n = 0 := by
      have := h.works
      omega
    exact h.compact hgood hm ht
  · exact h.load hworks hsize
  · have hload := s.load_minorCompact 1 s.tree.memtable order
    rw [ht, Option.map_some] at hload
    obtain ⟨t', ht', hload⟩ := Option.map_eq_some_iff.mp hload.symm
    have hkeeps := ((h.rotated hworks).compact (hgood hne) rfl ht').load rfl ?_
    · exact hload ▸ hkeeps
    · obtain ⟨comp, -, rfl⟩ := Option.map_eq_some_iff.mp ht'
      rfl

/-- **The store keeps what is put.** After any run of good steps from a formatted device, with any
number of closings, the mapping is what was put last for each key, and a search that returns finds
that. -/
theorem mapping_eq_lastPut {capacity maxFd : ℕ} {run : List (LsmAction κ)} {s : LsmStore κ}
    (hgood : Machine.Along LsmStore.step Good (init capacity maxFd) run)
    (hrun : Machine.exec LsmStore.step (init capacity maxFd) run = some s) :
    s.tree.mapping = lastPut run ∧
      ∀ key res, s.tree.search key = some res → Record.positive? res = lastPut run key := by
  have hkeeps : s.Keeps (lastPut run) :=
    Machine.foldl_of_step (fun s content a s' (h : s.Keeps content) ha hs => h.step ha hs)
      (keeps_init capacity maxFd) hgood hrun
  refine ⟨hkeeps.mapping, fun key res hres => ?_⟩
  rw [hkeeps.ok.tree.search_eq hres, ← hkeeps.mapping]
  rfl

/-- A key is put, and put again after the device was opened. -/
theorem mapping_eq_lastPut_sample : ∃ s : LsmStore Unit,
    Machine.exec LsmStore.step (init 4 8) [.put 5 (some ⟨9, [], ()⟩), .reopen [],
      .put 5 (some ⟨7, [], ()⟩), .reopen []] = some s ∧ s.tree.mapping 5 = some ⟨7, [], ()⟩ := by
  have hput : Machine.exec LsmStore.step (init 4 8 : LsmStore Unit) [.put 5 (some ⟨9, [], ()⟩)] =
      some { (init 4 8 : LsmStore Unit) with tree := { (init 4 8 : LsmStore Unit).tree with
        memtable := .single 5 (.new (some ⟨9, [], ()⟩)) } } := by
    refine Machine.exec_cons_of (step_put_single (Memtable.create_put 5 _) ?_) rfl
    rintro _ ⟨⟩
    rfl
  obtain ⟨s, -, -, hs, -⟩ := exec_two 4 8 (by decide) (by decide) (by decide) hput
    (some ⟨7, [], ()⟩) (by rintro _ ⟨⟩; rfl)
  refine ⟨s, hs, ?_⟩
  have hgood : Machine.Along LsmStore.step Good (init 4 8 : LsmStore Unit)
      [.put 5 (some ⟨9, [], ()⟩), .reopen [], .put 5 (some ⟨7, [], ()⟩), .reopen []] := by
    refine ⟨fun _ => rfl, fun s₁ hs₁ => ⟨fun _ => not_resurrecting_nil _, fun s₂ hs₂ => ⟨fun _ => ?_,
      fun s₃ hs₃ => ⟨fun _ => not_resurrecting_nil _, fun _ _ => trivial⟩⟩⟩⟩
    -- nothing is queued after opening
    rcases step_cases hs₂ with ⟨_, _, ⟨⟩, -⟩ | ⟨_, _, _, _, ⟨⟩, -⟩ | ⟨_, -, -, -, rfl⟩ |
      ⟨_, _, -, -, -, -, rfl⟩ <;> rfl
  rw [(mapping_eq_lastPut hgood hs).1]
  rfl

end LsmStore

end JinDisk
