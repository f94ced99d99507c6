import JinDisk.Rotation

/-!
# The size of a memtable

`rbtree_memtable_put`, `remove` and `clear` keep `size` the number of records, where an entry can
hold a positive record, a negative one or both. `lsm_tree_put` rotates the memtable when `size`
reaches the capacity of a table, and since a put adds one record at the most, the memtable that is
rotated has exactly that many. A table builder drops what it gets beyond its capacity, so this is
what keeps a minor compaction from losing records.
-/

namespace JinDisk

variable {κ : Type}

namespace Memtable

/-- The positive record of a key. -/
def positiveAt (m : Memtable κ) (key : ℕ) : Option (Record κ) := m.root[key]?.bind MemtableEntry.val

/-- Is there a negative record of the key? -/
def negativeAt (m : Memtable κ) (key : ℕ) : Bool := m.root[key]?.any MemtableEntry.hasNegative

/-- The number of positive records. -/
def positives (m : Memtable κ) : ℕ := m.root.toList.countP fun e => e.2.val.isSome

/-- The number of negative records. -/
def negatives (m : Memtable κ) : ℕ := m.root.toList.countP fun e => e.2.hasNegative

/-- `rbtree_memtable_remove`: the memtable afterwards and the positive record of the key. -/
def remove (m : Memtable κ) (key : ℕ) : Memtable κ × Option (Record κ) :=
  match m.root[key]? with
  | none => (m, none)
  | some e =>
    (⟨m.root.erase key,
      let size := if e.val.isSome then m.size - 1 else m.size
      if e.hasNegative then size - 1 else size⟩, e.val)

/-- `rbtree_memtable_clear`, which takes the first entry until there is none. -/
def clear (m : Memtable κ) : Memtable κ :=
  ⟨(m.root.toList.map Prod.fst).foldl (fun t key => t.erase key) m.root, 0⟩

/-! ## What is counted -/

theorem length_getAllEntry_eq_add [Inhabited κ] (m : Memtable κ) :
    m.getAllEntry.length = m.positives + m.negatives := by
  have hsum : ∀ l : List (ℕ × MemtableEntry κ), (l.map fun e => e.2.count).sum =
      (l.countP fun e => e.2.val.isSome) + l.countP fun e => e.2.hasNegative := by
    intro l
    induction l with
    | nil => rfl
    | cons e l ih =>
      rw [List.map_cons, List.sum_cons, ih, List.countP_cons, List.countP_cons]
      obtain ⟨key, e⟩ := e
      cases e <;> simp [MemtableEntry.count, MemtableEntry.val, MemtableEntry.hasNegative] <;> omega
  rw [length_getAllEntry, hsum]
  rfl

/-- A removal takes the records of the key from the counter. -/
theorem size_remove [Inhabited κ] {m : Memtable κ} (h : m.size = m.getAllEntry.length) (key : ℕ) :
    (m.remove key).1.size = (m.remove key).1.getAllEntry.length := by
  rw [remove]
  cases he : m.root[key]? with
  | none => exact h
  | some e =>
    have hafter : (⟨m.root.erase key, 0⟩ : Memtable κ).getAllEntry.length = m.countOthers key := by
      rw [length_getAllEntry, ((RbTree.toList_erase_perm _ _).map _).sum_nat]
      rfl
    rw [length_getAllEntry_eq m key, he] at h
    show _ = (⟨m.root.erase key, 0⟩ : Memtable κ).getAllEntry.length
    rw [hafter]
    cases e with
    | positive r =>
      have hsize : m.size = 1 + m.countOthers key := h
      simp [MemtableEntry.val, MemtableEntry.hasNegative, hsize]
    | negative =>
      have hsize : m.size = 1 + m.countOthers key := h
      simp [MemtableEntry.val, MemtableEntry.hasNegative, hsize]
    | both r =>
      have hsize : m.size = 2 + m.countOthers key := h
      simp [MemtableEntry.val, MemtableEntry.hasNegative, hsize]

theorem size_clear [Inhabited κ] (m : Memtable κ) : m.clear.size = m.clear.getAllEntry.length := by
  rw [clear, RbTree.foldl_erase_keys, getAllEntry, RbTree.toList_empty]
  rfl

/-! ## What is stored -/

/-- What a put leaves of the key and of the others. -/
theorem positiveAt_put (m : Memtable κ) (key : ℕ) (val : Option (Record κ)) (a : ℕ) :
    (m.put key val).1.positiveAt a = if key = a then val else m.positiveAt a := by
  rw [positiveAt, put_root, RbTree.getElem?_insert]
  split
  · rw [putEntry, Option.bind_some]
    cases m.root[key]? with
    | none => cases val <;> rfl
    | some e =>
      cases val with
      | none => rfl
      | some r => cases e <;> rfl
  · rfl

theorem negativeAt_put (m : Memtable κ) (key : ℕ) (val : Option (Record κ)) (a : ℕ) :
    (m.put key val).1.negativeAt a =
      if key = a then val.isNone || m.negativeAt a else m.negativeAt a := by
  rw [negativeAt, put_root, RbTree.getElem?_insert]
  split
  · rename_i heq
    subst heq
    rw [putEntry, negativeAt, Option.any_some]
    cases m.root[key]? with
    | none => cases val <;> rfl
    | some e =>
      cases val with
      | none => rfl
      | some r => cases e <;> rfl
  · rfl

/-- A put returns the positive record it replaces by another one. -/
theorem put_snd (m : Memtable κ) (key : ℕ) (val : Option (Record κ)) :
    (m.put key val).2 = if val.isSome then m.positiveAt key else none := by
  rw [put, positiveAt]
  cases m.root[key]? with
  | none => cases val <;> rfl
  | some e => cases val <;> rfl

/-- A lookup prefers the positive record. -/
theorem get_eq [Inhabited κ] (m : Memtable κ) (key : ℕ) :
    m.get key = (m.positiveAt key).or (if m.negativeAt key then some .negative else none) := by
  rw [get, positiveAt, negativeAt]
  cases m.root[key]? with
  | none => rfl
  | some e => cases e <;> rfl

end Memtable

/-! ## Any sequence of calls -/

/-- A call that changes a memtable. -/
inductive MemtableCall (κ : Type) where
  /-- `rbtree_memtable_put` -/
  | put (key : ℕ) (val : Option (Record κ))
  /-- `rbtree_memtable_remove` -/
  | remove (key : ℕ)
  /-- `rbtree_memtable_clear` -/
  | clear

namespace Memtable

/-- The memtable after a call. -/
def call (m : Memtable κ) : MemtableCall κ → Memtable κ
  | .put key val => (m.put key val).1
  | .remove key => (m.remove key).1
  | .clear => m.clear

variable [Inhabited κ]

theorem size_call {m : Memtable κ} (h : m.size = m.getAllEntry.length) (c : MemtableCall κ) :
    (m.call c).size = (m.call c).getAllEntry.length := by
  cases c with
  | put key val => exact size_put h key val
  | remove key => exact size_remove h key
  | clear => exact size_clear m

theorem size_calls {m : Memtable κ} (h : m.size = m.getAllEntry.length)
    (calls : List (MemtableCall κ)) :
    (calls.foldl call m).size = (calls.foldl call m).getAllEntry.length := by
  induction calls generalizing m with
  | nil => exact h
  | cons c calls ih => exact ih (size_call h c)

end Memtable

/-! ## The memtables of the tree -/

namespace CompactionState

variable [Inhabited κ] {s s' : CompactionState κ}

/-- What is counted in every state. -/
structure Counted (s : CompactionState κ) : Prop where
  /-- the memtable -/
  memtable : s.tree.memtable.size = s.tree.memtable.getAllEntry.length
  /-- it is never full -/
  room : s.tree.memtable.size < defaultMemtableCapacity
  /-- a memtable that was rotated is exactly full -/
  immutable : ∀ m ∈ s.tree.immutable, m.getAllEntry.length = defaultLsmFileCapacity
  /-- a memtable that is compacted fits into a table -/
  running : ∀ m ops, s.running = some (m, ops) → m.getAllEntry.length ≤ defaultLsmFileCapacity

theorem counted_init (capacity maxFd : ℕ) : (init capacity maxFd : CompactionState κ).Counted where
  memtable := Memtable.ok_create.size
  room := defaultLsmFileCapacity_pos
  immutable _ hm := by cases hm
  running _ _ hrun := by cases hrun

/-- The memtable a put rotates. -/
theorem Counted.rotated (h : s.Counted) {key : ℕ} {val : Option (Record κ)}
    (hrot : s.tree.rotates key val = true) :
    (s.tree.memtable.put key val).1.getAllEntry.length = defaultLsmFileCapacity := by
  rw [← Memtable.size_put h.memtable key val]
  have hfull : defaultLsmFileCapacity ≤ (s.tree.memtable.put key val).1.size := of_decide_eq_true hrot
  have hone := s.tree.memtable.size_put_le key val
  exact le_antisymm (hone.trans h.room) hfull

theorem Counted.put (h : s.Counted) {key : ℕ} {val : Option (Record κ)}
    (hstep : s.step (.put key val) = some s') : s'.Counted := by
  simp only [step] at hstep
  split at hstep
  · cases hstep
  · split at hstep
    · cases hstep
    · obtain rfl := Option.some.inj hstep
      cases hrot : s.tree.rotates key val with
      | true =>
        have hput : (s.tree.put key val).1 = { s.tree with
            memtable := .create, immutable := some (s.tree.memtable.put key val).1 } := if_pos hrot
        refine ⟨?_, ?_, ?_, h.running⟩
        · simp only [hput]
          exact Memtable.ok_create.size
        · simp only [hput]
          exact defaultLsmFileCapacity_pos
        · simp only [hput]
          intro m hm
          obtain rfl := Option.some.inj hm
          exact h.rotated hrot
      | false =>
        have hput : (s.tree.put key val).1 =
            { s.tree with memtable := (s.tree.memtable.put key val).1 } :=
          if_neg (Bool.eq_false_iff.mp hrot)
        refine ⟨?_, ?_, ?_, h.running⟩
        · simp only [hput]
          exact Memtable.size_put h.memtable key val
        · simp only [hput]
          simpa [LsmTree.rotates] using hrot
        · simp only [hput]
          exact h.immutable

theorem Counted.start (h : s.Counted) {order : List ℕ} (hstep : s.step (.start order) = some s') :
    s'.Counted := by
  simp only [step] at hstep
  split at hstep
  · rename_i n m hworks hrun him
    obtain ⟨comp, -, rfl⟩ := Option.map_eq_some_iff.mp hstep
    refine ⟨h.memtable, h.room, h.immutable, fun m' ops hm' => ?_⟩
    obtain ⟨rfl, -⟩ := Prod.mk.inj (Option.some.inj hm')
    exact (h.immutable _ him).le
  · cases hstep

theorem Counted.call (h : s.Counted) (hstep : s.step .call = some s') : s'.Counted := by
  simp only [step] at hstep
  split at hstep
  · rename_i m op ops hrun
    obtain rfl := Option.some.inj hstep
    refine ⟨h.memtable, h.room, h.immutable, fun m' ops' hm' => ?_⟩
    obtain ⟨rfl, -⟩ := Prod.mk.inj (Option.some.inj hm')
    exact h.running _ _ hrun
  · cases hstep

theorem Counted.finish (h : s.Counted) (hstep : s.step .finish = some s') : s'.Counted := by
  simp only [step] at hstep
  split at hstep
  · obtain rfl := Option.some.inj hstep
    cases s.closed with
    | true =>
      exact ⟨Memtable.ok_create.size, defaultLsmFileCapacity_pos, h.immutable,
        fun m' ops hm' => by cases hm'⟩
    | false => exact ⟨h.memtable, h.room, h.immutable, fun m' ops hm' => by cases hm'⟩
  · cases hstep

theorem Counted.destroy (h : s.Counted) {order : List ℕ}
    (hstep : s.step (.destroy order) = some s') : s'.Counted := by
  simp only [step] at hstep
  split at hstep
  · cases hstep
  · split at hstep
    · obtain rfl := Option.some.inj hstep
      exact ⟨h.memtable, h.room, fun m hm => (by cases hm), h.running⟩
    · obtain ⟨comp, -, rfl⟩ := Option.map_eq_some_iff.mp hstep
      refine ⟨h.memtable, h.room, fun m hm => (by cases hm), fun m' ops hm' => ?_⟩
      obtain ⟨rfl, -⟩ := Prod.mk.inj (Option.some.inj hm')
      rw [← h.memtable]
      exact h.room.le

/-- **One step.** -/
theorem Counted.step (h : s.Counted) {a : CompactionAction κ} (hstep : s.step a = some s') :
    s'.Counted := by
  cases a with
  | put key val => exact h.put hstep
  | start order => exact h.start hstep
  | call => exact h.call hstep
  | finish => exact h.finish hstep
  | destroy order => exact h.destroy hstep

theorem counted_exec {capacity maxFd : ℕ} {run : List (CompactionAction κ)}
    (hrun : Machine.exec CompactionState.step (init capacity maxFd) run = some s) : s.Counted :=
  Machine.invariant_of_all (fun _ _ _ h hstep => Counted.step h hstep) (counted_init _ _) hrun

end CompactionState

/-! ## The accounts -/

variable [Inhabited κ]

/-- What `size`, `put` and `get` say about the records of a memtable. -/
structure Memtable.Accounted (m : Memtable κ) : Prop where
  /-- `size` is the number of records -/
  size : m.size = m.positives + m.negatives
  /-- a positive record replaces the positive record there is and keeps the negative one -/
  put_some : ∀ key r, (m.put key (some r)).2 = m.positiveAt key ∧
    (m.put key (some r)).1.positiveAt key = some r ∧
    (m.put key (some r)).1.negativeAt key = m.negativeAt key
  /-- a `NULL` leaves a negative record alone -/
  put_none : ∀ key, (m.put key none).2 = none ∧ (m.put key none).1.positiveAt key = none ∧
    (m.put key none).1.negativeAt key = true
  /-- the other keys keep their records -/
  put_other : ∀ key val a, a ≠ key → (m.put key val).1.positiveAt a = m.positiveAt a ∧
    (m.put key val).1.negativeAt a = m.negativeAt a
  /-- a lookup finds the positive record, or else the negative one -/
  get : ∀ key, m.get key =
    (m.positiveAt key).or (if m.negativeAt key then some .negative else none)

theorem Memtable.accounted {m : Memtable κ} (h : m.size = m.getAllEntry.length) : m.Accounted where
  size := h.trans m.length_getAllEntry_eq_add
  put_some key r := by
    rw [put_snd, positiveAt_put, negativeAt_put]
    simp
  put_none key := by
    rw [put_snd, positiveAt_put, negativeAt_put]
    simp
  put_other key val a hne := by
    rw [positiveAt_put, negativeAt_put, if_neg hne.symm, if_neg hne.symm]
    exact ⟨rfl, rfl⟩
  get key := m.get_eq key

/-- **Memtable accounting.** After any calls `size` is the number of records, and `put` and `get`
treat positive and negative records as they should. In any run of the tree a memtable is rotated
when it has exactly as many records as a table holds, and no minor compaction has more. -/
theorem memtable_accounting (calls : List (MemtableCall κ)) (capacity maxFd : ℕ)
    {run : List (CompactionAction κ)} {s : CompactionState κ}
    (hrun : Machine.exec CompactionState.step (.init capacity maxFd) run = some s) :
    (calls.foldl Memtable.call .create).Accounted ∧
    (∀ key val, s.tree.rotates key val = true → ∃ m, (s.tree.put key val).1.immutable = some m ∧
      m.getAllEntry.length = defaultLsmFileCapacity) ∧
    (∀ m ∈ s.tree.immutable, m.getAllEntry.length = defaultLsmFileCapacity) ∧
    ∀ m ops, s.running = some (m, ops) → m.getAllEntry.length ≤ defaultLsmFileCapacity := by
  have hcounted := CompactionState.counted_exec hrun
  refine ⟨?_, fun key val hrot => ?_, hcounted.immutable, hcounted.running⟩
  · exact Memtable.accounted (Memtable.size_calls Memtable.ok_create.size calls)
  · refine ⟨(s.tree.memtable.put key val).1, ?_, hcounted.rotated hrot⟩
    rw [LsmTree.put, if_pos hrot]

/-- A key is deleted and written in a memtable; another one is put into the tree. -/
theorem memtable_accounting_sample :
    ∃ s, Machine.exec CompactionState.step (.init 1 1) [.put 3 (some (⟨5, [], ()⟩ : Record Unit))] =
        some s ∧
      (([.put 3 none, .put 3 (some ⟨5, [], ()⟩)] : List (MemtableCall Unit)).foldl Memtable.call
        .create).Accounted ∧
      ∀ m ops, s.running = some (m, ops) → m.getAllEntry.length ≤ defaultLsmFileCapacity := by
  obtain ⟨s, hs⟩ : ∃ s, Machine.exec CompactionState.step (.init 1 1)
      [.put 3 (some (⟨5, [], ()⟩ : Record Unit))] = some s := ⟨_, rfl⟩
  have h := memtable_accounting [.put 3 none, .put 3 (some ⟨5, [], ()⟩)] 1 1 hs
  exact ⟨s, hs, h.1, h.2.2.2⟩

end JinDisk
