import JinDisk.Crypto
import JinDisk.Lib.RbTree

/-!
# Records and the memtable

`memtable.c`. A record says where the block of an lba lies and how to decrypt it. A
memtable entry holds up to two records of one key: a positive one and a negative one,
the latter standing for "deleted". A put of a positive record keeps a negative record
that is already there, so an entry with both means "deleted in the layers below, then
written again".
-/

namespace JinDisk

/-- `INF_ADDR` -/
def infAddr : ℕ := 2 ^ 64 - 1

/-- `AES_GCM_AUTH_SIZE` -/
def aesGcmAuthSize : ℕ := 16

/-- `struct record`, lba => (pba, key, iv, mac) -/
structure Record (κ : Type) where
  /-- physical block address -/
  pba : ℕ
  /-- authentication tag -/
  mac : Bytes
  /-- encryption key -/
  key : κ
  deriving DecidableEq

variable {κ : Type}

/-- `record_create(INF_ADDR, NULL, NULL)`: zeroed memory with the address set. -/
def Record.negative [Inhabited κ] : Record κ := ⟨infAddr, List.replicate aesGcmAuthSize 0, default⟩

/-- `negative_record` -/
def Record.isNegative (r : Record κ) : Bool := r.pba == infAddr

@[simp] theorem Record.negative_isNegative [Inhabited κ] :
    (Record.negative : Record κ).isNegative = true := by
  simp [Record.isNegative, Record.negative]

/-- The record, if it is a positive one. -/
def Record.positive? (o : Option (Record κ)) : Option (Record κ) := o.filter fun r => !r.isNegative

theorem Record.positive?_eq_some {o : Option (Record κ)} {r : Record κ} :
    Record.positive? o = some r ↔ o = some r ∧ r.isNegative = false := by
  rw [Record.positive?, Option.filter_eq_some_iff]
  simp

/-- `struct memtable_entry`: which of the pointers `val` and `negative_val` are set. At
least one of them is, and a negative record is always `record_create(INF_ADDR, NULL,
NULL)`. -/
inductive MemtableEntry (κ : Type) where
  /-- only `val` -/
  | positive (val : Record κ)
  /-- only `negative_val` -/
  | negative
  /-- both -/
  | both (val : Record κ)
  deriving DecidableEq

namespace MemtableEntry

/-- The `val` pointer. -/
def val : MemtableEntry κ → Option (Record κ)
  | positive r => some r
  | negative => none
  | both r => some r

/-- Is the `negative_val` pointer set? -/
def hasNegative : MemtableEntry κ → Bool
  | positive _ => false
  | negative => true
  | both _ => true

/-- The number of records of an entry. -/
def count : MemtableEntry κ → ℕ
  | positive _ => 1
  | negative => 1
  | both _ => 2

/-- `new_memtable_entry`: a `NULL` value makes a negative entry. -/
def new : Option (Record κ) → MemtableEntry κ
  | some r => positive r
  | none => negative

/-- What `rbtree_memtable_put` makes of an entry that is already there: a `NULL` value
drops both records for a new negative one, another value replaces the positive record. -/
def update (old : MemtableEntry κ) : Option (Record κ) → MemtableEntry κ
  | none => negative
  | some r => if old.hasNegative then both r else positive r

/-- The record found by `__rbtree_memtable_search`: the positive one if there is one. -/
def record [Inhabited κ] : MemtableEntry κ → Record κ
  | positive r => r
  | negative => .negative
  | both r => r

/-- The records in the order in which minor compaction writes them out. -/
def records [Inhabited κ] : MemtableEntry κ → List (Record κ)
  | positive r => [r]
  | negative => [.negative]
  | both r => [r, .negative]

@[simp] theorem record_new_some [Inhabited κ] (r : Record κ) : (new (some r)).record = r := rfl

@[simp] theorem record_new_none [Inhabited κ] :
    (new (none : Option (Record κ))).record = .negative := rfl

@[simp] theorem record_update_some [Inhabited κ] (e : MemtableEntry κ) (r : Record κ) :
    (e.update (some r)).record = r := by
  cases e <;> rfl

@[simp] theorem record_update_none [Inhabited κ] (e : MemtableEntry κ) :
    (e.update none).record = .negative := rfl

end MemtableEntry

/-- `struct rbtree_memtable` -/
structure Memtable (κ : Type) where
  /-- the entries -/
  root : RbTree (MemtableEntry κ)
  /-- the `size` counter -/
  size : ℕ

namespace Memtable

/-- `rbtree_memtable_create` -/
def create : Memtable κ := ⟨∅, 0⟩

/-- `rbtree_memtable_put`: the memtable afterwards and the superseded positive record.
Only a put of a positive record over a positive record returns one; a `NULL` value
destroys what it finds. -/
def put (m : Memtable κ) (key : ℕ) (val : Option (Record κ)) :
    Memtable κ × Option (Record κ) :=
  match m.root[key]? with
  | none => (⟨m.root.insert key (.new val), m.size + 1⟩, none)
  | some e =>
    match val with
    | none => (⟨m.root.insert key (e.update none), m.size - e.count + 1⟩, none)
    | some r => (⟨m.root.insert key (e.update (some r)),
        (if e.val.isSome then m.size - 1 else m.size) + 1⟩, e.val)

/-- `rbtree_memtable_get` -/
def get [Inhabited κ] (m : Memtable κ) (key : ℕ) : Option (Record κ) :=
  m.root[key]?.map MemtableEntry.record

/-- `rbtree_memtable_get_all_entry`, flattened to the (key, record) pairs that minor
compaction adds to the builder. -/
def getAllEntry [Inhabited κ] (m : Memtable κ) : List (ℕ × Record κ) :=
  m.root.toList.flatMap fun e => e.2.records.map fun r => (e.1, r)

/-- The entry a put leaves behind. -/
def putEntry (m : Memtable κ) (key : ℕ) (val : Option (Record κ)) : MemtableEntry κ :=
  match m.root[key]? with
  | none => .new val
  | some e => e.update val

theorem put_root (m : Memtable κ) (key : ℕ) (val : Option (Record κ)) :
    (m.put key val).1.root = m.root.insert key (m.putEntry key val) := by
  rw [put, putEntry]
  cases m.root[key]? with
  | none => rfl
  | some e => cases val <;> rfl

theorem get_eq_some [Inhabited κ] {m : Memtable κ} {key : ℕ} {r : Record κ} :
    m.get key = some r ↔ ∃ e, m.root[key]? = some e ∧ e.record = r := Option.map_eq_some_iff

/-- What a put does to the lookups. -/
theorem get_put [Inhabited κ] (m : Memtable κ) (key : ℕ) (val : Option (Record κ)) (a : ℕ) :
    (m.put key val).1.get a = if key = a then some (val.getD .negative) else m.get a := by
  rw [get, put_root, RbTree.getElem?_insert]
  split
  · rw [putEntry]
    cases m.root[key]? <;> cases val <;> simp
  · rfl

/-- A superseded record is the one a lookup found before, and it was positive. -/
theorem put_old [Inhabited κ] {m : Memtable κ} {key : ℕ} {val : Option (Record κ)}
    {old : Record κ} (h : (m.put key val).2 = some old) :
    m.get key = some old ∧ ∃ e, m.root[key]? = some e ∧ e.val = some old := by
  rw [put] at h
  cases he : m.root[key]? with
  | none =>
    rw [he] at h
    cases h
  | some e =>
    rw [he] at h
    cases val with
    | none => cases h
    | some r =>
      cases e with
      | negative => cases h
      | positive r' =>
        obtain rfl := Option.some.inj h
        exact ⟨get_eq_some.mpr ⟨_, he, rfl⟩, _, rfl, rfl⟩
      | both r' =>
        obtain rfl := Option.some.inj h
        exact ⟨get_eq_some.mpr ⟨_, he, rfl⟩, _, rfl, rfl⟩

/-! ## The entries of a memtable -/

/-- The records of a key among the entries written out. -/
theorem getAllEntry_filter [Inhabited κ] (m : Memtable κ) (key : ℕ) :
    ((m.getAllEntry.filter fun e => e.1 = key).map Prod.snd) =
      (m.root[key]?.map MemtableEntry.records).getD [] := by
  have hother : ∀ l : List (ℕ × MemtableEntry κ), (∀ e ∈ l, e.1 ≠ key) →
      ((l.flatMap fun e => e.2.records.map fun r => (e.1, r)).filter fun e => e.1 = key) = [] := by
    intro l hl
    refine List.filter_eq_nil_iff.mpr fun x hx => ?_
    obtain ⟨e, he, hxe⟩ := List.mem_flatMap.mp hx
    obtain ⟨r, -, rfl⟩ := List.mem_map.mp hxe
    simpa using hl e he
  rw [getAllEntry]
  cases hkey : m.root[key]? with
  | none =>
    rw [hother m.root.toList fun e he heq => ?_]
    · rfl
    · have := (RbTree.mem_toList m.root e.1 e.2).mp he
      rw [heq, hkey] at this
      cases this
  | some e =>
    obtain ⟨as, bs, hsplit, has, hbs⟩ := RbTree.exists_split hkey
    have hself : ((e.records.map fun r => (key, r)).filter fun e => e.1 = key) =
        e.records.map fun r => (key, r) := by
      refine List.filter_eq_self.mpr fun x hx => ?_
      obtain ⟨r, -, rfl⟩ := List.mem_map.mp hx
      simp
    rw [hsplit, List.flatMap_append, List.flatMap_cons, List.filter_append, List.filter_append,
      hother as fun a ha => Nat.ne_of_lt (has a ha), hother bs fun b hb => Nat.ne_of_gt (hbs b hb),
      hself, List.nil_append, List.append_nil, List.map_map]
    exact List.map_id _

/-- The entries written out are in key order. -/
theorem getAllEntry_sorted [Inhabited κ] (m : Memtable κ) :
    m.getAllEntry.Pairwise fun a b => a.1 ≤ b.1 := by
  rw [getAllEntry]
  refine List.pairwise_flatMap.mpr ⟨fun e _ => ?_, (RbTree.sorted m.root).imp fun hlt x hx y hy => ?_⟩
  · refine List.pairwise_map.mpr (List.pairwise_of_forall fun _ _ => ?_)
    exact Nat.le_refl _
  · obtain ⟨r, -, rfl⟩ := List.mem_map.mp hx
    obtain ⟨r', -, rfl⟩ := List.mem_map.mp hy
    exact Nat.le_of_lt hlt

/-! ## The size counter -/

theorem length_getAllEntry [Inhabited κ] (m : Memtable κ) :
    m.getAllEntry.length = (m.root.toList.map fun e => e.2.count).sum := by
  rw [getAllEntry, List.length_flatMap]
  refine congrArg List.sum (List.map_congr_left fun e _ => ?_)
  rw [List.length_map]
  cases e.2 <;> rfl

/-- The records of all keys but one. -/
def countOthers (m : Memtable κ) (key : ℕ) : ℕ :=
  ((m.root.toList.filter fun e => e.1 ≠ key).map fun e => e.2.count).sum

theorem length_getAllEntry_put [Inhabited κ] (m : Memtable κ) (key : ℕ) (val : Option (Record κ)) :
    (m.put key val).1.getAllEntry.length = (m.putEntry key val).count + m.countOthers key := by
  rw [length_getAllEntry, put_root, ((RbTree.toList_insert_perm _ _ _).map _).sum_nat]
  rfl

theorem length_getAllEntry_eq [Inhabited κ] (m : Memtable κ) (key : ℕ) :
    m.getAllEntry.length =
      ((m.root[key]?.map MemtableEntry.count).getD 0) + m.countOthers key := by
  rw [length_getAllEntry, countOthers]
  cases hkey : m.root[key]? with
  | none =>
    rw [List.filter_eq_self.mpr fun e he => ?_]
    · simp
    · have := (RbTree.mem_toList m.root e.1 e.2).mp he
      simp only [ne_eq, decide_eq_true_eq]
      intro heq
      rw [heq, hkey] at this
      cases this
  | some e =>
    obtain ⟨as, bs, hsplit, has, hbs⟩ := RbTree.exists_split hkey
    have has' : (as.filter fun e => e.1 ≠ key) = as := List.filter_eq_self.mpr fun a ha => by
      simpa using Nat.ne_of_lt (has a ha)
    have hbs' : (bs.filter fun e => e.1 ≠ key) = bs := List.filter_eq_self.mpr fun b hb => by
      simpa using Nat.ne_of_gt (hbs b hb)
    rw [hsplit, List.filter_append, List.filter_cons_of_neg (by simp), has', hbs']
    simp only [List.map_append, List.map_cons, List.sum_append, List.sum_cons, Option.map_some,
      Option.getD_some]
    omega

/-- **The counter is right.** A put keeps `size` the number of records. -/
theorem size_put [Inhabited κ] {m : Memtable κ} (h : m.size = m.getAllEntry.length) (key : ℕ)
    (val : Option (Record κ)) :
    (m.put key val).1.size = (m.put key val).1.getAllEntry.length := by
  rw [length_getAllEntry_put]
  rw [length_getAllEntry_eq m key] at h
  rw [put, putEntry]
  cases he : m.root[key]? with
  | none =>
    rw [he] at h
    cases val <;> simp_all [MemtableEntry.new, MemtableEntry.count] <;> omega
  | some e =>
    rw [he] at h
    cases val <;> cases e <;>
      simp_all [MemtableEntry.update, MemtableEntry.count, MemtableEntry.val,
        MemtableEntry.hasNegative] <;> omega

/-- A put adds at most one record. -/
theorem size_put_le (m : Memtable κ) (key : ℕ) (val : Option (Record κ)) :
    (m.put key val).1.size ≤ m.size + 1 := by
  rw [put]
  cases m.root[key]? with
  | none => exact Nat.le_refl _
  | some e =>
    cases val with
    | none => simp
    | some r =>
      simp only
      split <;> omega

/-! ## A memtable with one key -/

/-- A memtable with one entry. -/
def single (key : ℕ) (e : MemtableEntry κ) : Memtable κ := ⟨(∅ : RbTree _).insert key e, e.count⟩

theorem create_put (key : ℕ) (val : Option (Record κ)) :
    (create.put key val).1 = single key (.new val) := by
  cases val <;> simp [put, create, single, MemtableEntry.new, MemtableEntry.count]

theorem single_put (key : ℕ) (e : MemtableEntry κ) (val : Option (Record κ)) :
    ((single key e).put key val).1 = single key (e.update val) := by
  have hkey : (single key e).root[key]? = some e := by simp [single]
  have hroot : (single key e).root.insert key (e.update val) =
      (single key (e.update val)).root := by
    refine Std.ExtTreeMap.ext_getElem? fun a => ?_
    simp only [single, RbTree.getElem?_insert]
    split <;> rfl
  rw [put, hkey]
  cases val <;> simp only [hroot] <;> cases e <;> rfl

theorem getAllEntry_single [Inhabited κ] (key : ℕ) (e : MemtableEntry κ) :
    (single key e).getAllEntry = e.records.map fun r => (key, r) := by
  have hlist : (single key e).root.toList = [(key, e)] := by
    refine List.perm_singleton.mp ((RbTree.toList_insert_perm _ _ _).trans ?_)
    simp
  rw [getAllEntry, hlist, List.flatMap_singleton]

end Memtable

end JinDisk
