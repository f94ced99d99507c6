import JinDisk.Memtable
import JinDisk.Lib.SearchTree
import Mathlib.Algebra.Order.Ring.Int

/-!
# The comparisons of the memtable

`memtable.c`, below the map of `Memtable`: the entries hang in a search tree, and three callbacks
decide where. A put compares by the difference of the keys, taken in 64 bits and returned as an
`int`; a remove does so too, after reading its key as a signed `int`; a get compares the unsigned
keys. The `int` has the sign of the difference only when the keys are less than `2 ^ 31` apart.
-/

namespace JinDisk

variable {κ : Type}

/-- `memtable_entry_cmp`: the conversion to the return type drops the upper half. -/
def memtableEntryCmp (node parent : UInt32) : Int32 :=
  Int32.ofInt ((node.toNat : ℤ) - (parent.toNat : ℤ))

/-- `memtable_entry_cmp_rb_key`: the key sought is read through a pointer to `int`. -/
def memtableEntryCmpRbKey (key entry : UInt32) : Int32 :=
  Int32.ofInt (key.toInt32.toInt - (entry.toNat : ℤ))

/-- What `rb_find` and `rb_find_add` make of the result of a callback. -/
def branch (c : Int32) : Ordering := if c < 0 then .lt else if 0 < c then .gt else .eq

/-- `struct rbtree_memtable` with the tree itself. -/
structure RbtreeMemtable (κ : Type) where
  /-- the entries under their keys -/
  root : SearchTree (UInt32 × MemtableEntry κ)
  /-- the `size` counter -/
  size : ℕ

namespace RbtreeMemtable

/-- `rbtree_memtable_create` -/
def create : RbtreeMemtable κ := ⟨.nil, 0⟩

/-- The entry that `rb_find_add` finds for a key. -/
def findPut (m : RbtreeMemtable κ) (key : UInt32) : Option (UInt32 × MemtableEntry κ) :=
  m.root.find fun e => branch (memtableEntryCmp key e.1)

/-- `rbtree_memtable_put`: the memtable and the superseded positive record. -/
def put (m : RbtreeMemtable κ) (key : UInt32) (val : Option (Record κ)) :
    RbtreeMemtable κ × Option (Record κ) :=
  let root := m.root.findAdd (fun e => branch (memtableEntryCmp key e.1)) (key, .new val)
    fun e => (e.1, e.2.update val)
  match m.findPut key with
  | none => (⟨root, m.size + 1⟩, none)
  | some e =>
    match val with
    | none => (⟨root, m.size - e.2.count + 1⟩, none)
    | some _ => (⟨root, (if e.2.val.isSome then m.size - 1 else m.size) + 1⟩, e.2.val)

/-- `rbtree_memtable_get`, with the loop of `__rbtree_memtable_search`. -/
def get [Inhabited κ] (m : RbtreeMemtable κ) (key : UInt32) : Option (Record κ) :=
  (m.root.find fun e => if key < e.1 then .lt else if e.1 < key then .gt else .eq).map
    fun e => e.2.record

/-- `rbtree_memtable_remove`: the memtable and the positive record of the entry. -/
def remove (m : RbtreeMemtable κ) (key : UInt32) : RbtreeMemtable κ × Option (Record κ) :=
  match m.root.find fun e => branch (memtableEntryCmpRbKey key e.1) with
  | none => (m, none)
  | some e =>
    (⟨m.root.findErase fun e => branch (memtableEntryCmpRbKey key e.1), m.size - e.2.count⟩, e.2.val)

/-- `rbtree_memtable_clear`: the first node is erased until the tree is empty. -/
def clear (_ : RbtreeMemtable κ) : RbtreeMemtable κ := ⟨.nil, 0⟩

/-- `rbtree_memtable_get_all_entry` -/
def getAllEntry (m : RbtreeMemtable κ) : List (UInt32 × MemtableEntry κ) := m.root.inorder

end RbtreeMemtable

/-- A call that changes the memtable. -/
inductive MemtableOp (κ : Type) where
  | put (key : UInt32) (val : Option (Record κ))
  | remove (key : UInt32)
  | clear

/-- The memtable after a call, before the tree is rebalanced. -/
def RbtreeMemtable.exec (m : RbtreeMemtable κ) : MemtableOp κ → RbtreeMemtable κ
  | .put key val => (m.put key val).1
  | .remove key => (m.remove key).1
  | .clear => m.clear

/-- The memtables that a sequence of calls can leave. After each call the tree may be rebalanced
in any way that keeps its elements in place. -/
inductive RbtreeMemtable.Reached : List (MemtableOp κ) → RbtreeMemtable κ → Prop where
  | create : Reached [] create
  | exec {ops : List (MemtableOp κ)} {m : RbtreeMemtable κ}
      {root : SearchTree (UInt32 × MemtableEntry κ)} (h : Reached ops m) (op : MemtableOp κ)
      (hroot : (m.exec op).root.Rebalanced root) : Reached (ops ++ [op]) ⟨root, (m.exec op).size⟩

/-! ## The memtable as a map -/

namespace MemtableOp

/-- Does the call concern the key? -/
def affects (key : UInt32) : MemtableOp κ → Bool
  | put k _ => k == key
  | remove k => k == key
  | clear => true

/-- The last call of a sequence that concerns the key. -/
def lastAffecting (ops : List (MemtableOp κ)) (key : UInt32) : Option (MemtableOp κ) :=
  ops.reverse.find? (affects key)

/-- The record that a call leaves for the keys it concerns. -/
def record [Inhabited κ] : MemtableOp κ → Option (Record κ)
  | put _ val => some (val.getD .negative)
  | remove _ => none
  | clear => none

end MemtableOp

open MemtableOp

/-- The keys put are in the set. -/
def PutsIn (K : Set UInt32) (ops : List (MemtableOp κ)) : Prop :=
  ∀ k val, MemtableOp.put k val ∈ ops → k ∈ K

/-- What a map over the keys does after a sequence of calls. -/
structure RbtreeMemtable.IsMap [Inhabited κ] (ops : List (MemtableOp κ)) (m : RbtreeMemtable κ) :
    Prop where
  /-- a get succeeds when the last call for the key was a put, with the record of that put -/
  get : ∀ k r, m.get k = some r ↔ ∃ val, lastAffecting ops k = some (.put k val) ∧
    r = val.getD .negative
  /-- a remove takes out the entry of the key and no other -/
  remove : ∀ k, (m.remove k).1.getAllEntry = m.getAllEntry.filter fun e => e.1 ≠ k
  /-- the keys listed are those last put -/
  listed : ∀ k, k ∈ m.getAllEntry.map Prod.fst ↔ ∃ val, lastAffecting ops k = some (.put k val)
  /-- in increasing order, each once -/
  increasing : (m.getAllEntry.map Prod.fst).Pairwise (· < ·)

/-! ## When the comparisons agree -/

/-- Neither key is `2 ^ 31` or more above the other. -/
def Close (a b : UInt32) : Prop := a.toNat - b.toNat < 2 ^ 31 ∧ b.toNat - a.toNat < 2 ^ 31

theorem branch_eq (c : Int32) : branch c = compare c.toInt 0 := by
  have hzero : (0 : Int32).toInt = 0 := rfl
  simp only [branch, Int32.lt_iff_toInt_lt, hzero]
  rcases lt_trichotomy c.toInt 0 with hlt | heq | hgt
  · rw [if_pos hlt, compare_lt_iff_lt.mpr hlt]
  · rw [heq, if_neg (lt_irrefl _), if_neg (lt_irrefl _), compare_eq_iff_eq.mpr rfl]
  · rw [if_neg hgt.not_gt, if_pos hgt, compare_gt_iff_gt.mpr hgt]

/-- Reading the key as a signed number is undone by the conversion of the result. -/
theorem memtableEntryCmpRbKey_eq (key entry : UInt32) :
    memtableEntryCmpRbKey key entry = memtableEntryCmp key entry := by
  have hkey : key.toInt32.toInt = (key.toNat : ℤ).bmod Int32.size :=
    BitVec.toInt_eq_toNat_bmod key.toBitVec
  rw [memtableEntryCmpRbKey, memtableEntryCmp, ← Int32.toInt_inj, Int32.toInt_ofInt,
    Int32.toInt_ofInt, hkey, Int.bmod_sub_bmod]

/-- Close keys are compared as numbers. -/
theorem branch_memtableEntryCmp {a b : UInt32} (h : Close a b) :
    branch (memtableEntryCmp a b) = compare a.toNat b.toNat := by
  obtain ⟨hab, hba⟩ := h
  rw [branch_eq, memtableEntryCmp, Int32.toInt_ofInt_of_le (by omega) (by omega)]
  rcases lt_trichotomy a.toNat b.toNat with hlt | heq | hgt
  · rw [compare_lt_iff_lt.mpr hlt, compare_lt_iff_lt]
    omega
  · rw [compare_eq_iff_eq.mpr heq, compare_eq_iff_eq]
    omega
  · rw [compare_gt_iff_gt.mpr hgt, compare_gt_iff_gt]
    omega

/-- A key far above another one is sent to the left of it. -/
theorem branch_memtableEntryCmp_far {a b : UInt32} (h : 2 ^ 31 ≤ a.toNat - b.toNat) :
    branch (memtableEntryCmp a b) = .lt := by
  have ha := a.toNat_lt
  have hint : (memtableEntryCmp a b).toInt = (a.toNat : ℤ) - b.toNat - 2 ^ 32 := by
    rw [memtableEntryCmp, Int32.toInt_ofInt, ← Int.sub_bmod_right]
    refine Int.bmod_eq_of_le ?_ ?_ <;> simp only [Int32.size] <;> omega
  rw [branch_eq, hint, compare_lt_iff_lt]
  omega

/-- Close or not, only equal keys compare equal. -/
theorem eq_of_branch_memtableEntryCmp {a b : UInt32} (h : branch (memtableEntryCmp a b) = .eq) :
    a = b := by
  rw [branch_eq, compare_eq_iff_eq, memtableEntryCmp, Int32.toInt_ofInt] at h
  have ha := a.toNat_lt
  have hb := b.toNat_lt
  have hsize : (Int32.size : ℤ) = 2 ^ 32 := rfl
  obtain ⟨c, hc⟩ := Int.dvd_of_bmod_eq_zero h
  rw [hsize] at hc
  rw [← UInt32.toNat_inj]
  omega

namespace RbtreeMemtable

variable {ops : List (MemtableOp κ)} {m : RbtreeMemtable κ} {K : Set UInt32}

/-- The key of an entry as a number. -/
def keyNat (e : UInt32 × MemtableEntry κ) : ℕ := e.1.toNat

theorem keyNat_eq {e : UInt32 × MemtableEntry κ} {k : UInt32} : keyNat e = k.toNat ↔ e.1 = k :=
  UInt32.toNat_inj

theorem seeks_put {key : UInt32} (h : ∀ e ∈ m.root.inorder, Close key e.1) :
    m.root.Seeks keyNat key.toNat fun e => branch (memtableEntryCmp key e.1) :=
  fun e he => branch_memtableEntryCmp (h e he)

theorem seeks_remove {key : UInt32} (h : ∀ e ∈ m.root.inorder, Close key e.1) :
    m.root.Seeks keyNat key.toNat fun e => branch (memtableEntryCmpRbKey key e.1) := by
  intro e he
  simp only [memtableEntryCmpRbKey_eq]
  exact branch_memtableEntryCmp (h e he)

/-- A get always compares the keys as numbers. -/
theorem seeks_get (m : RbtreeMemtable κ) (key : UInt32) : m.root.Seeks keyNat key.toNat fun e =>
    if key < e.1 then .lt else if e.1 < key then .gt else .eq := by
  intro e _
  simp only [UInt32.lt_iff_toNat_lt]
  exact (Nat.compare_eq_ite_lt _ _).symm

theorem put_root (m : RbtreeMemtable κ) (key : UInt32) (val : Option (Record κ)) :
    (m.put key val).1.root = m.root.findAdd (fun e => branch (memtableEntryCmp key e.1))
      (key, .new val) fun e => (e.1, e.2.update val) := by
  rw [put]
  cases m.findPut key with
  | none => rfl
  | some e => cases val <;> rfl

/-- The entry of the key after a put. -/
def putEntry (m : RbtreeMemtable κ) (key : UInt32) (val : Option (Record κ)) :
    UInt32 × MemtableEntry κ :=
  (m.findPut key).elim (key, .new val) fun e => (e.1, e.2.update val)

section Put

variable {key : UInt32} {as bs : List (UInt32 × MemtableEntry κ)}
  (hcut : SearchTree.Cut keyNat key.toNat (fun e => branch (memtableEntryCmp key e.1)) m.root as bs)
include hcut

theorem inorder_put (val : Option (Record κ)) :
    (m.put key val).1.root.inorder = as ++ m.putEntry key val :: bs := by
  rw [put_root, hcut.inorder_findAdd]
  rfl

theorem keyNat_putEntry (val : Option (Record κ)) : keyNat (m.putEntry key val) = key.toNat := by
  rw [putEntry]
  cases hfind : m.findPut key with
  | none => rfl
  | some e => exact hcut.found e hfind

end Put

theorem lastAffecting_append (ops : List (MemtableOp κ)) (op : MemtableOp κ) (k : UInt32) :
    lastAffecting (ops ++ [op]) k = if op.affects k then some op else lastAffecting ops k := by
  rw [lastAffecting, List.reverse_append, List.reverse_singleton, List.singleton_append,
    List.find?_cons]
  cases op.affects k <;> rfl

variable [Inhabited κ]

/-- A get in a sorted tree reads the entry of the key. -/
theorem get_eq (h : m.root.Sorted keyNat) (k : UInt32) :
    m.get k = (m.root.inorder.find? fun e => keyNat e = k.toNat).map fun e => e.2.record := by
  obtain ⟨as, bs, hcut⟩ := h.exists_cut (seeks_get m k)
  rw [get, hcut.find_eq]

/-- The tree is sorted, with keys that were put, and holds for each key the record of the last
call. -/
structure Ok (K : Set UInt32) (ops : List (MemtableOp κ)) (m : RbtreeMemtable κ) : Prop where
  keys : ∀ e ∈ m.root.inorder, e.1 ∈ K
  sorted : m.root.Sorted keyNat
  lookup : ∀ k : UInt32, ((m.root.inorder.find? fun e => keyNat e = k.toNat).map
    fun e => e.2.record) = (lastAffecting ops k).bind MemtableOp.record

section Close

variable (hclose : ∀ a ∈ K, ∀ b ∈ K, Close a b)
include hclose

/-- **Step lemma, put.** -/
theorem Ok.put (h : Ok K ops m) {key : UInt32} (hkey : key ∈ K) (val : Option (Record κ)) :
    Ok K (ops ++ [.put key val]) (m.put key val).1 := by
  obtain ⟨as, bs, hcut⟩ := h.sorted.exists_cut
    (seeks_put fun e he => hclose key hkey e.1 (h.keys e he))
  have hroot := inorder_put hcut val
  have hkeyNat := keyNat_putEntry hcut val
  have hrecord : (m.putEntry key val).2.record = val.getD .negative := by
    rw [putEntry]
    cases m.findPut key <;> cases val <;> simp
  refine ⟨?_, ?_, ?_⟩
  · intro e' he'
    rw [hroot] at he'
    rcases hcut.mem_insert he' with rfl | he'
    · rw [keyNat_eq.mp hkeyNat]
      exact hkey
    · exact h.keys e' he'
  · rw [SearchTree.Sorted, hroot]
    exact hcut.sorted_insert h.sorted hkeyNat
  · intro k
    rw [hroot, hcut.find?_insert hkeyNat, lastAffecting_append, affects]
    by_cases hk : key = k
    · rw [if_pos (congrArg _ hk), if_pos (beq_iff_eq.mpr hk), Option.map_some, hrecord]
      rfl
    · rw [if_neg fun heq => hk (UInt32.toNat_inj.mp heq), if_neg fun heq => hk (beq_iff_eq.mp heq)]
      exact h.lookup k

/-- What a remove leaves, whether or not its key is close to those in the tree. -/
theorem Ok.remove_root (h : Ok K ops m) (key : UInt32) :
    (m.remove key).1.root.inorder = m.root.inorder.filter fun e => e.1 ≠ key := by
  have hfilter : (m.root.inorder.filter fun e => e.1 ≠ key) =
      m.root.inorder.filter fun e => keyNat e ≠ key.toNat := by
    simp only [ne_eq, keyNat_eq]
  rw [hfilter]
  by_cases hmem : ∃ e ∈ m.root.inorder, e.1 = key
  · -- the key was put, so it is close to the others
    obtain ⟨e, he, rfl⟩ := hmem
    obtain ⟨as, bs, hcut⟩ := h.sorted.exists_cut
      (seeks_remove fun e' he' => hclose e.1 (h.keys e he) e'.1 (h.keys e' he'))
    have hfind : (m.root.find fun e' => branch (memtableEntryCmpRbKey e.1 e'.1)) ≠ none := by
      rw [hcut.find_eq]
      intro hnone
      simpa [keyNat] using List.find?_eq_none.mp hnone e he
    rw [remove, hcut.filter_eq]
    obtain ⟨e', he'⟩ := Option.ne_none_iff_exists'.mp hfind
    rw [he']
    exact hcut.inorder_findErase
  · have hne : ∀ e ∈ m.root.inorder, e.1 ≠ key := fun e he heq => hmem ⟨e, he, heq⟩
    have hfind : (m.root.find fun e => branch (memtableEntryCmpRbKey key e.1)) = none := by
      refine SearchTree.find_eq_none fun e he heq => hne e he ?_
      rw [memtableEntryCmpRbKey_eq] at heq
      exact (eq_of_branch_memtableEntryCmp heq).symm
    rw [remove, hfind]
    refine (List.filter_eq_self.mpr fun e he => ?_).symm
    simpa [keyNat_eq] using hne e he

/-- **Step lemma, remove.** -/
theorem Ok.remove (h : Ok K ops m) (key : UInt32) : Ok K (ops ++ [.remove key]) (m.remove key).1 := by
  have hroot := h.remove_root hclose key
  refine ⟨?_, ?_, ?_⟩
  · intro e he
    rw [hroot] at he
    exact h.keys e (List.mem_filter.mp he).1
  · rw [SearchTree.Sorted, hroot]
    exact List.Pairwise.filter _ h.sorted
  · intro k
    rw [hroot, List.find?_filter, lastAffecting_append, affects]
    by_cases hk : key = k
    · rw [if_pos (beq_iff_eq.mpr hk), List.find?_eq_none.mpr fun e _ => ?_]
      · rfl
      · simp [hk, keyNat_eq]
    · rw [if_neg fun heq => hk (beq_iff_eq.mp heq), ← h.lookup k]
      refine congrArg (Option.map _) (congrFun (congrArg List.find? (funext fun e => ?_)) _)
      by_cases he : e.1 = k
      · simp [he, keyNat, Ne.symm hk]
      · simp [keyNat_eq, he]

/-- **Run lemma.** -/
theorem Reached.ok (h : Reached ops m) (hputs : PutsIn K ops) : Ok K ops m := by
  induction h with
  | create =>
    refine ⟨fun e he => ?_, List.Pairwise.nil, fun k => rfl⟩
    cases he
  | @exec ops m root h op hroot ih =>
    have hm := ih fun k val hmem => hputs k val (List.mem_append_left _ hmem)
    have hexec : Ok K (ops ++ [op]) (m.exec op) := by
      cases op with
      | put key val =>
        exact hm.put hclose (hputs key val (List.mem_append_right _ List.mem_cons_self)) val
      | remove key => exact hm.remove hclose key
      | clear =>
        refine ⟨fun e he => ?_, List.Pairwise.nil, fun k => ?_⟩
        · cases he
        · rw [lastAffecting_append]
          rfl
    refine ⟨?_, ?_, ?_⟩
    · rw [hroot]
      exact hexec.keys
    · rw [SearchTree.Sorted, hroot]
      exact hexec.sorted
    · rw [hroot]
      exact hexec.lookup

end Close

/-- The record of a last call that leaves one is that of a put. -/
theorem bind_record_eq_some {k : UInt32} {r : Record κ} :
    (lastAffecting ops k).bind MemtableOp.record = some r ↔
      ∃ val, lastAffecting ops k = some (.put k val) ∧ r = val.getD .negative := by
  rw [Option.bind_eq_some_iff]
  constructor
  · rintro ⟨op, hop, hr⟩
    cases op with
    | put k' val =>
      have haffects := List.find?_some hop
      obtain rfl : k' = k := beq_iff_eq.mp haffects
      exact ⟨val, hop, (Option.some.inj hr).symm⟩
    | remove k' => cases hr
    | clear => cases hr
  · rintro ⟨val, hop, rfl⟩
    exact ⟨_, hop, rfl⟩

theorem Ok.isMap (hclose : ∀ a ∈ K, ∀ b ∈ K, Close a b) (h : Ok K ops m) : IsMap ops m := by
  have hget : ∀ k, m.get k = (lastAffecting ops k).bind MemtableOp.record := fun k => by
    rw [get_eq h.sorted, h.lookup]
  refine ⟨fun k r => ?_, h.remove_root hclose, fun k => ?_, ?_⟩
  · rw [hget]
    exact bind_record_eq_some
  · have hlisted : k ∈ m.getAllEntry.map Prod.fst ↔ ∃ r, m.get k = some r := by
      rw [get_eq h.sorted, List.mem_map]
      constructor
      · rintro ⟨e, he, rfl⟩
        refine Option.isSome_iff_exists.mp ?_
        rw [Option.isSome_map, List.find?_isSome]
        exact ⟨e, he, decide_eq_true rfl⟩
      · rintro ⟨r, hr⟩
        obtain ⟨e, he, -⟩ := Option.map_eq_some_iff.mp hr
        have hkey := List.find?_some he
        exact ⟨e, List.mem_of_find?_eq_some he, keyNat_eq.mp (of_decide_eq_true hkey)⟩
    rw [hlisted]
    simp only [hget, bind_record_eq_some]
    constructor
    · rintro ⟨r, val, hval, -⟩
      exact ⟨val, hval⟩
    · rintro ⟨val, hval⟩
      exact ⟨_, val, hval, rfl⟩
  · exact List.pairwise_map.mpr (h.sorted.imp fun hlt => UInt32.lt_iff_toNat_lt.mpr hlt)

omit [Inhabited κ] in
/-- Two puts in a row, into a tree that is not rebalanced: one node below another one needs no
rotation. -/
theorem reached_two (a b : UInt32) (val : Option (Record κ)) :
    Reached [.put a val, .put b val] ((create.put a val).1.put b val).1 :=
  Reached.exec (Reached.exec Reached.create (.put a val) rfl) (.put b val) rfl

/-- A key far above the only other one is not found after it was put. -/
theorem get_far {a b : UInt32} (h : 2 ^ 31 ≤ b.toNat - a.toNat) (val : Option (Record κ)) :
    ((create.put a val).1.put b val).1.get b = none := by
  have hlt : a < b := UInt32.lt_iff_toNat_lt.mpr (by omega)
  have hroot : ((create.put a val).1.put b val).1.root =
      .node (.node .nil (b, .new val) .nil) (a, .new val) .nil := by
    rw [put_root, put_root]
    simp only [create, SearchTree.findAdd, branch_memtableEntryCmp_far h]
  have hnot : ¬b < a := fun hba => absurd (UInt32.lt_trans hlt hba) (UInt32.lt_irrefl a)
  simp only [get, hroot, SearchTree.find, if_neg hnot, if_pos hlt, Option.map_none]

/-- **The keys the memtable can tell apart.** The memtable is a map after all calls whose puts have
keys in a set when any two keys of the set are less than `2 ^ 31` apart, and only then. -/
theorem memtable_isMap_iff (K : Set UInt32) :
    (∀ (ops : List (MemtableOp κ)) (m : RbtreeMemtable κ), Reached ops m → PutsIn K ops →
      IsMap ops m) ↔
    ∀ a ∈ K, ∀ b ∈ K, Close a b := by
  constructor
  · intro h a ha b hb
    by_contra hfar
    -- the lower key is put first
    obtain ⟨a, b, ha, hb, hfar⟩ : ∃ a b, a ∈ K ∧ b ∈ K ∧ 2 ^ 31 ≤ b.toNat - a.toNat := by
      rcases not_and_or.mp hfar with hfar | hfar
      · exact ⟨b, a, hb, ha, Nat.le_of_not_lt hfar⟩
      · exact ⟨a, b, ha, hb, Nat.le_of_not_lt hfar⟩
    have hmap := h _ _ (reached_two a b (none : Option (Record κ))) fun k val hmem => by
      rcases List.mem_cons.mp hmem with heq | hmem
      · cases heq
        exact ha
      · cases List.mem_singleton.mp hmem
        exact hb
    have hget := (hmap.get b .negative).mpr ⟨none, by simp [lastAffecting, affects], rfl⟩
    rw [get_far hfar] at hget
    cases hget
  · intro hclose ops m hreached hputs
    exact (hreached.ok hclose hputs).isMap hclose

/-- Block `2 ^ 31` is not found after blocks `0` and `2 ^ 31` were put. -/
theorem memtable_loses_key : Reached [.put 0 none, .put 2147483648 none]
      ((create.put 0 (none : Option (Record Unit))).1.put 2147483648 none).1 ∧
    ((create.put 0 (none : Option (Record Unit))).1.put 2147483648 none).1.get 2147483648 = none ∧
    ¬IsMap [.put 0 none, .put 2147483648 none]
      ((create.put 0 (none : Option (Record Unit))).1.put 2147483648 none).1 := by
  have hget := get_far (κ := Unit) (a := 0) (b := 2147483648) (by decide) none
  refine ⟨reached_two 0 2147483648 none, hget, fun hmap => ?_⟩
  have := (hmap.get 2147483648 .negative).mpr ⟨none, by simp [lastAffecting, affects], rfl⟩
  rw [hget] at this
  cases this

/-! ## The map of `Memtable` -/

/-- The tree holds the entries of the map. -/
structure Refines (m : RbtreeMemtable κ) (a : Memtable κ) : Prop where
  entries : m.root.Represents UInt32.toNat a.root
  size : m.size = a.size

namespace Refines

variable {a : Memtable κ} {key : UInt32}

omit [Inhabited κ] in
theorem create : Refines (create : RbtreeMemtable κ) .create :=
  ⟨RbTree.toList_empty.symm, rfl⟩

theorem get (h : Refines m a) (key : UInt32) : m.get key = a.get key.toNat := by
  rw [RbtreeMemtable.get, Memtable.get, ← h.entries.find (seeks_get m key), Option.map_map]
  rfl

/-- The entries listed are those that the map writes out. -/
theorem getAllEntry (h : Refines m a) :
    (m.getAllEntry.flatMap fun e => e.2.records.map fun r => (e.1.toNat, r)) = a.getAllEntry := by
  rw [Memtable.getAllEntry, ← h.entries, List.flatMap_map]
  rfl

omit [Inhabited κ] in
/-- **Refinement.** A put whose key is close to those in the tree is a put into the map. -/
theorem put (h : Refines m a) (hclose : ∀ e ∈ m.root.inorder, Close key e.1)
    (val : Option (Record κ)) :
    Refines (m.put key val).1 (a.put key.toNat val).1 ∧
      (m.put key val).2 = (a.put key.toNat val).2 := by
  have hfind := h.entries.find (seeks_put hclose)
  have hentries : (m.put key val).1.root.Represents UInt32.toNat (a.put key.toNat val).1.root := by
    have hentry : a.root[key.toNat]?.elim (MemtableEntry.new val) (fun e => e.update val) =
        a.putEntry key.toNat val := by
      rw [Memtable.putEntry]
      cases a.root[key.toNat]? <;> rfl
    rw [RbtreeMemtable.put_root, Memtable.put_root, ← hentry]
    exact h.entries.findAdd (seeks_put hclose) (.new val) fun e => e.update val
  have hrest : (m.put key val).1.size = (a.put key.toNat val).1.size ∧
      (m.put key val).2 = (a.put key.toNat val).2 := by
    rw [RbtreeMemtable.put, Memtable.put, findPut, ← hfind]
    cases m.root.find fun e => branch (memtableEntryCmp key e.1) with
    | none => exact ⟨congrArg (· + 1) h.size, rfl⟩
    | some e =>
      cases val with
      | none => exact ⟨congrArg (· - e.2.count + 1) h.size, rfl⟩
      | some r =>
        refine ⟨?_, rfl⟩
        simp only [Option.map_some, h.size]
  exact ⟨⟨hentries, hrest.1⟩, hrest.2⟩

end Refines

end RbtreeMemtable

end JinDisk
