import Mathlib.Logic.Function.Basic
import JinDisk.Lib.LruCache

/-!
# The node cache (`cache.c`)

A node of the cache is reached in two ways: through a radix tree that knows it by its key, and
through a list in the order of use. Both hold the address of the node only. The model keeps that:
the tree maps keys to addresses, the list is one of addresses, and what is at an address is in
the memory beside them. Reading a node that has been freed, or taking the head of the empty list
for a node, is a fault. Allocations succeed.

Over it stands `LruCache`, the cache as one list of keys and values. `CacheMemory.toLru` forgets
the addresses, and each operation of the code is one of the list.
-/

namespace JinDisk

variable {α δ : Type}

/-- `struct lru_cache_node` -/
structure LruCacheNode (α δ : Type) where
  /-- `key` -/
  key : ℕ
  /-- `val` -/
  val : α
  /-- `dtr_fn`; it may be `NULL` -/
  dtrFn : Option δ

/-- What is called when the value of a node goes away: its destructor, if it has one. -/
def LruCacheNode.dtrCalls (n : LruCacheNode α δ) : List (δ × α) :=
  (n.dtrFn.map fun d => (d, n.val)).toList

/-- `struct lru_cache`, and the memory its nodes are in. -/
structure CacheMemory (α δ : Type) where
  /-- `size` -/
  size : ℕ
  /-- `capacity` -/
  capacity : ℕ
  /-- `root`: the radix tree -/
  root : ℕ → Option ℕ
  /-- `entries`: the list, from its head -/
  entries : List ℕ
  /-- the nodes by address; `none` has not been allocated or has been freed -/
  node : ℕ → Option (LruCacheNode α δ)
  /-- where `kzalloc` will find room for the next one -/
  brk : ℕ
  /-- the destructor calls made so far -/
  destroyed : List (δ × α)

namespace CacheMemory

/-- `lru_cache_create` -/
def create (capacity : ℕ) : CacheMemory α δ :=
  ⟨0, capacity, fun _ => none, [], fun _ => none, 0, []⟩

/-- `radix_tree_insert`: a slot that is taken stays as it is. -/
def radixTreeInsert (root : ℕ → Option ℕ) (key a : ℕ) : ℕ → Option ℕ :=
  if (root key).isSome then root else Function.update root key (some a)

/-- `lru_cache_node_destroy` -/
def nodeDestroy (m : CacheMemory α δ) (a : ℕ) : Option (CacheMemory α δ) :=
  (m.node a).map fun n =>
    { m with destroyed := m.destroyed ++ n.dtrCalls, node := Function.update m.node a none }

/-- The body of the loop in `lru_cache_put`: the last node of the list goes. -/
def evict (m : CacheMemory α δ) : Option (CacheMemory α δ) :=
  match m.entries.getLast? with
  | none => none
  | some a =>
    match m.node a with
    | none => none
    | some n =>
      (nodeDestroy { m with
        entries := m.entries.erase a, root := Function.update m.root n.key none } a).map
        fun m => { m with size := m.size - 1 }

theorem evict_entries {m m' : CacheMemory α δ} (h : m.evict = some m') :
    m'.entries.length < m.entries.length := by
  rw [evict] at h
  split at h
  · cases h
  · rename_i a ha
    split at h
    · cases h
    · obtain ⟨m₁, hm₁, rfl⟩ := Option.map_eq_some_iff.mp h
      obtain ⟨n, -, rfl⟩ := Option.map_eq_some_iff.mp hm₁
      have hmem := List.mem_of_getLast? ha
      simp only [List.length_erase_of_mem hmem]
      exact Nat.sub_lt (List.length_pos_of_mem hmem) Nat.one_pos

/-- The loop of `lru_cache_put`. -/
def makeRoom (m : CacheMemory α δ) : Option (CacheMemory α δ) :=
  if m.capacity ≤ m.size then
    match _h : m.evict with
    | none => none
    | some m' => m'.makeRoom
  else some m
termination_by m.entries.length
decreasing_by exact evict_entries _h

/-- The end of `lru_cache_put`: `lru_cache_node_create`, and the new node is entered in both
places. -/
def insert (m : CacheMemory α δ) (key : ℕ) (val : α) (dtrFn : Option δ) : CacheMemory α δ :=
  { m with
    node := Function.update m.node m.brk (some ⟨key, val, dtrFn⟩),
    brk := m.brk + 1,
    root := radixTreeInsert m.root key m.brk,
    entries := m.brk :: m.entries,
    size := m.size + 1 }

/-- `lru_cache_put` -/
def put (m : CacheMemory α δ) (key : ℕ) (val : α) (dtrFn : Option δ) :
    Option (CacheMemory α δ) :=
  match m.root key with
  | some a =>
    (m.node a).map fun n =>
      { m with
        destroyed := m.destroyed ++ n.dtrCalls,
        node := Function.update m.node a (some { n with val := val, dtrFn := dtrFn }),
        entries := a :: m.entries.erase a }
  | none => m.makeRoom.map fun m => m.insert key val dtrFn

/-- `lru_cache_get` -/
def get (m : CacheMemory α δ) (key : ℕ) : Option (Option α × CacheMemory α δ) :=
  match m.root key with
  | none => some (none, m)
  | some a =>
    (m.node a).map fun n => (some n.val, { m with entries := a :: m.entries.erase a })

/-- `lru_cache_delete` -/
def delete (m : CacheMemory α δ) (key : ℕ) : Option (CacheMemory α δ) :=
  match m.root key with
  | none => some m
  | some a =>
    (nodeDestroy { m with
      root := Function.update m.root key none, entries := m.entries.erase a } a).map
      fun m => { m with size := m.size - 1 }

/-! ## The two ways to a node agree -/

/-- Tree and list hold the same nodes, each under its own key, and `size` is their number. -/
structure Ok (m : CacheMemory α δ) : Prop where
  /-- no node is in the list twice -/
  nodup : m.entries.Nodup
  /-- a node of the list is in the tree, under its key -/
  listed : ∀ a ∈ m.entries, ∃ n, m.node a = some n ∧ m.root n.key = some a
  /-- a node of the tree is in the list, and the key it is found by is its own -/
  rooted : ∀ key a, m.root key = some a → a ∈ m.entries ∧ ∃ n, m.node a = some n ∧ n.key = key
  /-- what has not been allocated holds no node -/
  fresh : ∀ a, m.brk ≤ a → m.node a = none
  /-- `size` -/
  size_eq : m.size = m.entries.length
  /-- it stays within `capacity` -/
  size_le : m.size ≤ m.capacity

/-- An entry of the list as a key and what goes with it. -/
def entryAt (m : CacheMemory α δ) (a : ℕ) : Option (ℕ × α × Option δ) :=
  (m.node a).map fun n => (n.key, n.val, n.dtrFn)

/-- The cache as one list of keys and values. -/
def toLru (m : CacheMemory α δ) : LruCache (α × Option δ) :=
  ⟨m.capacity, m.entries.filterMap m.entryAt⟩

/-- What is called for the values that go away. -/
def dtrCalls (vals : List (α × Option δ)) : List (δ × α) :=
  vals.flatMap fun v => (v.2.map fun d => (d, v.1)).toList

variable {m : CacheMemory α δ}

theorem entryAt_of_node {a : ℕ} {n : LruCacheNode α δ} (h : m.node a = some n) :
    m.entryAt a = some (n.key, n.val, n.dtrFn) := by
  rw [entryAt, h]
  rfl

theorem Ok.create (capacity : ℕ) : (create capacity : CacheMemory α δ).Ok where
  nodup := List.nodup_nil
  listed a ha := absurd ha List.not_mem_nil
  rooted key a h := by cases h
  fresh a _ := rfl
  size_eq := rfl
  size_le := Nat.zero_le _

theorem Ok.brk_notMem (h : m.Ok) : m.brk ∉ m.entries := by
  intro hmem
  obtain ⟨n, hn, -⟩ := h.listed _ hmem
  exact absurd (hn.symm.trans (h.fresh _ (Nat.le_refl _))) (by simp)

/-- Two addresses of the list with one key are one. -/
theorem Ok.addr_eq (h : m.Ok) {a b : ℕ} {n : LruCacheNode α δ} (ha : m.root n.key = some a)
    (hb : b ∈ m.entries) {n' : LruCacheNode α δ} (hn' : m.node b = some n')
    (hkey : n'.key = n.key) : b = a := by
  obtain ⟨n₁, hn₁, hroot⟩ := h.listed b hb
  obtain rfl := Option.some.inj (hn'.symm.trans hn₁)
  rw [hkey, ha] at hroot
  exact (Option.some.inj hroot).symm

/-- What is in the list of keys and values, read off the tree. -/
theorem Ok.mem_toLru (h : m.Ok) {key : ℕ} {v : α × Option δ} :
    (key, v) ∈ m.toLru.entries ↔
      ∃ a n, m.root key = some a ∧ m.node a = some n ∧ v = (n.val, n.dtrFn) := by
  simp only [toLru, List.mem_filterMap, entryAt, Option.map_eq_some_iff]
  constructor
  · rintro ⟨a, ha, n, hn, heq⟩
    obtain ⟨n', hn', hroot⟩ := h.listed a ha
    obtain rfl := Option.some.inj (hn.symm.trans hn')
    obtain ⟨rfl, rfl⟩ := Prod.mk.inj heq
    exact ⟨a, n, hroot, hn, rfl⟩
  · rintro ⟨a, n, hroot, hn, rfl⟩
    obtain ⟨ha, n', hn', hkey⟩ := h.rooted key a hroot
    obtain rfl := Option.some.inj (hn.symm.trans hn')
    exact ⟨a, ha, n, hn, by rw [hkey]⟩

/-- The keys are pairwise distinct. -/
theorem Ok.nodup_keys (h : m.Ok) : m.toLru.keys.Nodup := by
  rw [LruCache.keys, toLru, List.map_filterMap, List.Nodup, List.pairwise_filterMap]
  refine List.Pairwise.imp_of_mem (fun {a b} ha hb hne k hk k' hk' => ?_) h.nodup
  simp only [entryAt, Option.map_map, Option.map_eq_some_iff] at hk hk'
  obtain ⟨n, hn, rfl⟩ := hk
  obtain ⟨n', hn', rfl⟩ := hk'
  obtain ⟨n₁, hn₁, hroot⟩ := h.listed a ha
  obtain rfl := Option.some.inj (hn.symm.trans hn₁)
  exact fun hkey => hne (h.addr_eq hroot hb hn' hkey.symm).symm

theorem Ok.lookup_eq_some (h : m.Ok) {key : ℕ} {v : α × Option δ} :
    m.toLru.lookup key = some v ↔
      ∃ a n, m.root key = some a ∧ m.node a = some n ∧ v = (n.val, n.dtrFn) :=
  (LruCache.lookup_eq_some h.nodup_keys).trans h.mem_toLru

/-- A key is in the tree if and only if the list has it. -/
theorem Ok.root_eq_none (h : m.Ok) {key : ℕ} : m.root key = none ↔ key ∉ m.toLru.keys := by
  rw [LruCache.mem_keys, ← not_iff_not, not_not, ← ne_eq, Option.ne_none_iff_exists']
  constructor
  · rintro ⟨a, ha⟩
    obtain ⟨-, n, hn, -⟩ := h.rooted key a ha
    exact ⟨_, h.lookup_eq_some.mpr ⟨a, n, ha, hn, rfl⟩⟩
  · rintro ⟨v, hv⟩
    obtain ⟨a, n, ha, -, -⟩ := h.lookup_eq_some.mp hv
    exact ⟨a, ha⟩

theorem Ok.length_toLru (h : m.Ok) : m.toLru.entries.length = m.size := by
  rw [h.size_eq]
  refine List.filterMap_length_eq_length.mpr fun a ha => ?_
  obtain ⟨n, hn, -⟩ := h.listed a ha
  rw [entryAt_of_node hn]
  rfl

/-! ## Taking a node out, and moving it to the front -/

/-- Taking an address out of a list takes out the first entry with its key, as long as no other
address has that key. -/
theorem filterMap_erase {f g : ℕ → Option (ℕ × α × Option δ)} {l : List ℕ} {a key : ℕ}
    (hd : l.Nodup) (hf : ∀ b ∈ l, ∃ e, f b = some e ∧ (e.1 = key ↔ b = a))
    (hg : ∀ b ∈ l, b ≠ a → g b = f b) :
    (l.erase a).filterMap g = (l.filterMap f).eraseP fun e => e.1 = key := by
  induction l with
  | nil => rfl
  | cons b l ih =>
    obtain ⟨hb, hd⟩ := List.nodup_cons.mp hd
    obtain ⟨e, he, hkey⟩ := hf b List.mem_cons_self
    by_cases hba : b = a
    · subst hba
      rw [List.erase_cons_head, List.filterMap_cons_some he,
        List.eraseP_cons_of_pos (by simpa using hkey.mpr rfl)]
      refine List.filterMap_congr fun c hc => hg c (List.mem_cons_of_mem b hc) ?_
      exact fun hcb => hb (hcb ▸ hc)
    · rw [List.erase_cons_tail (by simpa using hba), List.filterMap_cons_some he,
        List.filterMap_cons_some ((hg b List.mem_cons_self hba).trans he),
        List.eraseP_cons_of_neg (by simpa using mt hkey.mp hba),
        ih hd (fun c hc => hf c (List.mem_cons_of_mem b hc))
          fun c hc => hg c (List.mem_cons_of_mem b hc)]

/-- `filterMap_erase` for the entries of the cache. -/
theorem Ok.filterMap_erase (h : m.Ok) {a : ℕ} {n : LruCacheNode α δ}
    (ha : m.root n.key = some a) {g : ℕ → Option (ℕ × α × Option δ)}
    (hg : ∀ b, b ≠ a → g b = m.entryAt b) :
    (m.entries.erase a).filterMap g = m.toLru.entries.eraseP fun e => e.1 = n.key := by
  refine CacheMemory.filterMap_erase h.nodup (fun b hb => ?_) fun b _ => hg b
  obtain ⟨n', hn', hroot⟩ := h.listed b hb
  refine ⟨_, entryAt_of_node hn', fun hkey => h.addr_eq ha hb hn' hkey, fun hba => ?_⟩
  subst hba
  obtain ⟨-, n₁, hn₁, hkey⟩ := h.rooted _ _ ha
  obtain rfl := Option.some.inj (hn'.symm.trans hn₁)
  exact hkey

/-- The cache without the node `n` at address `a`. -/
def unlink (m : CacheMemory α δ) (a : ℕ) (n : LruCacheNode α δ) : CacheMemory α δ :=
  { m with
    entries := m.entries.erase a,
    root := Function.update m.root n.key none,
    destroyed := m.destroyed ++ n.dtrCalls,
    node := Function.update m.node a none,
    size := m.size - 1 }

theorem evict_eq {a : ℕ} {n : LruCacheNode α δ} (ha : m.entries.getLast? = some a)
    (hn : m.node a = some n) : m.evict = some (m.unlink a n) := by
  simp only [evict, ha, hn, nodeDestroy, Option.map_some]
  rfl

theorem delete_eq {key a : ℕ} {n : LruCacheNode α δ} (ha : m.root key = some a)
    (hn : m.node a = some n) (hkey : n.key = key) : m.delete key = some (m.unlink a n) := by
  subst hkey
  simp only [delete, ha, nodeDestroy, hn, Option.map_some]
  rfl

theorem Ok.unlink (h : m.Ok) {a : ℕ} {n : LruCacheNode α δ} (hn : m.node a = some n)
    (ha : m.root n.key = some a) : (m.unlink a n).Ok where
  nodup := h.nodup.erase a
  listed b hb := by
    have hne : b ≠ a := (h.nodup.mem_erase_iff.mp hb).1
    have hmem : b ∈ m.entries := List.mem_of_mem_erase hb
    obtain ⟨n', hn', hroot⟩ := h.listed b hmem
    refine ⟨n', (Function.update_of_ne hne _ _).trans hn', ?_⟩
    refine (Function.update_of_ne (fun hkey => hne ?_) _ _).trans hroot
    exact h.addr_eq ha hmem hn' hkey
  rooted key b hb := by
    have hkey : key ≠ n.key := by
      intro heq
      have hnone : (m.unlink a n).root n.key = none := Function.update_self _ _ _
      rw [heq, hnone] at hb
      cases hb
    have hroot : m.root key = some b := (Function.update_of_ne hkey _ _).symm.trans hb
    obtain ⟨hmem, n', hn', hkey'⟩ := h.rooted key b hroot
    have hne : b ≠ a := by
      intro heq
      subst heq
      obtain rfl := Option.some.inj (hn.symm.trans hn')
      exact hkey hkey'.symm
    exact ⟨h.nodup.mem_erase_iff.mpr ⟨hne, hmem⟩, n', (Function.update_of_ne hne _ _).trans hn',
      hkey'⟩
  fresh b hb := by
    simp only [CacheMemory.unlink, Function.update_apply]
    split
    · rfl
    · exact h.fresh b hb
  size_eq := by
    simp only [CacheMemory.unlink, List.length_erase_of_mem (h.rooted _ _ ha).1, h.size_eq]
  size_le := Nat.le_trans (Nat.sub_le _ _) h.size_le

theorem Ok.toLru_unlink (h : m.Ok) {a : ℕ} {n : LruCacheNode α δ}
    (ha : m.root n.key = some a) : (m.unlink a n).toLru = m.toLru.delete n.key := by
  simp only [LruCache.delete, toLru, CacheMemory.unlink, LruCache.mk.injEq, true_and]
  refine h.filterMap_erase ha fun b hb => ?_
  simp only [entryAt, Function.update_of_ne hb]

/-- The cache with the node at `a` at the front of the list, and `n'` in its place. -/
def promote (m : CacheMemory α δ) (a : ℕ) (n' : LruCacheNode α δ) : CacheMemory α δ :=
  { m with
    node := Function.update m.node a (some n'),
    entries := a :: m.entries.erase a }

theorem Ok.promote (h : m.Ok) {a : ℕ} {n : LruCacheNode α δ} (n' : LruCacheNode α δ)
    (hn : m.node a = some n) (ha : m.root n.key = some a) (hkey : n'.key = n.key) :
    (m.promote a n').Ok where
  nodup := List.nodup_cons.mpr ⟨h.nodup.not_mem_erase, h.nodup.erase a⟩
  listed b hb := by
    rcases List.mem_cons.mp hb with rfl | hb
    · exact ⟨n', Function.update_self _ _ _, hkey.symm ▸ ha⟩
    · obtain ⟨n₁, hn₁, hroot⟩ := h.listed b (List.mem_of_mem_erase hb)
      have hne : b ≠ a := (h.nodup.mem_erase_iff.mp hb).1
      exact ⟨n₁, (Function.update_of_ne hne _ _).trans hn₁, hroot⟩
  rooted key b hb := by
    obtain ⟨hmem, n₁, hn₁, hkey₁⟩ := h.rooted key b hb
    by_cases hba : b = a
    · subst hba
      obtain rfl := Option.some.inj (hn.symm.trans hn₁)
      exact ⟨List.mem_cons_self, n', Function.update_self _ _ _, hkey.trans hkey₁⟩
    · exact ⟨List.mem_cons_of_mem _ (h.nodup.mem_erase_iff.mpr ⟨hba, hmem⟩), n₁,
        (Function.update_of_ne hba _ _).trans hn₁, hkey₁⟩
  fresh b hb := by
    have hne : b ≠ a := by
      intro hba
      subst hba
      exact absurd (hn.symm.trans (h.fresh _ hb)) (by simp)
    exact (Function.update_of_ne hne _ _).trans (h.fresh b hb)
  size_eq := by
    have hmem := (h.rooted _ _ ha).1
    have hpos := List.length_pos_of_mem hmem
    simp only [CacheMemory.promote, List.length_cons, List.length_erase_of_mem hmem, h.size_eq]
    omega
  size_le := h.size_le

theorem Ok.toLru_promote (h : m.Ok) {a : ℕ} {n : LruCacheNode α δ} (n' : LruCacheNode α δ)
    (ha : m.root n.key = some a) :
    (m.promote a n').toLru.entries =
      (n'.key, n'.val, n'.dtrFn) :: m.toLru.entries.eraseP fun e => e.1 = n.key := by
  have hself : (m.promote a n').entryAt a = some (n'.key, n'.val, n'.dtrFn) :=
    entryAt_of_node (Function.update_self _ _ _)
  have hrest := h.filterMap_erase ha (g := (m.promote a n').entryAt) fun b hb => by
    simp only [entryAt, CacheMemory.promote, Function.update_of_ne hb]
  rw [← hrest]
  exact List.filterMap_cons_some hself

/-! ## A node more -/

theorem Ok.insert (h : m.Ok) (hroom : m.size < m.capacity) {key : ℕ} (hkey : m.root key = none)
    (val : α) (dtrFn : Option δ) : (m.insert key val dtrFn).Ok := by
  have hroot : (m.insert key val dtrFn).root = Function.update m.root key (some m.brk) := by
    simp only [CacheMemory.insert, radixTreeInsert, hkey, Option.isSome_none, Bool.false_eq_true,
      if_false]
  refine ⟨List.nodup_cons.mpr ⟨h.brk_notMem, h.nodup⟩, fun b hb => ?_, fun k b hb => ?_,
    fun b hb => ?_, congrArg Nat.succ h.size_eq, hroom⟩
  · rw [hroot]
    rcases List.mem_cons.mp hb with rfl | hb
    · exact ⟨_, Function.update_self _ _ _, Function.update_self _ _ _⟩
    · obtain ⟨n, hn, hb'⟩ := h.listed b hb
      have hne : b ≠ m.brk := fun heq => h.brk_notMem (heq ▸ hb)
      refine ⟨n, (Function.update_of_ne hne _ _).trans hn, ?_⟩
      refine (Function.update_of_ne (fun hk => ?_) _ _).trans hb'
      rw [hk, hkey] at hb'
      cases hb'
  · rw [hroot] at hb
    by_cases hk : k = key
    · subst hk
      rw [Function.update_self] at hb
      obtain rfl := Option.some.inj hb
      exact ⟨List.mem_cons_self, _, Function.update_self _ _ _, rfl⟩
    · rw [Function.update_of_ne hk] at hb
      obtain ⟨hmem, n, hn, hkn⟩ := h.rooted k b hb
      have hne : b ≠ m.brk := fun heq => h.brk_notMem (heq ▸ hmem)
      exact ⟨List.mem_cons_of_mem _ hmem, n, (Function.update_of_ne hne _ _).trans hn, hkn⟩
  · have hlt : m.brk < b := hb
    exact (Function.update_of_ne (Nat.ne_of_gt hlt) _ _).trans (h.fresh b (Nat.le_of_lt hlt))

theorem Ok.toLru_insert (h : m.Ok) (key : ℕ) (val : α) (dtrFn : Option δ) :
    (m.insert key val dtrFn).toLru.entries = (key, val, dtrFn) :: m.toLru.entries := by
  have hself : (m.insert key val dtrFn).entryAt m.brk = some (key, val, dtrFn) :=
    entryAt_of_node (n := ⟨key, val, dtrFn⟩) (Function.update_self _ _ _)
  refine (List.filterMap_cons_some hself).trans (congrArg _ ?_)
  refine List.filterMap_congr fun b hb => ?_
  have hne : b ≠ m.brk := fun heq => h.brk_notMem (heq ▸ hb)
  simp only [entryAt, CacheMemory.insert, Function.update_of_ne hne]

/-! ## Each operation is one of the list -/

theorem dtrCalls_singleton (n : LruCacheNode α δ) :
    dtrCalls [(n.val, n.dtrFn)] = n.dtrCalls := List.append_nil _

theorem Ok.get (h : m.Ok) (key : ℕ) :
    ∃ m', m.get key = some ((m.toLru.lookup key).map Prod.fst, m') ∧ m'.Ok ∧
      m'.toLru = (m.toLru.get key).2 ∧ m'.destroyed = m.destroyed := by
  cases hroot : m.root key with
  | none =>
    have hkey := h.root_eq_none.mp hroot
    have hlookup := LruCache.lookup_eq_none.mpr hkey
    refine ⟨m, ?_, h, ?_, rfl⟩
    · simp only [CacheMemory.get, hroot, hlookup, Option.map_none]
    · rw [LruCache.get, Option.map_eq_none_iff.mp hlookup]
  | some a =>
    obtain ⟨-, n, hn, rfl⟩ := h.rooted key a hroot
    have hlookup := h.lookup_eq_some.mpr ⟨a, n, hroot, hn, rfl⟩
    have hsame : m.promote a n = { m with entries := a :: m.entries.erase a } := by
      rw [CacheMemory.promote, ← hn, Function.update_eq_self]
    obtain ⟨e, he, hval⟩ := Option.map_eq_some_iff.mp hlookup
    obtain rfl : e = (n.key, n.val, n.dtrFn) :=
      Prod.ext (by simpa using List.find?_some he) hval
    refine ⟨m.promote a n, ?_, h.promote n hn hroot rfl, ?_, rfl⟩
    · simp only [CacheMemory.get, hroot, hn, hlookup, Option.map_some, hsame]
    · rw [LruCache.get, he]
      exact congrArg (LruCache.mk m.capacity) (h.toLru_promote n hroot)

theorem Ok.delete (h : m.Ok) (key : ℕ) :
    ∃ m', m.delete key = some m' ∧ m'.Ok ∧ m'.toLru = m.toLru.delete key ∧
      m'.destroyed = m.destroyed ++ dtrCalls (m.toLru.lookup key).toList := by
  cases hroot : m.root key with
  | none =>
    have hlookup := LruCache.lookup_eq_none.mpr (h.root_eq_none.mp hroot)
    refine ⟨m, ?_, h, ?_, ?_⟩
    · simp only [CacheMemory.delete, hroot]
    · rw [LruCache.delete, List.eraseP_of_forall_not
        (List.find?_eq_none.mp (Option.map_eq_none_iff.mp hlookup))]
    · rw [hlookup]
      exact (List.append_nil _).symm
  | some a =>
    obtain ⟨-, n, hn, rfl⟩ := h.rooted key a hroot
    refine ⟨_, delete_eq hroot hn rfl, h.unlink hn hroot, h.toLru_unlink hroot, ?_⟩
    rw [h.lookup_eq_some.mpr ⟨a, n, hroot, hn, rfl⟩, Option.toList_some, dtrCalls_singleton]
    rfl

theorem makeRoom_of_lt (hroom : m.size < m.capacity) : m.makeRoom = some m := by
  rw [makeRoom, if_neg (Nat.not_le.mpr hroom)]

theorem makeRoom_of_evict {m' : CacheMemory α δ} (hfull : m.capacity ≤ m.size)
    (h : m.evict = some m') : m.makeRoom = m'.makeRoom := by
  rw [makeRoom, if_pos hfull]
  split
  · rename_i hnone
    cases h.symm.trans hnone
  · rename_i m₁ hm₁
    obtain rfl := Option.some.inj (h.symm.trans hm₁)
    rfl

/-- With no room left the loop runs once, and the last node of the list goes. -/
theorem Ok.makeRoom_of_eq (h : m.Ok) (hcap : 1 ≤ m.capacity) (hfull : m.size = m.capacity) :
    ∃ l a n, m.entries = l ++ [a] ∧ m.node a = some n ∧ m.root n.key = some a ∧
      m.makeRoom = some (m.unlink a n) := by
  have hne : m.entries ≠ [] := List.ne_nil_of_length_pos (by rw [← h.size_eq]; omega)
  obtain ⟨l, a, hl⟩ := List.exists_cons_of_ne_nil (mt List.reverse_eq_nil_iff.mp hne)
  have hentries : m.entries = a.reverse ++ [l] := by
    rw [← List.reverse_reverse m.entries, hl, List.reverse_cons]
  have hlast : m.entries.getLast? = some l := by rw [hentries, List.getLast?_concat]
  obtain ⟨n, hn, hroot⟩ := h.listed l (by rw [hentries]; simp)
  refine ⟨a.reverse, l, n, hentries, hn, hroot, ?_⟩
  have hroom : (m.unlink l n).size < (m.unlink l n).capacity := by
    simp only [CacheMemory.unlink]
    omega
  rw [makeRoom_of_evict (Nat.le_of_eq hfull.symm) (evict_eq hlast hn)]
  exact makeRoom_of_lt hroom

/-- `m'` is what a put on the list makes of `m`, and one value more has gone at most. -/
structure IsPut (m m' : CacheMemory α δ) (key : ℕ) (val : α) (dtrFn : Option δ) : Prop where
  ok : m'.Ok
  toLru_eq : m'.toLru = m.toLru.put key (val, dtrFn)
  destroyed_eq : m'.destroyed = m.destroyed ++ dtrCalls (m.toLru.displaced key).toList

/-- A node with the key stays and gets another value. -/
theorem Ok.put_of_root (h : m.Ok) {key a : ℕ} (hroot : m.root key = some a) (val : α)
    (dtrFn : Option δ) : ∃ m', m.put key val dtrFn = some m' ∧ m.IsPut m' key val dtrFn := by
  obtain ⟨-, n, hn, rfl⟩ := h.rooted key a hroot
  have hlookup := h.lookup_eq_some.mpr ⟨a, n, hroot, hn, rfl⟩
  have hany := LruCache.any_iff_mem_keys.mpr (LruCache.mem_keys.mpr ⟨_, hlookup⟩)
  have hok := h.promote { n with val := val, dtrFn := dtrFn } hn hroot rfl
  have hentries := h.toLru_promote { n with val := val, dtrFn := dtrFn } hroot
  refine ⟨{ m.promote a { n with val := val, dtrFn := dtrFn } with
    destroyed := m.destroyed ++ n.dtrCalls }, ?_, ⟨?_, ?_, ?_⟩⟩
  · simp only [CacheMemory.put, hroot, hn, Option.map_some, CacheMemory.promote]
  · exact ⟨hok.nodup, hok.listed, hok.rooted, hok.fresh, hok.size_eq, hok.size_le⟩
  · rw [LruCache.put, if_pos hany]
    exact congrArg (LruCache.mk m.capacity) hentries
  · rw [LruCache.displaced, hlookup, Option.toList_some, dtrCalls_singleton]

/-- With room for it a new node is all that changes. -/
theorem Ok.put_of_room (h : m.Ok) {key : ℕ} (hroot : m.root key = none)
    (hroom : m.size < m.capacity) (val : α) (dtrFn : Option δ) :
    ∃ m', m.put key val dtrFn = some m' ∧ m.IsPut m' key val dtrFn := by
  have hkey := h.root_eq_none.mp hroot
  have hlt : m.toLru.entries.length < m.toLru.capacity := h.length_toLru.symm ▸ hroom
  refine ⟨m.insert key val dtrFn, ?_, ⟨h.insert hroom hroot val dtrFn, ?_, ?_⟩⟩
  · simp only [CacheMemory.put, hroot, makeRoom_of_lt hroom, Option.map_some]
  · rw [LruCache.put, if_neg (mt LruCache.any_iff_mem_keys.mp hkey),
      List.take_of_length_le (by omega)]
    exact congrArg (LruCache.mk m.capacity) (h.toLru_insert key val dtrFn)
  · simp only [LruCache.displaced, LruCache.lookup_eq_none.mpr hkey, hlt, if_true]
    exact (List.append_nil _).symm

/-- Without, the node used least recently makes room. -/
theorem Ok.put_of_full (h : m.Ok) {key : ℕ} (hroot : m.root key = none) (hcap : 1 ≤ m.capacity)
    (hfull : m.size = m.capacity) (val : α) (dtrFn : Option δ) :
    ∃ m', m.put key val dtrFn = some m' ∧ m.IsPut m' key val dtrFn := by
  have hkey := h.root_eq_none.mp hroot
  have hlength := h.length_toLru
  obtain ⟨l, a, n, hl, hn, ha, hmake⟩ := h.makeRoom_of_eq hcap hfull
  have hok := h.unlink hn ha
  have hroot' : (m.unlink a n).root key = none := by
    refine (Function.update_of_ne (fun hk => ?_) _ _).trans hroot
    rw [hk, ha] at hroot
    cases hroot
  have hroom : (m.unlink a n).size < (m.unlink a n).capacity := by
    simp only [CacheMemory.unlink]
    omega
  have hold : m.toLru.entries = l.filterMap m.entryAt ++ [(n.key, n.val, n.dtrFn)] := by
    simp only [toLru, hl, List.filterMap_append, List.filterMap_cons, entryAt_of_node hn,
      List.filterMap_nil]
  have hnew : (m.unlink a n).toLru.entries = l.filterMap m.entryAt := by
    have hnot : a ∉ l := by
      intro hmem
      have hd := h.nodup
      rw [hl, List.nodup_append] at hd
      exact hd.2.2 a hmem a (List.mem_singleton_self a) rfl
    have herase : m.entries.erase a = l := by
      rw [hl, List.erase_append_right _ hnot, List.erase_cons_head, List.append_nil]
    simp only [toLru, CacheMemory.unlink, herase]
    refine List.filterMap_congr fun b hb => ?_
    have hne : b ≠ a := fun hba => hnot (hba ▸ hb)
    simp only [entryAt, Function.update_of_ne hne]
  have htake : m.toLru.entries.take (m.toLru.capacity - 1) = l.filterMap m.entryAt := by
    have hcount : m.capacity = (l.filterMap m.entryAt).length + 1 := by
      rw [← hfull, ← hlength, hold, List.length_append]
      rfl
    rw [hold]
    refine List.take_left' ?_
    show _ = m.capacity - 1
    omega
  refine ⟨(m.unlink a n).insert key val dtrFn, ?_, ⟨hok.insert hroom hroot' val dtrFn, ?_, ?_⟩⟩
  · simp only [CacheMemory.put, hroot, hmake, Option.map_some]
  · rw [LruCache.put, if_neg (mt LruCache.any_iff_mem_keys.mp hkey), htake, ← hnew]
    exact congrArg (LruCache.mk m.capacity) (hok.toLru_insert key val dtrFn)
  · have hge : ¬m.toLru.entries.length < m.toLru.capacity := by
      rw [hlength]
      exact Nat.not_lt.mpr (Nat.le_of_eq hfull.symm)
    simp only [LruCache.displaced, LruCache.lookup_eq_none.mpr hkey, if_neg hge]
    rw [hold, List.getLast?_concat, Option.map_some, Option.toList_some, dtrCalls_singleton]
    rfl

theorem Ok.put (h : m.Ok) (hcap : 1 ≤ m.capacity) (key : ℕ) (val : α) (dtrFn : Option δ) :
    ∃ m', m.put key val dtrFn = some m' ∧ m.IsPut m' key val dtrFn := by
  cases hroot : m.root key with
  | some a => exact h.put_of_root hroot val dtrFn
  | none =>
    rcases Nat.lt_or_ge m.size m.capacity with hroom | hge
    · exact h.put_of_room hroot hroom val dtrFn
    · exact h.put_of_full hroot hcap (Nat.le_antisymm h.size_le hge) val dtrFn

end CacheMemory

/-! ## Histories -/

/-- A call of the cache's interface. -/
inductive CacheOp (α δ : Type) : Type where
  /-- `lru_cache_put` -/
  | put (key : ℕ) (val : α) (dtrFn : Option δ) : CacheOp α δ
  /-- `lru_cache_get` -/
  | get (key : ℕ) : CacheOp α δ
  /-- `lru_cache_delete` -/
  | delete (key : ℕ) : CacheOp α δ

/-- Putting something under a key uses it, and so does getting it. -/
def CacheOp.uses : CacheOp α δ → ℕ → Bool
  | .put key _ _, k => key = k
  | .get key, k => key = k
  | .delete _, _ => false

/-- What a call does to the list. -/
def CacheOp.onList (c : LruCache (α × Option δ)) : CacheOp α δ → LruCache (α × Option δ)
  | .put key val dtrFn => c.put key (val, dtrFn)
  | .get key => (c.get key).2
  | .delete key => c.delete key

/-- The value that it takes away from the list. -/
def CacheOp.gone (c : LruCache (α × Option δ)) : CacheOp α δ → Option (α × Option δ)
  | .put key _ _ => c.displaced key
  | .get _ => none
  | .delete key => c.lookup key

theorem CacheOp.capacity_onList (c : LruCache (α × Option δ)) (op : CacheOp α δ) :
    (op.onList c).capacity = c.capacity := by
  cases op with
  | put key val dtrFn =>
    rw [onList, LruCache.put]
    split <;> rfl
  | get key =>
    rw [onList, LruCache.get]
    split <;> rfl
  | delete key => rfl

/-- How many calls ago a key was used last. Histories have the latest call first. -/
def lastUse (h : List (CacheOp α δ)) (k : ℕ) : ℕ := h.findIdx fun op => op.uses k

/-- The values that were passed to `put`, the latest first. -/
def handed : List (CacheOp α δ) → List (α × Option δ)
  | [] => []
  | .put _ val dtrFn :: h => (val, dtrFn) :: handed h
  | .get _ :: h => handed h
  | .delete _ :: h => handed h

namespace CacheMemory

/-- One call. -/
def step (m : CacheMemory α δ) : CacheOp α δ → Option (CacheMemory α δ)
  | .put key val dtrFn => m.put key val dtrFn
  | .get key => (m.get key).map Prod.snd
  | .delete key => m.delete key

/-- The cache after a history. -/
def after (capacity : ℕ) : List (CacheOp α δ) → Option (CacheMemory α δ)
  | [] => some (create capacity)
  | op :: h => (after capacity h).bind fun m => m.step op

/-- The tree knows the key after this history. -/
def present (capacity : ℕ) (h : List (CacheOp α δ)) (k : ℕ) : Bool :=
  (after capacity h).any fun m => (m.root k).isSome

/-- A put of `key` evicts `k`: it was there before and is not afterwards. -/
def evicts (capacity : ℕ) (h : List (CacheOp α δ)) (key : ℕ) (val : α) (dtrFn : Option δ)
    (k : ℕ) : Bool :=
  present capacity h k && !present capacity (.put key val dtrFn :: h) k

/-- What was put last under a key that has neither been deleted nor evicted since. -/
def lastPut (capacity : ℕ) : List (CacheOp α δ) → ℕ → Option (α × Option δ)
  | [], _ => none
  | .put key val dtrFn :: h, k =>
    if k = key then some (val, dtrFn)
    else if evicts capacity h key val dtrFn k then none
    else lastPut capacity h k
  | .get _ :: h, k => lastPut capacity h k
  | .delete key :: h, k => if k = key then none else lastPut capacity h k

/-- The value under `k` is replaced, evicted or deleted by a call. -/
def leaves (capacity : ℕ) (h : List (CacheOp α δ)) : CacheOp α δ → ℕ → Bool
  | .put key val dtrFn, k => k = key || evicts capacity h key val dtrFn k
  | .get _, _ => false
  | .delete key, k => k = key

variable {capacity : ℕ} {h : List (CacheOp α δ)} {m m' : CacheMemory α δ} {op : CacheOp α δ}

theorem after_cons (hm : after capacity h = some m) :
    after capacity (op :: h) = m.step op := by
  rw [after, hm]
  rfl

/-- `m'` is what a call on the list makes of `m`, and what it takes away is destroyed. -/
structure IsStep (m m' : CacheMemory α δ) (op : CacheOp α δ) : Prop where
  ok : m'.Ok
  toLru_eq : m'.toLru = op.onList m.toLru
  destroyed_eq : m'.destroyed = m.destroyed ++ dtrCalls (op.gone m.toLru).toList

/-- **Every call is one on the list.** -/
theorem Ok.step (hok : m.Ok) (hcap : 1 ≤ m.capacity) (op : CacheOp α δ) :
    ∃ m', m.step op = some m' ∧ m.IsStep m' op := by
  cases op with
  | put key val dtrFn =>
    obtain ⟨m', hm', hput⟩ := hok.put hcap key val dtrFn
    exact ⟨m', hm', hput.ok, hput.toLru_eq, hput.destroyed_eq⟩
  | get key =>
    obtain ⟨m', hm', hok', hlru, hsame⟩ := hok.get key
    refine ⟨m', ?_, hok', hlru, hsame.trans (List.append_nil _).symm⟩
    rw [CacheMemory.step, hm', Option.map_some]
  | delete key =>
    obtain ⟨m', hm', hok', hlru, hgone⟩ := hok.delete key
    exact ⟨m', hm', hok', hlru, hgone⟩

theorem IsStep.capacity_eq (hstep : m.IsStep m' op) : m'.capacity = m.capacity :=
  (congrArg LruCache.capacity hstep.toLru_eq).trans (op.capacity_onList m.toLru)

/-- No history makes the code fault. -/
theorem exists_after (hcap : 1 ≤ capacity) (h : List (CacheOp α δ)) :
    ∃ m, after capacity h = some m ∧ m.Ok ∧ m.capacity = capacity := by
  induction h with
  | nil => exact ⟨_, rfl, Ok.create capacity, rfl⟩
  | cons op h ih =>
    obtain ⟨m, hm, hok, hcapacity⟩ := ih
    obtain ⟨m', hm', hstep⟩ := hok.step (hcapacity.symm ▸ hcap) op
    exact ⟨m', (after_cons hm).trans hm', hstep.ok, hstep.capacity_eq.trans hcapacity⟩

/-- The last call of a history. -/
theorem after_cases (hcap : 1 ≤ capacity) (hm' : after capacity (op :: h) = some m') :
    ∃ m, after capacity h = some m ∧ m.Ok ∧ m.capacity = capacity ∧ m.IsStep m' op := by
  obtain ⟨m, hm, hok, hcapacity⟩ := exists_after hcap h
  obtain ⟨m₁, hm₁, hstep⟩ := hok.step (hcapacity.symm ▸ hcap) op
  obtain rfl := Option.some.inj (hm'.symm.trans ((after_cons hm).trans hm₁))
  exact ⟨m, hm, hok, hcapacity, hstep⟩

theorem present_iff (hm : after capacity h = some m) (hok : m.Ok) {k : ℕ} :
    present capacity h k = true ↔ k ∈ m.toLru.keys := by
  rw [present, hm, Option.any_some, Option.isSome_iff_ne_none, ne_eq, hok.root_eq_none, not_not]

/-- **Eviction.** A put evicts something only if it brings a new key into a full cache, and then
it is the last key of the list. -/
theorem evicts_iff (hm : after capacity h = some m) (hok : m.Ok) (hcap : 1 ≤ m.capacity)
    {key : ℕ} {val : α} {dtrFn : Option δ} {k : ℕ} :
    evicts capacity h key val dtrFn k = true ↔
      key ∉ m.toLru.keys ∧ m.size = m.capacity ∧ m.toLru.keys.getLast? = some k := by
  obtain ⟨m', hm', hput⟩ := hok.put hcap key val dtrFn
  have hafter : after capacity (.put key val dtrFn :: h) = some m' := (after_cons hm).trans hm'
  have hlength : m.toLru.keys.length = m.size := by
    rw [LruCache.keys, List.length_map, hok.length_toLru]
  have hnodup := hok.nodup_keys
  rw [evicts, Bool.and_eq_true, present_iff hm hok, Bool.not_eq_true', ← Bool.not_eq_true,
    present_iff hafter hput.ok, hput.toLru_eq, LruCache.keys_put, List.mem_cons, not_or]
  by_cases hkey : key ∈ m.toLru.keys
  · rw [if_pos hkey, hnodup.mem_erase_iff]
    exact iff_of_false (fun hk => hk.2.2 ⟨hk.2.1, hk.1⟩) fun hk => hk.1 hkey
  · rw [if_neg hkey]
    rcases Nat.lt_or_ge m.size m.capacity with hroom | hge
    · have htake : m.toLru.keys.take (m.capacity - 1) = m.toLru.keys :=
        List.take_of_length_le (by omega)
      refine iff_of_false (fun hk => hk.2.2 ?_) fun hk => absurd hk.2.1 (Nat.ne_of_lt hroom)
      exact htake.symm ▸ hk.1
    · have hfull : m.size = m.capacity := Nat.le_antisymm hok.size_le hge
      have hne : m.toLru.keys ≠ [] := List.ne_nil_of_length_pos (by omega)
      have htake : m.toLru.keys.take (m.toLru.capacity - 1) = m.toLru.keys.dropLast := by
        rw [List.dropLast_eq_take, hlength, hfull]
        rfl
      have hsplit := List.dropLast_append_getLast hne
      have hd := hnodup
      rw [← hsplit, List.nodup_append] at hd
      rw [htake, List.getLast?_eq_getLast_of_ne_nil hne, Option.some.injEq]
      constructor
      · rintro ⟨hk, -, hnot⟩
        rw [← hsplit] at hk
        refine ⟨hkey, hfull, ?_⟩
        exact (List.mem_singleton.mp ((List.mem_append.mp hk).resolve_left hnot)).symm
      · rintro ⟨-, -, rfl⟩
        refine ⟨List.getLast_mem hne, fun heq => hkey (heq ▸ List.getLast_mem hne), fun hmem => ?_⟩
        exact hd.2.2 _ hmem _ (List.mem_singleton_self _) rfl

/-! ### The order of use -/

theorem lastUse_cons (op : CacheOp α δ) (h : List (CacheOp α δ)) (k : ℕ) :
    lastUse (op :: h) k = if op.uses k then 0 else lastUse h k + 1 := by
  rw [lastUse, List.findIdx_cons]
  cases op.uses k <;> rfl

/-- Keys that a call does not use keep their order. -/
theorem pairwise_of_not_uses {keys rest : List ℕ}
    (hkeys : keys.Pairwise fun a b => lastUse h a < lastUse h b) (hsub : rest.Sublist keys)
    (huses : ∀ k ∈ rest, op.uses k = false) :
    rest.Pairwise fun a b => lastUse (op :: h) a < lastUse (op :: h) b := by
  refine List.Pairwise.imp_of_mem (fun {a b} ha hb hlt => ?_) (hkeys.sublist hsub)
  rw [lastUse_cons, lastUse_cons, huses a ha, huses b hb]
  exact Nat.succ_lt_succ hlt

/-- The one it uses goes before them. -/
theorem pairwise_of_uses {keys rest : List ℕ} {key : ℕ}
    (hkeys : keys.Pairwise fun a b => lastUse h a < lastUse h b) (hsub : rest.Sublist keys)
    (hkey : key ∉ rest) (huses : ∀ k, op.uses k = decide (key = k)) :
    (key :: rest).Pairwise fun a b => lastUse (op :: h) a < lastUse (op :: h) b := by
  have hrest : ∀ k ∈ rest, op.uses k = false := by
    intro k hk
    rw [huses, decide_eq_false_iff_not]
    exact fun heq => hkey (heq ▸ hk)
  refine List.pairwise_cons.mpr ⟨fun k hk => ?_, pairwise_of_not_uses hkeys hsub hrest⟩
  rw [lastUse_cons, lastUse_cons, hrest k hk, huses, decide_eq_true rfl]
  exact Nat.succ_pos _

/-- **The list is in the order of use.** -/
theorem pairwise_lastUse (hcap : 1 ≤ capacity) (hm : after capacity h = some m) :
    m.toLru.keys.Pairwise fun a b => lastUse h a < lastUse h b := by
  induction h generalizing m with
  | nil =>
    obtain rfl := Option.some.inj hm
    exact List.Pairwise.nil
  | cons op h ih =>
    obtain ⟨m₀, hm₀, hok, -, hstep⟩ := after_cases hcap hm
    rw [hstep.toLru_eq]
    cases op with
    | put key val dtrFn =>
      obtain ⟨rest, hrest, hsub, hkey⟩ := LruCache.keys_put_cons hok.nodup_keys key (val, dtrFn)
      rw [CacheOp.onList, hrest]
      exact pairwise_of_uses (ih hm₀) hsub hkey fun k => rfl
    | get key =>
      rw [CacheOp.onList, LruCache.keys_get]
      split
      · exact pairwise_of_uses (ih hm₀) List.erase_sublist hok.nodup_keys.not_mem_erase
          fun k => rfl
      · rename_i hkey
        refine pairwise_of_not_uses (ih hm₀) (List.Sublist.refl _) fun k hk => ?_
        exact decide_eq_false fun heq => hkey (heq ▸ hk)
    | delete key =>
      rw [CacheOp.onList, LruCache.keys_delete]
      exact pairwise_of_not_uses (ih hm₀) List.erase_sublist fun k _ => rfl

/-! ### What is found -/

/-- **The value under a key** is the one that was put last, unless it has gone since. -/
theorem lookup_after (hcap : 1 ≤ capacity) (hm : after capacity h = some m) (k : ℕ) :
    m.toLru.lookup k = lastPut capacity h k := by
  induction h generalizing m with
  | nil =>
    obtain rfl := Option.some.inj hm
    rfl
  | cons op h ih =>
    obtain ⟨m₀, hm₀, hok, -, hstep⟩ := after_cases hcap hm
    cases op with
    | put key val dtrFn =>
      rw [lastPut, hstep.toLru_eq, CacheOp.onList]
      split
      · rename_i hk
        rw [hk, LruCache.lookup_put_self]
      · rename_i hk
        have hafter : present capacity (.put key val dtrFn :: h) k = true ↔
            k ∈ (m₀.toLru.put key (val, dtrFn)).keys := by
          rw [present_iff hm hstep.ok, hstep.toLru_eq, CacheOp.onList]
        rw [LruCache.lookup_put_of_ne hok.nodup_keys _ hk, evicts, ← ih hm₀]
        by_cases hmem : k ∈ (m₀.toLru.put key (val, dtrFn)).keys
        · rw [if_pos hmem, hafter.mpr hmem, Bool.not_true, Bool.and_false, if_neg (by decide)]
        · rw [if_neg hmem, Bool.eq_false_iff.mpr (mt hafter.mp hmem), Bool.not_false,
            Bool.and_true]
          split
          · rfl
          · rename_i hbefore
            rw [LruCache.lookup_eq_none.mpr (mt (present_iff hm₀ hok).mpr hbefore)]
    | get key =>
      rw [hstep.toLru_eq, CacheOp.onList, LruCache.lookup_get hok.nodup_keys, ih hm₀, lastPut]
    | delete key =>
      rw [hstep.toLru_eq, CacheOp.onList, LruCache.lookup_delete hok.nodup_keys, ih hm₀, lastPut]

/-! ### What is destroyed -/

theorem filter_eq_singleton {l : List ℕ} {a : ℕ} {p : ℕ → Bool} (hd : l.Nodup) (ha : a ∈ l)
    (hp : ∀ k ∈ l, p k = true ↔ k = a) : l.filter p = [a] := by
  have hfilter : l.filter p = l.filter (· == a) :=
    List.filter_congr fun k hk => Bool.eq_iff_iff.mpr ((hp k hk).trans (beq_iff_eq).symm)
  rw [hfilter, List.filter_beq, List.count_eq_one_of_mem hd ha]
  rfl

/-- Of the keys in the list, the one whose value a put displaces is the one whose value leaves. -/
theorem displaced_eq (hm : after capacity h = some m) (hok : m.Ok) (hcap : 1 ≤ m.capacity)
    (key : ℕ) (val : α) (dtrFn : Option δ) :
    (m.toLru.displaced key).toList =
      (m.toLru.keys.filter (leaves capacity h (.put key val dtrFn))).filterMap m.toLru.lookup := by
  have hnodup := hok.nodup_keys
  have hlast : ∀ k, evicts capacity h key val dtrFn k = true ↔
      key ∉ m.toLru.keys ∧ m.size = m.capacity ∧ m.toLru.keys.getLast? = some k :=
    fun k => evicts_iff hm hok hcap
  have hone : ∀ k, [k].filterMap m.toLru.lookup = (m.toLru.lookup k).toList := by
    intro k
    cases hk : m.toLru.lookup k with
    | none => rw [List.filterMap_cons_none hk]; rfl
    | some v => rw [List.filterMap_cons_some hk]; rfl
  by_cases hkey : key ∈ m.toLru.keys
  · have hfilter : m.toLru.keys.filter (leaves capacity h (.put key val dtrFn)) = [key] := by
      refine filter_eq_singleton hnodup hkey fun k _ => ?_
      rw [leaves, Bool.or_eq_true, hlast, decide_eq_true_eq]
      exact or_iff_left fun hev => hev.1 hkey
    rw [LruCache.displaced_of_mem hkey, hfilter, hone]
  · have hleaves : ∀ k ∈ m.toLru.keys, leaves capacity h (.put key val dtrFn) k = true ↔
        m.size = m.capacity ∧ m.toLru.keys.getLast? = some k := by
      intro k hk
      rw [leaves, Bool.or_eq_true, hlast, decide_eq_true_eq]
      exact ⟨fun hor => (hor.resolve_left fun heq => hkey (heq ▸ hk)).2,
        fun hev => Or.inr ⟨hkey, hev⟩⟩
    by_cases hroom : m.toLru.entries.length < m.toLru.capacity
    · have hne : m.size ≠ m.capacity := by
        rw [← hok.length_toLru]
        exact Nat.ne_of_lt hroom
      rw [LruCache.displaced_of_room hkey hroom, List.filter_eq_nil_iff.mpr fun k hk hl =>
        hne ((hleaves k hk).mp hl).1]
      rfl
    · have hfull : m.size = m.capacity := by
        refine Nat.le_antisymm hok.size_le ?_
        rw [← hok.length_toLru]
        exact Nat.not_lt.mp hroom
      have hlen : m.toLru.keys.length = m.size := by
        rw [LruCache.keys, List.length_map, hok.length_toLru]
      have hne : m.toLru.keys ≠ [] := List.ne_nil_of_length_pos (by omega)
      have hget := List.getLast?_eq_getLast_of_ne_nil hne
      have hfilter : m.toLru.keys.filter (leaves capacity h (.put key val dtrFn)) =
          [m.toLru.keys.getLast hne] := by
        refine filter_eq_singleton hnodup (List.getLast_mem hne) fun k hk => ?_
        rw [hleaves k hk, hget, Option.some.injEq]
        exact ⟨fun hl => hl.2.symm, fun heq => ⟨hfull, heq.symm⟩⟩
      rw [LruCache.displaced_of_full hnodup hkey hroom, hget, hfilter, hone]
      rfl

/-- What a call takes away are the values that it replaces, evicts or deletes. -/
theorem gone_eq (hm : after capacity h = some m) (hok : m.Ok) (hcap : 1 ≤ m.capacity)
    (op : CacheOp α δ) :
    (op.gone m.toLru).toList =
      (m.toLru.keys.filter (leaves capacity h op)).filterMap m.toLru.lookup := by
  cases op with
  | put key val dtrFn => exact displaced_eq hm hok hcap key val dtrFn
  | get key =>
    rw [List.filter_eq_nil_iff.mpr fun k _ => by simp [leaves]]
    rfl
  | delete key =>
    rw [CacheOp.gone]
    cases hv : m.toLru.lookup key with
    | none =>
      have hnot := LruCache.lookup_eq_none.mp hv
      rw [List.filter_eq_nil_iff.mpr fun k hk hl => hnot ?_]
      · rfl
      · exact of_decide_eq_true hl ▸ hk
    | some v =>
      have hmem := LruCache.mem_keys.mpr ⟨v, hv⟩
      have hfilter : m.toLru.keys.filter (leaves capacity h (.delete key)) = [key] :=
        filter_eq_singleton hok.nodup_keys hmem fun k _ => decide_eq_true_iff
      rw [hfilter, List.filterMap_cons_some hv]
      rfl

/-- **What a call destroys**: these values, and no others. -/
theorem destroyed_step (hcap : 1 ≤ capacity) (hm : after capacity h = some m)
    (hstep : m.step op = some m') :
    m'.destroyed = m.destroyed ++
      dtrCalls ((m.toLru.keys.filter (leaves capacity h op)).filterMap (lastPut capacity h)) := by
  obtain ⟨m₁, hm₁, hok, hcapacity, hop⟩ := after_cases hcap ((after_cons hm).trans hstep)
  obtain rfl := Option.some.inj (hm.symm.trans hm₁)
  have hlookup : lastPut capacity h = m.toLru.lookup :=
    funext fun k => (lookup_after hcap hm k).symm
  rw [hop.destroyed_eq, hlookup, gone_eq hm hok (hcapacity.symm ▸ hcap) op]

theorem dtrCalls_append (vals vals' : List (α × Option δ)) :
    dtrCalls (vals ++ vals') = dtrCalls vals ++ dtrCalls vals' := List.flatMap_append

/-- The step of `handed_perm`: what comes in or goes out does so in two places. -/
theorem handed_perm_step (incoming : List (α × Option δ)) {vals vals' gone all}
    {destroyed : List (δ × α)} (hvals : (vals' ++ gone).Perm (incoming ++ vals))
    (hall : (dtrCalls all).Perm (dtrCalls vals ++ destroyed)) :
    (dtrCalls (incoming ++ all)).Perm (dtrCalls vals' ++ (destroyed ++ dtrCalls gone)) := by
  have hflat : (dtrCalls (vals' ++ gone)).Perm (dtrCalls (incoming ++ vals)) :=
    hvals.flatMap_right _
  calc dtrCalls (incoming ++ all)
      = dtrCalls incoming ++ dtrCalls all := dtrCalls_append _ _
    List.Perm _ (dtrCalls incoming ++ (dtrCalls vals ++ destroyed)) := hall.append_left _
    List.Perm _ (dtrCalls (incoming ++ vals) ++ destroyed) := by
      rw [dtrCalls_append, List.append_assoc]
    List.Perm _ (dtrCalls (vals' ++ gone) ++ destroyed) := (hflat.append_right _).symm
    List.Perm _ (dtrCalls vals' ++ (destroyed ++ dtrCalls gone)) := by
      rw [dtrCalls_append, List.append_assoc]
      exact List.perm_append_comm.append_left _

/-- **Every value once.** What was ever put is in the cache or has been handed to its destructor,
and not both. -/
theorem handed_perm (hcap : 1 ≤ capacity) (hm : after capacity h = some m) :
    (dtrCalls (handed h)).Perm (dtrCalls m.toLru.values ++ m.destroyed) := by
  induction h generalizing m with
  | nil =>
    obtain rfl := Option.some.inj hm
    exact List.Perm.refl _
  | cons op h ih =>
    obtain ⟨m₀, hm₀, hok, hcapacity, hstep⟩ := after_cases hcap hm
    rw [hstep.toLru_eq, hstep.destroyed_eq]
    cases op with
    | put key val dtrFn =>
      have hcap₀ : 1 ≤ m₀.toLru.capacity := show 1 ≤ m₀.capacity from hcapacity.symm ▸ hcap
      have hroom : m₀.toLru.entries.length ≤ m₀.toLru.capacity := hok.length_toLru ▸ hok.size_le
      exact handed_perm_step [(val, dtrFn)] (LruCache.values_put hcap₀ hroom _) (ih hm₀)
    | get key =>
      refine handed_perm_step [] ?_ (ih hm₀)
      exact (List.append_nil _).symm ▸ LruCache.values_get m₀.toLru key
    | delete key => exact handed_perm_step [] (LruCache.values_delete m₀.toLru key) (ih hm₀)

/-! ### The cache over whole histories -/

/-- What can be said of the cache `m` after the history `h`. -/
structure Correct (capacity : ℕ) (h : List (CacheOp α δ)) (m : CacheMemory α δ) : Prop where
  /-- tree and list hold the same nodes, and `size` is their number -/
  ok : m.Ok
  /-- the capacity is the one the cache was created with -/
  capacity_eq : m.capacity = capacity
  /-- the keys are pairwise distinct -/
  nodup : m.toLru.keys.Nodup
  /-- they are in the order of their last use -/
  order : m.toLru.keys.Pairwise fun a b => lastUse h a < lastUse h b
  /-- `lru_cache_get` finds what was put last and has neither been deleted nor evicted -/
  get_eq : ∀ key, ∃ m', m.get key = some ((lastPut capacity h key).map Prod.fst, m')
  /-- a new key in a full cache evicts the key used least recently; nothing else is evicted -/
  evicts_iff : ∀ key val dtrFn k, evicts capacity h key val dtrFn k = true ↔
    m.root key = none ∧ m.size = m.capacity ∧ k ∈ m.toLru.keys ∧
      ∀ k' ∈ m.toLru.keys, k' ≠ k → lastUse h k' < lastUse h k
  /-- a call destroys the values that it replaces, evicts or deletes -/
  destroyed_step : ∀ op m', m.step op = some m' → m'.destroyed = m.destroyed ++
    dtrCalls ((m.toLru.keys.filter (leaves capacity h op)).filterMap (lastPut capacity h))
  /-- every value is in the cache or has been destroyed, once -/
  handed_perm : (dtrCalls (handed h)).Perm (dtrCalls m.toLru.values ++ m.destroyed)

/-- The last of a list that is in the order of use is the one used least recently. -/
theorem getLast?_eq_some_iff_lastUse {keys : List ℕ}
    (hkeys : keys.Pairwise fun a b => lastUse h a < lastUse h b) {k : ℕ} :
    keys.getLast? = some k ↔
      k ∈ keys ∧ ∀ k' ∈ keys, k' ≠ k → lastUse h k' < lastUse h k := by
  constructor
  · intro hlast
    refine ⟨List.mem_of_getLast? hlast, fun k' hk' hne => ?_⟩
    obtain ⟨l, rfl⟩ := List.getLast?_eq_some_iff.mp hlast
    rcases List.mem_append.mp hk' with hmem | hmem
    · exact (List.pairwise_append.mp hkeys).2.2 k' hmem k (List.mem_singleton_self k)
    · exact absurd (List.mem_singleton.mp hmem) hne
  · rintro ⟨hk, hall⟩
    have hne := List.ne_nil_of_mem hk
    rw [List.getLast?_eq_getLast_of_ne_nil hne, Option.some.injEq]
    by_contra hlast
    have hlt := hall _ (List.getLast_mem hne) hlast
    have hsplit := List.dropLast_append_getLast hne
    rw [← hsplit] at hk hkeys
    have hmem := (List.mem_append.mp hk).resolve_right
      fun h1 => hlast (List.mem_singleton.mp h1).symm
    have hgt := (List.pairwise_append.mp hkeys).2.2 k hmem _ (List.mem_singleton_self _)
    exact absurd hgt (Nat.lt_asymm hlt)

/-- **The LRU cache**, after any sequence of calls. -/
theorem lru_cache_correct (hcap : 1 ≤ capacity) (h : List (CacheOp α δ)) :
    ∃ m, after capacity h = some m ∧ Correct capacity h m := by
  obtain ⟨m, hm, hok, hcapacity⟩ := exists_after hcap h
  have horder := pairwise_lastUse hcap hm
  refine ⟨m, hm, hok, hcapacity, hok.nodup_keys, horder, fun key => ?_, fun key val dtrFn k => ?_,
    fun op m' => destroyed_step hcap hm, handed_perm hcap hm⟩
  · obtain ⟨m', hm', -⟩ := hok.get key
    exact ⟨m', by rw [hm', lookup_after hcap hm]⟩
  · rw [CacheMemory.evicts_iff hm hok (hcapacity.symm ▸ hcap), ← hok.root_eq_none,
      getLast?_eq_some_iff_lastUse horder]

/-- Two places: three keys are put, the first is got before the third comes and stays, and the
second one goes. -/
def sampleHistory : List (CacheOp ℕ ℕ) :=
  [.delete 3, .get 2, .put 3 30 (some 0), .get 1, .put 2 20 (some 0), .put 1 10 (some 0)]

theorem lru_cache_correct_sample :
    1 ≤ 2 ∧ ∃ m, after 2 sampleHistory = some m ∧ Correct 2 sampleHistory m :=
  ⟨by decide, lru_cache_correct (by decide) sampleHistory⟩

end CacheMemory

end JinDisk
