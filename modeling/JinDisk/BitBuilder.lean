import JinDisk.Memtable

/-!
# The builder of block index tables

`bit_builder_*` of `lsm_tree.c`. A block index table is written front to back: entries
fill a leaf of `BIT_LEAF_LEN` records, full leaves collect in `ctx[0]`, and whenever a
context holds `DEFAULT_BIT_DEGREE` nodes they become one inner node of the context above.
`bit_builder_complete` closes the open nodes of every height.

What matters outside the builder is which nodes it hands to `bit_node_encode`, so the two
operations return them, in the order of the calls, next to the new state.
-/

namespace JinDisk

/-- `BIT_LEAF_LEN` -/
def bitLeafLen : ℕ := 128

/-- `DEFAULT_BIT_DEGREE` -/
def defaultBitDegree : ℕ := 32

/-- `DEFAULT_LSM_FILE_CAPACITY` -/
def defaultLsmFileCapacity : ℕ := 131072

/-- `__bit_height(DEFAULT_LSM_FILE_CAPACITY, DEFAULT_BIT_DEGREE)`: 1024 leaves, two levels
of degree 32 above them. -/
def bitHeight : ℕ := 3

/-- `BIT_LEAF_NODE_SIZE`, which is `sizeof(struct bit_node)` -/
def bitLeafNodeSize : ℕ := 5665

/-- `BIT_INNER_NODE_SIZE` -/
def bitInnerNodeSize : ℕ := 441

/-- `DEFAULT_LSM_FILE_BUILDER_BUFFER_SIZE` -/
def builderBufferSize : ℕ := 4194304

/-- `struct bit_child` -/
structure BitChild where
  /-- does the child position hold a leaf? -/
  isLeaf : Bool
  /-- the last key below the child -/
  key : ℕ
  /-- where the child starts in the file -/
  pos : ℕ
  deriving DecidableEq

/-- `struct bit_leaf`. The arrays have `BIT_LEAF_LEN` places, of which the first
`nrRecord` are in use. -/
structure BitLeaf (κ : Type) where
  /-- `nr_record` -/
  nrRecord : ℕ
  /-- `keys` -/
  keys : List ℕ
  /-- `records` -/
  records : List (Record κ)
  /-- `next_pos` -/
  nextPos : ℕ
  deriving DecidableEq

/-- `struct bit_node` without its `mac` -/
inductive BitNode (κ : Type) where
  /-- a leaf -/
  | leaf (l : BitLeaf κ)
  /-- an inner node with its children -/
  | inner (children : List BitChild)
  deriving DecidableEq

variable {κ : Type}

/-- `is_leaf` -/
def BitNode.isLeaf : BitNode κ → Bool
  | leaf _ => true
  | inner _ => false

/-- The last key below a node, as `__bit_inner` reads it. -/
def BitNode.lastKey : BitNode κ → ℕ
  | leaf l => l.keys.getD (l.nrRecord - 1) 0
  | inner children => (children.getLast?.map BitChild.key).getD 0

/-- `struct bit_builder_context`: the open nodes of one height with their positions. -/
abbrev BitContext (κ : Type) : Type := List (BitNode κ × ℕ)

/-- `__bit_inner` -/
def bitInner (ctx : BitContext κ) : BitNode κ :=
  .inner (ctx.map fun e => ⟨e.1.isLeaf, e.1.lastKey, e.2⟩)

/-- `struct bit_builder` -/
structure BitBuilder (κ : Type) where
  /-- file position of the write buffer -/
  begin : ℕ
  /-- bytes in the write buffer -/
  cur : ℕ
  /-- `has_first_key` and `first_key` -/
  firstKey : Option ℕ
  /-- `last_key` -/
  lastKey : ℕ
  /-- number of entries added -/
  size : ℕ
  /-- the contexts, leaves first -/
  ctx : List (BitContext κ)
  /-- the key of all nodes of this file -/
  bitKey : κ
  /-- the leaf being filled -/
  curLeaf : BitLeaf κ

namespace BitBuilder

/-- `bit_builder_init` at file position `begin`, with the key `get_random_bytes` returned. -/
def init [Inhabited κ] (begin : ℕ) (key : κ) : BitBuilder κ where
  begin := begin
  cur := 0
  firstKey := none
  lastKey := 0
  size := 0
  ctx := List.replicate bitHeight []
  bitKey := key
  curLeaf :=
    ⟨0, List.replicate bitLeafLen 0, List.replicate bitLeafLen ⟨0, List.replicate 16 0, default⟩, 0⟩

/-- `bit_builder_buffer_flush_if_full` -/
def bufferFlushIfFull (b : BitBuilder κ) : BitBuilder κ :=
  if builderBufferSize < b.cur + bitHeight * bitLeafNodeSize then
    { b with begin := b.begin + b.cur, cur := 0 }
  else b

/-- The `while` loop of `bit_builder_add_entry` at the context `c`, with the contexts above
it: a full context becomes an inner node of the next one. Returns the contexts, the inner
nodes in the order in which they are encoded, and `cur`; `none` when the loop runs past the
last context. -/
def promote (begin : ℕ) :
    BitContext κ → List (BitContext κ) → ℕ → Option (List (BitContext κ) × List (BitNode κ) × ℕ)
  | c, [], cur => if c.length = defaultBitDegree then none else some ([c], [], cur)
  | c, d :: above, cur =>
    if c.length = defaultBitDegree then
      (promote begin (d ++ [(bitInner c, begin + cur)]) above (cur + bitInnerNodeSize)).map
        fun r => ([] :: r.1, bitInner c :: r.2.1, r.2.2)
    else some (c :: d :: above, [], cur)

/-- The `while` loop of `bit_builder_complete`: every open context below the last one is
closed into an inner node. -/
def promoteAll (begin : ℕ) :
    BitContext κ → List (BitContext κ) → ℕ → List (BitContext κ) × List (BitNode κ) × ℕ
  | c, [], cur => ([c], [], cur)
  | c, d :: above, cur =>
    if c.isEmpty then
      let r := promoteAll begin d above cur
      (c :: r.1, r.2.1, r.2.2)
    else
      let r := promoteAll begin (d ++ [(bitInner c, begin + cur)]) above (cur + bitInnerNodeSize)
      ([] :: r.1, bitInner c :: r.2.1, r.2.2)

/-- The entry is stored in the open leaf. -/
def storeEntry (b : BitBuilder κ) (key : ℕ) (val : Record κ) : BitBuilder κ :=
  { b with
    firstKey := some (b.firstKey.getD key)
    lastKey := key
    size := b.size + 1
    curLeaf :=
      { b.curLeaf with
        keys := b.curLeaf.keys.set b.curLeaf.nrRecord key
        records := b.curLeaf.records.set b.curLeaf.nrRecord val
        nrRecord := b.curLeaf.nrRecord + 1 } }

/-- Room is made for the open leaf in the write buffer. -/
def reserveLeaf (b : BitBuilder κ) : BitBuilder κ :=
  { b.bufferFlushIfFull with cur := b.bufferFlushIfFull.cur + bitLeafNodeSize }

/-- `ctx[0]` with the open leaf entered into it. -/
def leafContext (b : BitBuilder κ) : BitContext κ :=
  b.ctx.headD [] ++ [(.leaf b.curLeaf, b.begin + b.cur)]

/-- The builder once the open leaf and the inner nodes above it are encoded. -/
def leafDone (b : BitBuilder κ) (ctx : List (BitContext κ)) (cur : ℕ) : BitBuilder κ :=
  { b with ctx := ctx, cur := cur, curLeaf := { b.curLeaf with nrRecord := 0 } }

/-- `bit_builder_add_entry` with the entry stored: the open leaf is closed when it is
full. -/
def closeLeaf (b : BitBuilder κ) : Option (BitBuilder κ × List (BitNode κ)) :=
  (promote b.reserveLeaf.begin b.leafContext b.ctx.tail b.reserveLeaf.cur).map fun r =>
    (b.reserveLeaf.leafDone r.1 r.2.2,
      r.2.1 ++ [.leaf { b.curLeaf with nextPos := b.reserveLeaf.begin + r.2.2 }])

/-- `bit_builder_add_entry`: the builder afterwards and the nodes encoded. -/
def addEntry (b : BitBuilder κ) (key : ℕ) (val : Record κ) :
    Option (BitBuilder κ × List (BitNode κ)) :=
  if (b.storeEntry key val).curLeaf.nrRecord < bitLeafLen then some (b.storeEntry key val, [])
  else (b.storeEntry key val).closeLeaf

/-- `bit_builder_complete`: the builder afterwards and the nodes encoded. Nothing is left
to do when the last context already has the root. -/
def complete (b : BitBuilder κ) : BitBuilder κ × List (BitNode κ) :=
  if b.ctx.getLast?.any (fun c => !c.isEmpty) then (b, [])
  else if 0 < b.curLeaf.nrRecord then
    let r := promoteAll b.reserveLeaf.begin b.leafContext b.ctx.tail b.reserveLeaf.cur
    ({ b.reserveLeaf with ctx := r.1, cur := r.2.2 }, r.2.1 ++ [.leaf b.curLeaf])
  else
    let c := b.bufferFlushIfFull
    let r := promoteAll c.begin (b.ctx.headD []) b.ctx.tail c.cur
    ({ c with ctx := r.1, cur := r.2.2 }, r.2.1)

-- these are about any builder, so that no flush is evaluated where they are used
theorem begin_with_cur (b : BitBuilder κ) (cur : ℕ) : { b with cur := cur }.begin = b.begin := rfl

theorem kept_with_cur (b : BitBuilder κ) (cur : ℕ) :
    { b with cur := cur }.bitKey = b.bitKey ∧ { b with cur := cur }.size = b.size ∧
      { b with cur := cur }.firstKey = b.firstKey ∧ { b with cur := cur }.lastKey = b.lastKey ∧
      { b with cur := cur }.curLeaf = b.curLeaf := ⟨rfl, rfl, rfl, rfl, rfl⟩

theorem with_ctx_with_cur (b : BitBuilder κ) (cur₀ : ℕ) (ctx : List (BitContext κ)) (cur : ℕ) :
    { { b with cur := cur₀ } with ctx := ctx, cur := cur } = { b with ctx := ctx, cur := cur } :=
  rfl

theorem kept_with_ctx (b : BitBuilder κ) (ctx : List (BitContext κ)) :
    { b with ctx := ctx }.ctx = ctx ∧ { b with ctx := ctx }.bitKey = b.bitKey ∧
      { b with ctx := ctx }.size = b.size ∧ { b with ctx := ctx }.curLeaf = b.curLeaf :=
  ⟨rfl, rfl, rfl, rfl⟩

theorem leafDone_kept (b : BitBuilder κ) (ctx : List (BitContext κ)) (cur : ℕ) :
    (b.leafDone ctx cur).ctx = ctx ∧ (b.leafDone ctx cur).bitKey = b.bitKey ∧
      (b.leafDone ctx cur).size = b.size ∧ (b.leafDone ctx cur).curLeaf.nrRecord = 0 :=
  ⟨rfl, rfl, rfl, rfl⟩

@[simp] theorem reserveLeaf_begin (b : BitBuilder κ) :
    b.reserveLeaf.begin = b.bufferFlushIfFull.begin :=
  begin_with_cur b.bufferFlushIfFull _

@[simp] theorem reserveLeaf_cur (b : BitBuilder κ) :
    b.reserveLeaf.cur = b.bufferFlushIfFull.cur + bitLeafNodeSize := by
  rw [reserveLeaf]

/-- The write buffer is written out, or nothing happens. -/
theorem bufferFlushIfFull_cases (b : BitBuilder κ) :
    b.bufferFlushIfFull = { b with begin := b.begin + b.cur, cur := 0 } ∨
      b.bufferFlushIfFull = b :=
  ite_eq_or_eq _ _ _

/-- A flush does not change where the builder is in the file. -/
theorem bufferFlushIfFull_pos (b : BitBuilder κ) :
    b.bufferFlushIfFull.begin + b.bufferFlushIfFull.cur = b.begin + b.cur := by
  rcases b.bufferFlushIfFull_cases with heq | heq
  · rw [heq, Nat.add_zero]
  · rw [heq]

/-- Making room changes nothing else. -/
theorem reserveLeaf_kept (b : BitBuilder κ) :
    b.reserveLeaf.bitKey = b.bitKey ∧ b.reserveLeaf.size = b.size ∧
      b.reserveLeaf.firstKey = b.firstKey ∧ b.reserveLeaf.lastKey = b.lastKey ∧
      b.reserveLeaf.curLeaf = b.curLeaf := by
  have hkept := kept_with_cur b.bufferFlushIfFull (b.bufferFlushIfFull.cur + bitLeafNodeSize)
  rw [← reserveLeaf] at hkept
  rcases b.bufferFlushIfFull_cases with heq | heq
  · rw [heq] at hkept
    exact hkept
  · rw [heq] at hkept
    exact hkept

/-! ## A builder that has not filled its second leaf -/

/-- The builder has taken fewer than two leaves' worth of entries: it has encoded at most
one node, the first leaf. -/
inductive Small (b : BitBuilder κ) : Prop where
  /-- the first leaf is open -/
  | first (hctx : b.ctx = [[], [], []]) (hsize : b.size < bitLeafLen)
      (hleaf : b.curLeaf.nrRecord = b.size)
  /-- the first leaf is encoded, the second one is open -/
  | second (x : BitNode κ × ℕ) (hctx : b.ctx = [[x], [], []]) (hle : bitLeafLen ≤ b.size)
      (hleaf : bitLeafLen + b.curLeaf.nrRecord = b.size)

theorem small_init [Inhabited κ] (begin : ℕ) (key : κ) : (init begin key).Small :=
  .first rfl (Nat.zero_lt_succ _) rfl

@[simp] theorem bufferFlushIfFull_bitKey (b : BitBuilder κ) :
    b.bufferFlushIfFull.bitKey = b.bitKey := by
  rcases b.bufferFlushIfFull_cases with heq | heq <;> rw [heq]

@[simp] theorem bufferFlushIfFull_size (b : BitBuilder κ) :
    b.bufferFlushIfFull.size = b.size := by
  rcases b.bufferFlushIfFull_cases with heq | heq <;> rw [heq]

@[simp] theorem bufferFlushIfFull_curLeaf (b : BitBuilder κ) :
    b.bufferFlushIfFull.curLeaf = b.curLeaf := by
  rcases b.bufferFlushIfFull_cases with heq | heq <;> rw [heq]

theorem bufferFlushIfFull_keys (b : BitBuilder κ) :
    b.bufferFlushIfFull.firstKey = b.firstKey ∧ b.bufferFlushIfFull.lastKey = b.lastKey := by
  rcases b.bufferFlushIfFull_cases with heq | heq
  · rw [heq]
    exact ⟨rfl, rfl⟩
  · rw [heq]
    exact ⟨rfl, rfl⟩

/-- A context of one node is not full: nothing is promoted. -/
theorem promote_single (begin cur : ℕ) (x : BitNode κ × ℕ) (d : BitContext κ)
    (above : List (BitContext κ)) :
    promote begin [x] (d :: above) cur = some ([x] :: d :: above, [], cur) := by
  simp [promote, defaultBitDegree]

/-- Adding an entry keeps the key; below two leaves it encodes at most the first leaf. -/
theorem Small.addEntry {b b' : BitBuilder κ} {key : ℕ} {val : Record κ}
    {nodes : List (BitNode κ)} (h : b.Small) (hsize : b.size + 1 < 2 * bitLeafLen)
    (hadd : b.addEntry key val = some (b', nodes)) :
    b'.Small ∧ b'.bitKey = b.bitKey ∧ b'.size = b.size + 1 ∧
      (nodes = [] ∨ b.size < bitLeafLen ∧ bitLeafLen ≤ b'.size ∧ nodes.length = 1) := by
  rw [BitBuilder.addEntry] at hadd
  cases h with
  | first hctx hlt hleaf =>
    have hnr : (b.storeEntry key val).curLeaf.nrRecord = b.size + 1 := by
      simp [storeEntry, hleaf]
    by_cases hroom : b.size + 1 < bitLeafLen
    · rw [if_pos (hnr ▸ hroom)] at hadd
      obtain ⟨rfl, rfl⟩ := Prod.mk.inj (Option.some.inj hadd)
      exact ⟨.first hctx hroom hnr, rfl, rfl, Or.inl rfl⟩
    · -- the first leaf is full and is the only node to encode
      rw [if_neg (hnr ▸ hroom), closeLeaf] at hadd
      have hctx' : (b.storeEntry key val).ctx = [[], [], []] := hctx
      simp only [leafContext, hctx', List.headD_cons, List.nil_append, List.tail_cons,
        promote_single, Option.map_some] at hadd
      obtain ⟨rfl, rfl⟩ := Prod.mk.inj (Option.some.inj hadd)
      obtain ⟨hkey, hsize', -⟩ := (b.storeEntry key val).reserveLeaf_kept
      have hstored : (b.storeEntry key val).size = b.size + 1 := rfl
      have hdone := leafDone_kept (b.storeEntry key val).reserveLeaf
      refine ⟨.second _ (hdone _ _).1 ?_ ?_, ?_, ?_, Or.inr ⟨hlt, ?_, rfl⟩⟩
      · rw [(hdone _ _).2.2.1]
        omega
      · rw [(hdone _ _).2.2.1, (hdone _ _).2.2.2]
        omega
      · exact (hdone _ _).2.1.trans hkey
      · exact (hdone _ _).2.2.1.trans hsize'
      · rw [(hdone _ _).2.2.1]
        omega
  | second x hctx hle hleaf =>
    have hnr : (b.storeEntry key val).curLeaf.nrRecord = b.curLeaf.nrRecord + 1 := rfl
    rw [if_pos (by omega)] at hadd
    obtain ⟨rfl, rfl⟩ := Prod.mk.inj (Option.some.inj hadd)
    have hsize' : (b.storeEntry key val).size = b.size + 1 := rfl
    exact ⟨.second x hctx (by omega) (by omega), rfl, rfl, Or.inl rfl⟩

/-- Nothing is promoted out of empty contexts. -/
theorem promoteAll_nil (c : BitBuilder κ) :
    (let r := promoteAll c.begin ([] : BitContext κ) [[], []] c.cur
     ({ c with ctx := r.1, cur := r.2.2 }, r.2.1)) = ({ c with ctx := [[], [], []] }, []) := rfl

theorem complete_of_empty {b : BitBuilder κ} (hctx : b.ctx = [[], [], []])
    (hzero : b.curLeaf.nrRecord = 0) :
    b.complete = ({ b.bufferFlushIfFull with ctx := [[], [], []] }, []) := by
  rw [complete, if_neg (by simp [hctx]), if_neg (by rw [hzero]; exact Nat.lt_irrefl 0), hctx]
  exact promoteAll_nil b.bufferFlushIfFull

/-- Completing an empty builder encodes nothing. -/
theorem Small.complete_empty {b : BitBuilder κ} (h : b.Small) (hsize : b.size = 0) :
    b.complete.1.Small ∧ b.complete.1.bitKey = b.bitKey ∧ b.complete.1.size = 0 ∧
      b.complete.2 = [] := by
  cases h with
  | first hctx hlt hleaf =>
    have hzero : b.curLeaf.nrRecord = 0 := by omega
    have hflush := b.bufferFlushIfFull_size.trans hsize
    have hleaf' := congrArg BitLeaf.nrRecord b.bufferFlushIfFull_curLeaf
    obtain ⟨hctx', hkey, hsize', hcurLeaf⟩ := kept_with_ctx b.bufferFlushIfFull [[], [], []]
    rw [complete_of_empty hctx hzero]
    refine ⟨.first hctx' ?_ ?_, hkey.trans b.bufferFlushIfFull_bitKey, hsize'.trans hflush, rfl⟩
    · rw [hsize', hflush]
      decide
    · rw [hcurLeaf, hsize', hflush]
      exact hleaf'.trans hzero
  | second x hctx hle hleaf =>
    exact absurd hle (by rw [hsize]; decide)

end BitBuilder

end JinDisk
