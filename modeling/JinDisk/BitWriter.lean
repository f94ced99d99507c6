import JinDisk.Lib.ByteMap
import JinDisk.BitNode
import JinDisk.RangeSearch

/-!
# Writing a block index table

The builder of block index tables with its memory: the write buffer of
`DEFAULT_LSM_FILE_BUILDER_BUFFER_SIZE` bytes and the file behind it. `bit_builder_add_entry`
and `bit_builder_complete` copy the encoded nodes into the buffer, and
`bit_builder_buffer_flush_if_full` empties it in between, at any leaf.

A table on disk is a list of groups. A group has up to `DEFAULT_BIT_DEGREE` leaves and the inner
node above them, and the root lies above the groups. `Built` says what is on disk and in the
buffer after some entries, `Finished` what is there in the end.
-/

namespace JinDisk

/-! ## Sizes -/

/-- The number of leaves for so many records. -/
def nrLeaf (nrRecord : ℕ) : ℕ :=
  nrRecord / bitLeafLen + if nrRecord % bitLeafLen = 0 then 0 else 1

/-- The loop of `__bit_array_len`. With two children or more in a node it ends before `fuel` does,
if that is the number of leaves. -/
def bitArrayLenLoop (leaves nrDegree : ℕ) : ℕ → ℕ → ℕ → ℕ
  | 0, len, _ => len
  | fuel + 1, len, size =>
    if size < leaves then bitArrayLenLoop leaves nrDegree fuel (len + size) (size * nrDegree)
    else len

/-- `__bit_array_len`: the number of nodes -/
def bitArrayLen (nrRecord nrDegree : ℕ) : ℕ :=
  if nrRecord = 0 then 0
  else bitArrayLenLoop (nrLeaf nrRecord) nrDegree (nrLeaf nrRecord) 0 1 + nrLeaf nrRecord

/-- `calculate_bit_size` -/
def calculateBitSize (nrRecord nrDegree : ℕ) : ℕ :=
  if nrRecord = 0 then 0
  else (bitArrayLen nrRecord nrDegree - nrLeaf nrRecord) * bitInnerNodeSize +
    nrLeaf nrRecord * bitLeafNodeSize

/-- A full table: 1024 leaves, 32 inner nodes and the root. -/
theorem calculateBitSize_default : calculateBitSize defaultLsmFileCapacity defaultBitDegree =
    1024 * bitLeafNodeSize + 33 * bitInnerNodeSize := by decide +kernel

/-! ## The builder and its memory -/

/-- `struct bit_builder` with the contents of its buffer and of the file. -/
structure BitWriter where
  /-- all but the memory -/
  builder : BitBuilder GcmKey
  /-- the write buffer -/
  buffer : ℕ → UInt8
  /-- the file -/
  file : ℕ → UInt8
  /-- position and length of every `kernel_write` -/
  writes : List (ℕ × ℕ)

namespace BitWriter

/-- `bit_builder_create`; the buffer comes from `vmalloc` -/
def create (file buffer : ℕ → UInt8) (begin : ℕ) (key : GcmKey) : BitWriter :=
  ⟨.init begin key, buffer, file, []⟩

/-- `kernel_write` of what is in the buffer -/
def kernelWrite (w : BitWriter) : BitWriter :=
  { w with
    file := ByteMap.copyIn w.file w.builder.begin (ByteMap.readOut w.buffer 0 w.builder.cur)
    writes := w.writes ++ [(w.builder.begin, w.builder.cur)] }

/-- `bit_builder_buffer_flush_if_full` -/
def bufferFlushIfFull (w : BitWriter) : BitWriter :=
  if builderBufferSize < w.builder.cur + bitHeight * bitLeafNodeSize then
    { w.kernelWrite with builder := w.builder.bufferFlushIfFull }
  else w

/-- Where the nodes are copied to: the inner nodes one behind the other from `cur` on, and the
leaf to the place that was left free for it. -/
def nodeOffsets (leafCur : ℕ) : ℕ → List (BitNode GcmKey) → List (ℕ × BitNode GcmKey)
  | _, [] => []
  | cur, .inner children :: nodes =>
    (cur, .inner children) :: nodeOffsets leafCur (cur + bitInnerNodeSize) nodes
  | cur, .leaf l :: nodes => (leafCur, .leaf l) :: nodeOffsets leafCur cur nodes

/-- The nodes are encoded and copied into the buffer; `none` if they go beyond its end. -/
def copyNodes (c : AeadCipher) (w : BitWriter) (nodes : List (ℕ × BitNode GcmKey)) :
    Option BitWriter :=
  let data := nodes.map fun x => (x.1, bitNodeEncode c w.builder.bitKey x.2)
  if ∀ x ∈ data, x.1 + x.2.length ≤ builderBufferSize then
    some { w with buffer := ByteMap.copyAll w.buffer data }
  else none

/-- `bit_builder_add_entry` -/
def addEntry (c : AeadCipher) (w : BitWriter) (e : ℕ × Record GcmKey) : Option BitWriter :=
  let stored := { w with builder := w.builder.storeEntry e.1 e.2 }
  if stored.builder.curLeaf.nrRecord < bitLeafLen then some stored
  else
    stored.builder.closeLeaf.bind fun r =>
      let cur := stored.bufferFlushIfFull.builder.cur
      { stored.bufferFlushIfFull with builder := r.1 }.copyNodes c
        (nodeOffsets cur (cur + bitLeafNodeSize) r.2)

/-- `bit_builder_complete` up to `bit_file_create` -/
def complete (c : AeadCipher) (w : BitWriter) : Option BitWriter :=
  if w.builder.ctx.getLast?.any (fun ctx => !ctx.isEmpty) then some w.kernelWrite
  else
    let cur := w.bufferFlushIfFull.builder.cur
    ({ w.bufferFlushIfFull with builder := w.builder.complete.1 }.copyNodes c
      (nodeOffsets cur (if 0 < w.builder.curLeaf.nrRecord then cur + bitLeafNodeSize else cur)
        w.builder.complete.2)).map kernelWrite

/-! ## What is in the buffer and in the file -/

variable {c : AeadCipher} {w w' : BitWriter} {pos : ℕ} {node : BitNode GcmKey}

/-- The file as it will be when the buffer is written. -/
def view (w : BitWriter) : ℕ → UInt8 := ByteMap.view w.file w.buffer w.builder.begin

/-- A node lies at a position. -/
def NodeAt (c : AeadCipher) (w : BitWriter) (pos : ℕ) (node : BitNode GcmKey) : Prop :=
  ByteMap.readOut w.view pos node.nodeSize = bitNodeEncode c w.builder.bitKey node ∧
    pos + node.nodeSize ≤ w.builder.begin + w.builder.cur

/-- What was there is still there. -/
structure Extends (w w' : BitWriter) : Prop where
  /-- the key is the same -/
  bitKey : w'.builder.bitKey = w.builder.bitKey
  /-- nothing is taken back -/
  cur : w.builder.begin + w.builder.cur ≤ w'.builder.begin + w'.builder.cur
  /-- nothing is overwritten -/
  view : ∀ p < w.builder.begin + w.builder.cur, w'.view p = w.view p

theorem Extends.trans {w'' : BitWriter} (h : w.Extends w') (h' : w'.Extends w'') : w.Extends w'' :=
  ⟨h'.bitKey.trans h.bitKey, h.cur.trans h'.cur, fun p hp =>
    (h'.view p (hp.trans_le h.cur)).trans (h.view p hp)⟩

theorem NodeAt.extends (h : w.NodeAt c pos node) (he : w.Extends w') : w'.NodeAt c pos node := by
  refine ⟨?_, h.2.trans he.cur⟩
  rw [he.bitKey, ← h.1]
  exact ByteMap.readOut_congr fun p _ hp => he.view p (hp.trans_le h.2)

/-- A node that lies in front of the end is in the file after the last `kernel_write`. -/
theorem NodeAt.readOut_kernelWrite (h : w.NodeAt c pos node) :
    ByteMap.readOut w.kernelWrite.file pos node.nodeSize =
      bitNodeEncode c w.builder.bitKey node := by
  rw [← h.1]
  refine ByteMap.readOut_congr fun p _ hp => ?_
  have hflush := ByteMap.view_flush w.file w.buffer (hp.trans_le h.2)
  rwa [ByteMap.view, if_pos (hp.trans_le h.2)] at hflush

/-- **The buffer is flushed**, if it has to be. Afterwards there is room for a leaf and the nodes
above it. -/
theorem bufferFlushIfFull_spec (w : BitWriter) :
    w.bufferFlushIfFull.builder = w.builder.bufferFlushIfFull ∧
      w.Extends w.bufferFlushIfFull ∧
      w.bufferFlushIfFull.builder.begin + w.bufferFlushIfFull.builder.cur =
        w.builder.begin + w.builder.cur ∧
      w.bufferFlushIfFull.builder.cur + bitHeight * bitLeafNodeSize ≤ builderBufferSize ∧
      w.builder.begin ≤ w.bufferFlushIfFull.builder.begin ∧
      ∀ x ∈ w.bufferFlushIfFull.writes, x ∈ w.writes ∨
        x.1 = w.builder.begin ∧ x.1 + x.2 = w.bufferFlushIfFull.builder.begin := by
  by_cases hfull : builderBufferSize < w.builder.cur + bitHeight * bitLeafNodeSize
  · have hb : w.builder.bufferFlushIfFull =
        { w.builder with begin := w.builder.begin + w.builder.cur, cur := 0 } := if_pos hfull
    have hw : w.bufferFlushIfFull = { w.kernelWrite with
        builder := { w.builder with begin := w.builder.begin + w.builder.cur, cur := 0 } } := by
      rw [bufferFlushIfFull, if_pos hfull, hb]
    have hroom : 0 + bitHeight * bitLeafNodeSize ≤ builderBufferSize := by decide
    rw [hw, hb]
    refine ⟨rfl, ⟨rfl, le_rfl, fun p hp => ByteMap.view_flush _ _ hp⟩, rfl, hroom,
      Nat.le_add_right _ _, fun x hx => ?_⟩
    rcases List.mem_append.mp hx with hx | hx
    · exact Or.inl hx
    · rw [List.mem_singleton.mp hx]
      exact Or.inr ⟨rfl, rfl⟩
  · have hb : w.builder.bufferFlushIfFull = w.builder := if_neg hfull
    have hw : w.bufferFlushIfFull = w := if_neg hfull
    rw [hw, hb]
    exact ⟨rfl, ⟨rfl, le_rfl, fun _ _ => rfl⟩, rfl, Nat.le_of_not_lt hfull, le_rfl,
      fun x hx => Or.inl hx⟩

/-- The nodes of one call: inner nodes from the bottom up, and the leaf. -/
def callNodes (inners : List (List BitChild)) (leaf : Option (BitLeaf GcmKey)) :
    List (BitNode GcmKey) :=
  inners.map BitNode.inner ++ (leaf.map BitNode.leaf).toList

/-- Where they go. -/
theorem nodeOffsets_callNodes (leafCur cur : ℕ) (inners : List (List BitChild))
    (leaf : Option (BitLeaf GcmKey)) :
    nodeOffsets leafCur cur (callNodes inners leaf) =
      (inners.mapIdx fun i children => (cur + i * bitInnerNodeSize, BitNode.inner children)) ++
        (leaf.map fun l => (leafCur, BitNode.leaf l)).toList := by
  induction inners generalizing cur with
  | nil => cases leaf <;> rfl
  | cons children inners ih =>
    have hnext : ∀ i, cur + bitInnerNodeSize + i * bitInnerNodeSize =
        cur + (i + 1) * bitInnerNodeSize := by
      intro i
      rw [Nat.succ_mul]
      omega
    have htail := ih (cur + bitInnerNodeSize)
    simp only [hnext] at htail
    rw [List.mapIdx_cons, Nat.zero_mul, Nat.add_zero, List.cons_append, ← htail]
    rfl

/-- They are these nodes. -/
theorem mem_nodeOffsets {leafCur cur : ℕ} {inners : List (List BitChild)}
    {leaf : Option (BitLeaf GcmKey)} {x : ℕ × BitNode GcmKey} :
    x ∈ nodeOffsets leafCur cur (callNodes inners leaf) ↔
      (∃ i children, inners[i]? = some children ∧
        x = (cur + i * bitInnerNodeSize, .inner children)) ∨
      ∃ l ∈ leaf, x = (leafCur, .leaf l) := by
  rw [nodeOffsets_callNodes, List.mem_append]
  refine or_congr ?_ ?_
  · rw [List.mem_mapIdx]
    constructor
    · rintro ⟨i, hi, rfl⟩
      exact ⟨i, inners[i], List.getElem?_eq_getElem hi, rfl⟩
    · rintro ⟨i, children, hi, rfl⟩
      obtain ⟨hlt, rfl⟩ := List.getElem?_eq_some_iff.mp hi
      exact ⟨i, hlt, rfl⟩
  · cases leaf <;> simp

/-- They do not overlap. -/
theorem nodeOffsets_apart {leafCur cur : ℕ} (inners : List (List BitChild))
    {leaf : Option (BitLeaf GcmKey)} (hleaf : ∀ l ∈ leaf, leafCur + bitLeafNodeSize ≤ cur) :
    (nodeOffsets leafCur cur (callNodes inners leaf)).Pairwise fun x y =>
      x.1 + x.2.nodeSize ≤ y.1 ∨ y.1 + y.2.nodeSize ≤ x.1 := by
  rw [nodeOffsets_callNodes, List.pairwise_append]
  refine ⟨?_, ?_, fun x hx y hy => Or.inr ?_⟩
  · refine List.pairwise_iff_getElem.mpr fun i j hi hj hlt => Or.inl ?_
    rw [List.getElem_mapIdx, List.getElem_mapIdx]
    show cur + i * bitInnerNodeSize + bitInnerNodeSize ≤ cur + j * bitInnerNodeSize
    have hmul := Nat.mul_le_mul_right bitInnerNodeSize (Nat.succ_le_of_lt hlt)
    rw [Nat.succ_mul] at hmul
    omega
  · cases leaf <;> simp
  · rw [List.mem_mapIdx] at hx
    obtain ⟨i, hi, rfl⟩ := hx
    cases leaf with
    | none => cases hy
    | some l =>
      obtain rfl := List.mem_singleton.mp hy
      exact (hleaf l rfl).trans (Nat.le_add_right _ _)

/-- **The nodes of one call are copied** into the buffer behind `cur`, which is then moved behind
them. -/
theorem copyNodes_spec (hc : c.Lawful) {flushed : BitWriter} {b : BitBuilder GcmKey}
    {inners : List (List BitChild)} (leaf : Option (BitLeaf GcmKey)) (cur : ℕ)
    (hroom : flushed.builder.cur + bitHeight * bitLeafNodeSize ≤ builderBufferSize)
    (hcur : cur = flushed.builder.cur + if leaf.isSome then bitLeafNodeSize else 0)
    (hlen : inners.length ≤ 2) (hinner : ∀ children ∈ inners, (BitNode.inner children).Fits)
    (hleaf : ∀ l ∈ leaf, l.Fits) (hbegin : b.begin = flushed.builder.begin)
    (hkey : b.bitKey = flushed.builder.bitKey)
    (hend : b.cur = cur + inners.length * bitInnerNodeSize) :
    ∃ w', { flushed with builder := b }.copyNodes c
        (nodeOffsets flushed.builder.cur cur (callNodes inners leaf)) = some w' ∧
      w'.builder = b ∧ w'.writes = flushed.writes ∧ flushed.Extends w' ∧
      (∀ l ∈ leaf, w'.NodeAt c (flushed.builder.begin + flushed.builder.cur) (.leaf l)) ∧
      ∀ i children, inners[i]? = some children →
        w'.NodeAt c (flushed.builder.begin + (cur + i * bitInnerNodeSize)) (.inner children) := by
  have hleafCur : ∀ l ∈ leaf, flushed.builder.cur + bitLeafNodeSize ≤ cur := by
    intro l hl
    rw [hcur, Option.mem_def.mp hl]
    exact le_rfl
  have hcurLe : flushed.builder.cur ≤ cur := by
    rw [hcur]
    exact Nat.le_add_right _ _
  have hmem : ∀ x ∈ nodeOffsets flushed.builder.cur cur (callNodes inners leaf),
      x.2.Fits ∧ flushed.builder.cur ≤ x.1 ∧ x.1 + x.2.nodeSize ≤ b.cur := by
    intro x hx
    rcases mem_nodeOffsets.mp hx with ⟨i, children, hi, rfl⟩ | ⟨l, hl, rfl⟩
    · refine ⟨hinner children (List.mem_of_getElem? hi), hcurLe.trans (Nat.le_add_right _ _), ?_⟩
      obtain ⟨hlt, -⟩ := List.getElem?_eq_some_iff.mp hi
      have hmul := Nat.mul_le_mul_right bitInnerNodeSize (Nat.succ_le_of_lt hlt)
      rw [Nat.succ_mul] at hmul
      show cur + i * bitInnerNodeSize + bitInnerNodeSize ≤ b.cur
      omega
    · refine ⟨hleaf l hl, le_rfl, ?_⟩
      have hfree := hleafCur l hl
      show flushed.builder.cur + bitLeafNodeSize ≤ b.cur
      omega
  have hbuf : b.cur ≤ builderBufferSize := by
    have hmul := Nat.mul_le_mul_right bitInnerNodeSize hlen
    have hleafSize : cur ≤ flushed.builder.cur + bitLeafNodeSize := by
      rw [hcur]
      split <;> omega
    have hsizes : bitLeafNodeSize + 2 * bitInnerNodeSize ≤ bitHeight * bitLeafNodeSize := by decide
    omega
  obtain ⟨nodes, hnodes⟩ : ∃ nodes, nodes =
    nodeOffsets flushed.builder.cur cur (callNodes inners leaf) := ⟨_, rfl⟩
  have hapart := nodeOffsets_apart inners hleafCur
  rw [← hnodes] at hmem hapart ⊢
  obtain ⟨data, hdata⟩ : ∃ data, data =
    nodes.map fun x => (x.1, bitNodeEncode c b.bitKey x.2) := ⟨_, rfl⟩
  have hsize : ∀ x ∈ nodes, (bitNodeEncode c b.bitKey x.2).length = x.2.nodeSize := fun x hx =>
    length_bitNodeEncode hc (hmem x hx).1 b.bitKey
  have hfits : ∀ x ∈ data, x.1 + x.2.length ≤ builderBufferSize := by
    intro x hx
    rw [hdata] at hx
    obtain ⟨y, hy, rfl⟩ := List.mem_map.mp hx
    rw [hsize y hy]
    exact (hmem y hy).2.2.trans hbuf
  have hpieces : data.Pairwise ByteMap.Apart := by
    rw [hdata, List.pairwise_map]
    refine hapart.imp_of_mem fun hx hy h => ?_
    simp only [ByteMap.Apart, hsize _ hx, hsize _ hy]
    exact h
  obtain ⟨w', hw'⟩ : ∃ w' : BitWriter, w' = { flushed with
    builder := b, buffer := ByteMap.copyAll flushed.buffer data } := ⟨_, rfl⟩
  have hb : w'.builder = b := by rw [hw']
  have hview : w'.view = ByteMap.view flushed.file (ByteMap.copyAll flushed.buffer data) b.begin := by
    rw [hw']
    rfl
  -- a node is seen where it was copied to
  have hat : ∀ off node, (off, node) ∈ nodes → w'.NodeAt c (flushed.builder.begin + off) node := by
    intro off node hx
    have hpiece : (off, bitNodeEncode c b.bitKey node) ∈ data := by
      rw [hdata]
      exact List.mem_map_of_mem hx
    have hread := ByteMap.readOut_copyAll (f := flushed.buffer) hpieces hpiece
    have hle := Nat.add_le_add_left (hmem _ hx).2.2 b.begin
    rw [← Nat.add_assoc] at hle
    rw [← hbegin, NodeAt, hb, hview, ByteMap.readOut_view, ← hsize _ hx]
    exact ⟨hread, hsize _ hx ▸ hle⟩
  refine ⟨w', ?_, hb, by rw [hw'], ⟨by rw [hb, hkey], ?_, fun p hp => ?_⟩, fun l hl => ?_,
    fun i children hi => ?_⟩
  · simp only [copyNodes, ← hdata, hw']
    exact if_pos hfits
  · rw [hb]
    omega
  · -- the pieces lie behind what was there
    rw [hview, hbegin, view, ByteMap.view, ByteMap.view]
    split
    · rfl
    · refine ByteMap.copyAll_of_outside fun x hx => Or.inl ?_
      rw [hdata] at hx
      obtain ⟨y, hy, rfl⟩ := List.mem_map.mp hx
      have hge := (hmem y hy).2.1
      show p - flushed.builder.begin < y.1
      omega
  · refine hat _ _ ?_
    rw [hnodes]
    exact mem_nodeOffsets.mpr (Or.inr ⟨l, hl, rfl⟩)
  · refine hat _ _ ?_
    rw [hnodes]
    exact mem_nodeOffsets.mpr (Or.inl ⟨i, children, hi, rfl⟩)

end BitWriter

end JinDisk
