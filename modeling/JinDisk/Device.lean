import JinDisk.Releases
import JinDisk.RangeSearch
import JinDisk.SegmentAllocator

/-!
# A device

The parts of a `struct dm_jindisk` together: the segment buffer, the LSM tree, the tables of
segments, the reverse index and the raw device. Each function here is what the code does with one
device for all its parts; where the code takes a part from another device, the function has it for
an argument (the buffer that is flushed, the records that a compaction releases).

The data blocks of the raw device are counted from `data_start`.
-/

namespace JinDisk

variable {κ D : Type}

/-- `jindisk->cipher` as the data blocks use it: `seq` is the physical address. -/
structure DataCipher (κ D : Type) where
  /-- `encrypt`: the block and its mac -/
  encrypt : κ → ℕ → D → D × Bytes
  /-- `decrypt` -/
  decrypt : κ → Bytes → ℕ → D → Except Int D

/-- What the state does not determine. -/
structure Chance (κ : Type) where
  /-- `new_lba` on the stack of `lsm_tree_put` and `compaction_job_run` -/
  newLba : ℕ
  /-- `old` on the stack of `gc_one_segment` -/
  old : Record κ
  /-- what `get_random_bytes` returns, should the n-th block that is pushed fill its buffer -/
  key : ℕ → κ

/-- `reverse_index_table_set` -/
def ReverseIndexTable.set (t : ReverseIndexTable) (pba lba : ℕ) : ReverseIndexTable :=
  if pba < t.nrBlock then { t with lba := Function.update t.lba pba lba } else t

@[simp] theorem ReverseIndexTable.nrBlock_set (t : ReverseIndexTable) (pba lba : ℕ) :
    (t.set pba lba).nrBlock = t.nrBlock := by
  rw [set]
  split <;> rfl

@[simp] theorem ReverseIndexTable.nrBlock_reset (t : ReverseIndexTable) (pba oldLba newLba : ℕ) :
    (t.reset pba oldLba newLba).1.nrBlock = t.nrBlock := by
  rw [reset]
  split
  · split <;> rfl
  · rfl

/-- The parts of a `struct dm_jindisk`, and the workqueues that were created with it. -/
structure Device (κ D : Type) where
  /-- `seg_buffer` -/
  segBuffer : SegBuf κ D
  /-- the works queued on `bufferio_wq` -/
  bufferioWq : List PoolIndex
  /-- `lsm_tree` -/
  lsmTree : LsmTree κ
  /-- the number of works queued on `compaction_wq` -/
  compactionWq : ℕ
  /-- `seg_allocator`, and `seg_validator` and `dst` of `meta` -/
  tables : SegmentTables
  /-- `rit` of `meta` -/
  rit : ReverseIndexTable
  /-- the data blocks of `raw_dev` -/
  rawDev : ℕ → D

/-- `LEAST_CLEAN_SEGMENT_ONCE` -/
def leastCleanSegmentOnce : ℕ := 5

/-- The local variables of `gc_one_segment`, and the device. -/
structure GcState (κ D : Type) where
  /-- the device -/
  device : Device κ D
  /-- `old` -/
  old : Record κ
  /-- `count` -/
  count : ℕ

namespace Device

variable (c : DataCipher κ D) (ch : Chance κ)

/-- A device that was just formatted, with `nrSegment` segments in its data region. All entries of
the reverse index table are zero. -/
def format (capacity maxFd nrSegment : ℕ) (zeroKey key : κ) (rawDev : ℕ → D) : Device κ D where
  segBuffer := .init zeroKey key
  bufferioWq := []
  lsmTree := .init capacity maxFd
  compactionWq := 0
  tables := .format nrSegment
  rit := ⟨nrSegment * blocksPerSegment, fun _ => 0⟩
  rawDev := rawDev

/-- A superseded record: `rit->reset`, and `dst->return_block` if the block was the one of the
lba. -/
def release (d : Device κ D) (e : ℕ × Record κ) : Device κ D :=
  let res := d.rit.reset e.2.pba e.1 ch.newLba
  { d with
    rit := res.1
    tables := if e.1 = res.2 then { d.tables with dst := d.tables.dst.returnBlock e.2.pba }
      else d.tables }

/-- The records that a compaction has superseded. -/
def releaseAll (d : Device κ D) (es : List (ℕ × Record κ)) : Device κ D := es.foldl (release ch) d

/-- `lsm_tree_put`, with the work that a rotation queues. -/
def put (d : Device κ D) (lba : ℕ) (val : Option (Record κ)) : Device κ D :=
  let d' := { d with
    lsmTree := (d.lsmTree.put lba val).1
    compactionWq := if d.lsmTree.rotates lba val then d.compactionWq + 1 else d.compactionWq }
  match (d.lsmTree.put lba val).2 with
  | some old => d'.release ch (lba, old)
  | none => d'

/-- A block of a buffer that is flushed gets the place `pba`. -/
def logBlock (key : κ) (d : Device κ D) (blk : ℕ × D) (pba : ℕ) : Device κ D :=
  let cipher := c.encrypt key pba blk.2
  let d := d.put ch blk.1 (some ⟨pba, cipher.2, key⟩)
  { d with
    rit := d.rit.set pba blk.1
    rawDev := Function.update d.rawDev pba cipher.1 }

/-- An iteration of `segbuf_threaded_logging`. -/
def threadedLogging (key : κ) (d : Device κ D) (blk : ℕ × D) : Device κ D :=
  match d.tables.findLoggingBlock with
  | (none, tables) => { d with tables }
  | (some pba, tables) => { d with tables }.logBlock c ch key blk pba

/-- `segbuf_flush_bios` of a buffer, with the allocator, the tree and the tables of the device. The
blocks of a segment are written at once there, behind the loop. -/
def flushBios (d : Device κ D) (ds : DataSegment κ D) : Device κ D :=
  if ds.size = 0 then d
  else
    match d.tables.saAlloc with
    | (some segno, tables) =>
      ds.root.toList.zipIdx.foldl
        (fun d e => d.logBlock c ch ds.segKey e.1 (segno * blocksPerSegment + e.2)) { d with tables }
    | (none, tables) => ds.root.toList.foldl (fun d e => d.threadedLogging c ch ds.segKey e) { d with tables }

/-- The loop of `flush_and_commit`, over the buffers of a pool. -/
def flushPool (d : Device κ D) (pool : SegBuf κ D) : Device κ D :=
  (List.finRange poolSize).foldl (fun d index => d.flushBios c ch (pool.buffer index)) d

/-- `segbuf_push_block`, with the work that a full buffer queues. -/
def pushBlock (d : Device κ D) (lba : ℕ) (data : D) (rflag : Bool) (key : κ) : Device κ D :=
  let res := d.segBuffer.pushBlock lba data rflag key
  { d with segBuffer := res.1, bufferioWq := d.bufferioWq ++ res.2.toList }

/-- `segbuf_push_bio` -/
def pushBio (d : Device κ D) (start : ℕ) (data : List D) : Device κ D :=
  data.zipIdx.foldl (fun d e => d.pushBlock (start + e.2) e.1 true (ch.key e.2)) d

/-! ## The tree of a device -/

section Tree

variable (d : Device κ D) (e : ℕ × Record κ) (lba : ℕ) (val : Option (Record κ))

@[simp] theorem release_lsmTree : (d.release ch e).lsmTree = d.lsmTree := rfl

@[simp] theorem release_compactionWq : (d.release ch e).compactionWq = d.compactionWq := rfl

@[simp] theorem release_nrBlock : (d.release ch e).rit.nrBlock = d.rit.nrBlock :=
  d.rit.nrBlock_reset ..

theorem releaseAll_kept (es : List (ℕ × Record κ)) :
    (d.releaseAll ch es).lsmTree = d.lsmTree ∧ (d.releaseAll ch es).compactionWq = d.compactionWq ∧
      (d.releaseAll ch es).rit.nrBlock = d.rit.nrBlock := by
  induction es generalizing d with
  | nil => exact ⟨rfl, rfl, rfl⟩
  | cons e es ih =>
    obtain ⟨htree, hworks, hnr⟩ := ih (d.release ch e)
    refine ⟨?_, ?_, ?_⟩
    · rw [releaseAll, List.foldl_cons, ← releaseAll, htree, release_lsmTree]
    · rw [releaseAll, List.foldl_cons, ← releaseAll, hworks, release_compactionWq]
    · rw [releaseAll, List.foldl_cons, ← releaseAll, hnr, release_nrBlock]

@[simp] theorem put_lsmTree : (d.put ch lba val).lsmTree = (d.lsmTree.put lba val).1 := by
  simp only [put]
  split <;> rfl

@[simp] theorem put_compactionWq : (d.put ch lba val).compactionWq =
    if d.lsmTree.rotates lba val then d.compactionWq + 1 else d.compactionWq := by
  simp only [put]
  split <;> rfl

@[simp] theorem put_nrBlock : (d.put ch lba val).rit.nrBlock = d.rit.nrBlock := by
  simp only [put]
  split
  · rw [release_nrBlock]
  · rfl

variable [Inhabited κ]

/-- The tree is in order, and what is not queued for compaction is compacted. -/
structure TreeOk : Prop where
  /-- the tree is in order -/
  ok : d.lsmTree.Ok
  /-- without works the immutable memtable is compacted -/
  compacted : d.compactionWq = 0 → d.lsmTree.Compacted

variable {d lba val}

theorem TreeOk.put (h : d.TreeOk) (hval : ∀ r ∈ val, r.isNegative = false) :
    (d.put ch lba val).TreeOk := by
  refine ⟨?_, fun hworks => ?_⟩
  · rw [put_lsmTree]
    exact h.ok.put lba hval
  · rw [put_compactionWq] at hworks
    rw [put_lsmTree, LsmTree.put]
    split at hworks
    · cases hworks
    · rename_i hrot
      rw [if_neg hrot]
      exact h.compacted hworks

/-- A put changes the mapping of its lba, if a rotation finds no work in the queue. -/
theorem TreeOk.mapping_put (h : d.TreeOk) (hval : ∀ r ∈ val, r.isNegative = false)
    (hquiet : d.lsmTree.rotates lba val = true → d.compactionWq = 0) :
    (d.put ch lba val).lsmTree.mapping = Function.update d.lsmTree.mapping lba val := by
  rw [put_lsmTree]
  exact LsmTree.mapping_put hval fun hrot => h.compacted (hquiet hrot)

/-- `minor_compaction_handler`, when its work is the next one. -/
theorem TreeOk.compact (h : d.TreeOk) {m : Memtable κ} {order : List ℕ} {t : LsmTree κ}
    {sup : List (ℕ × Record κ)} (hm : d.lsmTree.immutable = some m)
    (hc : d.lsmTree.compactMemtable m order = some (t, sup)) (n : ℕ) :
    ({ d with lsmTree := t, compactionWq := n }.releaseAll ch sup).TreeOk := by
  obtain ⟨hok, hcompacted⟩ := h.ok.compactMemtable hm hc
  obtain ⟨htree, -, -⟩ := releaseAll_kept ch { d with lsmTree := t, compactionWq := n } sup
  refine ⟨?_, fun _ => ?_⟩
  · rw [htree]
    exact hok
  · rw [htree]
    exact hcompacted

theorem treeOk_format (capacity maxFd nrSegment : ℕ) (zeroKey key : κ) (rawDev : ℕ → D) :
    (format capacity maxFd nrSegment zeroKey key rawDev).TreeOk :=
  ⟨LsmTree.ok_init capacity maxFd, fun _ => LsmTree.compacted_init capacity maxFd⟩

end Tree

variable [Inhabited κ]

/-- What `jindisk_do_read` does for a block, with the results of the range search; `none` if the
page is left as it is. -/
def readBlock (d : Device κ D) (results : Option (Memtable κ)) (lba : ℕ) : Option D :=
  match d.segBuffer.queryBlock lba with
  | some data => some data
  | none =>
    match results.bind fun m => m.get lba with
    | none => none
    | some old =>
      if old.pba = infAddr then none
      else (c.decrypt old.key old.mac old.pba (d.rawDev old.pba)).toOption

/-- `jindisk_do_read` for `count` blocks, given what is in the caches of the files. -/
def doRead (d : Device κ D) (caches : ℕ → LruCache (Leaf κ)) (start count : ℕ) :
    Option (List (Option D)) :=
  (d.lsmTree.rangeSearch caches start (start + count - 1)).map fun results =>
    (List.range' start count).map (d.readBlock c results)

/-- What `gc_one_segment` does for a valid block of a victim. The search may fault. -/
def gcBlock (segno : ℕ) (st : GcState κ D) (o : Offset) : Option (GcState κ D) :=
  let pba := blockAddr segno o
  if pba < st.device.rit.nrBlock then
    let res := st.device.rit.reset pba infAddr ch.newLba
    let d := { st.device with rit := res.1 }
    (d.lsmTree.search res.2).map fun found =>
      -- nothing is copied if nothing is found
      let old := found.getD st.old
      if pba ≠ old.pba then ⟨d, old, st.count⟩
      else
        let d := d.put ch res.2 none
        match c.decrypt old.key old.mac old.pba (d.rawDev pba) with
        | .ok data => ⟨d.pushBlock res.2 data false (ch.key o), old, st.count + 1⟩
        | .error _ => ⟨d, old, st.count⟩
  else some st

/-- `gc_one_segment` and the line behind it in `sa_background_gc`: the device, and the number of
blocks that were moved if there was a victim. -/
def gcOneSegment (d : Device κ D) : Option (Device κ D × Option ℕ) :=
  match selectVictim d.tables.dst.loggingSegno d.tables.dst.victims with
  | (none, victims) =>
    some ({ d with tables := { d.tables with dst := { d.tables.dst with victims } } }, none)
  | (some v, victims) =>
    let d := { d with tables := { d.tables with dst := { d.tables.dst with victims } } }
    (Machine.exec (gcBlock c ch v.segno) ⟨d, ch.old, 0⟩ v.lookedAt).map fun st =>
      let t := st.device.tables
      ({ st.device with
        tables := ⟨t.svt.testAndReturn v.segno, t.dst.returnSegment v.segno,
          if t.nrValidSegment = 0 then 2 ^ 64 - 1 else t.nrValidSegment - 1⟩ }, some st.count)

/-- The loop of `sa_background_gc`; `none` if `fuel` iterations are not enough. -/
def gcLoop : ℕ → ℕ → Device κ D → Option (Device κ D)
  | 0, _, _ => none
  | fuel + 1, clean, d =>
    if clean < leastCleanSegmentOnce * blocksPerSegment then
      (d.gcOneSegment c ch).bind fun r =>
        match r.2 with
        | some count => gcLoop fuel (clean + count) r.1
        | none => some r.1
    else some d

/-- `sa_background_gc`; `len` is the length of the target that `NR_SEGMENT` was computed from. -/
def backgroundGc (len : UInt64) (fuel : ℕ) (d : Device κ D) : Option (Device κ D) :=
  if d.tables.gcRuns len then d.gcLoop c ch fuel 0 else some d

end Device

end JinDisk
