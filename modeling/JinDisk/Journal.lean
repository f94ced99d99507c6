import Mathlib.Algebra.Order.Ring.Int
import JinDisk.Layout
import JinDisk.Lib.Run

/-!
# The journal

`journal.c`, with `default_jops`. The journal is a ring of records in blocks of 31, in segments of
1024 blocks. New records are staged in a buffer for one segment and written out by
`journal_synchronize`, from the block of the last one that is on disk up to the block of the newest
one. The buffer is encrypted block by block.

When the ring goes on to another segment the buffer keeps what it held, and `journal_get_block`
loads a block only if there are records in front of the new one. So the part of a block behind the
newest record is that of some older segment. It does no harm there, unless the oldest records of the
ring are in the same block.

`load` returns `none` where the code waits for a lock it has itself.
-/

namespace JinDisk

/-! ## The layout -/

/-- `RECORDS_PER_BLOCK` -/
def recordsPerBlock : ℕ := 31

/-- `RECORDS_PER_SEGMENT` -/
def recordsPerSegment : ℕ := recordsPerBlock * blocksPerSegment

/-- `MAX_RECORDS` -/
def maxRecords : ℕ := blocksPerSegment * nrJournalSegment * recordsPerBlock

/-- A number as an `int`. -/
def toInt (n : ℤ) : ℤ := n.bmod (2 ^ 32)

/-- `struct journal_record`: the type and the member of the union that belongs to it. -/
inductive JournalRecord where
  /-- `DATA_LOG` -/
  | dataLog (timestamp lba hba : ℕ) (key mac iv : Bytes)
  /-- `DATA_COMMIT` -/
  | dataCommit (timestamp : ℕ)
  /-- `BIT_COMPACTION` -/
  | bitCompaction (timestamp upperBits lowerBits bitId level version : ℕ)
  /-- `BIT_NODE` -/
  | bitNode (timestamp bitId : ℕ) (isLeaf isDone : Bool) (pos : ℤ) (key mac iv : Bytes)
  /-- `CHECKPOINT_PACK` -/
  | checkpointPack (timestamp recordStart recordEnd validFields : ℕ) (key mac iv : Bytes)
  deriving DecidableEq

/-- `struct crypto_info` -/
structure CryptoInfo where
  /-- authentication tag -/
  mac : Bytes
  /-- the IV -/
  iv : Bytes

/-- The place of a record in its block. -/
abbrev RecordSlot : Type := Fin recordsPerBlock

/-- The place of the record with this index. -/
def recordSlot (i : ℕ) : RecordSlot := ⟨i % recordsPerBlock, Nat.mod_lt _ (by decide)⟩

/-- The part of a block that is encrypted: `previous_blk` and the records. -/
abbrev JournalPlain : Type := CryptoInfo × (RecordSlot → JournalRecord)

/-- `struct journal_block` in the buffer -/
structure JournalBlock where
  /-- `previous_blk` and `records` -/
  plain : JournalPlain
  /-- `current_blk` -/
  currentBlk : CryptoInfo

/-- A journal block on disk, with ciphertexts in `γ`. -/
structure SealedBlock (γ : Type) where
  /-- the ciphertext -/
  text : γ
  /-- `current_blk`, which is not encrypted -/
  currentBlk : CryptoInfo

/-- The AEAD cipher, with the key that `journal_derive_key` makes for a block. -/
structure JournalCipher (γ : Type) where
  /-- block number and IV; the ciphertext and the tag -/
  encrypt : ℕ → Bytes → JournalPlain → γ × Bytes
  /-- block number, tag and IV -/
  decrypt : ℕ → CryptoInfo → γ → Option JournalPlain
  /-- what a decryption that fails leaves in the buffer -/
  spoil : ℕ → CryptoInfo → γ → JournalPlain

/-- Decryption undoes encryption. -/
def JournalCipher.Lawful {γ : Type} (c : JournalCipher γ) : Prop :=
  ∀ blk iv plain, c.decrypt blk ⟨(c.encrypt blk iv plain).2, iv⟩ (c.encrypt blk iv plain).1 = some plain

/-- `enum journal_status` -/
inductive JournalStatus where
  | uninitialized
  | loaded
  | recovering
  | ready
  | synchronizing
  deriving DecidableEq

/-- `struct journal_region`, and what it works on. -/
structure JournalRegion (γ : Type) where
  /-- `buffer.segno` -/
  segno : ℤ
  /-- `buffer.previous_blk` -/
  previousBlk : CryptoInfo
  /-- `buffer.blocks` -/
  blocks : ℕ → JournalBlock
  /-- `record_start` -/
  recordStart : ℕ
  /-- `record_end` -/
  recordEnd : ℕ
  /-- `last_sync_record` -/
  lastSyncRecord : ℕ
  /-- `status` -/
  status : JournalStatus
  /-- the blocks on disk, from `journal_region_start` on -/
  disk : ℕ → SealedBlock γ
  /-- `record_start` and `record_end` of the superblock -/
  superblock : ℕ × ℕ
  /-- history: the blocks that were written -/
  written : List ℕ
  /-- history: the record added last at each index -/
  latest : ℕ → JournalRecord

namespace JournalRegion

variable {γ : Type}

/-! ## The operations -/

section Operations

variable (c : JournalCipher γ)

/-- `journal_decrypt_block`, of a block that was read into the buffer -/
def decryptBlock (blk : ℕ) (b : SealedBlock γ) : JournalBlock :=
  ⟨(c.decrypt blk b.currentBlk b.text).getD (c.spoil blk b.currentBlk b.text), b.currentBlk⟩

/-- `blk_count` in `journal_buffer_load` -/
def loadCount (recordStart recordEnd : ℕ) : ℕ :=
  if recordStart < recordEnd ∧ recordStart / recordsPerSegment = recordEnd / recordsPerSegment then
    (recordEnd - 1) / recordsPerBlock - recordStart / recordsPerBlock + 1
  else blocksPerSegment - recordStart / recordsPerBlock % blocksPerSegment

/-- The buffer after `count` blocks from `blk` on were loaded. -/
def loadBlocks (j : JournalRegion γ) (blk count : ℕ) : ℕ → JournalBlock := fun offset =>
  if blk % blocksPerSegment ≤ offset ∧ offset < blk % blocksPerSegment + count then
    decryptBlock c (blk + (offset - blk % blocksPerSegment))
      (j.disk (blk + (offset - blk % blocksPerSegment)))
  else j.blocks offset

/-- `journal_buffer_load`. It takes `sync_lock`, so it never returns (`none`) when the caller has
it. -/
def load (j : JournalRegion γ) (locked : Bool) (recordStart recordEnd : ℕ) :
    Option (JournalRegion γ) :=
  if nrJournalSegment ≤ toInt (recordStart / recordsPerSegment : ℕ) then some j
  else if locked then none
  else if recordStart = recordEnd then
    some { j with segno := toInt (recordStart / recordsPerSegment : ℕ) }
  else
    some { j with
      segno := toInt (recordStart / recordsPerSegment : ℕ)
      blocks := j.loadBlocks c (recordStart / recordsPerBlock) (loadCount recordStart recordEnd)
      status := .loaded }

/-- `journal_get_block`; the block is then in the buffer at `blkNum % BLOCKS_PER_SEGMENT`. -/
def getBlock (j : JournalRegion γ) (locked : Bool) (blkNum : ℕ) : Option (JournalRegion γ) :=
  if toInt (blkNum / blocksPerSegment : ℕ) ≠ j.segno then
    j.load c locked (blkNum * recordsPerBlock % 2 ^ 64) j.recordEnd
  else some j

/-- What `journal_encrypt_block` leaves, and the write of the block. -/
def putBlock (j : JournalRegion γ) (iv : Bytes) (blkNum : ℕ) (previous : CryptoInfo) :
    JournalRegion γ :=
  let plain : JournalPlain := (previous, (j.blocks (blkNum % blocksPerSegment)).plain.2)
  let info : CryptoInfo := ⟨(c.encrypt blkNum iv plain).2, iv⟩
  { j with
    blocks := Function.update j.blocks (blkNum % blocksPerSegment) ⟨plain, info⟩
    disk := Function.update j.disk blkNum ⟨(c.encrypt blkNum iv plain).1, info⟩
    previousBlk := if blkNum % blocksPerSegment = blocksPerSegment - 1 then info else j.previousBlk
    written := j.written ++ [blkNum] }

/-- `journal_encrypt_block` with the random IV, and the write of the block; `sync_lock` is held. -/
def encryptBlock (rand : ℕ → Bytes) (j : JournalRegion γ) (blkNum : ℕ) : Option (JournalRegion γ) :=
  (j.getBlock c true blkNum).bind fun j =>
    if blkNum % blocksPerSegment = 0 then some (j.putBlock c (rand blkNum) blkNum j.previousBlk)
    else
      (j.getBlock c true (blkNum - 1)).map fun j =>
        j.putBlock c (rand blkNum) blkNum (j.blocks ((blkNum - 1) % blocksPerSegment)).currentBlk

/-- `blk_count` in `journal_synchronize`, an `int` -/
def syncCount (lastSyncRecord recordEnd : ℕ) : ℤ :=
  if recordEnd % recordsPerSegment ≠ 0 then
    toInt (((recordEnd - 1) / recordsPerBlock : ℕ) - (lastSyncRecord / recordsPerBlock : ℕ) + 1)
  else blocksPerSegment - (lastSyncRecord / recordsPerBlock % blocksPerSegment : ℕ)

/-- `journal_synchronize`, where no allocation fails. A negative `blk_count` is taken for a failure,
with no block written. -/
def synchronize (rand : ℕ → Bytes) (j : JournalRegion γ) : Option (JournalRegion γ) :=
  if j.lastSyncRecord = j.recordEnd then some j
  else
    let blkStart := j.lastSyncRecord / recordsPerBlock
    let blkCount := syncCount j.lastSyncRecord j.recordEnd
    (Machine.exec (encryptBlock c rand) j (List.range' blkStart blkCount.toNat)).map fun j =>
      let last := if blkCount < 0 then blkStart * recordsPerBlock else j.recordEnd
      { j with
        lastSyncRecord := last
        superblock := if last = j.recordEnd then (j.recordStart, j.recordEnd) else j.superblock
        status := .ready }

/-- `journal_should_sync` -/
def shouldSync (j : JournalRegion γ) : Bool := toInt (j.recordEnd / recordsPerSegment : ℕ) ≠ j.segno

/-- The record in the buffer, and the window moved on. -/
def stage (j : JournalRegion γ) (record : JournalRecord) : JournalRegion γ :=
  let offset := j.recordEnd / recordsPerBlock % blocksPerSegment
  let blk := j.blocks offset
  let next := (j.recordEnd + 1) % maxRecords
  { j with
    blocks := Function.update j.blocks offset
      { blk with plain := (blk.plain.1,
          Function.update blk.plain.2 (recordSlot j.recordEnd) record) }
    recordEnd := next
    recordStart := if next = j.recordStart then (j.recordStart + 1) % maxRecords else j.recordStart
    latest := Function.update j.latest j.recordEnd record }

/-- `journal_add_record` -/
def addRecord (rand : ℕ → Bytes) (j : JournalRegion γ) (record : JournalRecord) :
    Option (JournalRegion γ) :=
  (j.getBlock c false (j.recordEnd / recordsPerBlock)).bind fun j =>
    if (j.stage record).shouldSync then
      synchronize c rand { j.stage record with status := .synchronizing }
    else some (j.stage record)

/-- `journal_should_recover`: the answer and the status -/
def shouldRecover (j : JournalRegion γ) : Bool × JournalRegion γ :=
  if j.recordEnd = (j.recordStart + 1) % maxRecords then (false, { j with status := .ready })
  else (true, { j with status := .recovering })

/-- `journal_recover`: it goes through the window and looks at each record. -/
def recover (j : JournalRegion γ) : Option (JournalRegion γ) :=
  let count := (j.recordEnd + maxRecords - j.recordStart) % maxRecords
  let indices := (List.range count).map fun k => (j.recordStart + k) % maxRecords
  (Machine.exec (fun j i => getBlock c j false (i / recordsPerBlock)) j indices).map fun j =>
    { j with lastSyncRecord := j.recordEnd, status := .ready }

/-- `journal_region_init`, with whatever `kmalloc` left in the memory of `this` and in the record
on the stack: the region and whether 0 is returned. -/
def init (rand : ℕ → Bytes) (this : JournalRegion γ) (record : JournalRecord) (zero : JournalBlock)
    (recordStart recordEnd : ℕ) : Option (JournalRegion γ × Bool) :=
  let this := { this with
    status := .uninitialized, recordStart, recordEnd, blocks := fun _ => zero }
  let opened : Option (JournalRegion γ) :=
    if recordStart ≠ recordEnd then this.load c false recordStart recordEnd
    else
      (addRecord c rand { this with segno := toInt (recordStart / recordsPerSegment : ℕ) } record).map
        fun j => { j with lastSyncRecord := j.recordStart, status := .loaded }
  opened.bind fun j =>
    (if j.status = .loaded then
        if j.shouldRecover.1 then recover c j.shouldRecover.2 else some j.shouldRecover.2
      else some j).map fun j => (j, j.status = .ready)

/-- What a journal does. -/
inductive Action where
  /-- `journal_add_record` -/
  | addRecord (rand : ℕ → Bytes) (record : JournalRecord)
  /-- `journal_synchronize` -/
  | synchronize (rand : ℕ → Bytes)

/-- One call; `none` if it never returns. -/
def step (j : JournalRegion γ) : Action → Option (JournalRegion γ)
  | .addRecord rand record => addRecord c rand j record
  | .synchronize rand => synchronize c rand j

/-! ## What is in the journal -/

/-- The index is in the window. -/
def InWindow (j : JournalRegion γ) (i : ℕ) : Prop :=
  i < maxRecords ∧ if j.recordStart ≤ j.recordEnd then j.recordStart ≤ i ∧ i < j.recordEnd
    else j.recordStart ≤ i ∨ i < j.recordEnd

/-- The record with this index, from the block on disk. -/
def decode (j : JournalRegion γ) (i : ℕ) : Option JournalRecord :=
  let b := j.disk (i / recordsPerBlock)
  (c.decrypt (i / recordsPerBlock) b.currentBlk b.text).map fun plain => plain.2 (recordSlot i)

/-- What the buffer has in the place of the index. -/
def buffered (j : JournalRegion γ) (i : ℕ) : JournalRecord :=
  (j.blocks (i / recordsPerBlock % blocksPerSegment)).plain.2 (recordSlot i)

/-- The record is only in the buffer so far. -/
def Unsynced (j : JournalRegion γ) (i : ℕ) : Prop := j.lastSyncRecord ≤ i ∧ i < j.recordEnd

end Operations

/-! ## Numbers -/

theorem recordsPerSegment_eq : recordsPerSegment = 31744 := rfl

theorem maxRecords_eq : maxRecords = 507904 := rfl

theorem toInt_of_lt {n : ℕ} (h : n < 2 ^ 31) : toInt n = n := by
  rw [toInt, Int.bmod_def]
  omega

/-- The segment of a block, and that of a record in it. -/
theorem block_segment (i : ℕ) : i / recordsPerBlock / blocksPerSegment = i / recordsPerSegment :=
  Nat.div_div_eq_div_mul ..

theorem toInt_segment {i : ℕ} (h : i < maxRecords) :
    toInt (i / recordsPerSegment : ℕ) = (i / recordsPerSegment : ℕ) := by
  refine toInt_of_lt (Nat.lt_of_le_of_lt (Nat.div_le_self _ _) (h.trans ?_))
  decide

/-! ## The block of the next record -/

section Next

variable {c : JournalCipher γ} {j : JournalRegion γ}

theorem getBlock_of_segno {locked : Bool} {blk : ℕ}
    (h : toInt (blk / blocksPerSegment : ℕ) = j.segno) : j.getBlock c locked blk = some j := by
  rw [getBlock, if_neg (not_not.mpr h)]

/-- **`journal_get_block` for the next record** when the buffer belongs to another segment. The block
is loaded, unless the record is the first one in it. -/
theorem getBlock_next (hend : j.recordEnd < maxRecords)
    (hseg : j.segno ≠ (j.recordEnd / recordsPerSegment : ℕ)) :
    j.getBlock c false (j.recordEnd / recordsPerBlock) =
      if j.recordEnd % recordsPerBlock = 0 then
        some { j with segno := (j.recordEnd / recordsPerSegment : ℕ) }
      else
        some { j with
          segno := (j.recordEnd / recordsPerSegment : ℕ)
          blocks := j.loadBlocks c (j.recordEnd / recordsPerBlock) 1
          status := .loaded } := by
  have hint := toInt_segment hend
  have harg : j.recordEnd / recordsPerBlock * recordsPerBlock % 2 ^ 64 =
      j.recordEnd / recordsPerBlock * recordsPerBlock := by
    refine Nat.mod_eq_of_lt ?_
    rw [maxRecords_eq] at hend
    simp only [recordsPerBlock]
    omega
  have hargseg : j.recordEnd / recordsPerBlock * recordsPerBlock / recordsPerSegment =
      j.recordEnd / recordsPerSegment := by
    simp only [recordsPerBlock, recordsPerSegment_eq]
    omega
  have hlow : ¬(nrJournalSegment : ℤ) ≤ (j.recordEnd / recordsPerSegment : ℕ) := by
    rw [maxRecords_eq] at hend
    simp only [nrJournalSegment, recordsPerSegment_eq]
    omega
  have hne : toInt (j.recordEnd / recordsPerBlock / blocksPerSegment : ℕ) ≠ j.segno := by
    rw [block_segment, hint]
    exact Ne.symm hseg
  have hdiv := Nat.div_add_mod j.recordEnd recordsPerBlock
  rw [Nat.mul_comm] at hdiv
  rw [getBlock, if_pos hne, load, harg, hargseg, hint, if_neg hlow, if_neg Bool.false_ne_true]
  by_cases hfirst : j.recordEnd % recordsPerBlock = 0
  · rw [if_pos hfirst, if_pos (by omega)]
  · have hlt : j.recordEnd / recordsPerBlock * recordsPerBlock < j.recordEnd := by omega
    have hcount : loadCount (j.recordEnd / recordsPerBlock * recordsPerBlock) j.recordEnd = 1 := by
      rw [loadCount, if_pos ⟨hlt, hargseg⟩]
      simp only [recordsPerBlock] at hfirst ⊢
      omega
    rw [if_neg hfirst, if_neg hlt.ne, hcount, Nat.mul_div_cancel _ (by decide : 0 < recordsPerBlock)]

end Next

/-! ## Writing blocks -/

section Writing

variable {c : JournalCipher γ} {rand : ℕ → Bytes} {j j' : JournalRegion γ}

/-- The blocks from `lo` on are written from the buffer, and nothing else happens. -/
structure Writes (c : JournalCipher γ) (j : JournalRegion γ) (lo n : ℕ) (j' : JournalRegion γ) :
    Prop where
  /-- where the buffer belongs to -/
  segno : j'.segno = j.segno
  /-- the window -/
  window : j'.recordStart = j.recordStart ∧ j'.recordEnd = j.recordEnd
  /-- the records in the buffer -/
  records : ∀ offset, (j'.blocks offset).plain.2 = (j.blocks offset).plain.2
  /-- the blocks that are written are encryptions of them -/
  inside : ∀ blk, lo ≤ blk → blk < lo + n → ∃ iv previous, ∃ plain : JournalPlain,
    plain = (previous, (j.blocks (blk % blocksPerSegment)).plain.2) ∧
      j'.disk blk = ⟨(c.encrypt blk iv plain).1, (c.encrypt blk iv plain).2, iv⟩
  /-- the other blocks stay -/
  outside : ∀ blk, blk < lo ∨ lo + n ≤ blk → j'.disk blk = j.disk blk
  /-- history -/
  written : j'.written = j.written ++ List.range' lo n
  /-- history -/
  latest : j'.latest = j.latest

variable (c rand) in
/-- A block of the segment in the buffer is encrypted without another load. -/
theorem encryptBlock_of_segno {blk : ℕ} (h : toInt (blk / blocksPerSegment : ℕ) = j.segno) :
    ∃ previous, encryptBlock c rand j blk = some (j.putBlock c (rand blk) blk previous) := by
  rw [encryptBlock, getBlock_of_segno h, Option.bind_some]
  split
  · exact ⟨_, rfl⟩
  · rename_i hblk
    have hpred : (blk - 1) / blocksPerSegment = blk / blocksPerSegment := by
      simp only [blocksPerSegment] at hblk ⊢
      omega
    rw [getBlock_of_segno (by rw [hpred, h])]
    exact ⟨_, rfl⟩

theorem putBlock_records (iv : Bytes) (blk : ℕ) (previous : CryptoInfo) (offset : ℕ) :
    ((j.putBlock c iv blk previous).blocks offset).plain.2 = (j.blocks offset).plain.2 := by
  rw [putBlock]
  by_cases h : offset = blk % blocksPerSegment
  · rw [h]
    simp only [Function.update_self]
  · simp only [Function.update_of_ne h]

variable (c rand) in
/-- **The loop of `journal_synchronize`**, over blocks of the segment in the buffer. -/
theorem exec_encryptBlock {lo n : ℕ}
    (hseg : ∀ blk, lo ≤ blk → blk < lo + n → toInt (blk / blocksPerSegment : ℕ) = j.segno) :
    ∃ j', Machine.exec (encryptBlock c rand) j (List.range' lo n) = some j' ∧ Writes c j lo n j' := by
  induction n generalizing lo j with
  | zero =>
    refine ⟨j, rfl, rfl, ⟨rfl, rfl⟩, fun _ => rfl, fun blk hlo hlt => ?_, fun _ _ => rfl, ?_, rfl⟩
    · exact absurd hlt (Nat.not_lt.mpr hlo)
    · exact (List.append_nil _).symm
  | succ n ih =>
    obtain ⟨previous, hput⟩ := encryptBlock_of_segno c rand (hseg lo le_rfl (by omega))
    have hrest : ∀ blk, lo + 1 ≤ blk → blk < lo + 1 + n →
        toInt (blk / blocksPerSegment : ℕ) = (j.putBlock c (rand lo) lo previous).segno :=
      fun blk hlo hlt => hseg blk (by omega) (by omega)
    obtain ⟨j', hexec, hw⟩ := ih hrest
    refine ⟨j', Machine.exec_cons_of hput hexec, hw.segno, hw.window, fun offset => ?_,
      fun blk hlo hlt => ?_, fun blk hout => ?_, ?_, hw.latest⟩
    · rw [hw.records, putBlock_records]
    · rcases Nat.eq_or_lt_of_le hlo with rfl | hlo
      · -- the first block is not written again
        rw [hw.outside lo (Or.inl (Nat.lt_succ_self lo))]
        refine ⟨rand lo, previous, _, rfl, ?_⟩
        simp only [putBlock, Function.update_self]
      · obtain ⟨iv, previous', plain, hplain, hdisk⟩ := hw.inside blk hlo (by omega)
        rw [putBlock_records] at hplain
        exact ⟨iv, previous', plain, hplain, hdisk⟩
    · rw [hw.outside blk (by omega)]
      simp only [putBlock]
      exact Function.update_of_ne (by omega) _ _
    · rw [hw.written]
      simp only [putBlock, List.append_assoc, List.singleton_append]
      rfl

theorem Writes.decode_inside (hc : c.Lawful) {lo n : ℕ} (hw : Writes c j lo n j') {i : ℕ}
    (hlo : lo ≤ i / recordsPerBlock) (hlt : i / recordsPerBlock < lo + n) :
    j'.decode c i = some (j.buffered i) := by
  obtain ⟨iv, previous, plain, rfl, hdisk⟩ := hw.inside _ hlo hlt
  rw [decode, hdisk]
  simp only [hc _ iv, Option.map_some]
  rfl

theorem Writes.decode_outside {lo n : ℕ} (hw : Writes c j lo n j') {i : ℕ}
    (hout : i / recordsPerBlock < lo ∨ lo + n ≤ i / recordsPerBlock) :
    j'.decode c i = j.decode c i := by
  rw [decode, decode, hw.outside _ hout]

theorem Writes.buffered {lo n : ℕ} (hw : Writes c j lo n j') (i : ℕ) : j'.buffered i = j.buffered i :=
  congrFun (hw.records _) _

end Writing

/-! ## Synchronising -/

section Synchronising

variable {c : JournalCipher γ} {rand : ℕ → Bytes} {j : JournalRegion γ}

/-- The newest record, some older one that is not on disk, and the buffer are in one segment. -/
structure Syncable (j : JournalRegion γ) (last : ℕ) : Prop where
  /-- the newest record -/
  lt : last < maxRecords
  /-- the end of the window comes after it -/
  recordEnd : j.recordEnd = (last + 1) % maxRecords
  /-- it is not on disk -/
  le : j.lastSyncRecord ≤ last
  /-- the oldest one that is not is in the same segment -/
  same : j.lastSyncRecord / recordsPerSegment = last / recordsPerSegment
  /-- and so is the buffer -/
  segno : j.segno = (last / recordsPerSegment : ℕ)

/-- The blocks from the oldest record that is not on disk up to the newest one. -/
def syncBlocks (j : JournalRegion γ) (last : ℕ) : ℕ :=
  last / recordsPerBlock - j.lastSyncRecord / recordsPerBlock + 1

theorem Syncable.ne {last : ℕ} (h : Syncable j last) : j.lastSyncRecord ≠ j.recordEnd := by
  have hlt := h.lt
  have hle := h.le
  have hsame := h.same
  rw [h.recordEnd]
  rw [maxRecords_eq] at hlt ⊢
  rw [recordsPerSegment_eq] at hsame
  omega

theorem Syncable.count {last : ℕ} (h : Syncable j last) :
    syncCount j.lastSyncRecord j.recordEnd = (j.syncBlocks last : ℕ) := by
  have hlt := h.lt
  have hle := h.le
  have hsame := h.same
  have hend := h.recordEnd
  rw [maxRecords_eq] at hlt hend
  by_cases hmod : j.recordEnd % recordsPerSegment = 0
  · rw [syncCount, if_neg (not_not.mpr hmod), syncBlocks]
    simp only [recordsPerSegment_eq, recordsPerBlock, blocksPerSegment] at hsame hmod ⊢
    omega
  · -- the newest record is not the last one of its segment
    rw [syncCount, if_pos hmod, syncBlocks]
    simp only [recordsPerSegment_eq, recordsPerBlock] at hsame hmod ⊢
    have hlast : j.recordEnd - 1 = last := by omega
    have hsmall : last / 31 - j.lastSyncRecord / 31 + 1 < 2 ^ 31 := by omega
    rw [hlast, ← toInt_of_lt hsmall]
    congr 1
    omega

variable (c rand) in
/-- **`journal_synchronize`** writes these blocks. -/
theorem Syncable.synchronize {last : ℕ} (h : Syncable j last) :
    ∃ j', Writes c j (j.lastSyncRecord / recordsPerBlock) (j.syncBlocks last) j' ∧
      synchronize c rand j = some { j' with
        lastSyncRecord := j'.recordEnd
        superblock := (j'.recordStart, j'.recordEnd)
        status := .ready } := by
  have hseg : ∀ blk, j.lastSyncRecord / recordsPerBlock ≤ blk →
      blk < j.lastSyncRecord / recordsPerBlock + j.syncBlocks last →
      toInt (blk / blocksPerSegment : ℕ) = j.segno := by
    intro blk hlo hhi
    have hlt := h.lt
    have hle := h.le
    have hsame := h.same
    have hblk : blk / blocksPerSegment = last / recordsPerSegment := by
      rw [syncBlocks] at hhi
      simp only [recordsPerSegment_eq, recordsPerBlock, blocksPerSegment] at hsame hlo hhi ⊢
      omega
    rw [hblk, h.segno, toInt_segment hlt]
  obtain ⟨j', hexec, hw⟩ := exec_encryptBlock c rand hseg
  refine ⟨j', hw, ?_⟩
  have hcount : ¬((j.syncBlocks last : ℕ) : ℤ) < 0 := Int.not_lt.mpr (Int.natCast_nonneg _)
  simp only [JournalRegion.synchronize, if_neg h.ne, h.count, Int.toNat_natCast, hexec,
    Option.map_some, if_neg hcount, if_true]

end Synchronising

/-! ## A journal to look at -/

/-- A commit record. -/
def commit (timestamp : ℕ) : JournalRecord := .dataCommit timestamp

end JournalRegion

end JinDisk
