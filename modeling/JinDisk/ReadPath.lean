import JinDisk.Device
import JinDisk.ReadCompletion

/-!
# Reading blocks from the disk

`jindisk_do_read` collects the blocks that are neither in the segment buffer nor missing, and reads
runs of consecutive physical blocks at once. `merge_read_io` sets a read up, with the blocks it is
for, and `decrypt_work` goes through the buffer when it is there. The addresses are 64-bit words, and
so is the sum that the loop compares.

A decryption is recorded as a call, with all it is given. What the cipher leaves at the destination is
not looked at: the return code is printed, and that is all.
-/

namespace JinDisk

variable {κ : Type}

/-- `struct blk_info` -/
structure BlkInfo (κ : Type) where
  /-- `lba` -/
  lba : ℕ
  /-- `record` -/
  record : Record κ
  /-- `page_addr` -/
  pageAddr : ℕ

/-- `struct diskio_ctx` of a read, once the blocks are in the buffer. -/
structure DiskioCtx (κ : Type) where
  /-- `blk_start` -/
  blkStart : ℕ
  /-- `blk_count` -/
  blkCount : ℕ
  /-- `io_buffer`, block by block -/
  ioBuffer : ℕ → Bytes
  /-- `infos` -/
  infos : ℕ → BlkInfo κ

/-- A call of `cipher->decrypt` for a block. -/
structure DecryptCall (κ : Type) where
  /-- `key` -/
  key : κ
  /-- `mac` -/
  mac : Bytes
  /-- `seq`: the physical address -/
  pba : ℕ
  /-- `data` -/
  ciphertext : Bytes
  /-- `out`: the page -/
  pageAddr : ℕ

/-- `jindisk_read_blocks`: the blocks of the disk from `pba` on. -/
def jindiskReadBlocks (raw : ℕ → Bytes) (pba : ℕ) : ℕ → Bytes := fun i => raw ((pba + i) % 2 ^ 64)

/-- `merge_read_io`, where the allocations succeed, with what the read brings. -/
def mergeReadIo (raw : ℕ → Bytes) (blks : ℕ → BlkInfo κ) (start stop : ℕ) : DiskioCtx κ where
  blkStart := (blks start).record.pba
  blkCount := stop - start + 1
  ioBuffer := jindiskReadBlocks raw (blks start).record.pba
  infos i := blks (start + i)

/-- `decrypt_work` -/
def decryptWork (ctx : DiskioCtx κ) : List (DecryptCall κ) :=
  (List.range ctx.blkCount).map fun i =>
    ⟨(ctx.infos i).record.key, (ctx.infos i).record.mac, (ctx.infos i).record.pba, ctx.ioBuffer i,
      (ctx.infos i).pageAddr⟩

/-- The loop of `jindisk_do_read` over the collected blocks: the calls of `merge_read_io`. -/
def mergeLoop (blks : ℕ → BlkInfo κ) (ioCount rangeStart rangeEnd : ℕ) : List BlockRange :=
  if rangeEnd < ioCount then
    -- the last block ends its range whatever comes behind it in memory
    if rangeEnd + 1 ≠ ioCount ∧
        ((blks rangeEnd).record.pba + 1) % 2 ^ 64 = (blks (rangeEnd + 1)).record.pba then
      mergeLoop blks ioCount rangeStart (rangeEnd + 1)
    else (rangeStart, rangeEnd) :: mergeLoop blks ioCount (rangeEnd + 1) (rangeEnd + 1)
  else []
termination_by ioCount - rangeEnd

/-- The blocks of a range. -/
def rangeBlocks (r : BlockRange) : List ℕ := List.range' r.1 (r.2 + 1 - r.1)

variable {blks : ℕ → BlkInfo κ} {ioCount rangeStart rangeEnd : ℕ}

/-- The blocks from `i` to `j` lie one behind the other. -/
def Consecutive (blks : ℕ → BlkInfo κ) (i j : ℕ) : Prop :=
  ∀ k, i ≤ k → k < j → (blks (k + 1)).record.pba = ((blks k).record.pba + 1) % 2 ^ 64

/-- **The ranges**: one behind the other, from `range_start` to the end, and the blocks of each are
consecutive. -/
theorem mergeLoop_spec (hle : rangeStart ≤ rangeEnd)
    (hend : rangeEnd < ioCount ∨ ioCount ≤ rangeStart)
    (hrun : Consecutive blks rangeStart rangeEnd) :
    (mergeLoop blks ioCount rangeStart rangeEnd).flatMap rangeBlocks =
        List.range' rangeStart (ioCount - rangeStart) ∧
      ∀ r ∈ mergeLoop blks ioCount rangeStart rangeEnd,
        r.1 ≤ r.2 ∧ r.2 < ioCount ∧ Consecutive blks r.1 r.2 := by
  fun_induction mergeLoop blks ioCount rangeStart rangeEnd with
  | case1 rangeStart rangeEnd hlt hnext ih =>
    refine ih (Nat.le_succ_of_le hle) (Or.inl (by omega)) fun k hk hkend => ?_
    rcases Nat.lt_succ_iff_lt_or_eq.mp hkend with hin | rfl
    · exact hrun k hk hin
    · exact hnext.2.symm
  | case2 rangeStart rangeEnd hlt hstop ih =>
    obtain ⟨hcover, hranges⟩ := ih le_rfl (by omega) fun k hk hkend => absurd hkend (by omega)
    constructor
    · rw [List.flatMap_cons, hcover, rangeBlocks]
      have hsum : rangeStart + 1 * (rangeEnd + 1 - rangeStart) = rangeEnd + 1 := by omega
      have hcount : ioCount - rangeStart =
          rangeEnd + 1 - rangeStart + (ioCount - (rangeEnd + 1)) := by omega
      rw [hcount, ← List.range'_append, hsum]
    · intro r hr
      rcases List.mem_cons.mp hr with rfl | hr
      · exact ⟨hle, hlt, hrun⟩
      · exact hranges r hr
  | case3 rangeStart rangeEnd hge =>
    have hcount : ioCount - rangeStart = 0 := by omega
    rw [hcount]
    exact ⟨rfl, fun r hr => absurd hr List.not_mem_nil⟩

/-- The decryption of a block, with what the disk has at its own address. -/
def blockCall (raw : ℕ → Bytes) (b : BlkInfo κ) : DecryptCall κ :=
  ⟨b.record.key, b.record.mac, b.record.pba, raw b.record.pba, b.pageAddr⟩

/-- In a run the addresses count up. -/
theorem Consecutive.pba_eq {i j : ℕ} (h : Consecutive blks i j)
    (hpba : (blks i).record.pba < 2 ^ 64) {k : ℕ} (hk : i + k ≤ j) :
    (blks (i + k)).record.pba = ((blks i).record.pba + k) % 2 ^ 64 := by
  induction k with
  | zero => exact (Nat.mod_eq_of_lt hpba).symm
  | succ k ih =>
    rw [← Nat.add_assoc, h (i + k) (Nat.le_add_right i k) (by omega), ih (by omega),
      Nat.mod_add_mod, Nat.add_assoc]

/-- What `decrypt_work` does for a run is what the blocks need one by one. -/
theorem decryptWork_mergeReadIo (raw : ℕ → Bytes) (blks : ℕ → BlkInfo κ) {r : BlockRange} (hle : r.1 ≤ r.2)
    (hrun : Consecutive blks r.1 r.2) (hpba : (blks r.1).record.pba < 2 ^ 64) :
    decryptWork (mergeReadIo raw blks r.1 r.2) =
      (rangeBlocks r).map fun i => blockCall raw (blks i) := by
  have hcount : r.2 + 1 - r.1 = r.2 - r.1 + 1 := by omega
  rw [rangeBlocks, hcount, List.range'_eq_map_range, List.map_map, decryptWork]
  refine List.map_congr_left fun k hk => ?_
  have hlt : k < r.2 - r.1 + 1 := List.mem_range.mp hk
  have haddr := hrun.pba_eq hpba (k := k) (by omega)
  simp only [Function.comp_apply, mergeReadIo, jindiskReadBlocks, blockCall, haddr]

/-- Of a single block there is a single call. -/
theorem decryptWork_single (raw : ℕ → Bytes) (b : BlkInfo κ) (hpba : b.record.pba < 2 ^ 64) :
    decryptWork (mergeReadIo raw (fun _ => b) 0 0) = [blockCall raw b] := by
  refine (decryptWork_mergeReadIo raw (fun _ => b) (r := (0, 0)) le_rfl (fun k _ hk => ?_) hpba).trans
    rfl
  exact absurd hk (Nat.not_lt_zero k)

/-- **Merged reads are reads of the blocks.** The ranges are the blocks in order, without gap or
overlap, each a run of consecutive addresses, and what `decrypt_work` does for the ranges is what it
does for reads of the blocks one by one. -/
theorem merged_reads (raw : ℕ → Bytes) (blks : ℕ → BlkInfo κ) (ioCount : ℕ)
    (hpba : ∀ i < ioCount, (blks i).record.pba < 2 ^ 64) :
    (mergeLoop blks ioCount 0 0).flatMap rangeBlocks = List.range ioCount ∧
      (∀ r ∈ mergeLoop blks ioCount 0 0, r.1 ≤ r.2 ∧ Consecutive blks r.1 r.2) ∧
      (mergeLoop blks ioCount 0 0).flatMap (fun r => decryptWork (mergeReadIo raw blks r.1 r.2)) =
        (List.range ioCount).flatMap
          (fun i => decryptWork (mergeReadIo raw (fun _ => blks i) 0 0)) ∧
      (List.range ioCount).flatMap (fun i => decryptWork (mergeReadIo raw (fun _ => blks i) 0 0)) =
        (List.range ioCount).map fun i => blockCall raw (blks i) := by
  have hend : 0 < ioCount ∨ ioCount ≤ 0 := Nat.lt_or_ge 0 ioCount
  have hrun : Consecutive blks 0 0 := fun k _ hk => absurd hk (Nat.not_lt_zero k)
  obtain ⟨hcover, hranges⟩ := mergeLoop_spec (Nat.le_refl 0) hend hrun
  rw [Nat.sub_zero, ← List.range_eq_range'] at hcover
  have hsingle : (List.range ioCount).flatMap
      (fun i => decryptWork (mergeReadIo raw (fun _ => blks i) 0 0)) =
        (List.range ioCount).map fun i => blockCall raw (blks i) := by
    rw [List.map_eq_flatMap]
    exact List.flatMap_congr fun i hi =>
      decryptWork_single raw (blks i) (hpba i (List.mem_range.mp hi))
  have hmerged : (mergeLoop blks ioCount 0 0).flatMap
      (fun r => decryptWork (mergeReadIo raw blks r.1 r.2)) =
        (List.range ioCount).map fun i => blockCall raw (blks i) := by
    rw [← hcover, List.map_flatMap]
    refine List.flatMap_congr fun r hr => ?_
    obtain ⟨hle, hlt, hrun⟩ := hranges r hr
    exact decryptWork_mergeReadIo raw blks hle hrun (hpba r.1 (hle.trans_lt hlt))
  exact ⟨hcover, fun r hr => ⟨(hranges r hr).1, (hranges r hr).2.2⟩, hmerged.trans hsingle.symm,
    hsingle⟩

/-- Blocks at 7, 8 and 3. -/
def threeBlks : ℕ → BlkInfo Unit := fun i => ⟨i, ⟨[7, 8, 3].getD i 0, [], ()⟩, i⟩

/-- They are read in two ranges. -/
theorem merged_reads_sample :
    (∀ i < 3, (threeBlks i).record.pba < 2 ^ 64) ∧
      (mergeLoop threeBlks 3 0 0).flatMap rangeBlocks = [0, 1, 2] ∧
      ((mergeLoop threeBlks 3 0 0).flatMap fun r =>
        decryptWork (mergeReadIo (fun _ => []) threeBlks r.1 r.2)).length = 3 := by
  have hpba : ∀ i < 3, (threeBlks i).record.pba < 2 ^ 64 := by decide
  obtain ⟨hcover, -, hmerged, hsingle⟩ := merged_reads (fun _ => []) threeBlks 3 hpba
  refine ⟨hpba, hcover, ?_⟩
  rw [hmerged, hsingle]
  rfl

/-- The loop makes the ranges of `mergedRanges`, as long as no address is followed by 0. -/
theorem mergeLoop_eq_mergeFrom (hpba : ∀ i < ioCount, (blks i).record.pba < infAddr) :
    mergeLoop blks ioCount rangeStart rangeEnd = mergeFrom rangeStart rangeEnd
      ((List.range' rangeEnd (ioCount - rangeEnd)).map fun i => (blks i).record.pba) := by
  have hnext : ∀ i < ioCount, ((blks i).record.pba + 1) % 2 ^ 64 = (blks i).record.pba + 1 := by
    intro i hi
    have hlt := hpba i hi
    rw [infAddr] at hlt
    exact Nat.mod_eq_of_lt (by omega)
  have hsplit : ∀ i < ioCount, List.range' i (ioCount - i) =
      i :: List.range' (i + 1) (ioCount - (i + 1)) := by
    intro i hi
    rw [show ioCount - i = ioCount - (i + 1) + 1 by omega, List.range'_succ]
  fun_induction mergeLoop blks ioCount rangeStart rangeEnd with
  | case1 rangeStart rangeEnd hlt hmerge ih =>
    have hlt' : rangeEnd + 1 < ioCount := Nat.lt_of_le_of_ne hlt hmerge.1
    rw [ih, eq_comm, hsplit rangeEnd hlt, hsplit (rangeEnd + 1) hlt', List.map_cons, List.map_cons,
      mergeFrom, if_pos ((hnext rangeEnd hlt).symm.trans hmerge.2)]
  | case2 rangeStart rangeEnd hlt hstop ih =>
    rw [ih, hsplit rangeEnd hlt]
    by_cases hlast : rangeEnd + 1 = ioCount
    · rw [hlast, Nat.sub_self]
      rfl
    · have hlt' : rangeEnd + 1 < ioCount := Nat.lt_of_le_of_ne hlt hlast
      have hgap : (blks rangeEnd).record.pba + 1 ≠ (blks (rangeEnd + 1)).record.pba :=
        fun heq => hstop ⟨hlast, (hnext rangeEnd hlt).trans heq⟩
      rw [eq_comm, hsplit (rangeEnd + 1) hlt', List.map_cons, List.map_cons, mergeFrom, if_neg hgap]
  | case3 rangeStart rangeEnd hge =>
    rw [show ioCount - rangeEnd = 0 by omega]
    rfl

theorem mergeLoop_eq_mergedRanges (hpba : ∀ i < ioCount, (blks i).record.pba < infAddr) :
    mergeLoop blks ioCount 0 0 =
      mergedRanges ((List.range ioCount).map fun i => (blks i).record.pba) := by
  rw [mergeLoop_eq_mergeFrom hpba, Nat.sub_zero, ← List.range_eq_range', mergedRanges]

end JinDisk
