import Mathlib.Data.Finset.Card
import Mathlib.Data.Fintype.Card
import Mathlib.Data.List.FinRange
import JinDisk.Metadata
import JinDisk.SegmentBuffer

/-!
# The data segment table

`struct dst` of `metadata.c`: for every segment the number of valid blocks and a bitmap of
them, the victims, and the segment that threaded logging is filling. A victim is a copy of
an entry, made when a block of the segment is returned; it is what garbage collection goes
by. The victims stand in a red-black tree ordered by the number of valid blocks, an equal
one to the right, and `node_list` leads from a segment to its victim. Here they are a list
in the order of the tree, with at most one victim for a segment.

`dst_find_logging_block` also allocates segments, so it works on the tables together: the
table of segments in use, the data segment table and the counter of segments in use.
-/

namespace JinDisk

theorem blocksPerSegment_pos : 0 < blocksPerSegment := by decide

/-- The position of a block in its segment. -/
abbrev Offset : Type := Fin blocksPerSegment

/-- `__block_to_segment` -/
def blockToSegment (pba : ℕ) : ℕ := pba / blocksPerSegment

/-- `__block_offset_whthin_segment` -/
def blockOffset (pba : ℕ) : Offset := ⟨pba % blocksPerSegment, Nat.mod_lt _ blocksPerSegment_pos⟩

/-- The address of a block. -/
def blockAddr (segno : ℕ) (offset : Offset) : ℕ := segno * blocksPerSegment + offset

@[simp] theorem blockToSegment_blockAddr (segno : ℕ) (offset : Offset) :
    blockToSegment (blockAddr segno offset) = segno := by
  rw [blockToSegment, blockAddr]
  rw [Nat.mul_comm, Nat.mul_add_div blocksPerSegment_pos, Nat.div_eq_of_lt offset.isLt,
    Nat.add_zero]

@[simp] theorem blockOffset_blockAddr (segno : ℕ) (offset : Offset) :
    blockOffset (blockAddr segno offset) = offset := by
  refine Fin.ext ?_
  rw [blockOffset, blockAddr]
  simp only [Nat.mul_comm segno, Nat.mul_add_mod, Nat.mod_eq_of_lt offset.isLt]

/-- `struct dst_entry` -/
structure DstEntry where
  /-- `nr_valid_block` -/
  nrValidBlock : ℕ
  /-- `block_validity_table` -/
  blockValidityTable : Finset Offset
  deriving DecidableEq

namespace DstEntry

/-- An entry of a formatted table. -/
def zero : DstEntry := ⟨0, ∅⟩

/-- The entry of a segment all of whose blocks are taken. -/
def full : DstEntry := ⟨blocksPerSegment, Finset.univ⟩

/-- The counter is the number of bits. -/
def Counted (e : DstEntry) : Prop := e.nrValidBlock = e.blockValidityTable.card

/-- `find_first_zero_bit`; `none` when all bits are set. -/
def findFirstZeroBit (e : DstEntry) : Option Offset :=
  (List.finRange blocksPerSegment).find? fun o => o ∉ e.blockValidityTable

theorem findFirstZeroBit_some {e : DstEntry} {o : Offset} (h : e.findFirstZeroBit = some o) :
    o ∉ e.blockValidityTable := by
  simpa using List.find?_some h

theorem findFirstZeroBit_of_empty {e : DstEntry} (h : e.blockValidityTable = ∅) :
    e.findFirstZeroBit = some ⟨0, blocksPerSegment_pos⟩ := by
  have hfirst : ∀ (n : ℕ) (hn : 0 < n), (List.finRange n).find? (fun _ => true) = some ⟨0, hn⟩ := by
    intro n hn
    obtain ⟨m, rfl⟩ := Nat.exists_eq_succ_of_ne_zero (Nat.ne_of_gt hn)
    rw [List.finRange_succ]
    rfl
  rw [findFirstZeroBit]
  simp only [h, Finset.notMem_empty, not_false_eq_true, decide_true]
  exact hfirst _ _

/-- What taking the block does to the entry. -/
def setBit (e : DstEntry) (o : Offset) : DstEntry :=
  ⟨e.nrValidBlock + 1, insert o e.blockValidityTable⟩

/-- `test_and_clear_bit` and the counter. -/
def clearBit (e : DstEntry) (o : Offset) : DstEntry :=
  if o ∈ e.blockValidityTable then ⟨e.nrValidBlock - 1, e.blockValidityTable.erase o⟩ else e

theorem counted_zero : zero.Counted := rfl

theorem counted_full : full.Counted := by simp [Counted, full]

theorem Counted.setBit {e : DstEntry} (h : e.Counted) {o : Offset}
    (ho : o ∉ e.blockValidityTable) : (e.setBit o).Counted := by
  rw [Counted] at h ⊢
  simp only [DstEntry.setBit, Finset.card_insert_of_notMem ho, h]

theorem Counted.clearBit {e : DstEntry} (h : e.Counted) (o : Offset) : (e.clearBit o).Counted := by
  rw [DstEntry.clearBit]
  split
  · rename_i ho
    rw [Counted] at h ⊢
    simp only [Finset.card_erase_of_mem ho, h]
  · exact h

theorem Counted.eq_empty {e : DstEntry} (h : e.Counted) (hzero : e.nrValidBlock = 0) :
    e.blockValidityTable = ∅ :=
  Finset.card_eq_zero.mp (h.symm.trans hzero)

theorem Counted.le {e : DstEntry} (h : e.Counted) : e.nrValidBlock ≤ blocksPerSegment := by
  rw [h]
  exact Finset.card_le_univ e.blockValidityTable |>.trans_eq (Fintype.card_fin _)

end DstEntry

/-- `struct victim` -/
structure Victim where
  /-- the segment -/
  segno : ℕ
  /-- the copied entry -/
  entry : DstEntry
  deriving DecidableEq

/-- `struct dst` -/
structure Dst where
  /-- number of segments -/
  nrSegment : ℕ
  /-- the entries -/
  array : ℕ → DstEntry
  /-- the victims in tree order -/
  victims : List Victim
  /-- `logging_segno`, `none` for `INF_ADDR` -/
  loggingSegno : Option ℕ

namespace Dst

/-- `dst_format` -/
def format (nrSegment : ℕ) : Dst := ⟨nrSegment, fun _ => .zero, [], none⟩

/-- `rb_add` with `victim_less`: after the victims with at most as many valid blocks. -/
def insertVictim (v : Victim) (vs : List Victim) : List Victim :=
  (vs.takeWhile fun w => w.entry.nrValidBlock ≤ v.entry.nrValidBlock) ++
    v :: vs.dropWhile fun w => w.entry.nrValidBlock ≤ v.entry.nrValidBlock

/-- `dst_destroy_victim` -/
def destroyVictim (d : Dst) (segno : ℕ) : Dst :=
  { d with victims := d.victims.filter fun v => v.segno ≠ segno }

/-- `dst_update_victim` -/
def updateVictim (d : Dst) (segno : ℕ) (entry : DstEntry) : Dst :=
  if blocksPerSegment ≤ entry.nrValidBlock then d.destroyVictim segno
  else
    { d with
      victims := insertVictim ⟨segno, entry⟩ (d.victims.filter fun v => v.segno ≠ segno) }

/-- The array's `set`. -/
def setEntry (d : Dst) (segno : ℕ) (entry : DstEntry) : Dst :=
  { d with array := Function.update d.array segno entry }

/-- `dst_take_segment` -/
def takeSegment (d : Dst) (segno : ℕ) : Option Dst :=
  if segno < d.nrSegment ∧ (d.array segno).nrValidBlock = 0 then
    some ((d.setEntry segno .full).destroyVictim segno)
  else none

/-- `dst_return_segment` -/
def returnSegment (d : Dst) (segno : ℕ) : Dst :=
  if segno < d.nrSegment then (d.setEntry segno .zero).destroyVictim segno else d

/-- `dst_return_block` -/
def returnBlock (d : Dst) (pba : ℕ) : Dst :=
  if blockToSegment pba < d.nrSegment ∧ (d.array (blockToSegment pba)).nrValidBlock ≠ 0 then
    let entry := (d.array (blockToSegment pba)).clearBit (blockOffset pba)
    (d.setEntry (blockToSegment pba) entry).updateVictim (blockToSegment pba) entry
  else d

/-- `dst_pop_victim` -/
def popVictim (d : Dst) : Option Victim × Dst :=
  (d.victims.head?, { d with victims := d.victims.tail })

/-- The bit of a block. -/
def validBit (d : Dst) (pba : ℕ) : Prop :=
  blockOffset pba ∈ (d.array (blockToSegment pba)).blockValidityTable

@[simp] theorem destroyVictim_array (d : Dst) (segno : ℕ) :
    (d.destroyVictim segno).array = d.array := rfl

@[simp] theorem updateVictim_array (d : Dst) (segno : ℕ) (e : DstEntry) :
    (d.updateVictim segno e).array = d.array := by
  rw [updateVictim]
  split <;> rfl

@[simp] theorem updateVictim_nrSegment (d : Dst) (segno : ℕ) (e : DstEntry) :
    (d.updateVictim segno e).nrSegment = d.nrSegment := by
  rw [updateVictim]
  split <;> rfl

@[simp] theorem updateVictim_loggingSegno (d : Dst) (segno : ℕ) (e : DstEntry) :
    (d.updateVictim segno e).loggingSegno = d.loggingSegno := by
  rw [updateVictim]
  split <;> rfl

theorem mem_destroyVictim {d : Dst} {segno : ℕ} {v : Victim} :
    v ∈ (d.destroyVictim segno).victims ↔ v ∈ d.victims ∧ v.segno ≠ segno := by
  simp [destroyVictim]

theorem mem_insertVictim {v w : Victim} {vs : List Victim} :
    w ∈ insertVictim v vs ↔ w = v ∨ w ∈ vs := by
  have hsplit : w ∈ vs ↔
      (w ∈ vs.takeWhile fun u => u.entry.nrValidBlock ≤ v.entry.nrValidBlock) ∨
        w ∈ vs.dropWhile fun u => u.entry.nrValidBlock ≤ v.entry.nrValidBlock := by
    rw [← List.mem_append, List.takeWhile_append_dropWhile]
  rw [insertVictim, List.mem_append, List.mem_cons, hsplit]
  exact or_left_comm

theorem mem_updateVictim {d : Dst} {segno : ℕ} {e : DstEntry} {v : Victim}
    (h : v ∈ (d.updateVictim segno e).victims) :
    v = ⟨segno, e⟩ ∨ v ∈ d.victims ∧ v.segno ≠ segno := by
  rw [updateVictim] at h
  split at h
  · exact Or.inr (mem_destroyVictim.mp h)
  · rcases mem_insertVictim.mp h with rfl | h
    · exact Or.inl rfl
    · exact Or.inr (by simpa using h)

/-- What `dst_take_segment` does when it succeeds. -/
theorem takeSegment_some {d d' : Dst} {segno : ℕ} (h : d.takeSegment segno = some d') :
    segno < d.nrSegment ∧ (d.array segno).nrValidBlock = 0 ∧
      d' = (d.setEntry segno .full).destroyVictim segno := by
  rw [takeSegment] at h
  split at h
  · rename_i hok
    exact ⟨hok.1, hok.2, (Option.some.inj h).symm⟩
  · cases h

/-- What `dst_return_block` does. -/
theorem returnBlock_cases (d : Dst) (pba : ℕ) :
    d.returnBlock pba = d ∨
      ∃ e, blockToSegment pba < d.nrSegment ∧ (d.array (blockToSegment pba)).nrValidBlock ≠ 0 ∧
        e = (d.array (blockToSegment pba)).clearBit (blockOffset pba) ∧
        d.returnBlock pba =
          (d.setEntry (blockToSegment pba) e).updateVictim (blockToSegment pba) e := by
  rw [returnBlock]
  split
  · rename_i hok
    exact Or.inr ⟨_, hok.1, hok.2, rfl, rfl⟩
  · exact Or.inl rfl

theorem returnSegment_cases (d : Dst) (segno : ℕ) :
    d.returnSegment segno = d ∨
      d.returnSegment segno = (d.setEntry segno .zero).destroyVictim segno := by
  rw [returnSegment]
  split
  · exact Or.inr rfl
  · exact Or.inl rfl

/-- The counters are right. -/
def Counted (d : Dst) : Prop := ∀ segno, (d.array segno).Counted

theorem Counted.setEntry {d : Dst} (h : d.Counted) (segno : ℕ) {e : DstEntry} (he : e.Counted) :
    (d.setEntry segno e).Counted := by
  intro i
  simp only [Dst.setEntry, Function.update_apply]
  split
  · exact he
  · exact h i

theorem Counted.returnBlock {d : Dst} (h : d.Counted) (pba : ℕ) : (d.returnBlock pba).Counted := by
  rcases d.returnBlock_cases pba with heq | ⟨e, -, -, rfl, heq⟩
  · rw [heq]
    exact h
  · rw [heq]
    intro i
    rw [updateVictim_array]
    exact h.setEntry _ ((h _).clearBit _) i

theorem Counted.returnSegment {d : Dst} (h : d.Counted) (segno : ℕ) :
    (d.returnSegment segno).Counted := by
  rcases d.returnSegment_cases segno with heq | heq
  · rw [heq]
    exact h
  · rw [heq]
    exact h.setEntry segno DstEntry.counted_zero

end Dst

/-- The tables of segments. -/
structure SegmentTables where
  /-- `seg_validator` -/
  svt : SegValidator
  /-- `dst` -/
  dst : Dst
  /-- the allocator's `nr_valid_segment` -/
  nrValidSegment : ℕ

/-- The number of free places. -/
def SegValidator.free (t : SegValidator) : ℕ :=
  ((Finset.range t.nrSegment).filter fun i => t.valid i = false).card

/-- The number of places in use. -/
def SegValidator.used (t : SegValidator) : ℕ :=
  ((Finset.range t.nrSegment).filter fun i => t.valid i = true).card

namespace SegValidator

/-- Taking a free place, in terms of the table. -/
theorem take_some {t t' : SegValidator} {seg : ℕ} (h : t.take seg = some t') :
    seg < t.nrSegment ∧ t'.nrSegment = t.nrSegment ∧ t'.valid = Function.update t.valid seg true := by
  rw [take] at h
  split at h
  · rename_i hlt
    obtain rfl := Option.some.inj h
    exact ⟨hlt, rfl, rfl⟩
  · cases h

theorem free_lt {t t' : SegValidator} {seg : ℕ} (hlt : seg < t.nrSegment)
    (hfree : t.valid seg = false) (hnr : t'.nrSegment = t.nrSegment)
    (hvalid : t'.valid = Function.update t.valid seg true) : t'.free < t.free := by
  rw [free, hnr, hvalid]
  have hsub : ((Finset.range t.nrSegment).filter fun i => Function.update t.valid seg true i = false)
      ⊆ (Finset.range t.nrSegment).filter fun i => t.valid i = false := by
    intro i hi
    rw [Finset.mem_filter, Function.update_apply] at hi
    split at hi
    · exact Bool.noConfusion hi.2
    · exact Finset.mem_filter.mpr hi
  refine Finset.card_lt_card ((Finset.ssubset_iff_of_subset hsub).mpr ⟨seg, ?_, ?_⟩)
  · simp [hlt, hfree]
  · simp

theorem used_congr {t t' : SegValidator} (hnr : t'.nrSegment = t.nrSegment)
    (hvalid : t'.valid = t.valid) : t'.used = t.used := by
  unfold used
  rw [hnr, hvalid]

theorem used_take {t t' : SegValidator} {seg : ℕ} (hlt : seg < t.nrSegment)
    (hfree : t.valid seg = false) (hnr : t'.nrSegment = t.nrSegment)
    (hvalid : t'.valid = Function.update t.valid seg true) : t'.used = t.used + 1 := by
  have hinsert : ((Finset.range t.nrSegment).filter fun i => Function.update t.valid seg true i = true)
      = insert seg ((Finset.range t.nrSegment).filter fun i => t.valid i = true) := by
    ext i
    rw [Finset.mem_insert, Finset.mem_filter, Finset.mem_filter, Function.update_apply]
    split
    · rename_i hi
      simp [hi, hlt]
    · rename_i hi
      simp [hi]
  unfold used
  rw [hnr, hvalid, hinsert, Finset.card_insert_of_notMem (by simp [hfree])]

theorem used_testAndReturn {t : SegValidator} {seg : ℕ} (hlt : seg < t.nrSegment)
    (hvalid : t.valid seg = true) : (t.testAndReturn seg).used + 1 = t.used := by
  have herase : ((Finset.range t.nrSegment).filter fun i => Function.update t.valid seg false i = true)
      = ((Finset.range t.nrSegment).filter fun i => t.valid i = true).erase seg := by
    ext i
    rw [Finset.mem_erase, Finset.mem_filter, Finset.mem_filter, Function.update_apply]
    split
    · rename_i hi
      simp [hi]
    · rename_i hi
      simp [hi]
  unfold testAndReturn
  rw [if_pos hlt]
  unfold used
  rw [herase, Finset.card_erase_add_one (by simp [hlt, hvalid])]

end SegValidator

namespace SegmentTables

/-- A formatted device. -/
def format (nrSegment : ℕ) : SegmentTables := ⟨.format nrSegment, .format nrSegment, 0⟩

/-- The segment of the last victim becomes the logging segment. -/
def pickVictim (t : SegmentTables) (segno : ℕ) : SegmentTables :=
  { t with dst := { t.dst.destroyVictim segno with loggingSegno := some segno } }

/-- A segment that `seg_validator` gave out becomes the logging segment. -/
def pickSegment (t : SegmentTables) (segno : ℕ) (svt : SegValidator) : SegmentTables :=
  ⟨svt, { t.dst with loggingSegno := some segno }, t.nrValidSegment + 1⟩

/-- The first part of the `retry` loop of `dst_find_logging_block`: the logging segment, if
there is or can be one. -/
def pickLogging (t : SegmentTables) : Option ℕ × SegmentTables :=
  match t.dst.loggingSegno with
  | some segno => (some segno, t)
  | none =>
    match t.dst.victims.getLast? with
    | some v => (some v.segno, t.pickVictim v.segno)
    | none =>
      match t.svt.next with
      | (none, svt) => (none, { t with svt })
      | (some segno, svt) =>
        match svt.take segno with
        | some svt' => (some segno, t.pickSegment segno svt')
        | none => (none, { t with svt, dst := { t.dst with loggingSegno := some segno } })

/-- The logging segment is full. -/
def dropLogging (t : SegmentTables) (segno : ℕ) : SegmentTables :=
  { t with dst := { t.dst.destroyVictim segno with loggingSegno := none } }

/-- A block of the logging segment is handed out. -/
def handOut (t : SegmentTables) (segno : ℕ) (offset : Offset) : SegmentTables :=
  { t with dst := t.dst.setEntry segno ((t.dst.array segno).setBit offset) }

/-- How many rounds the loop can still make. -/
def rounds (t : SegmentTables) : ℕ :=
  2 * (t.dst.victims.length + t.svt.free) + if t.dst.loggingSegno.isSome then 1 else 0

/-- One pass through the `retry` loop of `dst_find_logging_block`: the result, or the tables for
the next pass. -/
def loggingRound (t : SegmentTables) : Sum (Option ℕ × SegmentTables) SegmentTables :=
  match t.pickLogging with
  | (none, t') => .inl (none, t')
  | (some segno, t') =>
    if t'.dst.nrSegment ≤ segno then .inl (none, t')
    else if blocksPerSegment ≤ (t'.dst.array segno).nrValidBlock then .inr (t'.dropLogging segno)
    else
      match (t'.dst.array segno).findFirstZeroBit with
      | none => .inr (t'.dropLogging segno)
      | some offset => .inl (some (blockAddr segno offset), t'.handOut segno offset)

/-- What `pickLogging` can do when it comes to a segment. -/
theorem pickLogging_some {t t' : SegmentTables} {segno : ℕ}
    (h : t.pickLogging = (some segno, t')) :
    (t.dst.loggingSegno = some segno ∧ t' = t) ∨
      (t.dst.loggingSegno = none ∧ (∃ v ∈ t.dst.victims, v.segno = segno) ∧
        t' = t.pickVictim segno) ∨
      (t.dst.loggingSegno = none ∧ t.dst.victims = [] ∧ segno < t.svt.nrSegment ∧
        t.svt.valid segno = false ∧ ∃ svt : SegValidator, svt.nrSegment = t.svt.nrSegment ∧
          svt.valid = Function.update t.svt.valid segno true ∧ t' = t.pickSegment segno svt) := by
  rw [pickLogging] at h
  split at h
  · rename_i hlog
    obtain ⟨rfl, rfl⟩ := h
    exact Or.inl ⟨hlog, rfl⟩
  · rename_i hlog
    split at h
    · rename_i v hv
      obtain ⟨rfl, rfl⟩ := h
      exact Or.inr (Or.inl ⟨hlog, ⟨v, List.mem_of_getLast? hv, rfl⟩, rfl⟩)
    · rename_i hv
      split at h
      · cases h
      · rename_i seg svt hnext
        obtain ⟨hlt, hfree, hnr, hvalid⟩ := SegValidator.next_some hnext
        split at h
        · rename_i svt' htake
          obtain ⟨rfl, rfl⟩ := h
          obtain ⟨-, hnr', hvalid'⟩ := SegValidator.take_some htake
          exact Or.inr (Or.inr ⟨hlog, List.getLast?_eq_none_iff.mp hv, hlt, hfree, svt',
            hnr'.trans hnr, hvalid'.trans (by rw [hvalid]), rfl⟩)
        · cases h

/-- A pass that ends in `retry` has picked a segment and found no clear bit in its entry. -/
theorem loggingRound_inr {t t' : SegmentTables} (h : t.loggingRound = .inr t') :
    ∃ segno u, t.pickLogging = (some segno, u) ∧ t' = u.dropLogging segno ∧
      (blocksPerSegment ≤ (u.dst.array segno).nrValidBlock ∨
        (u.dst.array segno).findFirstZeroBit = none) := by
  rw [loggingRound] at h
  split at h
  · cases h
  · rename_i segno u hpick
    refine ⟨segno, u, hpick, ?_⟩
    split at h
    · cases h
    · split at h
      · rename_i hge
        exact ⟨(Sum.inr.inj h).symm, Or.inl hge⟩
      · split at h
        · rename_i hzero
          exact ⟨(Sum.inr.inj h).symm, Or.inr hzero⟩
        · cases h

/-- After such a pass there is less to pick from. -/
theorem loggingRound_rounds {t t' : SegmentTables} (h : t.loggingRound = .inr t') :
    t'.rounds < t.rounds := by
  obtain ⟨segno, u, hpick, rfl, -⟩ := loggingRound_inr h
  unfold rounds
  simp only [dropLogging, Dst.destroyVictim, Option.isSome_none, Bool.false_eq_true, if_false]
  rcases pickLogging_some hpick with ⟨hlog, rfl⟩ | ⟨hlog, ⟨v, hv, rfl⟩, rfl⟩ |
    ⟨hlog, hempty, hlt, hfree, svt, hnr, hvalid, rfl⟩
  · have hle := List.length_filter_le (fun v : Victim => v.segno ≠ segno) u.dst.victims
    simp only [hlog, Option.isSome_some, if_true]
    omega
  · have hlen : ((t.dst.victims.filter fun w => w.segno ≠ v.segno).filter
        fun w => w.segno ≠ v.segno).length < t.dst.victims.length :=
      Nat.lt_of_le_of_lt (List.length_filter_le _ _)
        (List.length_filter_lt_length_iff_exists.mpr ⟨v, hv, by simp⟩)
    simp only [pickVictim, Dst.destroyVictim] at hlen ⊢
    omega
  · have hfewer := SegValidator.free_lt hlt hfree hnr hvalid
    simp only [pickSegment, hempty, List.filter_nil, List.length_nil]
    omega

/-- `dst_find_logging_block`: the block, if one is found, and the tables afterwards. -/
def findLoggingBlock (t : SegmentTables) : Option ℕ × SegmentTables :=
  match _h : t.loggingRound with
  | .inl res => res
  | .inr t' => t'.findLoggingBlock
termination_by t.rounds
decreasing_by exact loggingRound_rounds _h

/-- The segment that is picked has a free block. -/
theorem findLoggingBlock_of_pick {t t' : SegmentTables} {segno : ℕ} {o : Offset}
    (hpick : t.pickLogging = (some segno, t')) (hlt : segno < t'.dst.nrSegment)
    (hroom : (t'.dst.array segno).nrValidBlock < blocksPerSegment)
    (hzero : (t'.dst.array segno).findFirstZeroBit = some o) :
    t.findLoggingBlock = (some (blockAddr segno o), t'.handOut segno o) := by
  have hround : t.loggingRound = .inl (some (blockAddr segno o), t'.handOut segno o) := by
    simp [loggingRound, hpick, Nat.not_le.mpr hlt, Nat.not_le.mpr hroom, hzero]
  rw [findLoggingBlock]
  split
  · rename_i res h
    exact (Sum.inl.inj (hround.symm.trans h)).symm
  · rename_i t'' h
    rw [hround] at h
    cases h

/-- What is kept by each thing that `dst_find_logging_block` does. -/
structure LoggingClosed (P : SegmentTables → Prop) : Prop where
  /-- the search for a free segment moves its starting point -/
  search : ∀ t (svt : SegValidator), svt.nrSegment = t.svt.nrSegment → svt.valid = t.svt.valid →
    P t → P { t with svt }
  /-- a victim is picked -/
  victim : ∀ t, ∀ v ∈ t.dst.victims, t.dst.loggingSegno = none → P t → P (t.pickVictim v.segno)
  /-- a free segment is picked -/
  segment : ∀ t segno (svt : SegValidator), t.dst.loggingSegno = none → t.dst.victims = [] →
    segno < t.svt.nrSegment → t.svt.valid segno = false → svt.nrSegment = t.svt.nrSegment →
    svt.valid = Function.update t.svt.valid segno true → P t → P (t.pickSegment segno svt)
  /-- a full segment is dropped -/
  drop : ∀ t segno, t.dst.loggingSegno = some segno → P t → P (t.dropLogging segno)

/-- A failed pick moves the starting point of the search. -/
theorem pickLogging_none {t t' : SegmentTables} (h : t.pickLogging = (none, t')) :
    ∃ svt : SegValidator, svt.nrSegment = t.svt.nrSegment ∧ svt.valid = t.svt.valid ∧
      t' = { t with svt } := by
  rw [pickLogging] at h
  split at h
  · cases h
  · split at h
    · cases h
    · split at h
      · rename_i svt hnext
        obtain ⟨-, rfl⟩ := h
        exact ⟨svt, SegValidator.next_nrSegment hnext, SegValidator.next_valid hnext, rfl⟩
      · rename_i segno svt hnext
        obtain ⟨hlt, -, hnr, -⟩ := SegValidator.next_some hnext
        split at h
        · cases h
        · rename_i htake
          simp [SegValidator.take, hnr, hlt] at htake

/-- The logging segment that was picked is recorded. -/
theorem LoggingClosed.pick {P : SegmentTables → Prop} (hP : LoggingClosed P)
    {t t' : SegmentTables} {segno : ℕ} (ht : P t) (h : t.pickLogging = (some segno, t')) :
    P t' ∧ t'.dst.loggingSegno = some segno := by
  rcases pickLogging_some h with ⟨hlog, rfl⟩ | ⟨hlog, ⟨v, hv, rfl⟩, rfl⟩ |
    ⟨hlog, hempty, hlt, hfree, svt, hnr, hvalid, rfl⟩
  · exact ⟨ht, hlog⟩
  · exact ⟨hP.victim t v hv hlog ht, rfl⟩
  · exact ⟨hP.segment t segno svt hlog hempty hlt hfree hnr hvalid ht, rfl⟩

/-- A pass that ends in `retry`. -/
theorem LoggingClosed.retry {P : SegmentTables → Prop} (hP : LoggingClosed P)
    {t t' : SegmentTables} (ht : P t) (h : t.loggingRound = .inr t') : P t' := by
  obtain ⟨segno, u, hpick, rfl, -⟩ := loggingRound_inr h
  obtain ⟨hu, hlog⟩ := hP.pick ht hpick
  exact hP.drop u segno hlog hu

/-- **What `dst_find_logging_block` does.** It either finds nothing, or hands out a block that
was not valid, of a segment that is then the logging segment. -/
theorem LoggingClosed.find {P : SegmentTables → Prop} (hP : LoggingClosed P)
    {t t' : SegmentTables} {res : Option ℕ} (ht : P t) (h : t.findLoggingBlock = (res, t')) :
    (res = none ∧ P t') ∨
      ∃ u segno offset, P u ∧ u.dst.loggingSegno = some segno ∧ segno < u.dst.nrSegment ∧
        offset ∉ (u.dst.array segno).blockValidityTable ∧ res = some (blockAddr segno offset) ∧
        t' = u.handOut segno offset := by
  fun_induction findLoggingBlock t with
  | case1 t res' hround =>
    rw [loggingRound] at hround
    split at hround
    · rename_i u hpick
      obtain rfl := Sum.inl.inj hround
      obtain ⟨rfl, rfl⟩ := h
      obtain ⟨svt, hnr, hvalid, rfl⟩ := pickLogging_none hpick
      exact Or.inl ⟨rfl, hP.search t svt hnr hvalid ht⟩
    · rename_i segno u hpick
      obtain ⟨hu, hlog⟩ := hP.pick ht hpick
      split at hround
      · obtain rfl := Sum.inl.inj hround
        obtain ⟨rfl, rfl⟩ := h
        exact Or.inl ⟨rfl, hu⟩
      · rename_i hlt
        split at hround
        · cases hround
        · split at hround
          · cases hround
          · rename_i offset hzero
            obtain rfl := Sum.inl.inj hround
            obtain ⟨rfl, rfl⟩ := h
            exact Or.inr ⟨u, segno, offset, hu, hlog, Nat.lt_of_not_le hlt,
              DstEntry.findFirstZeroBit_some hzero, rfl, rfl⟩
  | case2 t u hround ih => exact ih (hP.retry ht hround) h

end SegmentTables

end JinDisk
