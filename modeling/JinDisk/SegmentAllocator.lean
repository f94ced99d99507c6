import JinDisk.SegmentTables
import JinDisk.Layout

/-!
# The segment allocator

`segment_allocator.c`, and how the tables of segments come back when a device is opened.

`sa_alloc` takes a segment in the table of segments in use, counts it, and only then takes it in
the data segment table. Each of the three steps can fail, and nothing is undone: a failure of the
last one leaves a segment behind that is in use and has no blocks.

The victims are not stored. `dst_load` makes one for every entry with some valid blocks and some
room, and the entry of a segment that was never taken is the same as that of a segment all of whose
blocks were returned.

Garbage collection runs when the number of segments in use reaches the number of segments the
target has, less a reserve. The difference is one of unsigned numbers.
-/

namespace JinDisk

open Arith (const)

/-! ## Metadata that cannot be accessed -/

/-- The accesses to the metadata that fail in a call of `sa_alloc`. -/
structure AllocFaults where
  /-- reads of the table of segments in use, in the first and in the second pass over it -/
  svtGet : Bool → ℕ → Bool
  /-- the write to it -/
  svtSet : Bool
  /-- the read of the entry -/
  dstGet : Bool
  /-- the write of the entry -/
  dstSet : Bool

/-- No access fails. -/
def AllocFaults.quiet : AllocFaults := ⟨fun _ _ => false, false, false, false⟩

namespace SegValidator

/-- The `while` loop of `seg_validator_next`. A place that cannot be read is passed over like one
that is in use. -/
def scanWith (t : SegValidator) (fails : ℕ → Bool) (cur : ℕ) : ℕ :=
  if cur < t.nrSegment then
    if fails cur || t.valid cur then t.scanWith fails (cur + 1) else cur
  else cur
termination_by t.nrSegment - cur

variable {t : SegValidator}

/-- The loop goes to the end exactly if there is no place that is free and can be read. -/
theorem scanWith_lt_iff {fails : ℕ → Bool} {cur : ℕ} :
    t.scanWith fails cur < t.nrSegment ↔
      ∃ seg, cur ≤ seg ∧ seg < t.nrSegment ∧ t.valid seg = false ∧ fails seg = false := by
  fun_induction scanWith t fails cur with
  | case1 cur hlt hpass ih =>
    rw [ih]
    constructor
    · rintro ⟨seg, hle, hseg⟩
      exact ⟨seg, (Nat.le_succ cur).trans hle, hseg⟩
    · rintro ⟨seg, hle, hseg, hfree, hread⟩
      refine ⟨seg, Nat.lt_of_le_of_ne hle fun heq => ?_, hseg, hfree, hread⟩
      rw [heq, hfree, hread] at hpass
      cases hpass
  | case2 cur hlt hstop =>
    simp only [Bool.or_eq_true, not_or, Bool.not_eq_true] at hstop
    exact iff_of_true hlt ⟨cur, le_rfl, hlt, hstop.2, hstop.1⟩
  | case3 cur hlt =>
    refine iff_of_false hlt ?_
    rintro ⟨seg, hle, hseg, -⟩
    exact hlt (hle.trans_lt hseg)

/-- Where it comes to rest before the end, the place is free. -/
theorem scanWith_free {fails : ℕ → Bool} {cur : ℕ} (h : t.scanWith fails cur < t.nrSegment) :
    t.valid (t.scanWith fails cur) = false := by
  fun_induction scanWith t fails cur with
  | case1 cur hlt hpass ih => exact ih h
  | case2 cur hlt hstop =>
    simp only [Bool.or_eq_true, not_or, Bool.not_eq_true] at hstop
    exact hstop.2
  | case3 cur hlt => exact absurd h hlt

end SegValidator

namespace SegmentTables

end SegmentTables

/-! ## The guard of garbage collection -/

/-- `FOREGROUND_GC_THRESHOLD` and `BACKGROUND_GC_THRESHOLD`, for a target of `len` sectors:
`NR_SEGMENT - NR_GC_PRESERVED` in `size_t`. -/
def gcThreshold (len : UInt64) : UInt64 := len / const sectorsPerSegment - const nrGcPreserved

/-- `sa_foreground_gc` and `sa_background_gc` go on behind their guard. -/
def SegmentTables.gcRuns (t : SegmentTables) (len : UInt64) : Bool :=
  !(UInt64.ofNat t.nrValidSegment < gcThreshold len)

/-- A table without a free place has all places in use. -/
theorem SegValidator.used_of_next_none {t : SegValidator} (h : t.next.1 = none) :
    t.used = t.nrSegment := by
  have hall : ∀ seg < t.nrSegment, t.valid seg = true := by
    intro seg hseg
    by_contra hfree
    have hle := scan_le (Nat.zero_le seg) (by simpa using hfree : t.valid seg = false)
    rw [next] at h
    split at h
    · cases h
    · rw [if_pos (hle.trans_lt hseg)] at h
      cases h
  rw [used, Finset.filter_true_of_mem fun i hi => hall i (Finset.mem_range.mp hi), Finset.card_range]

/-- **Garbage collection is enabled** when no segment is free, if and only if the target has at
least as many segments as are held in reserve. -/
theorem gc_enabled_iff (len : UInt64) {t : SegmentTables}
    (hnr : t.svt.nrSegment = (targetSegments len).toNat) (hcount : t.nrValidSegment = t.svt.used)
    (hfull : t.svt.next.1 = none) : t.gcRuns len = true ↔ nrGcPreserved ≤ len.toNat / sectorsPerSegment := by
  have hlen := len.toNat_lt
  have hdiv : (len / const sectorsPerSegment).toNat = len.toNat / 8192 := UInt64.toNat_div ..
  have hsegments : (targetSegments len).toNat = len.toNat / 8192 + 320 := by
    rw [targetSegments, UInt64.toNat_add, hdiv]
    show (len.toNat / 8192 + 320) % 2 ^ 64 = _
    exact Nat.mod_eq_of_lt (by omega)
  have hvalid : (UInt64.ofNat t.nrValidSegment).toNat = len.toNat / 8192 + 320 := by
    rw [hcount, SegValidator.used_of_next_none hfull, hnr, hsegments]
    exact UInt64.toNat_ofNat_of_lt' (by show _ < 2 ^ 64; omega)
  rw [SegmentTables.gcRuns, Bool.not_eq_true', decide_eq_false_iff_not, UInt64.lt_iff_toNat_lt,
    hvalid, gcThreshold, UInt64.toNat_sub, hdiv]
  show ¬_ < (2 ^ 64 - 320 + len.toNat / 8192) % 2 ^ 64 ↔ 320 ≤ len.toNat / 8192
  by_cases hreserve : 320 ≤ len.toNat / 8192
  · refine iff_of_true ?_ hreserve
    omega
  · refine iff_of_false ?_ hreserve
    omega

/-- All segments of a device are in use, with all their blocks. -/
def SegmentTables.allUsed (nrSegment : ℕ) : SegmentTables :=
  ⟨⟨nrSegment, fun _ => true, 0⟩, ⟨nrSegment, fun _ => .full, [], none⟩, nrSegment⟩

theorem SegmentTables.allUsed_count (nrSegment : ℕ) :
    (allUsed nrSegment).nrValidSegment = (allUsed nrSegment).svt.used := by
  have hall : (Finset.range nrSegment).filter (fun _ => true = true) = Finset.range nrSegment :=
    Finset.filter_true_of_mem fun _ _ => rfl
  exact (Finset.card_range nrSegment).symm.trans (congrArg Finset.card hall.symm)

theorem SegmentTables.allUsed_next (nrSegment : ℕ) : (allUsed nrSegment).svt.next.1 = none := by
  rcases hnext : (allUsed nrSegment).svt.next with ⟨_ | seg, svt⟩
  · rfl
  · obtain ⟨-, hfree, -⟩ := SegValidator.next_some hnext
    cases hfree

/-- A target with as many segments as are held in reserve. -/
theorem gc_enabled_iff_sample :
    totalSector (2621440 : UInt64) ≤ 2 ^ 30 ∧ (SegmentTables.allUsed 640).gcRuns 2621440 = true := by
  refine ⟨by decide +kernel, ?_⟩
  exact (gc_enabled_iff 2621440 rfl (SegmentTables.allUsed_count 640)
    (SegmentTables.allUsed_next 640)).mpr (by decide)

/-- **A small target collects nothing.** A target of ten segments is accepted. When all its
segments and the reserve are in use the guards hold garbage collection back. -/
theorem small_target_gc_disabled :
    totalSector (81920 : UInt64) ≤ 2 ^ 30 ∧
      (SegmentTables.allUsed 330).svt.nrSegment = (targetSegments (81920 : UInt64)).toNat ∧
      (SegmentTables.allUsed 330).nrValidSegment = (SegmentTables.allUsed 330).svt.used ∧
      (SegmentTables.allUsed 330).saAlloc.1 = none ∧
      (SegmentTables.allUsed 330).svt.next.1 = none ∧
      (SegmentTables.allUsed 330).gcRuns 81920 = false := by
  have hnext := SegmentTables.allUsed_next 330
  refine ⟨by decide +kernel, rfl, SegmentTables.allUsed_count 330, ?_, hnext, by decide⟩
  rcases hpair : (SegmentTables.allUsed 330).svt.next with ⟨seg, svt⟩
  rw [hpair] at hnext
  obtain rfl : seg = none := hnext
  rw [SegmentTables.saAlloc, hpair]

/-! ## Opening a device -/

namespace Dst

/-- `dst_add_victim` -/
def addVictim (d : Dst) (segno : ℕ) (entry : DstEntry) : Dst :=
  if blocksPerSegment ≤ entry.nrValidBlock then d
  else { d with victims := insertVictim ⟨segno, entry⟩ d.victims }

/-- The body of the loop in `dst_load`. -/
def loadEntry (d : Dst) (segno : ℕ) : Dst :=
  if (d.array segno).nrValidBlock ≠ 0 then d.addVictim segno (d.array segno) else d

/-- `dst_load` -/
def load (d : Dst) : Dst := (List.range d.nrSegment).foldl loadEntry d

/-- `dst_init` over the stored entries. -/
def init (nrSegment : ℕ) (array : ℕ → DstEntry) : Dst := load ⟨nrSegment, array, [], none⟩

theorem loadEntry_array (d : Dst) (segno : ℕ) : (d.loadEntry segno).array = d.array := by
  rw [loadEntry, addVictim]
  split
  · split <;> rfl
  · rfl

theorem loadEntry_nrSegment (d : Dst) (segno : ℕ) : (d.loadEntry segno).nrSegment = d.nrSegment := by
  rw [loadEntry, addVictim]
  split
  · split <;> rfl
  · rfl

/-- An entry with some valid blocks and some room becomes a victim. -/
theorem mem_loadEntry {d : Dst} {segno : ℕ} {v : Victim} :
    v ∈ (d.loadEntry segno).victims ↔ v ∈ d.victims ∨ (v = ⟨segno, d.array segno⟩ ∧
      v.entry.nrValidBlock ≠ 0 ∧ v.entry.nrValidBlock < blocksPerSegment) := by
  rw [loadEntry, addVictim]
  split
  · rename_i hsome
    split
    · rename_i hfull
      refine (or_iff_left ?_).symm
      rintro ⟨rfl, -, hroom⟩
      exact absurd hroom (Nat.not_lt.mpr hfull)
    · rename_i hroom
      rw [mem_insertVictim, or_comm]
      refine or_congr_right ⟨fun h => ⟨h, ?_⟩, And.left⟩
      rw [h]
      exact ⟨hsome, Nat.lt_of_not_le hroom⟩
  · rename_i hzero
    refine (or_iff_left ?_).symm
    rintro ⟨rfl, hsome, -⟩
    exact hzero hsome

/-- The loop of `dst_load` over some of the segments. -/
theorem mem_foldl_loadEntry {segnos : List ℕ} {d : Dst} {v : Victim} :
    v ∈ (segnos.foldl loadEntry d).victims ↔ v ∈ d.victims ∨ (v.segno ∈ segnos ∧
      v.entry = d.array v.segno ∧ v.entry.nrValidBlock ≠ 0 ∧
      v.entry.nrValidBlock < blocksPerSegment) := by
  induction segnos generalizing d with
  | nil => simp
  | cons segno segnos ih =>
    rw [List.foldl_cons, ih, mem_loadEntry, loadEntry_array, List.mem_cons, or_assoc]
    refine or_congr_right ⟨?_, ?_⟩
    · rintro (⟨rfl, hv⟩ | ⟨hmem, hv⟩)
      · exact ⟨Or.inl rfl, rfl, hv⟩
      · exact ⟨Or.inr hmem, hv⟩
    · rintro ⟨hseg | hmem, hentry, hv⟩
      · refine Or.inl ⟨?_, hv⟩
        rw [← hseg, ← hentry]
      · exact Or.inr ⟨hmem, hentry, hv⟩

theorem foldl_loadEntry_array (segnos : List ℕ) (d : Dst) :
    (segnos.foldl loadEntry d).array = d.array := by
  induction segnos generalizing d with
  | nil => rfl
  | cons segno segnos ih => rw [List.foldl_cons, ih, loadEntry_array]

theorem foldl_loadEntry_nrSegment (segnos : List ℕ) (d : Dst) :
    (segnos.foldl loadEntry d).nrSegment = d.nrSegment := by
  induction segnos generalizing d with
  | nil => rfl
  | cons segno segnos ih => rw [List.foldl_cons, ih, loadEntry_nrSegment]

/-- **The victims of a device that was opened.** -/
theorem mem_init {nrSegment : ℕ} {array : ℕ → DstEntry} {v : Victim} :
    v ∈ (init nrSegment array).victims ↔ v.segno < nrSegment ∧ v.entry = array v.segno ∧
      v.entry.nrValidBlock ≠ 0 ∧ v.entry.nrValidBlock < blocksPerSegment := by
  rw [init, load, mem_foldl_loadEntry, List.mem_range]
  exact or_iff_right List.not_mem_nil

end Dst

namespace SegmentTables

/-- An orderly close, and what `metadata_create` and `sa_create` make of the stored tables. -/
def reopen (t : SegmentTables) : SegmentTables :=
  ⟨{ t.svt with curSegment := 0 }, .init t.dst.nrSegment t.dst.array, t.svt.used⟩

/-- What happens to the tables of a device. -/
inductive DeviceAction where
  /-- an action while it is open -/
  | act (a : AllocatorAction)
  /-- it is closed and opened -/
  | reopen

/-- One action; any action is possible at any time. -/
def deviceStep (t : SegmentTables) : DeviceAction → Option SegmentTables
  | .act a => t.allocatorStep a
  | .reopen => some t.reopen

/-- A segment can be reclaimed or refilled by its victim. -/
def HasVictim (t : SegmentTables) (segno : ℕ) : Prop :=
  ∃ v ∈ t.dst.victims, v.segno = segno ∧ v.entry = t.dst.array segno

theorem loggingClosed_nrSegment (n : ℕ) : LoggingClosed fun t => t.dst.nrSegment = n where
  search _ _ _ _ h := h
  victim _ _ _ _ h := h
  segment _ _ _ _ _ _ _ _ _ h := h
  drop _ _ _ h := h

/-- The number of segments stays the same. -/
theorem deviceStep_nrSegment {t t' : SegmentTables} {a : DeviceAction}
    (hstep : t.deviceStep a = some t') : t'.dst.nrSegment = t.dst.nrSegment := by
  cases a with
  | reopen =>
    obtain rfl := Option.some.inj hstep
    exact Dst.foldl_loadEntry_nrSegment ..
  | act a =>
    obtain rfl := Option.some.inj hstep
    cases a with
    | alloc =>
      rcases t.saAlloc_cases with ⟨svt, -, -, heq⟩ | ⟨seg, svt, -, -, -, -, heq⟩
      · rw [act, heq]
      · rw [act, heq]
        cases htake : t.dst.takeSegment seg with
        | none => rfl
        | some d =>
          obtain ⟨-, -, rfl⟩ := Dst.takeSegment_some htake
          rfl
    | returnBlock pba =>
      rcases t.dst.returnBlock_cases pba with heq | ⟨e, -, -, -, heq⟩
      · rw [act, heq]
      · rw [act, heq]
        exact Dst.updateVictim_nrSegment ..
    | findLoggingBlock =>
      rcases (loggingClosed_nrSegment t.dst.nrSegment).find rfl
          (rfl : t.findLoggingBlock = (t.findLoggingBlock.1, t.findLoggingBlock.2)) with
        ⟨-, h⟩ | ⟨u, segno, offset, h, -, -, -, -, heq⟩
      · exact h
      · rw [act, heq]
        exact h
    | gc =>
      rw [act, backgroundGc, gcOneSegment]
      cases selectVictim t.dst.loggingSegno t.dst.victims with
      | mk v vs =>
        cases v with
        | none => rfl
        | some v =>
          show (Dst.returnSegment { t.dst with victims := vs } v.segno).nrSegment = _
          rw [Dst.returnSegment]
          split <;> rfl

/-- **A reopened device** in any run: every segment in use that is not full has its victim, with the
stored entry, if and only if no segment in use has lost all its blocks. -/
theorem reopen_victims_iff (nrSegment : ℕ) {run : List DeviceAction} {t : SegmentTables}
    (hrun : Machine.exec deviceStep (format nrSegment) run = some t) :
    (∀ segno < nrSegment, t.reopen.svt.valid segno = true →
      (t.reopen.dst.array segno).nrValidBlock < blocksPerSegment → t.reopen.HasVictim segno) ↔
    ∀ segno < nrSegment, t.svt.valid segno = true → (t.dst.array segno).nrValidBlock ≠ 0 := by
  have hstep : ∀ (s : SegmentTables) a s', s.dst.nrSegment = nrSegment → deviceStep s a = some s' →
      s'.dst.nrSegment = nrSegment := fun s a s' h hstep => (deviceStep_nrSegment hstep).trans h
  have hnr : t.dst.nrSegment = nrSegment := Machine.invariant_of_all hstep rfl hrun
  have harray : t.reopen.dst.array = t.dst.array := Dst.foldl_loadEntry_array ..
  refine forall₃_congr fun segno hseg hused => ?_
  rw [HasVictim, harray]
  constructor
  · intro h
    by_contra hzero
    obtain ⟨v, hv, rfl, hentry⟩ := h (hzero ▸ blocksPerSegment_pos)
    obtain ⟨-, -, hsome, -⟩ := Dst.mem_init.mp hv
    exact hsome (hentry ▸ hzero)
  · intro hsome hroom
    exact ⟨⟨segno, t.dst.array segno⟩, Dst.mem_init.mpr ⟨hnr ▸ hseg, rfl, hsome, hroom⟩, rfl, rfl⟩

/-- A block is logged and the device reopened. -/
theorem reopen_victims_iff_sample :
    ∃ t, Machine.exec deviceStep (format 1) [.act .findLoggingBlock] = some t ∧
      t.reopen.HasVictim 0 := by
  have hrun : Machine.exec deviceStep (format 1) [.act .findLoggingBlock] =
      some (logged (DstEntry.zero.setBit firstOffset) []) :=
    congrArg (fun t : SegmentTables => some t) (congrArg Prod.snd findLoggingBlock_format)
  refine ⟨_, hrun, (reopen_victims_iff 1 hrun).mpr ?_ 0 Nat.one_pos ?_ ?_⟩
  · intro segno hseg _
    obtain rfl : segno = 0 := Nat.lt_one_iff.mp hseg
    simp [logged, DstEntry.setBit]
  · simp [reopen, logged]
  · rw [show (reopen _).dst.array = _ from Dst.foldl_loadEntry_array ..]
    simp [logged, DstEntry.setBit, DstEntry.zero, blocksPerSegment]

/-- **A segment is lost.** A block is logged and returned. The segment is in use and has its victim;
when the device is opened again it is still in use and has none. -/
theorem reopen_loses_victim :
    ∃ t, Machine.exec deviceStep (format 1) [.act .findLoggingBlock, .act (.returnBlock 0)] = some t ∧
      t.HasVictim 0 ∧ t.reopen.svt.valid 0 = true ∧
      (t.reopen.dst.array 0).nrValidBlock < blocksPerSegment ∧ ¬t.reopen.HasVictim 0 := by
  have hfind : (format 1).deviceStep (.act .findLoggingBlock) =
      some (logged (DstEntry.zero.setBit firstOffset) []) :=
    congrArg (fun t : SegmentTables => some t) (congrArg Prod.snd findLoggingBlock_format)
  have hreturn : (logged (DstEntry.zero.setBit firstOffset) []).deviceStep (.act (.returnBlock 0)) =
      some (logged .zero [⟨0, .zero⟩]) := by
    simp only [deviceStep, allocatorStep, act, returnBlock_logged]
    rfl
  refine ⟨_, Machine.exec_cons_of hfind (Machine.exec_cons_of hreturn rfl), ?_, ?_, ?_, ?_⟩
  · exact ⟨⟨0, .zero⟩, List.mem_singleton.mpr rfl, rfl, by simp [logged]⟩
  · simp [reopen, logged]
  · rw [show (reopen _).dst.array = _ from Dst.foldl_loadEntry_array ..]
    simp [logged, DstEntry.zero, blocksPerSegment]
  · rintro ⟨v, hv, hseg, -⟩
    obtain ⟨-, hentry, hsome, -⟩ := Dst.mem_init.mp hv
    rw [hentry, hseg] at hsome
    simp [logged, DstEntry.zero] at hsome

end SegmentTables

end JinDisk
