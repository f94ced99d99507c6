import JinDisk.SegmentTables

/-!
# Where threaded logging finds its block

`dst_find_logging_block` goes back to `retry` from three places. Each time a segment that turned
out to be full has been used up: it was the logging segment, or a victim, or a segment that was
free in the table of segments in use. `rounds` counts what is left, so the loop ends, and what was
used up stays full, so the loop fails only if there was nothing to find.

A victim is a copy of an entry and may be out of date. The loop takes no notice of the copy: it
reads the entry of the victim's segment. An entry can be read if its segment is one of the table's;
a victim or a logging segment beyond the table makes the call fail.
-/

namespace JinDisk

/-- No bit of the entry is clear. -/
def DstEntry.Full (e : DstEntry) : Prop := ∀ o, o ∈ e.blockValidityTable

/-- A counter that has gone all the way says that no bit is clear. -/
theorem DstEntry.Counted.full {e : DstEntry} (h : e.Counted)
    (hge : blocksPerSegment ≤ e.nrValidBlock) : e.Full := by
  have hcard : e.blockValidityTable.card = Fintype.card Offset := by
    rw [Fintype.card_fin, ← h]
    exact le_antisymm h.le hge
  intro o
  rw [(Finset.card_eq_iff_eq_univ _).mp hcard]
  exact Finset.mem_univ o

theorem DstEntry.full_of_findFirstZeroBit {e : DstEntry} (h : e.findFirstZeroBit = none) :
    e.Full := by
  intro o
  have hall := List.find?_eq_none.mp h o (List.mem_finRange o)
  simpa using hall

/-- `seg_validator_next` fails if no place is free. -/
theorem SegValidator.next_none {t t' : SegValidator} (h : t.next = (none, t')) {seg : ℕ}
    (hseg : seg < t.nrSegment) : t.valid seg = true := by
  rw [SegValidator.next] at h
  split at h
  · cases h
  · split at h
    · cases h
    · rename_i hlast
      by_contra hfree
      exact hlast ((scan_le (Nat.zero_le seg) (Bool.eq_false_iff.mpr hfree)).trans_lt hseg)

namespace SegmentTables

variable {t t' : SegmentTables} {segno : ℕ}

/-- There is nowhere to log to: the logging segment has no clear bit, nor has the segment of any
victim or any segment that is free in the table of segments in use. -/
structure NoRoom (t : SegmentTables) : Prop where
  /-- the logging segment -/
  logging : ∀ segno, t.dst.loggingSegno = some segno → (t.dst.array segno).Full
  /-- the victims -/
  victims : ∀ v ∈ t.dst.victims, (t.dst.array v.segno).Full
  /-- the segments that are not in use -/
  segments : ∀ segno < t.svt.nrSegment, t.svt.valid segno = false → (t.dst.array segno).Full

/-- The tables that passes of the `retry` loop can lead to. -/
inductive Retries : SegmentTables → SegmentTables → Prop where
  /-- no pass -/
  | refl (t : SegmentTables) : Retries t t
  /-- a pass that ends in `retry`, and more -/
  | step {t t' u : SegmentTables} (h : t.loggingRound = .inr t') (hu : Retries t' u) : Retries t u

/-- The call comes to a segment whose entry cannot be read. -/
def ReadFault (t : SegmentTables) : Prop :=
  ∃ u segno u', Retries t u ∧ u.pickLogging = (some segno, u') ∧ u'.dst.nrSegment ≤ segno

/-- No segment is found if there is none: no logging segment, no victim, and none that is free. -/
theorem pickLogging_none_cases (h : t.pickLogging = (none, t')) :
    t.dst.loggingSegno = none ∧ t.dst.victims = [] ∧
      ∀ segno < t.svt.nrSegment, t.svt.valid segno = true := by
  rw [pickLogging] at h
  split at h
  · cases h
  · rename_i hlog
    split at h
    · cases h
    · rename_i hempty
      refine ⟨hlog, List.getLast?_eq_none_iff.mp hempty, ?_⟩
      split at h
      · rename_i svt hnext
        exact fun segno hlt => SegValidator.next_none hnext hlt
      · rename_i segno svt hnext
        obtain ⟨hlt, -, hnr, -⟩ := SegValidator.next_some hnext
        split at h
        · cases h
        · rename_i htake
          simp [SegValidator.take, hnr, hlt] at htake

/-- Picking a segment leaves the entries alone. -/
theorem pickLogging_array (h : t.pickLogging = (some segno, t')) :
    t'.dst.array = t.dst.array ∧ t'.dst.nrSegment = t.dst.nrSegment := by
  rcases pickLogging_some h with ⟨-, rfl⟩ | ⟨-, -, rfl⟩ | ⟨-, -, -, -, svt, -, -, rfl⟩
  · exact ⟨rfl, rfl⟩
  · exact ⟨rfl, rfl⟩
  · exact ⟨rfl, rfl⟩

/-- **A pass that ends in `retry`** has come to a full segment, and is done with it. -/
theorem loggingRound_full (hcount : t.dst.Counted) (h : t.loggingRound = .inr t') :
    ∃ segno u, t.pickLogging = (some segno, u) ∧ (t.dst.array segno).Full ∧
      t' = u.dropLogging segno := by
  obtain ⟨segno, u, hpick, rfl, hfull⟩ := loggingRound_inr h
  refine ⟨segno, u, hpick, ?_, rfl⟩
  rw [(pickLogging_array hpick).1] at hfull
  exact hfull.elim (hcount segno).full DstEntry.full_of_findFirstZeroBit

/-- What a pass is done with was full, so room there was before it is there after it. -/
theorem NoRoom.of_retry (hcount : t.dst.Counted) (h : t.loggingRound = .inr t')
    (hroom : t'.NoRoom) : t.NoRoom := by
  obtain ⟨segno, u, hpick, hfull, rfl⟩ := loggingRound_full hcount h
  rcases pickLogging_some hpick with ⟨hlog, rfl⟩ | ⟨hlog, -, rfl⟩ |
    ⟨hlog, hempty, -, -, svt, hnr, hvalid, rfl⟩
  · refine ⟨fun s hs => ?_, fun v hv => ?_, hroom.segments⟩
    · obtain rfl := Option.some.inj (hlog.symm.trans hs)
      exact hfull
    · by_cases hvs : v.segno = segno
      · rw [hvs]
        exact hfull
      · exact hroom.victims v (Dst.mem_destroyVictim.mpr ⟨hv, hvs⟩)
  · refine ⟨fun s hs => ?_, fun v hv => ?_, hroom.segments⟩
    · rw [hlog] at hs
      cases hs
    · by_cases hvs : v.segno = segno
      · rw [hvs]
        exact hfull
      · refine hroom.victims v (Dst.mem_destroyVictim.mpr ⟨?_, hvs⟩)
        exact Dst.mem_destroyVictim.mpr ⟨hv, hvs⟩
  · refine ⟨fun s hs => ?_, fun v hv => ?_, fun s hs hfree => ?_⟩
    · rw [hlog] at hs
      cases hs
    · rw [hempty] at hv
      cases hv
    · by_cases heq : s = segno
      · rw [heq]
        exact hfull
      · refine hroom.segments s (hnr.symm ▸ hs) ?_
        show svt.valid s = false
        rw [hvalid, Function.update_of_ne heq]
        exact hfree

/-- The entries do not change from one pass to the next. -/
theorem loggingRound_array (hcount : t.dst.Counted) (h : t.loggingRound = .inr t') :
    t'.dst.array = t.dst.array := by
  obtain ⟨segno, u, hpick, -, rfl⟩ := loggingRound_full hcount h
  exact (pickLogging_array hpick).1

/-- **A call fails** for want of room, or because an entry cannot be read. -/
theorem noRoom_of_findLoggingBlock (hcount : t.dst.Counted)
    (h : t.findLoggingBlock = (none, t')) (hread : ¬t.ReadFault) : t.NoRoom := by
  fun_induction findLoggingBlock t with
  | case1 t res hround =>
    subst h
    rw [loggingRound] at hround
    split at hround
    · rename_i u hpick
      obtain ⟨hlog, hempty, hused⟩ := pickLogging_none_cases hpick
      refine ⟨fun s hs => ?_, fun v hv => ?_, fun s hs hfree => ?_⟩
      · rw [hlog] at hs
        cases hs
      · rw [hempty] at hv
        cases hv
      · rw [hused s hs] at hfree
        cases hfree
    · rename_i segno u hpick
      split at hround
      · exact absurd ⟨t, segno, u, .refl t, hpick, ‹_›⟩ hread
      · split at hround
        · cases hround
        · split at hround
          · cases hround
          · cases hround
  | case2 t u hround ih =>
    have harray := loggingRound_array hcount hround
    refine NoRoom.of_retry hcount hround (ih (fun i => harray ▸ hcount i) h ?_)
    rintro ⟨w, segno, w', hw, hpick, hge⟩
    exact hread ⟨w, segno, w', .step hround hw, hpick, hge⟩

/-! ## Entries that can be read -/

/-- The logging segment and the segments of the victims are in the table, and the table of segments
in use has no more segments than it. -/
structure InRange (t : SegmentTables) : Prop where
  /-- the logging segment -/
  logging : ∀ segno, t.dst.loggingSegno = some segno → segno < t.dst.nrSegment
  /-- the victims -/
  victims : ∀ v ∈ t.dst.victims, v.segno < t.dst.nrSegment
  /-- the sizes of the tables -/
  nrSegment : t.svt.nrSegment ≤ t.dst.nrSegment

theorem loggingClosed_inRange : LoggingClosed InRange where
  search t svt hnr _ ht := ⟨ht.logging, ht.victims, hnr.symm ▸ ht.nrSegment⟩
  victim t v hv _ ht := by
    refine ⟨fun segno hs => ?_, fun w hw => ht.victims w (Dst.mem_destroyVictim.mp hw).1,
      ht.nrSegment⟩
    obtain rfl := Option.some.inj hs
    exact ht.victims v hv
  segment t segno svt _ _ hlt _ hnr _ ht := by
    refine ⟨fun s hs => ?_, ht.victims, hnr.symm ▸ ht.nrSegment⟩
    obtain rfl := Option.some.inj hs
    exact hlt.trans_le ht.nrSegment
  drop t segno _ ht :=
    ⟨fun s hs => absurd hs (Option.some_ne_none s).symm,
      fun v hv => ht.victims v (Dst.mem_destroyVictim.mp hv).1,
      ht.nrSegment⟩

/-- Tables in range are never left for a segment that is not. -/
theorem InRange.not_readFault (h : t.InRange) : ¬t.ReadFault := by
  rintro ⟨u, segno, u', hretries, hpick, hge⟩
  induction hretries with
  | refl t =>
    obtain ⟨hu, hlog⟩ := loggingClosed_inRange.pick h hpick
    exact absurd (hu.logging segno hlog) (Nat.not_lt.mpr hge)
  | step hround _ ih =>
    exact ih (loggingClosed_inRange.retry h hround) hpick

/-! ## The call as a whole -/

/-- The block that is handed out, in terms of addresses. -/
theorem validBit_handOut {e : Dst} {offset : Offset} (hlt : segno < e.nrSegment)
    (hclear : offset ∉ (e.array segno).blockValidityTable) {d : Dst}
    (hd : d.array = Function.update e.array segno ((e.array segno).setBit offset)) :
    blockAddr segno offset < e.nrSegment * blocksPerSegment ∧
      ¬e.validBit (blockAddr segno offset) ∧ d.validBit (blockAddr segno offset) ∧
      ∀ pba, pba ≠ blockAddr segno offset → (d.validBit pba ↔ e.validBit pba) := by
  refine ⟨?_, ?_, ?_, fun pba hne => ?_⟩
  · calc blockAddr segno offset
        < segno * blocksPerSegment + blocksPerSegment := Nat.add_lt_add_left offset.isLt _
      _ = (segno + 1) * blocksPerSegment := (Nat.succ_mul _ _).symm
      _ ≤ e.nrSegment * blocksPerSegment := Nat.mul_le_mul_right _ hlt
  · simpa [Dst.validBit] using hclear
  · simp [Dst.validBit, hd, DstEntry.setBit]
  · rw [Dst.validBit, Dst.validBit, hd, Function.update_apply]
    split
    · rename_i hseg
      simp only [DstEntry.setBit, Finset.mem_insert, ← hseg]
      refine or_iff_right fun hoff => hne ?_
      rw [← hseg, ← hoff, blockAddr, blockToSegment, blockOffset, Nat.mul_comm]
      exact (Nat.div_add_mod pba blocksPerSegment).symm
    · rfl

/-- **Threaded logging.** The call ends. If it finds a block, the block is one of the device's, its
bit was clear, and no other bit changes; if it fails, no bit changes, and there was no room or an
entry could not be read. -/
theorem find_logging_block (hcount : t.dst.Counted) :
    (∀ pba, t.findLoggingBlock.1 = some pba →
      pba < t.dst.nrSegment * blocksPerSegment ∧ ¬t.dst.validBit pba ∧
        t.findLoggingBlock.2.dst.validBit pba ∧
        ∀ pba', pba' ≠ pba → (t.findLoggingBlock.2.dst.validBit pba' ↔ t.dst.validBit pba')) ∧
      (t.findLoggingBlock.1 = none →
        (∀ pba, t.findLoggingBlock.2.dst.validBit pba ↔ t.dst.validBit pba) ∧
          (¬t.ReadFault → t.NoRoom)) := by
  constructor
  · intro pba hpba
    rcases findLoggingBlock_array (t := t) rfl with ⟨hnone, -⟩ |
      ⟨segno, offset, hlt, hclear, hres, harray⟩
    · exact absurd (hpba.symm.trans hnone) (by simp)
    · obtain rfl := Option.some.inj (hpba.symm.trans hres)
      exact validBit_handOut hlt hclear harray
  · intro hnone
    refine ⟨fun pba => ?_, noRoom_of_findLoggingBlock hcount (Prod.ext hnone rfl)⟩
    rcases findLoggingBlock_array (t := t) rfl with ⟨-, harray⟩ | ⟨_, _, -, -, hres, -⟩
    · rw [Dst.validBit, Dst.validBit, harray]
    · exact absurd (hnone.symm.trans hres) (by simp)

/-- On a formatted device with room the call cannot fail. -/
theorem find_logging_block_sample :
    (format 2).dst.Counted ∧ (format 2).findLoggingBlock.1 ≠ none := by
  refine ⟨counted_format 2, fun hnone => ?_⟩
  have hrange : (format 2).InRange := ⟨fun s hs => absurd hs (Option.some_ne_none s).symm,
    fun v hv => absurd hv List.not_mem_nil, le_rfl⟩
  have hroom := ((find_logging_block (counted_format 2)).2 hnone).2 hrange.not_readFault
  have hfull := hroom.segments 0 (by decide) rfl ⟨0, blocksPerSegment_pos⟩
  exact absurd hfull (Finset.notMem_empty _)

end SegmentTables

end JinDisk
