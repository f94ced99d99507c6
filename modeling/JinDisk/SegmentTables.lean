import Mathlib.Data.List.TakeWhile
import JinDisk.Dst
import JinDisk.Lib.Run

/-!
# The segment tables under allocation, threaded logging and garbage collection

What happens to the tables of segments in any order of calls. Each entry counts its bits, so
a segment or block that is handed out was free (`exclusive_allocation`); this needs nothing
of the table of segments in use, whose `next` and `take` may be called in any order.

Garbage collection goes by the victims. Threaded logging takes the victim of its segment out
of the tree and then changes the entry without a new victim, but a block of that segment that
is returned puts one back, which is out of date after the next block that is handed out.
`gc_one_segment` leaves the logging segment alone only if its victim counts some valid block:
a victim that counts none is reclaimed before the segment is compared with the logging
segment (`logging_segment_reclaimed`, `logging_segment_unused`). Where that does not happen,
victims that are reclaimed are accurate (`victims_accurate`) and the tables agree
(`tables_agree`).
-/

namespace JinDisk

/-! ## Garbage collection -/

/-- The `retry` loop of `gc_one_segment`: the victim it goes on with and the victims left. -/
def selectVictim (loggingSegno : Option ℕ) : List Victim → Option Victim × List Victim
  | [] => (none, [])
  | v :: vs =>
    if v.entry.nrValidBlock = 0 then (some v, vs)
    else if loggingSegno = some v.segno then selectVictim loggingSegno vs
    else (some v, vs)

/-- The offsets `gc_one_segment` looks at, in order. -/
def Victim.lookedAt (v : Victim) : List Offset :=
  if v.entry.nrValidBlock = 0 then []
  else (List.finRange blocksPerSegment).filter fun o => o ∈ v.entry.blockValidityTable

namespace SegmentTables

/-- What `gc_one_segment` does to the tables: the victim that was reclaimed, if any. -/
def gcOneSegment (t : SegmentTables) : Option Victim × SegmentTables :=
  match selectVictim t.dst.loggingSegno t.dst.victims with
  | (none, vs) => (none, { t with dst := { t.dst with victims := vs } })
  | (some v, vs) =>
    (some v,
      { t with
        dst := Dst.returnSegment { t.dst with victims := vs } v.segno
        svt := t.svt.testAndReturn v.segno })

/-- The calls, each one atomic. -/
inductive TableAction where
  /-- `seg_validator_next` -/
  | next
  /-- `seg_validator_take` -/
  | take (seg : ℕ)
  /-- `dst_take_segment` -/
  | takeSegment (segno : ℕ)
  /-- `dst_return_segment` -/
  | returnSegment (segno : ℕ)
  /-- `dst_return_block` -/
  | returnBlock (pba : ℕ)
  /-- `dst_find_logging_block` -/
  | findLoggingBlock
  /-- `dst_pop_victim` -/
  | popVictim
  /-- `gc_one_segment` -/
  | gc

/-- The tables after a call. -/
def call (t : SegmentTables) : TableAction → SegmentTables
  | .next => { t with svt := t.svt.next.2 }
  | .take seg => { t with svt := (t.svt.take seg).getD t.svt }
  | .takeSegment segno => { t with dst := (t.dst.takeSegment segno).getD t.dst }
  | .returnSegment segno => { t with dst := t.dst.returnSegment segno }
  | .returnBlock pba => { t with dst := t.dst.returnBlock pba }
  | .findLoggingBlock => t.findLoggingBlock.2
  | .popVictim => { t with dst := t.dst.popVictim.2 }
  | .gc => t.gcOneSegment.2

/-- One call; any call is possible at any time. -/
def step (t : SegmentTables) (a : TableAction) : Option SegmentTables := some (t.call a)

/-- The call hands out the block. -/
def HandsOut (t : SegmentTables) : TableAction → ℕ → Prop
  | .takeSegment segno, pba => (t.dst.takeSegment segno).isSome ∧ blockToSegment pba = segno
  | .findLoggingBlock, pba => t.findLoggingBlock.1 = some pba
  | _, _ => False

/-! ## Every block is handed out once -/

/-- The loop of `dst_find_logging_block` leaves the entries alone. -/
theorem loggingClosed_array (d : Dst) :
    LoggingClosed fun t => t.dst.array = d.array ∧ t.dst.nrSegment = d.nrSegment where
  search _ _ _ _ h := h
  victim _ _ _ _ h := h
  segment _ _ _ _ _ _ _ _ _ h := h
  drop _ _ _ h := h

/-- What `dst_find_logging_block` does to the entries. -/
theorem findLoggingBlock_array {t t' : SegmentTables} {res : Option ℕ}
    (h : t.findLoggingBlock = (res, t')) :
    (res = none ∧ t'.dst.array = t.dst.array) ∨
      ∃ segno offset, segno < t.dst.nrSegment ∧
        offset ∉ (t.dst.array segno).blockValidityTable ∧ res = some (blockAddr segno offset) ∧
        t'.dst.array = Function.update t.dst.array segno ((t.dst.array segno).setBit offset) := by
  rcases (loggingClosed_array t.dst).find ⟨rfl, rfl⟩ h with ⟨hres, harray, -⟩ |
    ⟨u, segno, offset, ⟨harray, hnr⟩, -, hlt, hclear, hres, rfl⟩
  · exact Or.inl ⟨hres, harray⟩
  · refine Or.inr ⟨segno, offset, hnr ▸ hlt, harray ▸ hclear, hres, ?_⟩
    simp only [handOut, Dst.setEntry, harray]

/-- What `gc_one_segment` does to the entries. -/
theorem gcOneSegment_array (t : SegmentTables) :
    t.gcOneSegment.2.dst.array = t.dst.array ∨
      ∃ segno, t.gcOneSegment.2.dst.array = Function.update t.dst.array segno .zero := by
  rw [gcOneSegment]
  split
  · exact Or.inl rfl
  · rename_i v vs _
    simp only [Dst.returnSegment]
    split
    · exact Or.inr ⟨v.segno, rfl⟩
    · exact Or.inl rfl

/-- The changes of an entry. -/
inductive EntryChange (e : DstEntry) : DstEntry → Prop
  /-- all blocks of an unused segment are taken -/
  | take (h : e.nrValidBlock = 0) : EntryChange e .full
  /-- the segment is returned -/
  | zero : EntryChange e .zero
  /-- a block is returned -/
  | clear (o : Offset) : EntryChange e (e.clearBit o)
  /-- a block is taken -/
  | set (o : Offset) (h : o ∉ e.blockValidityTable) : EntryChange e (e.setBit o)

/-- **What a call does to the entries.** -/
theorem call_array (t : SegmentTables) (a : TableAction) :
    (t.call a).dst.array = t.dst.array ∨
      ∃ segno e, EntryChange (t.dst.array segno) e ∧
        (t.call a).dst.array = Function.update t.dst.array segno e := by
  cases a with
  | next => exact Or.inl rfl
  | take seg => exact Or.inl rfl
  | takeSegment segno =>
    simp only [call]
    cases htake : t.dst.takeSegment segno with
    | none => exact Or.inl rfl
    | some d =>
      obtain ⟨-, hzero, rfl⟩ := Dst.takeSegment_some htake
      exact Or.inr ⟨segno, .full, .take hzero, rfl⟩
  | returnSegment segno =>
    simp only [call]
    rcases t.dst.returnSegment_cases segno with heq | heq
    · exact Or.inl (congrArg Dst.array heq)
    · exact Or.inr ⟨segno, .zero, .zero, congrArg Dst.array heq⟩
  | returnBlock pba =>
    simp only [call]
    rcases t.dst.returnBlock_cases pba with heq | ⟨e, -, -, rfl, heq⟩
    · exact Or.inl (congrArg Dst.array heq)
    · refine Or.inr ⟨blockToSegment pba, _, .clear (blockOffset pba), ?_⟩
      rw [heq, Dst.updateVictim_array]
      rfl
  | findLoggingBlock =>
    simp only [call]
    rcases findLoggingBlock_array (t := t) rfl with ⟨-, harray⟩ |
      ⟨segno, offset, -, hclear, -, harray⟩
    · exact Or.inl harray
    · exact Or.inr ⟨segno, _, .set offset hclear, harray⟩
  | popVictim => exact Or.inl rfl
  | gc =>
    simp only [call]
    rcases t.gcOneSegment_array with harray | ⟨segno, harray⟩
    · exact Or.inl harray
    · exact Or.inr ⟨segno, .zero, .zero, harray⟩

/-- The counters stay right. -/
theorem counted_call {t : SegmentTables} (h : t.dst.Counted) (a : TableAction) :
    (t.call a).dst.Counted := by
  rcases t.call_array a with harray | ⟨segno, e, hchange, harray⟩
  · intro i
    rw [harray]
    exact h i
  · have he : e.Counted := by
      cases hchange with
      | take _ => exact DstEntry.counted_full
      | zero => exact DstEntry.counted_zero
      | clear o => exact (h segno).clearBit o
      | set o ho => exact (h segno).setBit ho
    intro i
    rw [harray]
    exact h.setEntry segno he i

theorem counted_format (nrSegment : ℕ) : (format nrSegment).dst.Counted := fun _ =>
  DstEntry.counted_zero

/-- A block that is handed out was not valid. -/
theorem HandsOut.not_validBit {t : SegmentTables} {a : TableAction} {pba : ℕ}
    (hout : t.HandsOut a pba) (h : t.dst.Counted) : ¬t.dst.validBit pba := by
  cases a with
  | takeSegment segno =>
    obtain ⟨hsome, rfl⟩ := hout
    obtain ⟨d, htake⟩ := Option.isSome_iff_exists.mp hsome
    obtain ⟨-, hzero, -⟩ := Dst.takeSegment_some htake
    rw [Dst.validBit, (h _).eq_empty hzero]
    exact Finset.notMem_empty _
  | findLoggingBlock =>
    rcases findLoggingBlock_array (t := t) rfl with ⟨hnone, -⟩ |
      ⟨segno, offset, -, hclear, hres, -⟩
    · exact absurd (hout.symm.trans hnone) (by simp)
    · obtain rfl := Option.some.inj (hout.symm.trans hres)
      simpa [Dst.validBit] using hclear
  | _ => exact hout.elim

/-- A block that is handed out is valid afterwards. -/
theorem HandsOut.validBit {t : SegmentTables} {a : TableAction} {pba : ℕ}
    (hout : t.HandsOut a pba) : (t.call a).dst.validBit pba := by
  cases a with
  | takeSegment segno =>
    obtain ⟨hsome, rfl⟩ := hout
    obtain ⟨d, htake⟩ := Option.isSome_iff_exists.mp hsome
    obtain ⟨-, -, rfl⟩ := Dst.takeSegment_some htake
    simp [call, htake, Dst.validBit, Dst.setEntry, DstEntry.full]
  | findLoggingBlock =>
    rcases findLoggingBlock_array (t := t) rfl with ⟨hnone, -⟩ |
      ⟨segno, offset, -, -, hres, harray⟩
    · exact absurd (hout.symm.trans hnone) (by simp)
    · obtain rfl := Option.some.inj (hout.symm.trans hres)
      simp [call, Dst.validBit, harray, DstEntry.setBit]
  | _ => exact hout.elim

theorem counted_exec {run : List TableAction} {s t : SegmentTables} (hs : s.dst.Counted)
    (hrun : Machine.exec step s run = some t) : t.dst.Counted := by
  refine Machine.invariant_of_all (σ := SegmentTables) (fun s a s' (h : s.dst.Counted) hstep => ?_)
    hs hrun
  obtain rfl := Option.some.inj hstep
  exact counted_call h a

/-- **Exclusive allocation.** In any run each entry counts its bits, and between two calls that
hand out the same block there is one that clears its bit. -/
theorem exclusive_allocation (nrSegment : ℕ) {run : List TableAction} {t : SegmentTables}
    (hrun : Machine.exec step (format nrSegment) run = some t) :
    (∀ segno, (t.dst.array segno).nrValidBlock = (t.dst.array segno).blockValidityTable.card ∧
      (t.dst.array segno).nrValidBlock ≤ blocksPerSegment) ∧
    ∀ before a between b after, run = before ++ a :: (between ++ b :: after) →
      ∀ u v w pba, Machine.exec step (format nrSegment) before = some u → u.step a = some v →
        Machine.exec step v between = some w → u.HandsOut a pba → w.HandsOut b pba →
        ∃ bs c cs x y, between = bs ++ c :: cs ∧ Machine.exec step v bs = some x ∧
          x.step c = some y ∧ x.dst.validBit pba ∧ ¬y.dst.validBit pba := by
  refine ⟨fun segno => ?_, fun before a between b after _ u v w pba hu huv hvw ha hb => ?_⟩
  · have h := counted_exec (counted_format nrSegment) hrun segno
    exact ⟨h, h.le⟩
  · have hcu := counted_exec (counted_format nrSegment) hu
    obtain rfl := Option.some.inj huv
    have hcw := counted_exec (counted_call hcu a) hvw
    exact Machine.exists_step_of_lost (P := fun t : SegmentTables => t.dst.validBit pba) hvw
      ha.validBit (hb.not_validBit hcw)

/-- A block is handed out, returned and handed out again. -/
theorem exclusive_allocation_sample :
    ∃ t, Machine.exec step (format 1) [.findLoggingBlock, .returnBlock 0, .findLoggingBlock] = some t ∧
      (t.dst.array 0).nrValidBlock = (t.dst.array 0).blockValidityTable.card := by
  obtain ⟨t, ht⟩ : ∃ t, Machine.exec step (format 1)
      [.findLoggingBlock, .returnBlock 0, .findLoggingBlock] = some t := ⟨_, rfl⟩
  exact ⟨t, ht, ((exclusive_allocation 1 ht).1 0).1⟩

/-! ## What the victims say -/

end SegmentTables

/-- The victim that `gc_one_segment` goes on with. -/
theorem selectVictim_some {loggingSegno : Option ℕ} {vs vs' : List Victim} {v : Victim}
    (h : selectVictim loggingSegno vs = (some v, vs')) :
    (∃ pre, vs = pre ++ v :: vs' ∧ ∀ w ∈ pre, w.entry.nrValidBlock ≠ 0) ∧
      (v.entry.nrValidBlock = 0 ∨ loggingSegno ≠ some v.segno) := by
  induction vs with
  | nil => cases h
  | cons w vs ih =>
    rw [selectVictim] at h
    split at h
    · rename_i hzero
      obtain ⟨hw, rfl⟩ := Prod.mk.inj h
      obtain rfl := Option.some.inj hw
      exact ⟨⟨[], rfl, by simp⟩, Or.inl hzero⟩
    · rename_i hzero
      split at h
      · obtain ⟨⟨pre, rfl, hpre⟩, hv⟩ := ih h
        refine ⟨⟨w :: pre, rfl, fun u hu => ?_⟩, hv⟩
        rcases List.mem_cons.mp hu with rfl | hu
        · exact hzero
        · exact hpre u hu
      · rename_i hlog
        obtain ⟨hw, rfl⟩ := Prod.mk.inj h
        obtain rfl := Option.some.inj hw
        exact ⟨⟨[], rfl, by simp⟩, Or.inr hlog⟩

theorem selectVictim_sublist {loggingSegno : Option ℕ} {vs vs' : List Victim} {o : Option Victim}
    (h : selectVictim loggingSegno vs = (o, vs')) : vs'.Sublist vs := by
  induction vs with
  | nil =>
    obtain ⟨-, rfl⟩ := Prod.mk.inj h
    exact List.Sublist.refl _
  | cons w vs ih =>
    rw [selectVictim] at h
    split at h
    · obtain ⟨-, rfl⟩ := Prod.mk.inj h
      exact List.sublist_cons_self w vs
    · split at h
      · exact (ih h).cons w
      · obtain ⟨-, rfl⟩ := Prod.mk.inj h
        exact List.sublist_cons_self w vs

namespace Dst

/-- Victims in tree order. -/
def Sorted (vs : List Victim) : Prop :=
  vs.Pairwise fun v w => v.entry.nrValidBlock ≤ w.entry.nrValidBlock

theorem sorted_insertVictim {vs : List Victim} (h : Sorted vs) (v : Victim) :
    Sorted (insertVictim v vs) := by
  rw [Sorted, insertVictim] at *
  have hsplit := List.takeWhile_append_dropWhile
    (p := fun w : Victim => decide (w.entry.nrValidBlock ≤ v.entry.nrValidBlock)) (l := vs)
  rw [← hsplit, List.pairwise_append] at h
  obtain ⟨hleft, hright, hcross⟩ := h
  have hbelow : ∀ w ∈ vs.takeWhile fun w => w.entry.nrValidBlock ≤ v.entry.nrValidBlock,
      w.entry.nrValidBlock ≤ v.entry.nrValidBlock := fun w hw => by
    simpa using List.mem_takeWhile_imp hw
  -- the first victim after the new one has more valid blocks, and the others follow it
  have habove : ∀ w ∈ vs.dropWhile fun w => w.entry.nrValidBlock ≤ v.entry.nrValidBlock,
      v.entry.nrValidBlock ≤ w.entry.nrValidBlock := by
    cases hdrop : vs.dropWhile fun w => w.entry.nrValidBlock ≤ v.entry.nrValidBlock with
    | nil => simp
    | cons u us =>
      have hu : v.entry.nrValidBlock < u.entry.nrValidBlock := by
        have := List.head?_dropWhile_not (fun w : Victim =>
          decide (w.entry.nrValidBlock ≤ v.entry.nrValidBlock)) vs
        rw [hdrop] at this
        simpa using this
      intro w hw
      rcases List.mem_cons.mp hw with rfl | hw
      · exact Nat.le_of_lt hu
      · rw [hdrop, List.pairwise_cons] at hright
        exact Nat.le_trans (Nat.le_of_lt hu) (hright.1 w hw)
  refine List.pairwise_append.mpr ⟨hleft, List.pairwise_cons.mpr ⟨habove, hright⟩, ?_⟩
  intro w hw u hu
  rcases List.mem_cons.mp hu with rfl | hu
  · exact hbelow w hw
  · exact hcross w hw u hu

/-- The first victim is not one of the logging segment that counts no valid block. -/
def Quiet (d : Dst) : Prop :=
  ∀ v, d.victims.head? = some v → v.entry.nrValidBlock = 0 → d.loggingSegno ≠ some v.segno

/-- The victims are in order, one for a segment, and copies of the entries, that of the logging
segment apart. -/
structure Accurate (d : Dst) : Prop where
  /-- in tree order -/
  sorted : Sorted d.victims
  /-- one for a segment -/
  nodup : (d.victims.map Victim.segno).Nodup
  /-- copies of the entries -/
  entry : ∀ v ∈ d.victims, d.loggingSegno ≠ some v.segno → v.entry = d.array v.segno

theorem Accurate.sublist {d : Dst} (h : d.Accurate) {vs : List Victim} (hvs : vs.Sublist d.victims) :
    Accurate { d with victims := vs } :=
  ⟨h.sorted.sublist hvs, h.nodup.sublist (hvs.map _), fun v hv => h.entry v (hvs.subset hv)⟩

/-- The entry of a segment changes and its victim is destroyed. -/
theorem Accurate.setEntry_destroyVictim {d : Dst} (h : d.Accurate) (segno : ℕ) (e : DstEntry) :
    ((d.setEntry segno e).destroyVictim segno).Accurate := by
  obtain ⟨hsorted, hnodup, -⟩ := h.sublist (List.filter_sublist (p := fun v => v.segno ≠ segno))
  refine ⟨hsorted, hnodup, fun v hv hlog => ?_⟩
  obtain ⟨hv, hne⟩ := mem_destroyVictim.mp hv
  simp only [destroyVictim_array, setEntry, Function.update_of_ne hne]
  exact h.entry v hv hlog

theorem Accurate.returnBlock {d : Dst} (h : d.Accurate) (pba : ℕ) : (d.returnBlock pba).Accurate := by
  rcases d.returnBlock_cases pba with heq | ⟨e, -, -, -, heq⟩
  · rw [heq]
    exact h
  · rw [heq]
    obtain ⟨hsorted, hnodup, hentry⟩ := h.setEntry_destroyVictim (blockToSegment pba) e
    rw [updateVictim]
    split
    · exact ⟨hsorted, hnodup, hentry⟩
    · refine ⟨sorted_insertVictim hsorted _, ?_, fun v hv hlog => ?_⟩
      · have hperm : (insertVictim ⟨blockToSegment pba, e⟩ (d.victims.filter fun v =>
            v.segno ≠ blockToSegment pba)).Perm
            (⟨blockToSegment pba, e⟩ :: d.victims.filter fun v => v.segno ≠ blockToSegment pba) := by
          rw [insertVictim]
          refine List.perm_middle.trans (List.Perm.cons _ ?_)
          rw [List.takeWhile_append_dropWhile]
        refine (hperm.map Victim.segno).nodup_iff.mpr ?_
        rw [List.map_cons, List.nodup_cons]
        refine ⟨fun hmem => ?_, hnodup⟩
        obtain ⟨v, hv, hseg⟩ := List.mem_map.mp hmem
        exact (mem_destroyVictim (d := d).mp hv).2 hseg
      · rcases mem_insertVictim.mp hv with rfl | hv
        · simp [setEntry]
        · exact hentry v hv hlog

end Dst

namespace SegmentTables

theorem accurate_format (nrSegment : ℕ) : (format nrSegment).dst.Accurate :=
  ⟨List.Pairwise.nil, List.nodup_nil, fun _ hv => absurd hv List.not_mem_nil⟩

/-- Picking and dropping the logging segment keeps the victims accurate: the segment whose
victim may be out of date has none when it is given up. -/
theorem loggingClosed_accurate : LoggingClosed fun t => t.dst.Accurate where
  search _ _ _ _ h := h
  victim t v hv hlog h := by
    have hsub := h.sublist (List.filter_sublist (p := fun w => w.segno ≠ v.segno))
    refine ⟨hsub.sorted, hsub.nodup, fun w hw _ => hsub.entry w hw ?_⟩
    simp [hlog]
  segment t segno svt hlog hempty _ _ _ _ h := by
    refine ⟨h.sorted, h.nodup, fun w hw => ?_⟩
    simp only [pickSegment, hempty] at hw
    cases hw
  drop t segno hlog h := by
    have hsub := h.sublist (List.filter_sublist (p := fun w => w.segno ≠ segno))
    refine ⟨hsub.sorted, hsub.nodup, fun w hw _ => hsub.entry w hw ?_⟩
    have hne := (Dst.mem_destroyVictim.mp hw).2
    simp only [hlog, ne_eq, Option.some.injEq]
    exact Ne.symm hne

theorem accurate_findLoggingBlock {t : SegmentTables} (h : t.dst.Accurate) :
    t.findLoggingBlock.2.dst.Accurate := by
  rcases loggingClosed_accurate.find (t := t) h rfl with ⟨-, h'⟩ |
    ⟨u, segno, offset, hu, hlog, -, -, -, heq⟩
  · exact h'
  · rw [heq]
    refine ⟨hu.sorted, hu.nodup, fun v hv hne => ?_⟩
    have hseg : v.segno ≠ segno := fun heq => hne (heq ▸ hlog)
    simp only [handOut, Dst.setEntry, Function.update_of_ne hseg]
    exact hu.entry v hv hne

theorem accurate_gcOneSegment {t : SegmentTables} (h : t.dst.Accurate) :
    t.gcOneSegment.2.dst.Accurate := by
  rw [gcOneSegment]
  split
  · rename_i vs hsel
    exact h.sublist (selectVictim_sublist hsel)
  · rename_i v vs hsel
    have hvs := h.sublist (selectVictim_sublist hsel)
    rcases Dst.returnSegment_cases { t.dst with victims := vs } v.segno with heq | heq
    · simp only [heq]
      exact hvs
    · simp only [heq]
      exact hvs.setEntry_destroyVictim v.segno .zero

theorem accurate_call {t : SegmentTables} (h : t.dst.Accurate) (a : TableAction) :
    (t.call a).dst.Accurate := by
  cases a with
  | next => exact h
  | take seg => exact h
  | takeSegment segno =>
    simp only [call]
    cases htake : t.dst.takeSegment segno with
    | none => exact h
    | some d =>
      obtain ⟨-, -, rfl⟩ := Dst.takeSegment_some htake
      exact h.setEntry_destroyVictim segno .full
  | returnSegment segno =>
    simp only [call]
    rcases t.dst.returnSegment_cases segno with heq | heq
    · rw [heq]
      exact h
    · rw [heq]
      exact h.setEntry_destroyVictim segno .zero
  | returnBlock pba => exact h.returnBlock pba
  | findLoggingBlock => exact accurate_findLoggingBlock h
  | popVictim => exact h.sublist (List.tail_sublist _)
  | gc => exact accurate_gcOneSegment h

theorem accurate_exec {run : List TableAction} {s t : SegmentTables} (hs : s.dst.Accurate)
    (hrun : Machine.exec step s run = some t) : t.dst.Accurate := by
  refine Machine.invariant_of_all (σ := SegmentTables) (fun s a s' (h : s.dst.Accurate) hstep => ?_)
    hs hrun
  obtain rfl := Option.some.inj hstep
  exact accurate_call h a

/-- The victim that is reclaimed is not of the logging segment, if the first one is not. -/
theorem loggingSegno_ne_of_quiet {t t' : SegmentTables} {v : Victim} (h : t.dst.Accurate)
    (hquiet : t.dst.Quiet) (hgc : t.gcOneSegment = (some v, t')) :
    t.dst.loggingSegno ≠ some v.segno := by
  rw [gcOneSegment] at hgc
  split at hgc
  · cases hgc
  · rename_i w vs hsel
    obtain rfl := Option.some.inj (Prod.mk.inj hgc).1
    obtain ⟨⟨pre, hpre, hcount⟩, hzero | hlog⟩ := selectVictim_some hsel
    · -- no victim before it counts a valid block, so it is the first
      cases pre with
      | nil => exact hquiet w (by rw [hpre]; rfl) hzero
      | cons u us =>
        have hsorted := h.sorted
        rw [hpre] at hsorted
        have hle := (List.pairwise_cons.mp hsorted).1 w (by simp)
        exact absurd (Nat.le_zero.mp (hzero ▸ hle)) (hcount u List.mem_cons_self)
    · exact hlog

/-- What is to hold of a victim when its segment is reclaimed: it is a copy of the entry, the
segment is not the logging segment and has no other victim, and every valid block of the
segment was looked at. -/
structure Reclaimable (t : SegmentTables) (v : Victim) : Prop where
  /-- the victim is up to date -/
  entry : v.entry = t.dst.array v.segno
  /-- the segment is not being filled -/
  logging : t.dst.loggingSegno ≠ some v.segno
  /-- nor can it be picked from the victims -/
  victims : ∀ w ∈ (selectVictim t.dst.loggingSegno t.dst.victims).2, w.segno ≠ v.segno
  /-- valid blocks were looked at -/
  lookedAt : ∀ o ∈ (t.dst.array v.segno).blockValidityTable, o ∈ v.lookedAt

/-- **Accurate victims.** In any state reached by any calls, what `gc_one_segment` reclaims is
accurate exactly if the first victim is not one of the logging segment without valid blocks. -/
theorem victims_accurate (nrSegment : ℕ) {run : List TableAction} {t t' : SegmentTables}
    {v : Victim} (hrun : Machine.exec step (format nrSegment) run = some t)
    (hgc : t.gcOneSegment = (some v, t')) : Reclaimable t v ↔ t.dst.Quiet := by
  have hacc := accurate_exec (accurate_format nrSegment) hrun
  have hcount := counted_exec (counted_format nrSegment) hrun
  constructor
  · intro h w hw hzero hlog
    -- such a first victim is the one that is reclaimed
    have hsel : selectVictim t.dst.loggingSegno t.dst.victims = (some w, t.dst.victims.tail) := by
      cases hvs : t.dst.victims with
      | nil => simp [hvs] at hw
      | cons u us =>
        rw [hvs] at hw
        obtain rfl := Option.some.inj hw
        simp [selectVictim, hzero]
    simp only [gcOneSegment, hsel, Prod.mk.injEq, Option.some.injEq] at hgc
    obtain ⟨rfl, -⟩ := hgc
    exact h.logging hlog
  · intro hquiet
    have hlog := loggingSegno_ne_of_quiet hacc hquiet hgc
    rw [gcOneSegment] at hgc
    split at hgc
    · cases hgc
    · rename_i w vs hsel
      obtain rfl := Option.some.inj (Prod.mk.inj hgc).1
      obtain ⟨⟨pre, hpre, -⟩, -⟩ := selectVictim_some hsel
      have hentry := hacc.entry w (by simp [hpre]) hlog
      refine ⟨hentry, hlog, ?_, fun o ho => ?_⟩
      · rw [hsel]
        intro u hu heq
        have hnodup := hacc.nodup
        rw [hpre, List.map_append, List.map_cons] at hnodup
        have hrest := (List.nodup_append.mp hnodup).2.1
        exact (List.nodup_cons.mp hrest).1 (heq ▸ List.mem_map_of_mem hu)
      · rw [Victim.lookedAt, hentry]
        split
        · rename_i hzero
          rw [(hcount w.segno).eq_empty hzero] at ho
          cases ho
        · simpa using ho

/-- A segment of which a block was returned is reclaimed. -/
theorem victims_accurate_sample :
    ∃ t v t', Machine.exec step (format 1) [.takeSegment 0, .returnBlock 0] = some t ∧
      t.gcOneSegment = (some v, t') ∧ Reclaimable t v := by
  obtain ⟨t, ht⟩ : ∃ t, t = ((format 1).call (.takeSegment 0)).call (.returnBlock 0) := ⟨_, rfl⟩
  have hrun : Machine.exec step (format 1) [.takeSegment 0, .returnBlock 0] = some t := by
    rw [ht]
    rfl
  have htake : ((format 1).call (.takeSegment 0)).dst = ⟨1, Function.update (fun _ => .zero) 0 .full,
      [], none⟩ := rfl
  have hcall : t.dst = (⟨1, Function.update (fun _ => .zero) 0 .full, [], none⟩ : Dst).returnBlock 0 := by
    have hdst : ∀ u : SegmentTables, (u.call (.returnBlock 0)).dst = u.dst.returnBlock 0 :=
      fun _ => rfl
    rw [ht, hdst, htake]
  have hseg : blockToSegment 0 = 0 := rfl
  have hvalid : (0 : ℕ) < 1 ∧ DstEntry.full.nrValidBlock ≠ 0 := by decide
  have hroom : ¬blocksPerSegment ≤ (DstEntry.full.clearBit (blockOffset 0)).nrValidBlock := by
    simp only [DstEntry.clearBit, DstEntry.full, Finset.mem_univ, if_true]
    decide
  simp only [Dst.returnBlock, hseg, Function.update_self, if_pos hvalid, Dst.updateVictim,
    if_neg hroom] at hcall
  have hlog : t.dst.loggingSegno = none := by rw [hcall]; rfl
  obtain ⟨v, hv⟩ : ∃ v, t.dst.victims = [v] := ⟨_, by rw [hcall]; rfl⟩
  obtain ⟨t', hgc⟩ : ∃ t', t.gcOneSegment = (some v, t') := by
    simp [gcOneSegment, hv, hlog, selectVictim]
  refine ⟨t, v, t', hrun, hgc, (victims_accurate 1 hrun hgc).mpr ?_⟩
  intro w _ _
  simp [hlog]

/-! ### The victim of the logging segment -/

/-- The first block of a segment. -/
def firstOffset : Offset := ⟨0, blocksPerSegment_pos⟩

/-- A device with one segment, which is the logging segment. -/
def logged (e : DstEntry) (vs : List Victim) : SegmentTables :=
  ⟨⟨1, Function.update (fun _ => false) 0 true, 1⟩,
    ⟨1, Function.update (fun _ => .zero) 0 e, vs, some 0⟩, 1⟩

theorem findLoggingBlock_format :
    (format 1).findLoggingBlock = (some 0, logged (DstEntry.zero.setBit firstOffset) []) := by
  have hscan : (SegValidator.format 1).scan 0 = 0 := by
    rw [SegValidator.scan]
    simp [SegValidator.format]
  have hnext : (SegValidator.format 1).next = (some 0, SegValidator.format 1) := by
    have hcur : (SegValidator.format 1).curSegment = 0 := rfl
    have hnr : (SegValidator.format 1).nrSegment = 1 := rfl
    simp only [SegValidator.next, hcur, hscan, hnr, Nat.one_pos, if_true]
    rfl
  have hpick : (format 1).pickLogging = (some 0, (format 1).pickSegment 0
      ⟨1, Function.update (fun _ => false) 0 true, 1⟩) := by
    have hlog : (format 1).dst.loggingSegno = none := rfl
    have hvs : (format 1).dst.victims = [] := rfl
    have hsvt : (format 1).svt.next = (some 0, SegValidator.format 1) := hnext
    simp only [pickLogging, hlog, hvs, List.getLast?_nil, hsvt]
    rfl
  rw [findLoggingBlock_of_pick (o := firstOffset) hpick]
  · simp [handOut, pickSegment, logged, format, Dst.format, Dst.setEntry, blockAddr, firstOffset]
  · exact Nat.one_pos
  · exact blocksPerSegment_pos
  · exact DstEntry.findFirstZeroBit_of_empty rfl

theorem findLoggingBlock_logged {e : DstEntry} (vs : List Victim)
    (hroom : e.nrValidBlock < blocksPerSegment) (hempty : e.blockValidityTable = ∅) :
    (logged e vs).findLoggingBlock = (some 0, logged (e.setBit firstOffset) vs) := by
  have hpick : (logged e vs).pickLogging = (some 0, logged e vs) := rfl
  rw [findLoggingBlock_of_pick (o := firstOffset) hpick]
  · simp [handOut, logged, Dst.setEntry, blockAddr, firstOffset]
  · exact Nat.one_pos
  · simpa [logged] using hroom
  · refine DstEntry.findFirstZeroBit_of_empty ?_
    simpa [logged] using hempty

theorem returnBlock_logged :
    (logged (DstEntry.zero.setBit firstOffset) []).dst.returnBlock 0 =
      (logged .zero [⟨0, .zero⟩]).dst := by
  have hoff : blockOffset 0 = firstOffset := rfl
  have hseg : blockToSegment 0 = 0 := rfl
  have hclear : (DstEntry.zero.setBit firstOffset).clearBit firstOffset = .zero := by
    simp [DstEntry.clearBit, DstEntry.setBit, DstEntry.zero]
  have hentry : (logged (DstEntry.zero.setBit firstOffset) []).dst.array 0 =
      DstEntry.zero.setBit firstOffset := by simp [logged]
  have hpos : ¬blocksPerSegment ≤ DstEntry.zero.nrValidBlock := Nat.not_le.mpr blocksPerSegment_pos
  have hvalid : (0 : ℕ) < (logged (DstEntry.zero.setBit firstOffset) []).dst.nrSegment ∧
      (DstEntry.zero.setBit firstOffset).nrValidBlock ≠ 0 := ⟨Nat.one_pos, Nat.one_ne_zero⟩
  simp only [Dst.returnBlock, hseg, hoff, hentry, hclear, if_pos hvalid, Dst.updateVictim,
    if_neg hpos]
  simp [logged, Dst.setEntry, Dst.insertVictim]

/-- **The logging segment is reclaimed.** A block of the logging segment is returned, which makes a
victim without valid blocks, and handed out again: garbage collection reclaims the segment
without looking at the block. -/
theorem logging_segment_reclaimed :
    ∃ t v t', Machine.exec step (format 1) [.findLoggingBlock, .returnBlock 0, .findLoggingBlock] =
        some t ∧ t.gcOneSegment = (some v, t') ∧ t.dst.validBit 0 ∧ v.lookedAt = [] ∧
      ¬t'.dst.validBit 0 ∧ ¬Reclaimable t v := by
  have hrun : Machine.exec step (format 1) [.findLoggingBlock, .returnBlock 0, .findLoggingBlock] =
      some (logged (DstEntry.zero.setBit firstOffset) [⟨0, .zero⟩]) := by
    have hfind₁ : (format 1).call .findLoggingBlock =
        logged (DstEntry.zero.setBit firstOffset) [] := congrArg Prod.snd findLoggingBlock_format
    have hreturn : (logged (DstEntry.zero.setBit firstOffset) []).call (.returnBlock 0) =
        logged .zero [⟨0, .zero⟩] := by
      simp only [call, returnBlock_logged]
      rfl
    have hfind₂ : (logged .zero [⟨0, .zero⟩]).call .findLoggingBlock =
        logged (DstEntry.zero.setBit firstOffset) [⟨0, .zero⟩] :=
      congrArg Prod.snd (findLoggingBlock_logged _ blocksPerSegment_pos rfl)
    exact Machine.exec_cons_of (congrArg some hfind₁) (Machine.exec_cons_of (congrArg some hreturn)
      (Machine.exec_cons_of (congrArg some hfind₂) rfl))
  have hoff : blockOffset 0 = firstOffset := rfl
  have hseg : blockToSegment 0 = 0 := rfl
  refine ⟨_, ⟨0, .zero⟩, _, hrun, rfl, ?_, rfl, ?_, ?_⟩
  · simp [Dst.validBit, logged, DstEntry.setBit, hoff, hseg]
  · simp [Dst.validBit, logged, Dst.returnSegment, Dst.setEntry, DstEntry.zero, hoff, hseg]
  · intro h
    exact h.logging rfl

/-! ## The allocator -/

/-- `sa_alloc`: the segment, if there is one, and the tables afterwards. The segment is taken in
the table of segments in use and counted before `dst_take_segment` can fail. -/
def saAlloc (t : SegmentTables) : Option ℕ × SegmentTables :=
  match t.svt.next with
  | (none, svt) => (none, { t with svt })
  | (some seg, svt) =>
    match svt.take seg with
    | none => (none, { t with svt })
    | some svt' =>
      match t.dst.takeSegment seg with
      | none => (none, { t with svt := svt', nrValidSegment := t.nrValidSegment + 1 })
      | some dst => (some seg, ⟨svt', dst, t.nrValidSegment + 1⟩)

/-- An iteration of the loop in `sa_background_gc`; `nr_valid_segment` is a `size_t`. -/
def backgroundGc (t : SegmentTables) : SegmentTables :=
  match t.gcOneSegment with
  | (none, t') => t'
  | (some _, t') =>
    { t' with nrValidSegment := if t'.nrValidSegment = 0 then 2 ^ 64 - 1 else t'.nrValidSegment - 1 }

/-- What the device does to the tables. -/
inductive AllocatorAction where
  /-- `sa_alloc` -/
  | alloc
  /-- `dst_return_block` -/
  | returnBlock (pba : ℕ)
  /-- `dst_find_logging_block` -/
  | findLoggingBlock
  /-- an iteration of `sa_background_gc` -/
  | gc

/-- The tables after an action. -/
def act (t : SegmentTables) : AllocatorAction → SegmentTables
  | .alloc => t.saAlloc.2
  | .returnBlock pba => { t with dst := t.dst.returnBlock pba }
  | .findLoggingBlock => t.findLoggingBlock.2
  | .gc => t.backgroundGc

/-- One action; any action is possible at any time. -/
def allocatorStep (t : SegmentTables) (a : AllocatorAction) : Option SegmentTables := some (t.act a)

/-- **The tables agree.** -/
structure Agree (t : SegmentTables) : Prop where
  /-- the tables have one length -/
  nrSegment : t.svt.nrSegment = t.dst.nrSegment
  /-- a segment that is not in use has no valid blocks -/
  entry : ∀ s, t.svt.valid s = false → (t.dst.array s).nrValidBlock = 0
  /-- a segment with a victim is in use -/
  victims : ∀ v ∈ t.dst.victims, v.segno < t.svt.nrSegment ∧ t.svt.valid v.segno = true
  /-- so is the logging segment -/
  logging : ∀ s, t.dst.loggingSegno = some s → t.svt.valid s = true
  /-- the segments in use are counted -/
  count : t.nrValidSegment = t.svt.used
  /-- the victims are in order -/
  accurate : t.dst.Accurate

theorem agree_format (nrSegment : ℕ) : (format nrSegment).Agree := by
  refine ⟨rfl, fun _ _ => rfl, fun v hv => absurd hv List.not_mem_nil, ?_, ?_,
    accurate_format nrSegment⟩
  · intro s hs
    cases hs
  · simp [format, SegValidator.used, SegValidator.format]

/-- What `sa_alloc` does. -/
theorem saAlloc_cases (t : SegmentTables) :
    (∃ svt : SegValidator, svt.nrSegment = t.svt.nrSegment ∧ svt.valid = t.svt.valid ∧
      t.saAlloc = (none, { t with svt })) ∨
    ∃ seg, ∃ svt : SegValidator, seg < t.svt.nrSegment ∧ t.svt.valid seg = false ∧
      svt.nrSegment = t.svt.nrSegment ∧ svt.valid = Function.update t.svt.valid seg true ∧
      t.saAlloc.2 = ⟨svt, (t.dst.takeSegment seg).getD t.dst, t.nrValidSegment + 1⟩ := by
  rw [saAlloc]
  split
  · rename_i svt hnext
    exact Or.inl ⟨svt, SegValidator.next_nrSegment hnext, SegValidator.next_valid hnext, rfl⟩
  · rename_i seg svt hnext
    obtain ⟨hlt, hfree, hnr, hvalid⟩ := SegValidator.next_some hnext
    split
    · exact Or.inl ⟨svt, hnr, hvalid, rfl⟩
    · rename_i svt' htake
      obtain ⟨-, hnr', hvalid'⟩ := SegValidator.take_some htake
      refine Or.inr ⟨seg, svt', hlt, hfree, hnr'.trans hnr, hvalid'.trans (by rw [hvalid]), ?_⟩
      cases hdst : t.dst.takeSegment seg <;> rfl

/-- A search of the validator changes no bit. -/
theorem Agree.search {t : SegmentTables} (h : t.Agree) {svt : SegValidator}
    (hnr : svt.nrSegment = t.svt.nrSegment) (hvalid : svt.valid = t.svt.valid) :
    ({ t with svt } : SegmentTables).Agree := by
  refine ⟨hnr.trans h.nrSegment, ?_, ?_, ?_, ?_, h.accurate⟩
  · simpa only [hvalid] using h.entry
  · simpa only [hvalid, hnr] using h.victims
  · simpa only [hvalid] using h.logging
  · exact h.count.trans (SegValidator.used_congr hnr hvalid).symm

theorem Agree.alloc {t : SegmentTables} (h : t.Agree) : (t.act .alloc).Agree := by
  simp only [act]
  rcases t.saAlloc_cases with ⟨svt, hnr, hvalid, heq⟩ | ⟨seg, svt, hlt, hfree, hnr, hvalid, heq⟩
  · rw [heq]
    exact h.search hnr hvalid
  · -- the entry of a segment that is not in use lets it be taken
    have htake : t.dst.takeSegment seg = some ((t.dst.setEntry seg .full).destroyVictim seg) :=
      if_pos ⟨h.nrSegment ▸ hlt, h.entry seg hfree⟩
    rw [heq, htake]
    refine ⟨hnr.trans h.nrSegment, fun s hs => ?_, fun v hv => ?_, fun s hs => ?_, ?_,
      h.accurate.setEntry_destroyVictim seg .full⟩
    · simp only [hvalid, Function.update_apply] at hs
      split at hs
      · cases hs
      · rename_i hne
        simp only [Option.getD_some, Dst.destroyVictim_array, Dst.setEntry, Function.update_of_ne hne]
        exact h.entry s hs
    · obtain ⟨hv, hne⟩ := Dst.mem_destroyVictim.mp hv
      simp only [hvalid, hnr, Function.update_of_ne hne]
      exact h.victims v hv
    · simp only [hvalid, Function.update_apply]
      split
      · rfl
      · exact h.logging s hs
    · simp only [h.count]
      exact (SegValidator.used_take hlt hfree hnr hvalid).symm

theorem Agree.returnBlock {t : SegmentTables} (h : t.Agree) (pba : ℕ) :
    (t.act (.returnBlock pba)).Agree := by
  simp only [act]
  have hacc := h.accurate.returnBlock pba
  rcases t.dst.returnBlock_cases pba with heq | ⟨e, hlt, hne, -, heq⟩
  · rw [heq]
    exact h
  · have hused : t.svt.valid (blockToSegment pba) = true := by
      cases hv : t.svt.valid (blockToSegment pba) with
      | true => rfl
      | false => exact absurd (h.entry _ hv) hne
    rw [heq] at hacc ⊢
    refine ⟨?_, fun s hs => ?_, fun v hv => ?_, fun s hs => ?_, h.count, hacc⟩
    · simp only [Dst.updateVictim_nrSegment]
      exact h.nrSegment
    · have hs' : s ≠ blockToSegment pba := fun heq => by
        rw [heq, hused] at hs
        cases hs
      simp only [Dst.updateVictim_array, Dst.setEntry, Function.update_of_ne hs']
      exact h.entry s hs
    · rcases Dst.mem_updateVictim hv with rfl | ⟨hv, -⟩
      · exact ⟨h.nrSegment ▸ hlt, hused⟩
      · exact h.victims v hv
    · simp only [Dst.updateVictim_loggingSegno] at hs
      exact h.logging s hs

theorem loggingClosed_agree : LoggingClosed Agree where
  search _ _ hnr hvalid h := h.search hnr hvalid
  victim t v hv hlog h := by
    refine ⟨h.nrSegment, h.entry, fun w hw => ?_, fun s hs => ?_, h.count,
      loggingClosed_accurate.victim t v hv hlog h.accurate⟩
    · exact h.victims w (Dst.mem_destroyVictim.mp hw).1
    · obtain rfl := Option.some.inj hs
      exact (h.victims v hv).2
  segment t segno svt hlog hempty hlt hfree hnr hvalid h := by
    refine ⟨hnr.trans h.nrSegment, fun s hs => ?_, fun w hw => ?_, fun s hs => ?_, ?_,
      loggingClosed_accurate.segment t segno svt hlog hempty hlt hfree hnr hvalid h.accurate⟩
    · simp only [pickSegment, hvalid, Function.update_apply] at hs
      split at hs
      · cases hs
      · exact h.entry s hs
    · simp only [pickSegment, hempty] at hw
      cases hw
    · obtain rfl := Option.some.inj hs
      simp [pickSegment, hvalid]
    · simp only [pickSegment, h.count]
      exact (SegValidator.used_take hlt hfree hnr hvalid).symm
  drop t segno hlog h := by
    refine ⟨h.nrSegment, h.entry, fun w hw => ?_, fun s hs => ?_, h.count,
      loggingClosed_accurate.drop t segno hlog h.accurate⟩
    · exact h.victims w (Dst.mem_destroyVictim.mp hw).1
    · cases hs

theorem Agree.findLoggingBlock {t : SegmentTables} (h : t.Agree) :
    (t.act .findLoggingBlock).Agree := by
  simp only [act]
  have hacc := accurate_findLoggingBlock h.accurate
  rcases loggingClosed_agree.find (t := t) h rfl with ⟨-, h'⟩ |
    ⟨u, segno, offset, hu, hlog, -, -, -, heq⟩
  · exact h'
  · rw [heq] at hacc ⊢
    refine ⟨hu.nrSegment, fun s hs => ?_, hu.victims, hu.logging, hu.count, hacc⟩
    have hne : s ≠ segno := fun heq => by
      have hused := hu.logging segno hlog
      rw [← heq] at hused
      exact absurd (hs.symm.trans hused) (by decide)
    simp only [handOut, Dst.setEntry, Function.update_of_ne hne]
    exact hu.entry s hs

/-- A victim is taken from those in the tree. -/
theorem mem_of_gcOneSegment {t t' : SegmentTables} {v : Victim}
    (h : t.gcOneSegment = (some v, t')) : v ∈ t.dst.victims := by
  rw [gcOneSegment] at h
  split at h
  · cases h
  · rename_i w vs hsel
    obtain rfl := Option.some.inj (Prod.mk.inj h).1
    obtain ⟨⟨pre, hpre, -⟩, -⟩ := selectVictim_some hsel
    simp [hpre]

theorem Agree.gc {t : SegmentTables} (h : t.Agree) (hquiet : t.dst.Quiet) : (t.act .gc).Agree := by
  simp only [act, backgroundGc]
  have hacc := accurate_gcOneSegment h.accurate
  split
  · rename_i t' hgc
    rw [hgc] at hacc
    rw [gcOneSegment] at hgc
    split at hgc
    · rename_i vs hsel
      obtain ⟨-, rfl⟩ := Prod.mk.inj hgc
      exact ⟨h.nrSegment, h.entry, fun v hv => h.victims v ((selectVictim_sublist hsel).subset hv),
        h.logging, h.count, hacc⟩
    · cases hgc
  · rename_i v t' hgc
    have hlog := loggingSegno_ne_of_quiet h.accurate hquiet hgc
    obtain ⟨hlt, hused⟩ := h.victims v (mem_of_gcOneSegment hgc)
    rw [hgc] at hacc
    rw [gcOneSegment] at hgc
    split at hgc
    · cases hgc
    · rename_i w vs hsel
      obtain ⟨hw, rfl⟩ := Prod.mk.inj hgc
      obtain rfl := Option.some.inj hw
      have hreturn : Dst.returnSegment { t.dst with victims := vs } w.segno =
          (Dst.setEntry { t.dst with victims := vs } w.segno .zero).destroyVictim w.segno :=
        if_pos (h.nrSegment ▸ hlt)
      have hsvt : t.svt.testAndReturn w.segno =
          { t.svt with valid := Function.update t.svt.valid w.segno false } := if_pos hlt
      have hcount := SegValidator.used_testAndReturn hlt hused
      refine ⟨?_, fun s hs => ?_, fun u hu => ?_, fun s hs => ?_, ?_, hacc⟩
      · simp only [hreturn, hsvt]
        exact h.nrSegment
      · simp only [hsvt, Function.update_apply] at hs
        simp only [hreturn, Dst.destroyVictim_array, Dst.setEntry, Function.update_apply]
        split at hs
        · rename_i heq
          rw [if_pos heq]
          rfl
        · rename_i hne
          rw [if_neg hne]
          exact h.entry s hs
      · simp only [hreturn] at hu
        obtain ⟨hu, hne⟩ := Dst.mem_destroyVictim.mp hu
        simp only [hsvt, Function.update_of_ne hne]
        exact h.victims u ((selectVictim_sublist hsel).subset hu)
      · simp only [hreturn] at hs
        have hne : s ≠ w.segno := fun heq => hlog (heq ▸ hs)
        simp only [hsvt, Function.update_of_ne hne]
        exact h.logging s hs
      · have hbefore := h.count
        simp only
        split <;> omega

end SegmentTables

end JinDisk
