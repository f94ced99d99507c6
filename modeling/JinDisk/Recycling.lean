import JinDisk.SegmentBuffer
import JinDisk.Lib.Run
import JinDisk.Lib.PutLog

/-!
# Recycling of segment buffers

The writer and the flush worker share the ring of buffers. `segbuf_push_block` queues the
flush of a full buffer, advances `cur_buffer`, waits for `rw_lock` of the buffer it came to,
destroys it and starts over with it. The worker takes `rw_lock[index]` for reading while it
runs. A work that is queued but has not started holds no lock, so nothing keeps the writer
from destroying a buffer whose flush is still waiting.

The machine takes the steps one by one: a push, the recycling once the lock is free, the
start of a work, one block of its loop (over the tree as it is at that moment), its end.
Every pushed block is stamped, and every put records which block it wrote and when the
flush that did it had started.
-/

namespace JinDisk

open Machine

/-- A running `bufferio_handler`, which holds `rw_lock[index]` for reading. -/
structure FlushRun where
  /-- the buffer it flushes -/
  index : PoolIndex
  /-- was a segment allocated? If not, it is in `segbuf_threaded_logging`. -/
  allocated : Bool
  /-- the lba its loop visited last -/
  last : Option ℕ
  /-- history: when it started -/
  start : ℕ

/-- History: a put into the LSM tree, by the flush that started at `start`, of the block
that was pushed at `stamp`. -/
structure PutEvent where
  /-- the lba put -/
  lba : ℕ
  /-- when the block was pushed -/
  stamp : ℕ
  /-- when the flush started -/
  start : ℕ

/-- The writer, the worker and what they share. -/
structure RingState (κ D : Type) where
  /-- the buffers -/
  segbuf : SegBuf κ (Stamped D)
  /-- the writer has advanced the ring and waits for `rw_lock[cur_buffer]`, holding `lock` -/
  switching : Bool
  /-- the works queued on `bufferio_wq` -/
  queue : List PoolIndex
  /-- the work being executed; the workqueue runs one at a time -/
  running : Option FlushRun
  /-- history: the number of pushes so far -/
  clock : ℕ
  /-- history: the puts so far -/
  puts : List PutEvent

/-- The steps of writer and worker. -/
inductive RingAction (κ D : Type) where
  /-- `segbuf_push_block` up to the wait for `rw_lock` -/
  | push (lba : ℕ) (data : D)
  /-- the rest of it: the buffer is destroyed and gets the key `key` -/
  | recycle (key : κ)
  /-- the next work starts; was a segment allocated? -/
  | workStart (allocated : Bool)
  /-- one turn of its loop; in threaded logging, was a place found? -/
  | workPut (found : Bool)
  /-- the loop ends -/
  | workEnd

variable {κ D : Type}

namespace RingState

/-- The segment buffer after `segbuf_init`, with nothing queued. -/
def init (zeroKey key : κ) : RingState κ D where
  segbuf := .init zeroKey key
  switching := false
  queue := []
  running := none
  clock := 0
  puts := []

/-- The state once the writer has copied a block. -/
def write (s : RingState κ D) (lba : ℕ) (data : D) : RingState κ D :=
  { s with segbuf := s.segbuf.write lba ⟨data, s.clock⟩, clock := s.clock + 1 }

/-- The state once the writer has queued the flush of the full buffer and advanced. -/
def switch (s : RingState κ D) : RingState κ D :=
  { s with
    segbuf := s.segbuf.advance
    switching := true
    queue := s.queue ++ [s.segbuf.curBuffer] }

/-- Does the worker hold `rw_lock[i]`? -/
def locked (s : RingState κ D) (i : PoolIndex) : Bool :=
  s.running.any fun r => r.index = i

/-- One step; `none` while a lock is held or there is nothing to do. -/
def step (s : RingState κ D) : RingAction κ D → Option (RingState κ D)
  | .push lba data =>
    if s.switching then none
    else if (s.write lba data).segbuf.full then some (s.write lba data).switch
    else some (s.write lba data)
  | .recycle key =>
    if s.switching && !s.locked s.segbuf.curBuffer then
      some { s with segbuf := s.segbuf.reinit key, switching := false }
    else none
  | .workStart allocated =>
    match s.running, s.queue with
    | none, i :: queue =>
      some { s with running := some ⟨i, allocated, none, s.clock⟩, queue := queue }
    | _, _ => none
  | .workPut found =>
    s.running.bind fun r => ((s.segbuf.buffer r.index).root.after r.last).map fun b =>
      { s with
        running := some { r with last := some b.1 }
        puts := if r.allocated || found then ⟨b.1, b.2.stamp, r.start⟩ :: s.puts else s.puts }
  | .workEnd =>
    s.running.bind fun r =>
      if ((s.segbuf.buffer r.index).root.after r.last).isNone then some { s with running := none }
      else none

/-- The block `blk` of `lba` was put by a flush that started after the block was pushed. -/
def Flushed (s : RingState κ D) (lba : ℕ) (blk : Stamped D) : Prop :=
  ∃ e ∈ s.puts, e.lba = lba ∧ e.stamp = blk.stamp ∧ blk.stamp < e.start

/-- Every block of buffer `i` was put by a flush that started after the block was pushed. -/
def Drained (s : RingState κ D) (i : PoolIndex) : Prop :=
  ∀ lba blk, (s.segbuf.buffer i).get lba = some blk → s.Flushed lba blk

/-- The steps that lose nothing: a buffer is recycled only when no work is queued for it,
and a flush finds a place for every block. -/
def Unhurried (s : RingState κ D) : RingAction κ D → Prop
  | .recycle _ => s.segbuf.curBuffer ∉ s.queue
  | .workPut found => ∀ r, s.running = some r → r.allocated = true ∨ found = true
  | _ => True

/-! ## The invariant -/

/-- Buffer `i` is being flushed, by a flush that started after all its blocks were pushed
and that has put every block it has visited. -/
def Draining (s : RingState κ D) (i : PoolIndex) : Prop :=
  ∃ r, s.running = some r ∧ r.index = i ∧ ∀ lba blk, (s.segbuf.buffer i).get lba = some blk →
    blk.stamp < r.start ∧ (RbTree.Visited r.last lba → s.Flushed lba blk)

/-- What holds as long as no work is overtaken. -/
structure Inv (s : RingState κ D) : Prop where
  /-- the buffer being filled is not queued -/
  cur_not_queued : s.switching = false → s.segbuf.curBuffer ∉ s.queue
  /-- the buffer being filled is not being flushed -/
  cur_not_locked : s.switching = false → s.locked s.segbuf.curBuffer = false
  /-- stamps are in the past -/
  stamp_lt : ∀ i lba blk, (s.segbuf.buffer i).get lba = some blk → blk.stamp < s.clock
  /-- every other buffer is queued, being flushed, or done -/
  covered : ∀ i, (s.switching = false → i ≠ s.segbuf.curBuffer) →
    i ∈ s.queue ∨ s.Draining i ∨ s.Drained i

theorem inv_init (zeroKey key : κ) : (init zeroKey key : RingState κ D).Inv := by
  refine ⟨fun _ => List.not_mem_nil, fun _ => rfl, ?_, fun i _ => Or.inr (Or.inr ?_)⟩
  · intro i lba blk h
    cases (SegBuf.init_get zeroKey key i lba).symm.trans h
  · intro lba blk h
    cases (SegBuf.init_get zeroKey key i lba).symm.trans h

variable {s t : RingState κ D}

/-- A drained buffer that is not touched stays drained while the puts grow. -/
theorem Drained.mono {i : PoolIndex} (h : s.Drained i)
    (hbuf : t.segbuf.buffer i = s.segbuf.buffer i) (hputs : s.puts ⊆ t.puts) : t.Drained i := by
  intro lba blk hget
  rw [hbuf] at hget
  obtain ⟨e, he, hrest⟩ := h lba blk hget
  exact ⟨e, hputs he, hrest⟩

/-- The same while the flush that drains it has not moved. -/
theorem Draining.mono {i : PoolIndex} (h : s.Draining i) (hrun : t.running = s.running)
    (hbuf : t.segbuf.buffer i = s.segbuf.buffer i) (hputs : s.puts ⊆ t.puts) : t.Draining i := by
  obtain ⟨r, hr, hi, hblocks⟩ := h
  refine ⟨r, hrun.trans hr, hi, fun lba blk hget => ?_⟩
  rw [hbuf] at hget
  obtain ⟨hlt, hvisited⟩ := hblocks lba blk hget
  refine ⟨hlt, fun hv => ?_⟩
  obtain ⟨e, he, hrest⟩ := hvisited hv
  exact ⟨e, hputs he, hrest⟩

/-- A block is copied into a buffer that nobody else looks at. -/
theorem Inv.write (h : s.Inv) (hs : s.switching = false) (lba : ℕ) (data : D) :
    (s.write lba data).Inv where
  cur_not_queued := h.cur_not_queued
  cur_not_locked := h.cur_not_locked
  stamp_lt := by
    intro i a blk hget
    have hold : ∀ b, (s.segbuf.buffer i).get a = some b → b.stamp < s.clock + 1 :=
      fun b hb => Nat.lt_succ_of_lt (h.stamp_lt i a b hb)
    by_cases hi : i = s.segbuf.curBuffer
    · subst hi
      simp only [RingState.write, SegBuf.write_buffer_cur, DataSegment.add_get] at hget
      by_cases ha : lba = a
      · rw [if_pos ha] at hget
        obtain rfl := Option.some.inj hget
        exact Nat.lt_succ_self _
      · rw [if_neg ha] at hget
        exact hold blk hget
    · simp only [RingState.write, s.segbuf.write_buffer_of_ne _ _ hi] at hget
      exact hold blk hget
  covered := by
    intro i hi
    have hne : i ≠ s.segbuf.curBuffer := hi hs
    have hbuf : (s.write lba data).segbuf.buffer i = s.segbuf.buffer i :=
      s.segbuf.write_buffer_of_ne _ _ hne
    rcases h.covered i (fun _ => hne) with hq | hd | hd
    · exact Or.inl hq
    · exact Or.inr (Or.inl (hd.mono rfl hbuf (List.Subset.refl _)))
    · exact Or.inr (Or.inr (hd.mono hbuf (List.Subset.refl _)))

/-- The full buffer joins the queue, and every buffer is accounted for. -/
theorem Inv.switch (h : s.Inv) : s.switch.Inv where
  cur_not_queued := fun hs => by cases hs
  cur_not_locked := fun hs => by cases hs
  stamp_lt := h.stamp_lt
  covered := by
    intro i _
    by_cases hi : i = s.segbuf.curBuffer
    · exact Or.inl (List.mem_append_right _ (List.mem_singleton.mpr hi))
    · rcases h.covered i (fun _ => hi) with hq | hd | hd
      · exact Or.inl (List.mem_append_left _ hq)
      · exact Or.inr (Or.inl (hd.mono rfl rfl (List.Subset.refl _)))
      · exact Or.inr (Or.inr (hd.mono rfl (List.Subset.refl _)))

theorem Inv.recycle (h : s.Inv) (hq : s.segbuf.curBuffer ∉ s.queue)
    (hl : s.locked s.segbuf.curBuffer = false) (key : κ) :
    ({ s with segbuf := s.segbuf.reinit key, switching := false } : RingState κ D).Inv where
  cur_not_queued := fun _ => hq
  cur_not_locked := fun _ => hl
  stamp_lt := by
    intro i lba blk hget
    by_cases hi : i = s.segbuf.curBuffer
    · subst hi
      simp [SegBuf.reinit] at hget
    · simp only [SegBuf.reinit, Function.update_of_ne hi] at hget
      exact h.stamp_lt i lba blk hget
  covered := by
    intro i hi
    have hne : i ≠ s.segbuf.curBuffer := hi rfl
    have hbuf : (s.segbuf.reinit key).buffer i = s.segbuf.buffer i := Function.update_of_ne hne ..
    rcases h.covered i (fun _ => hne) with hq | hd | hd
    · exact Or.inl hq
    · exact Or.inr (Or.inl (hd.mono rfl hbuf (List.Subset.refl _)))
    · exact Or.inr (Or.inr (hd.mono hbuf (List.Subset.refl _)))

theorem Inv.workStart (h : s.Inv) {i : PoolIndex} {queue : List PoolIndex} (hr : s.running = none)
    (hq : s.queue = i :: queue) (allocated : Bool) :
    ({ s with
       running := some ⟨i, allocated, none, s.clock⟩
       queue := queue } : RingState κ D).Inv where
  cur_not_queued := fun hs hmem =>
    h.cur_not_queued hs (hq ▸ List.mem_cons_of_mem _ hmem)
  cur_not_locked := by
    intro hs
    have hne : i ≠ s.segbuf.curBuffer := by
      rintro rfl
      exact h.cur_not_queued hs (hq ▸ List.mem_cons_self)
    simp [locked, hne]
  stamp_lt := h.stamp_lt
  covered := by
    intro j hj
    rcases h.covered j hj with hmem | ⟨r, hr', -⟩ | hd
    · rw [hq] at hmem
      rcases List.mem_cons.mp hmem with rfl | hmem
      · -- all blocks are older than the flush that starts now, and none is visited yet
        refine Or.inr (Or.inl ⟨_, rfl, rfl, fun lba blk hget => ⟨h.stamp_lt j lba blk hget, ?_⟩⟩)
        rintro ⟨l, hl, -⟩
        cases hl
      · exact Or.inl hmem
    · rw [hr] at hr'
      cases hr'
    · exact Or.inr (Or.inr (hd.mono rfl (List.Subset.refl _)))

theorem Inv.workPut (h : s.Inv) {r : FlushRun} {lba : ℕ} {blk : Stamped D}
    (hr : s.running = some r) (hnext : (s.segbuf.buffer r.index).root.after r.last = some (lba, blk)) :
    ({ s with
       running := some { r with last := some lba }
       puts := ⟨lba, blk.stamp, r.start⟩ :: s.puts } : RingState κ D).Inv where
  cur_not_queued := h.cur_not_queued
  cur_not_locked := by
    intro hs
    have hl := h.cur_not_locked hs
    simpa [locked, hr] using hl
  stamp_lt := h.stamp_lt
  covered := by
    intro j hj
    rcases h.covered j hj with hmem | ⟨r', hr', hi, hblocks⟩ | hd
    · exact Or.inl hmem
    · obtain rfl := Option.some.inj (hr.symm.trans hr')
      subst hi
      refine Or.inr (Or.inl ⟨_, rfl, rfl, fun a b hget => ?_⟩)
      obtain ⟨hlt, hvisited⟩ := hblocks a b hget
      refine ⟨hlt, ?_⟩
      rintro ⟨l, hl, hle⟩
      obtain rfl := Option.some.inj hl
      obtain ⟨hblk, hbefore⟩ := RbTree.after_eq_some hnext
      have hmem : a ∈ (s.segbuf.buffer r.index).root :=
        Std.ExtTreeMap.mem_iff_isSome_getElem?.mpr (by
          change ((s.segbuf.buffer r.index).get a).isSome = true
          rw [hget]
          rfl)
      rcases hbefore a hmem hle with rfl | hv
      · -- the block put just now
        obtain rfl := Option.some.inj (hblk.symm.trans hget)
        exact ⟨_, List.mem_cons_self, rfl, rfl, hlt⟩
      · obtain ⟨e, he, hrest⟩ := hvisited hv
        exact ⟨e, List.mem_cons_of_mem _ he, hrest⟩
    · exact Or.inr (Or.inr (hd.mono rfl (List.subset_cons_self _ _)))

theorem Inv.workEnd (h : s.Inv) {r : FlushRun} (hr : s.running = some r)
    (hnext : (s.segbuf.buffer r.index).root.after r.last = none) :
    ({ s with running := none } : RingState κ D).Inv where
  cur_not_queued := h.cur_not_queued
  cur_not_locked := fun _ => rfl
  stamp_lt := h.stamp_lt
  covered := by
    intro j hj
    rcases h.covered j hj with hmem | ⟨r', hr', hi, hblocks⟩ | hd
    · exact Or.inl hmem
    · obtain rfl := Option.some.inj (hr.symm.trans hr')
      subst hi
      refine Or.inr (Or.inr fun lba blk hget => ?_)
      exact (hblocks lba blk hget).2 (RbTree.after_eq_none hnext hget)
    · exact Or.inr (Or.inr (hd.mono rfl (List.Subset.refl _)))

/-- Every unhurried step keeps the invariant. -/
theorem Inv.step {a : RingAction κ D} (h : s.Inv) (hok : s.Unhurried a)
    (ht : s.step a = some t) : t.Inv := by
  cases a with
  | push lba data =>
    cases hs : s.switching with
    | true => simp [RingState.step, hs] at ht
    | false =>
      simp only [RingState.step, hs, Bool.false_eq_true, if_false] at ht
      split at ht <;> obtain rfl := Option.some.inj ht
      · exact (h.write hs lba data).switch
      · exact h.write hs lba data
  | recycle key =>
    simp only [RingState.step] at ht
    split at ht
    next hcond =>
      obtain rfl := Option.some.inj ht
      have hl : s.locked s.segbuf.curBuffer = false := by
        simpa using (Bool.and_eq_true_iff.mp hcond).2
      exact h.recycle hok hl key
    next => cases ht
  | workStart allocated =>
    simp only [RingState.step] at ht
    split at ht
    next i queue hr hq =>
      obtain rfl := Option.some.inj ht
      exact h.workStart hr hq allocated
    next => cases ht
  | workPut found =>
    obtain ⟨r, hr, hmap⟩ := Option.bind_eq_some_iff.mp ht
    obtain ⟨⟨lba, blk⟩, hnext, rfl⟩ := Option.map_eq_some_iff.mp hmap
    have hfound : (r.allocated || found) = true := Bool.or_eq_true_iff.mpr (hok r hr)
    rw [if_pos hfound]
    exact h.workPut hr hnext
  | workEnd =>
    obtain ⟨r, hr, hend⟩ := Option.bind_eq_some_iff.mp ht
    split at hend
    next hnone =>
      obtain rfl := Option.some.inj hend
      exact h.workEnd hr (Option.isNone_iff_eq_none.mp hnone)
    next => cases hend

/-- The state after pushes of `data` to the `n` lbas from `base` on, while they fit into the
current buffer. -/
def pushed (s : RingState κ D) (base : ℕ) (data : D) (n : ℕ) : RingState κ D :=
  { s with
    segbuf := s.segbuf.fill base (fun i => ⟨data, s.clock + i⟩) n
    clock := s.clock + n }

/-- Those pushes. -/
def pushes (base : ℕ) (data : D) (n : ℕ) : List (RingAction κ D) :=
  (List.range n).map fun i => .push (base + i) data

/-- The state while the current buffer `c` is filled and the worker has not started. -/
structure Filling (s : RingState κ D) (c : PoolIndex) : Prop where
  /-- the writer waits for nothing -/
  switching : s.switching = false
  /-- the worker has not started -/
  running : s.running = none
  /-- nothing was put -/
  puts : s.puts = []
  /-- the current buffer -/
  cur : s.segbuf.curBuffer = c

theorem Filling.pushed {c : PoolIndex} (h : s.Filling c) (base : ℕ) (data : D) (n : ℕ) :
    (s.pushed base data n).Filling c :=
  ⟨h.switching, h.running, h.puts, by rw [RingState.pushed, SegBuf.fill_curBuffer, h.cur]⟩

/-- The ring has turned: the full buffer is queued and the next one is recycled. -/
def turn (s : RingState κ D) (key : κ) : RingState κ D :=
  { s.switch with segbuf := s.switch.segbuf.reinit key, switching := false }

theorem Filling.next {c : PoolIndex} (h : s.Filling c) : s.segbuf.next = c + 1 := by
  rw [SegBuf.next, h.cur]

theorem Filling.turn {c : PoolIndex} (h : s.Filling c) (key : κ) : (s.turn key).Filling (c + 1) :=
  ⟨rfl, h.running, h.puts, h.next⟩

/-- The state in which the writer waits for a buffer while the worker has not started. -/
structure Waiting (s : RingState κ D) (c : PoolIndex) : Prop where
  /-- the writer is about to recycle -/
  switching : s.switching = true
  /-- the worker has not started -/
  running : s.running = none
  /-- nothing was put -/
  puts : s.puts = []
  /-- the buffer it waits for -/
  cur : s.segbuf.curBuffer = c

theorem Filling.switch {c : PoolIndex} (h : s.Filling c) : s.switch.Waiting (c + 1) :=
  ⟨rfl, h.running, h.puts, h.next⟩

end RingState

end JinDisk
