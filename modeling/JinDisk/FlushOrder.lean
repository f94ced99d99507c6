import JinDisk.SegmentBuffer
import JinDisk.Lib.PutLog
import JinDisk.Lib.Run

/-!
# The order of flushes

Three code paths flush the buffers of the pool, each in its own order: the worker takes
the full buffers as they were queued, `flush_and_commit` takes all buffers by index, and
`segbuf_destroy` takes the current buffer first and lets the queue drain after it. A buffer
keeps its blocks after it was flushed, so one lba can sit in several buffers with different
contents, and the flush that comes last decides what the LSM tree holds.

The machine takes pushes and whole flushes as its steps. Every pushed block is stamped; the
puts into the LSM tree are a `PutLog`. What the tree should hold is simple: after a commit
and after the end, the last data pushed for every lba.
-/

namespace JinDisk

open Machine

/-- The segment buffer with its queue, and what was put into the LSM tree. -/
structure FlushState (κ D : Type) where
  /-- the buffers -/
  segbuf : SegBuf κ (Stamped D)
  /-- the works queued on `bufferio_wq` -/
  queue : List PoolIndex
  /-- the puts into the LSM tree -/
  puts : PutLog D
  /-- `segbuf_destroy` was called -/
  closed : Bool
  /-- history: the number of pushes so far -/
  clock : ℕ
  /-- history: the last data pushed for each lba -/
  last : ℕ → Option (Stamped D)

/-- The steps: pushes and whole flushes. -/
inductive FlushAction (κ D : Type) where
  /-- `segbuf_push_block` with `rflag = true`; `key` is the next value of `get_random_bytes` -/
  | push (lba : ℕ) (data : D) (key : κ)
  /-- the worker executes the next work -/
  | work (o : FlushOutcome)
  /-- `flush_and_commit`; `o k` answers the flush of buffer `k` -/
  | commit (o : ℕ → FlushOutcome)
  /-- `segbuf_destroy`; `o k` answers the flush number `k` -/
  | destroy (o : ℕ → FlushOutcome)

variable {κ D : Type}

/-- The buffers `flush_and_commit` goes through. -/
def commitOrder : List PoolIndex := [0, 1, 2, 3]

/-- Calls of `segbuf_flush_bios` for the given buffers, one after the other. -/
def flushAll (sb : SegBuf κ (Stamped D)) (puts : PutLog D) :
    List PoolIndex → (ℕ → FlushOutcome) → PutLog D
  | [], _ => puts
  | i :: l, o => flushAll sb (puts.putAll ((sb.buffer i).flushed (o 0))) l fun k => o (k + 1)

namespace FlushState

/-- The segment buffer after `segbuf_init`. -/
def init (zeroKey key : κ) : FlushState κ D where
  segbuf := .init zeroKey key
  queue := []
  puts := []
  closed := false
  clock := 0
  last := fun _ => none

/-- One step; nothing happens after `segbuf_destroy`. -/
def step (s : FlushState κ D) : FlushAction κ D → Option (FlushState κ D)
  | .push lba data key =>
    if s.closed then none
    else
      let r := s.segbuf.pushBlock lba ⟨data, s.clock⟩ true key
      some { s with
        segbuf := r.1
        queue := s.queue ++ r.2.toList
        clock := s.clock + 1
        last := Function.update s.last lba (some ⟨data, s.clock⟩) }
  | .work o =>
    if s.closed then none
    else match s.queue with
      | [] => none
      | i :: queue =>
        some { s with puts := flushAll s.segbuf s.puts [i] fun _ => o, queue := queue }
  | .commit o =>
    if s.closed then none
    else some { s with puts := flushAll s.segbuf s.puts commitOrder o }
  | .destroy o =>
    if s.closed then none
    else some { s with
      puts := flushAll s.segbuf s.puts (s.segbuf.curBuffer :: s.queue) o
      queue := []
      closed := true }

/-- The LSM tree holds the last data pushed for every lba. -/
def Settled (s : FlushState κ D) : Prop :=
  ∀ lba blk, s.last lba = some blk → s.puts.newest lba = some blk

/-- Every flush of the list finds a place for every block. -/
def AllPlaced (s : FlushState κ D) (l : List PoolIndex) (o : ℕ → FlushOutcome) : Prop :=
  ∀ k i, l[k]? = some i → (o k).Complete (s.segbuf.buffer i)

/-- The steps that keep flushes in order. A push turns the ring only to a buffer that is not
queued. A commit finds no copy of an lba for which newer data was already put; of two copies
the older one lies at the smaller index, and it is not queued to be flushed once more. At
the end the current buffer shares no lba with a queued one. All blocks find a place. -/
def InOrder (s : FlushState κ D) : FlushAction κ D → Prop
  | .push lba data _ =>
    (s.segbuf.write lba ⟨data, s.clock⟩).full = true → s.segbuf.next ∉ s.queue
  | .work o => ∀ i ∈ s.queue.head?, o.Complete (s.segbuf.buffer i)
  | .commit o => s.AllPlaced commitOrder o ∧
    ∀ i lba blk, (s.segbuf.buffer i).get lba = some blk →
      (∀ p ∈ s.puts, p.1 = lba → p.2.stamp ≤ blk.stamp) ∧
      ∀ j blk', (s.segbuf.buffer j).get lba = some blk' → blk.stamp < blk'.stamp →
        i < j ∧ i ∉ s.queue
  | .destroy o => s.AllPlaced (s.segbuf.curBuffer :: s.queue) o ∧
    ∀ i ∈ s.queue, ∀ lba blk, s.segbuf.cur.get lba = some blk → (s.segbuf.buffer i).get lba = none

/-! ## A sequence of flushes -/

/-- A sequence of complete flushes puts exactly the blocks of its buffers. -/
theorem mem_flushAll {sb : SegBuf κ (Stamped D)} {puts : PutLog D} {l : List PoolIndex}
    {o : ℕ → FlushOutcome} (hplaced : ∀ k i, l[k]? = some i → (o k).Complete (sb.buffer i))
    {lba : ℕ} {blk : Stamped D} : (lba, blk) ∈ flushAll sb puts l o ↔
      (lba, blk) ∈ puts ∨ ∃ i ∈ l, (sb.buffer i).get lba = some blk := by
  induction l generalizing puts o with
  | nil => simp [flushAll]
  | cons i l ih =>
    have hi : (sb.buffer i).flushed (o 0) = (sb.buffer i).root.toList :=
      DataSegment.flushed_of_complete (hplaced 0 i rfl)
    rw [flushAll, ih fun k j hj => hplaced (k + 1) j hj, PutLog.mem_putAll, hi,
      DataSegment.mem_root]
    simp only [List.mem_cons, exists_eq_or_imp]
    tauto

/-- It keeps the log ordered when no block is older than what is in the log, and of two
copies of an lba the older one is flushed first. -/
theorem ordered_flushAll {sb : SegBuf κ (Stamped D)} {puts : PutLog D} {l : List PoolIndex}
    {o : ℕ → FlushOutcome} (hord : puts.Ordered)
    (hplaced : ∀ k i, l[k]? = some i → (o k).Complete (sb.buffer i))
    (hnew : ∀ i ∈ l, ∀ lba blk, (sb.buffer i).get lba = some blk →
      ∀ p ∈ puts, p.1 = lba → p.2.stamp ≤ blk.stamp)
    (hpair : l.Pairwise fun i j => ∀ lba b b', (sb.buffer i).get lba = some b →
      (sb.buffer j).get lba = some b' → b.stamp ≤ b'.stamp) :
    (flushAll sb puts l o).Ordered := by
  induction l generalizing puts o with
  | nil => exact hord
  | cons i l ih =>
    obtain ⟨hfirst, hpair⟩ := List.pairwise_cons.mp hpair
    have hi : (sb.buffer i).flushed (o 0) = (sb.buffer i).root.toList :=
      DataSegment.flushed_of_complete (hplaced 0 i rfl)
    have hord' : (puts.putAll ((sb.buffer i).flushed (o 0))).Ordered := by
      rw [hi]
      refine hord.putAll ((RbTree.sorted _).imp fun h => Nat.ne_of_lt h) ?_
      rintro ⟨lba, blk⟩ he p hp heq
      exact hnew i List.mem_cons_self lba blk ((DataSegment.mem_root ..).mp he) p hp heq
    refine ih hord' (fun k j hj => hplaced (k + 1) j hj) ?_ hpair
    intro j hj lba blk hget p hp heq
    rcases PutLog.mem_putAll.mp hp with hflushed | hold
    · obtain ⟨a, b⟩ := p
      obtain rfl : a = lba := heq
      rw [hi, DataSegment.mem_root] at hflushed
      exact hfirst j hj a b blk hflushed hget
    · exact hnew j (List.mem_cons_of_mem _ hj) lba blk hget p hold heq

/-! ## The age of a buffer -/

/-- How many turns of the ring ago buffer `i` was current. -/
def age (c i : PoolIndex) : ℕ := (c - i).val

theorem age_self : ∀ c : PoolIndex, age c c = 0 := by decide

theorem age_pos : ∀ c i : PoolIndex, i ≠ c → 0 < age c i := by decide

/-- A turn of the ring makes every buffer older but the one it turns to. -/
theorem age_add_one : ∀ c i : PoolIndex, i ≠ c + 1 → age (c + 1) i = age c i + 1 := by decide

/-! ## The invariant -/

/-- Buffer `i` will be flushed without anyone asking for it: it is being filled or queued. -/
def Pending (s : FlushState κ D) (i : PoolIndex) : Prop := i = s.segbuf.curBuffer ∨ i ∈ s.queue

/-- `blk` is a version of `lba`: the last one pushed or an older one. -/
def Version (s : FlushState κ D) (lba : ℕ) (blk : Stamped D) : Prop :=
  ∃ b, s.last lba = some b ∧ (blk.stamp < b.stamp ∨ blk = b)

/-- What holds of the puts. -/
structure PutsInv (s : FlushState κ D) : Prop where
  /-- no older data was put over newer data -/
  ordered : s.puts.Ordered
  /-- what was put was pushed -/
  version : ∀ {lba blk}, (lba, blk) ∈ s.puts → s.Version lba blk
  /-- stamps are in the past -/
  stamp_lt : ∀ {lba blk}, s.last lba = some blk → blk.stamp < s.clock

/-- What holds of the buffers. -/
structure PoolInv (s : FlushState κ D) : Prop where
  /-- what is buffered was pushed -/
  version : ∀ {i lba blk}, (s.segbuf.buffer i).get lba = some blk → s.Version lba blk
  /-- an older buffer holds older data -/
  aged : ∀ {i j lba blk lba' blk'}, (s.segbuf.buffer i).get lba = some blk →
    (s.segbuf.buffer j).get lba' = some blk' →
    age s.segbuf.curBuffer j < age s.segbuf.curBuffer i → blk.stamp < blk'.stamp
  /-- the queue goes from old to young -/
  queue_aged : s.queue.Pairwise fun i j => age s.segbuf.curBuffer j < age s.segbuf.curBuffer i
  /-- the buffer being filled is not queued -/
  cur_not_queued : s.segbuf.curBuffer ∉ s.queue
  /-- nothing newer was put than what a pending buffer holds -/
  unput : ∀ {i lba blk}, s.Pending i → (s.segbuf.buffer i).get lba = some blk →
    ∀ p ∈ s.puts, p.1 = lba → p.2.stamp ≤ blk.stamp
  /-- the last data pushed was put or sits in a pending buffer -/
  kept : ∀ {lba blk}, s.last lba = some blk →
    (lba, blk) ∈ s.puts ∨ ∃ i, s.Pending i ∧ (s.segbuf.buffer i).get lba = some blk

/-- The puts are in order, and so are the buffers until they are destroyed. -/
def Inv (s : FlushState κ D) : Prop := s.PutsInv ∧ (s.closed = false → s.PoolInv)

variable {s t : FlushState κ D}

/-- When all that was pushed last has been put, the tree holds it. -/
theorem PutsInv.settled (h : s.PutsInv)
    (hput : ∀ lba blk, s.last lba = some blk → (lba, blk) ∈ s.puts) : s.Settled := by
  intro lba blk hlast
  obtain ⟨b, hb, hmem, hle⟩ := h.ordered.newest_max (hput lba blk hlast)
  obtain ⟨b', hb', hver⟩ := h.version hmem
  obtain rfl := Option.some.inj (hlast.symm.trans hb')
  rcases hver with hlt | rfl
  · omega
  · exact hb

theorem inv_init (zeroKey key : κ) : (init zeroKey key : FlushState κ D).Inv := by
  have hempty : ∀ {i lba blk},
      ¬((init zeroKey key : FlushState κ D).segbuf.buffer i).get lba = some blk := by
    intro i lba blk h
    cases (SegBuf.init_get zeroKey key i lba).symm.trans h
  refine ⟨⟨List.Pairwise.nil, fun h => ?_, fun h => ?_⟩, fun _ =>
    ⟨fun h => absurd h hempty, fun h => absurd h hempty, List.Pairwise.nil, List.not_mem_nil,
      fun _ h => absurd h hempty, fun h => ?_⟩⟩ <;> cases h

/-! ## Pushes -/

/-- The state once a block is copied. -/
def wrote (s : FlushState κ D) (lba : ℕ) (data : D) : FlushState κ D :=
  { s with
    segbuf := s.segbuf.write lba ⟨data, s.clock⟩
    clock := s.clock + 1
    last := Function.update s.last lba (some ⟨data, s.clock⟩) }

theorem wrote_last_self (s : FlushState κ D) (lba : ℕ) (data : D) :
    (s.wrote lba data).last lba = some ⟨data, s.clock⟩ :=
  Function.update_self ..

theorem wrote_last_of_ne (s : FlushState κ D) {lba a : ℕ} (data : D) (ha : a ≠ lba) :
    (s.wrote lba data).last a = s.last a :=
  Function.update_of_ne ha ..

/-- The state once the full buffer is queued and the ring has turned. -/
def turned (s : FlushState κ D) (key : κ) : FlushState κ D :=
  { s with segbuf := s.segbuf.recycle key, queue := s.queue ++ [s.segbuf.curBuffer] }

/-- A push copies a block, and turns the ring when that filled the buffer. -/
theorem step_push {lba : ℕ} {data : D} {key : κ} (ht : s.step (.push lba data key) = some t) :
    s.closed = false ∧ (t = s.wrote lba data ∨
      (s.segbuf.write lba ⟨data, s.clock⟩).full = true ∧ t = (s.wrote lba data).turned key) := by
  cases hc : s.closed with
  | true => simp [step, hc] at ht
  | false =>
    refine ⟨rfl, ?_⟩
    simp only [step, hc, Bool.false_eq_true, if_false] at ht
    rcases s.segbuf.pushBlock_cases lba ⟨data, s.clock⟩ true key with
      ⟨hr, -⟩ | ⟨-, heq⟩ | ⟨hfull, heq⟩
    · cases hr
    · rw [heq] at ht
      obtain rfl := Option.some.inj ht
      left
      simp [wrote, hc]
    · rw [heq] at ht
      obtain rfl := Option.some.inj ht
      exact Or.inr ⟨hfull, by simp [wrote, turned, hc]⟩

/-- A block found after the copy is the new one or was there before. -/
theorem wrote_get {lba : ℕ} {data : D} {i : PoolIndex} {a : ℕ} {blk : Stamped D}
    (h : ((s.wrote lba data).segbuf.buffer i).get a = some blk) :
    (i = s.segbuf.curBuffer ∧ a = lba ∧ blk = ⟨data, s.clock⟩) ∨
      (s.segbuf.buffer i).get a = some blk := by
  by_cases hi : i = s.segbuf.curBuffer
  · subst hi
    rw [wrote, SegBuf.write_buffer_cur, DataSegment.add_get] at h
    split at h
    next heq => exact Or.inl ⟨rfl, heq.symm, (Option.some.inj h).symm⟩
    next => exact Or.inr h
  · rw [wrote, SegBuf.write_buffer_of_ne _ _ _ hi] at h
    exact Or.inr h

/-- A block of another lba stays. -/
theorem wrote_get_of_ne {lba : ℕ} (data : D) (i : PoolIndex) {a : ℕ} (ha : lba ≠ a) :
    ((s.wrote lba data).segbuf.buffer i).get a = (s.segbuf.buffer i).get a := by
  by_cases hi : i = s.segbuf.curBuffer
  · subst hi
    rw [wrote, SegBuf.write_buffer_cur, DataSegment.add_get_of_ne _ _ ha]
    rfl
  · rw [wrote, SegBuf.write_buffer_of_ne _ _ _ hi]

theorem PutsInv.version_lt (h : s.PutsInv) {lba : ℕ} {blk : Stamped D} (hv : s.Version lba blk) :
    blk.stamp < s.clock := by
  obtain ⟨b, hb, hlt | rfl⟩ := hv
  · exact Nat.lt_trans hlt (h.stamp_lt hb)
  · exact h.stamp_lt hb

/-- A version stays one when newer data is pushed. -/
theorem PutsInv.version_wrote (h : s.PutsInv) {a : ℕ} {blk : Stamped D} (hv : s.Version a blk)
    (lba : ℕ) (data : D) : (s.wrote lba data).Version a blk := by
  by_cases ha : a = lba
  · subst ha
    exact ⟨⟨data, s.clock⟩, wrote_last_self .., Or.inl (h.version_lt hv)⟩
  · obtain ⟨b, hb, hrest⟩ := hv
    exact ⟨b, (wrote_last_of_ne s data ha).trans hb, hrest⟩

theorem PutsInv.wrote (h : s.PutsInv) (lba : ℕ) (data : D) : (s.wrote lba data).PutsInv where
  ordered := h.ordered
  version hmem := h.version_wrote (h.version hmem) lba data
  stamp_lt := by
    intro a blk hlast
    by_cases ha : a = lba
    · subst ha
      rw [wrote_last_self] at hlast
      obtain rfl := Option.some.inj hlast
      exact Nat.lt_succ_self _
    · rw [wrote_last_of_ne _ _ ha] at hlast
      exact Nat.lt_succ_of_lt (h.stamp_lt hlast)

theorem PoolInv.wrote (h : s.PoolInv) (hp : s.PutsInv) (lba : ℕ) (data : D) :
    (s.wrote lba data).PoolInv where
  version := by
    intro i a blk hget
    rcases wrote_get hget with ⟨-, rfl, rfl⟩ | hold
    · exact ⟨_, wrote_last_self .., Or.inr rfl⟩
    · exact hp.version_wrote (h.version hold) lba data
  aged := by
    intro i j a blk a' blk' hget hget' hage
    rcases wrote_get hget with ⟨rfl, -, -⟩ | hold
    · exact absurd hage (by rw [FlushState.wrote, SegBuf.write_curBuffer, age_self]; omega)
    · rcases wrote_get hget' with ⟨-, -, rfl⟩ | hold'
      · exact hp.version_lt (h.version hold)
      · exact h.aged hold hold' hage
  queue_aged := h.queue_aged
  cur_not_queued := h.cur_not_queued
  unput := by
    intro i a blk hpend hget p hmem heq
    rcases wrote_get hget with ⟨-, -, rfl⟩ | hold
    · exact Nat.le_of_lt (hp.version_lt (hp.version hmem))
    · exact h.unput hpend hold p hmem heq
  kept := by
    intro a blk hlast
    by_cases ha : a = lba
    · subst ha
      rw [wrote_last_self] at hlast
      obtain rfl := Option.some.inj hlast
      refine Or.inr ⟨s.segbuf.curBuffer, Or.inl rfl, ?_⟩
      rw [FlushState.wrote, SegBuf.write_buffer_cur, DataSegment.add_get_self]
    · rw [wrote_last_of_ne _ _ ha] at hlast
      rcases h.kept hlast with hput | ⟨i, hpend, hget⟩
      · exact Or.inl hput
      · exact Or.inr ⟨i, hpend, (wrote_get_of_ne data i (Ne.symm ha)).trans hget⟩

/-- The ring turns to a buffer that nobody is going to flush. -/
theorem PoolInv.turned (h : s.PoolInv) (hnext : s.segbuf.next ∉ s.queue) (key : κ) :
    (s.turned key).PoolInv := by
  have hne : s.segbuf.curBuffer ≠ s.segbuf.next := PoolIndex.ne_add_one _
  have hget : ∀ {i a blk}, ((s.turned key).segbuf.buffer i).get a = some blk →
      i ≠ s.segbuf.next ∧ (s.segbuf.buffer i).get a = some blk := by
    intro i a blk hget
    by_cases hi : i = s.segbuf.next
    · subst hi
      rw [FlushState.turned, SegBuf.recycle_buffer_next, DataSegment.init_get] at hget
      cases hget
    · rw [FlushState.turned, SegBuf.recycle_buffer_of_ne _ _ hi] at hget
      exact ⟨hi, hget⟩
  have hage : ∀ {i}, i ≠ s.segbuf.next →
      age (s.turned key).segbuf.curBuffer i = age s.segbuf.curBuffer i + 1 :=
    fun hi => age_add_one _ _ hi
  have hqueue : ∀ {i}, i ∈ s.queue → i ≠ s.segbuf.next := by
    rintro i hi rfl
    exact hnext hi
  have hpend : ∀ {i}, (s.turned key).Pending i → i ≠ s.segbuf.next → s.Pending i := by
    intro i hi hi'
    rcases hi with hcur | hmem
    · exact absurd hcur hi'
    · rcases List.mem_append.mp hmem with hmem | hmem
      · exact Or.inr hmem
      · exact Or.inl (List.mem_singleton.mp hmem)
  constructor
  case version => exact fun hg => h.version (hget hg).2
  case aged =>
    intro i j a blk a' blk' hg hg' hlt
    obtain ⟨hi, hold⟩ := hget hg
    obtain ⟨hj, hold'⟩ := hget hg'
    rw [hage hi, hage hj] at hlt
    exact h.aged hold hold' (by omega)
  case queue_aged =>
    refine List.pairwise_append.mpr ⟨?_, List.pairwise_singleton _ _, ?_⟩
    · refine h.queue_aged.imp_of_mem fun hi hj hlt => ?_
      rw [hage (hqueue hi), hage (hqueue hj)]
      omega
    · intro i hi j hj
      obtain rfl := List.mem_singleton.mp hj
      have hcur : i ≠ s.segbuf.curBuffer := by
        rintro rfl
        exact h.cur_not_queued hi
      rw [hage (hqueue hi), hage hne, age_self]
      have := age_pos _ _ hcur
      omega
  case cur_not_queued =>
    intro hmem
    rcases List.mem_append.mp hmem with hmem | hmem
    · exact hnext hmem
    · exact hne (List.mem_singleton.mp hmem).symm
  case unput =>
    intro i a blk hp hg
    obtain ⟨hi, hold⟩ := hget hg
    exact h.unput (hpend hp hi) hold
  case kept =>
    intro a blk hlast
    rcases h.kept hlast with hput | ⟨i, hp, hg⟩
    · exact Or.inl hput
    · have hi : i ≠ s.segbuf.next := by
        rcases hp with rfl | hmem
        · exact hne
        · exact hqueue hmem
      refine Or.inr ⟨i, Or.inr ?_, ?_⟩
      · rcases hp with rfl | hmem
        · exact List.mem_append_right _ (List.mem_singleton.mpr rfl)
        · exact List.mem_append_left _ hmem
      · rw [FlushState.turned, SegBuf.recycle_buffer_of_ne _ _ hi]
        exact hg

/-! ## Flushes -/

/-- What a sequence of flushes does to the puts. -/
theorem Inv.flushAll (hp : s.PutsInv) (h : s.PoolInv) {l : List PoolIndex} {o : ℕ → FlushOutcome}
    (hplaced : s.AllPlaced l o)
    (hnew : ∀ i ∈ l, ∀ lba blk, (s.segbuf.buffer i).get lba = some blk →
      ∀ p ∈ s.puts, p.1 = lba → p.2.stamp ≤ blk.stamp)
    (hpair : l.Pairwise fun i j => ∀ lba b b', (s.segbuf.buffer i).get lba = some b →
      (s.segbuf.buffer j).get lba = some b' → b.stamp ≤ b'.stamp)
    {queue : List PoolIndex} {closed : Bool} :
    ({ s with
       puts := JinDisk.flushAll s.segbuf s.puts l o
       queue := queue
       closed := closed } : FlushState κ D).PutsInv where
  ordered := ordered_flushAll hp.ordered hplaced hnew hpair
  version := by
    intro lba blk hmem
    rcases (mem_flushAll hplaced).mp hmem with hold | ⟨i, -, hget⟩
    · exact hp.version hold
    · exact h.version hget
  stamp_lt := hp.stamp_lt

/-- The worker flushes the oldest queued buffer. -/
theorem PoolInv.work (h : s.PoolInv) {i : PoolIndex} {queue : List PoolIndex}
    (hq : s.queue = i :: queue) {o : ℕ → FlushOutcome} (hplaced : s.AllPlaced [i] o) :
    ({ s with
       puts := JinDisk.flushAll s.segbuf s.puts [i] o
       queue := queue } : FlushState κ D).PoolInv := by
  obtain ⟨hoverall, htail⟩ := List.pairwise_cons.mp (hq ▸ h.queue_aged)
  have hi : i ≠ s.segbuf.curBuffer := by
    rintro rfl
    exact h.cur_not_queued (hq ▸ List.mem_cons_self)
  have hsub : ∀ {j}, j ∈ queue → j ∈ s.queue := fun hj => hq ▸ List.mem_cons_of_mem _ hj
  constructor
  case version => exact h.version
  case aged => exact h.aged
  case queue_aged => exact htail
  case cur_not_queued => exact fun hmem => h.cur_not_queued (hsub hmem)
  case unput =>
    rintro j lba blk hpend hget ⟨a, b⟩ hmem rfl
    rcases (mem_flushAll hplaced).mp hmem with hold | ⟨i', hi', hget'⟩
    · exact h.unput (hpend.imp_right hsub) hget _ hold rfl
    · -- what is still pending is younger than the buffer just flushed
      obtain rfl := List.mem_singleton.mp hi'
      refine Nat.le_of_lt (h.aged hget' hget ?_)
      rcases hpend with rfl | hj
      · have hpos := age_pos s.segbuf.curBuffer i' hi
        rwa [← age_self s.segbuf.curBuffer] at hpos
      · exact hoverall j hj
  case kept =>
    intro lba blk hlast
    rcases h.kept hlast with hput | ⟨j, hpend, hget⟩
    · exact Or.inl ((mem_flushAll hplaced).mpr (Or.inl hput))
    · by_cases hj : j = i
      · exact Or.inl ((mem_flushAll hplaced).mpr
          (Or.inr ⟨j, List.mem_singleton.mpr hj, hget⟩))
      · refine Or.inr ⟨j, ?_, hget⟩
        rcases hpend with hcur | hmem
        · exact Or.inl hcur
        · rw [hq] at hmem
          exact Or.inr ((List.mem_cons.mp hmem).resolve_left hj)

theorem mem_commitOrder : ∀ i : PoolIndex, i ∈ commitOrder := by decide

/-- A commit that meets its condition. -/
theorem PoolInv.commit (h : s.PoolInv) {o : ℕ → FlushOutcome} (hok : s.InOrder (.commit o)) :
    ({ s with puts := JinDisk.flushAll s.segbuf s.puts commitOrder o } : FlushState κ D).PoolInv := by
  obtain ⟨hplaced, hcopies⟩ := hok
  constructor
  case version => exact h.version
  case aged => exact h.aged
  case queue_aged => exact h.queue_aged
  case cur_not_queued => exact h.cur_not_queued
  case unput =>
    rintro i lba blk hpend hget ⟨a, b⟩ hmem rfl
    rcases (mem_flushAll hplaced).mp hmem with hold | ⟨j, -, hget'⟩
    · exact h.unput hpend hget _ hold rfl
    · by_contra hlt
      -- a newer copy: the pending one can only be the current buffer, which is the youngest
      obtain ⟨hij, hnotq⟩ := (hcopies i a blk hget).2 j b hget' (Nat.lt_of_not_le hlt)
      rcases hpend with rfl | hq
      · have hage := age_pos s.segbuf.curBuffer j (Ne.symm (Fin.ne_of_lt hij))
        rw [← age_self s.segbuf.curBuffer] at hage
        exact hlt (Nat.le_of_lt (h.aged hget' hget hage))
      · exact hnotq hq
  case kept =>
    intro lba blk hlast
    rcases h.kept hlast with hput | ⟨i, -, hget⟩
    · exact Or.inl ((mem_flushAll hplaced).mpr (Or.inl hput))
    · exact Or.inl ((mem_flushAll hplaced).mpr (Or.inr ⟨i, mem_commitOrder i, hget⟩))

theorem commitOrder_sorted : commitOrder.Pairwise (· < ·) := by decide

theorem PutsInv.commit (hp : s.PutsInv) (h : s.PoolInv) {o : ℕ → FlushOutcome}
    (hok : s.InOrder (.commit o)) :
    ({ s with puts := JinDisk.flushAll s.segbuf s.puts commitOrder o } : FlushState κ D).PutsInv := by
  obtain ⟨hplaced, hcopies⟩ := hok
  refine Inv.flushAll hp h hplaced (fun i _ lba blk hget => (hcopies i lba blk hget).1) ?_
  refine commitOrder_sorted.imp fun {i j} hij lba b b' hget hget' => ?_
  by_contra hlt
  have hji := ((hcopies j lba b' hget').2 i b hget (by omega)).1
  exact absurd hij (Fin.lt_asymm hji)

theorem PutsInv.destroy (hp : s.PutsInv) (h : s.PoolInv) {o : ℕ → FlushOutcome}
    (hok : s.InOrder (.destroy o)) :
    ({ s with
       puts := JinDisk.flushAll s.segbuf s.puts (s.segbuf.curBuffer :: s.queue) o
       queue := []
       closed := true } : FlushState κ D).PutsInv := by
  obtain ⟨hplaced, hshared⟩ := hok
  refine Inv.flushAll hp h hplaced ?_ (List.pairwise_cons.mpr ⟨?_, ?_⟩)
  · intro i hi lba blk hget
    exact h.unput (List.mem_cons.mp hi) hget
  · intro i hi lba b b' hget hget'
    rw [hshared i hi lba b hget] at hget'
    cases hget'
  · exact h.queue_aged.imp fun hage lba b b' hget hget' => Nat.le_of_lt (h.aged hget hget' hage)

/-- Every step in order keeps the invariant. -/
theorem Inv.step {a : FlushAction κ D} (h : s.Inv) (hok : s.InOrder a) (ht : s.step a = some t) :
    t.Inv := by
  obtain ⟨hp, hpool⟩ := h
  cases a with
  | push lba data key =>
    obtain ⟨hc, rfl | ⟨hfull, rfl⟩⟩ := step_push ht
    · exact ⟨hp.wrote lba data, fun _ => (hpool hc).wrote hp lba data⟩
    · have hp' := hp.wrote lba data
      exact ⟨⟨hp'.ordered, hp'.version, hp'.stamp_lt⟩,
        fun _ => ((hpool hc).wrote hp lba data).turned (hok hfull) key⟩
  | work o =>
    simp only [FlushState.step] at ht
    split at ht
    next => cases ht
    next hc =>
      split at ht
      next => cases ht
      next i queue hq =>
        obtain rfl := Option.some.inj ht
        have hpool := hpool (by simpa using hc)
        have hplaced : s.AllPlaced [i] fun _ => o := by
          intro k j hj
          obtain rfl := List.mem_singleton.mp (List.mem_of_getElem? hj)
          exact hok j (by rw [hq]; rfl)
        refine ⟨Inv.flushAll hp hpool hplaced ?_ (List.pairwise_singleton _ _), fun _ =>
          hpool.work hq hplaced⟩
        intro j hj lba blk hget
        obtain rfl := List.mem_singleton.mp hj
        exact hpool.unput (Or.inr (hq ▸ List.mem_cons_self)) hget
  | commit o =>
    simp only [FlushState.step] at ht
    split at ht
    next => cases ht
    next hc =>
      obtain rfl := Option.some.inj ht
      have hpool := hpool (by simpa using hc)
      exact ⟨hp.commit hpool hok, fun _ => hpool.commit hok⟩
  | destroy o =>
    simp only [FlushState.step] at ht
    split at ht
    next => cases ht
    next hc =>
      obtain rfl := Option.some.inj ht
      exact ⟨hp.destroy (hpool (by simpa using hc)) hok, fun hc' => by cases hc'⟩

/-- The steps after which the LSM tree should be up to date. -/
def Settles : FlushAction κ D → Prop
  | .commit _ => True
  | .destroy _ => True
  | _ => False

/-- A commit, and the end, leave the last data of every lba in the LSM tree. -/
theorem Inv.settled {a : FlushAction κ D} (h : s.Inv) (hok : s.InOrder a) (ha : Settles a)
    (ht : s.step a = some t) : t.Settled := by
  obtain ⟨hp', -⟩ := h.step hok ht
  refine hp'.settled fun lba blk hlast => ?_
  cases a with
  | push lba data key => cases ha
  | work o => cases ha
  | commit o =>
    simp only [FlushState.step] at ht
    split at ht
    next => cases ht
    next hc =>
      obtain rfl := Option.some.inj ht
      refine (mem_flushAll hok.1).mpr ?_
      rcases (h.2 (by simpa using hc)).kept hlast with hput | ⟨i, -, hget⟩
      · exact Or.inl hput
      · exact Or.inr ⟨i, mem_commitOrder i, hget⟩
  | destroy o =>
    simp only [FlushState.step] at ht
    split at ht
    next => cases ht
    next hc =>
      obtain rfl := Option.some.inj ht
      refine (mem_flushAll hok.1).mpr ?_
      rcases (h.2 (by simpa using hc)).kept hlast with hput | ⟨i, hpend, hget⟩
      · exact Or.inl hput
      · exact Or.inr ⟨i, List.mem_cons.mpr hpend, hget⟩

/-- The state after pushes of `data` to the lbas below `n`, while they fit into the first
buffer. -/
def filled (zeroKey key : κ) (data : D) (n : ℕ) : FlushState κ D where
  segbuf := (SegBuf.init zeroKey key).fill 0 (fun i => ⟨data, i⟩) n
  queue := []
  puts := []
  closed := false
  clock := n
  last := fun a => if a < n then some ⟨data, a⟩ else none

/-- Those pushes. -/
def pushes (data : D) (key : κ) (n : ℕ) : List (FlushAction κ D) :=
  (List.range n).map fun i => .push i data key

end FlushState

end JinDisk
