import JinDisk.GcContent
import JinDisk.Targets
import JinDisk.RangeAgreement

/-!
# Runs of a device

Pushes, flushes, compactions and garbage collections of one device, each of them a step. In a run whose
steps meet the conditions that the code does not look after (`Good`), the content of the device is what
was pushed, the newest data for each lba (`content_of_run`), and nothing in use is handed out
(`free_of_run`). What a read returns is the content (`doRead_eq`).

A target that is the only one does nothing else: each of its actions is a list of such steps
(`exec_works`).
-/

namespace JinDisk

open FlushState Layers

/-- A step of a device. -/
inductive DeviceWork (κ D : Type) where
  /-- `segbuf_push_block` of a block that is written -/
  | push (lba : ℕ) (data : D) (key : κ)
  /-- `bufferio_handler` -/
  | bufferio (ch : Chance κ)
  /-- the loop of `flush_and_commit` -/
  | commit (ch : Chance κ)
  /-- `minor_compaction_handler` -/
  | compaction (order : List ℕ) (ch : Chance κ)
  /-- an iteration of the loop of `sa_background_gc` -/
  | gc (ch : Chance κ)

variable {κ D : Type}

/-- What was pushed last for each lba, after one more step. -/
def DeviceWork.record (f : ℕ → Option D) : DeviceWork κ D → ℕ → Option D
  | .push lba data _ => Function.update f lba (some data)
  | _ => f

/-- What was pushed last for each lba. -/
def lastPushed (run : List (DeviceWork κ D)) : ℕ → Option D := run.foldl DeviceWork.record fun _ => none

namespace Device

variable [Inhabited κ] (c : DataCipher κ D)

/-- One step; `none` if there is nothing to do, or if the code would fault. -/
def step (d : Device κ D) : DeviceWork κ D → Option (Device κ D)
  | .push lba data key => some (d.pushBlock lba data true key)
  | .bufferio ch =>
    match d.bufferioWq with
    | [] => none
    | index :: rest => some ({ d with bufferioWq := rest }.flushBios c ch (d.segBuffer.buffer index))
  | .commit ch => some (d.flushPool c ch d.segBuffer)
  | .compaction order ch =>
    match d.compactionWq, d.lsmTree.immutable with
    | n + 1, some m =>
      (d.lsmTree.compactMemtable m order).map fun r =>
        { d with lsmTree := r.1, compactionWq := n }.releaseAll ch r.2
    | _, _ => none
  | .gc ch => (d.gcOneSegment c ch).map Prod.fst

/-- What is needed for a buffer to be flushed safely. -/
def FlushesSafely (ch : Chance κ) (d : Device κ D) (ds : DataSegment κ D) : Prop :=
  d.Room ds.size ∧ d.FlushesFresh ch c ds

/-- What is needed for a step to be safe, and the code does not look after. -/
def Good (d : Device κ D) : DeviceWork κ D → Prop
  | .push lba data _ =>
    lba ≠ infAddr ∧ ((d.segBuffer.write lba data).full = true → d.segBuffer.next ∉ d.bufferioWq)
  | .bufferio ch => ∀ index rest, d.bufferioWq = index :: rest →
    ({ d with bufferioWq := rest } : Device κ D).FlushesSafely c ch (d.segBuffer.buffer index)
  | .commit ch =>
    -- the buffers are flushed from old to young, as far as they have blocks for the same lba
    ((List.finRange poolSize).Pairwise fun i j => ∀ lba, ((d.segBuffer.buffer i).get lba).isSome →
      ((d.segBuffer.buffer j).get lba).isSome → age d.segBuffer.curBuffer j < age d.segBuffer.curBuffer i) ∧
    Machine.Along (fun d' index => some (d'.flushBios c ch (d.segBuffer.buffer index)))
      (fun d' index => d'.FlushesSafely c ch (d.segBuffer.buffer index)) d (List.finRange poolSize)
  | .compaction order _ => ¬Resurrecting d.lsmTree.levels order
  | .gc ch => d.CollectsSafely ch

/-- What holds after any number of good steps. -/
structure Sound (d : Device κ D) : Prop where
  /-- nothing in use is free -/
  safe : d.Safe c
  /-- the pool is in order -/
  pool : PoolOk d.segBuffer d.bufferioWq (d.stored c)
  /-- the current buffer is not full -/
  notFull : d.segBuffer.cur.size < blocksPerSegment

variable {c} {d d' : Device κ D} (ch : Chance κ)

/-! ## Steps -/

omit [Inhabited κ] in
/-- A flush has nothing to do with the segment buffer of the device. -/
theorem flushBios_kept (ds : DataSegment κ D) : (d.flushBios c ch ds).segBuffer = d.segBuffer ∧
    (d.flushBios c ch ds).bufferioWq = d.bufferioWq := by
  have hlog : ∀ (d : Device κ D) key blk pba, (d.logBlock c ch key blk pba).segBuffer = d.segBuffer ∧
      (d.logBlock c ch key blk pba).bufferioWq = d.bufferioWq := fun d key blk pba =>
    ⟨(put_kept ch).1, (put_kept ch).2.1⟩
  rw [flushBios]
  split
  · exact ⟨rfl, rfl⟩
  · split
    · rename_i segno t _
      refine List.foldlRecOn _ _ (motive := fun d' : Device κ D => d'.segBuffer = d.segBuffer ∧
        d'.bufferioWq = d.bufferioWq) ⟨rfl, rfl⟩ fun d' h e _ => ?_
      obtain ⟨hbuf, hwq⟩ := hlog d' ds.segKey e.1 (segno * blocksPerSegment + e.2)
      exact ⟨hbuf.trans h.1, hwq.trans h.2⟩
    · refine List.foldlRecOn _ _ (motive := fun d' : Device κ D => d'.segBuffer = d.segBuffer ∧
        d'.bufferioWq = d.bufferioWq) ⟨rfl, rfl⟩ fun d' h e _ => ?_
      rw [Device.threadedLogging]
      split
      · exact h
      · rename_i pba t _
        obtain ⟨hbuf, hwq⟩ := hlog { d' with tables := t } ds.segKey e pba
        exact ⟨hbuf.trans h.1, hwq.trans h.2⟩

theorem Sound.push {lba : ℕ} {data : D} (h : d.Sound c) (hlba : lba ≠ infAddr)
    (hnext : (d.segBuffer.write lba data).full = true → d.segBuffer.next ∉ d.bufferioWq) (key : κ) :
    (d.pushBlock lba data true key).Sound c ∧
      (d.pushBlock lba data true key).content c = Function.update (d.content c) lba (some data) := by
  obtain ⟨hpool, hsize, hcontent⟩ := h.pool.push h.notFull hlba hnext key
  refine ⟨⟨h.safe.withBuffers _ _, hpool, hsize⟩, funext fun a => ?_⟩
  rw [Function.update_apply]
  exact hcontent a

omit [Inhabited κ] in
theorem releaseAll_buffers (d : Device κ D) (es : List (ℕ × Record κ)) :
    (d.releaseAll ch es).segBuffer = d.segBuffer ∧ (d.releaseAll ch es).bufferioWq = d.bufferioWq := by
  induction es generalizing d with
  | nil => exact ⟨rfl, rfl⟩
  | cons e es ih => exact ih (d.release ch e)

/-- A buffer of the pool is flushed. -/
theorem Sound.flushBios (hc : c.Lawful) {sb : SegBuf κ D} {wq : List PoolIndex} {s : ℕ → Option D}
    (hpool : PoolOk sb wq s) (h : d.Safe c) {index : PoolIndex}
    (hok : d.FlushesSafely c ch (sb.buffer index)) :
    (d.flushBios c ch (sb.buffer index)).Safe c ∧
      ∀ a, (d.flushBios c ch (sb.buffer index)).stored c a =
        ((sb.buffer index).get a).or (d.stored c a) :=
  h.flushBios ch hc (hpool.size index) (hpool.keys index) hok.1 hok.2

theorem Sound.bufferio (hc : c.Lawful) (h : d.Sound c) {index : PoolIndex} {rest : List PoolIndex}
    (hwq : d.bufferioWq = index :: rest)
    (hok : ({ d with bufferioWq := rest } : Device κ D).FlushesSafely c ch (d.segBuffer.buffer index)) :
    (Device.flushBios c ch { d with bufferioWq := rest } (d.segBuffer.buffer index)).Sound c ∧
      (Device.flushBios c ch { d with bufferioWq := rest } (d.segBuffer.buffer index)).content c =
        d.content c := by
  have hpool := h.pool
  rw [hwq] at hpool
  obtain ⟨hsafe, hstored⟩ := Sound.flushBios ch hc hpool (h.safe.withBuffers d.segBuffer rest) hok
  obtain ⟨hbuf, hrest⟩ := flushBios_kept ch (c := c) (d := { d with bufferioWq := rest })
    (d.segBuffer.buffer index)
  refine ⟨⟨hsafe, ?_, ?_⟩, funext fun a => ?_⟩
  · rw [hbuf, hrest]
    exact hpool.flush hstored
  · rw [hbuf]
    exact h.notFull
  · rw [Device.content, hbuf]
    exact PoolOk.content_flush hstored a

/-- Buffers are flushed one after the other, from old to young as far as it matters: what is stored
then for an lba is what the youngest of them has. -/
theorem Sound.flushAll (hc : c.Lawful) {sb : SegBuf κ D} {wq : List PoolIndex} {s : ℕ → Option D}
    (hpool : PoolOk sb wq s) {l : List PoolIndex} (h : d.Safe c)
    (hage : l.Pairwise fun i j => ∀ lba, ((sb.buffer i).get lba).isSome →
      ((sb.buffer j).get lba).isSome → age sb.curBuffer j < age sb.curBuffer i)
    (hok : Machine.Along (fun d' index => some (Device.flushBios c ch d' (sb.buffer index)))
      (fun d' index => d'.FlushesSafely c ch (sb.buffer index)) d l) :
    (l.foldl (fun d index => Device.flushBios c ch d (sb.buffer index)) d).Safe c ∧
      (∀ i ∈ l, ∀ a x, (sb.buffer i).get a = some x →
        (∀ j ∈ l, age sb.curBuffer j < age sb.curBuffer i → (sb.buffer j).get a = none) →
        (l.foldl (fun d index => Device.flushBios c ch d (sb.buffer index)) d).stored c a = some x) ∧
      (∀ a, (∀ i ∈ l, (sb.buffer i).get a = none) →
        (l.foldl (fun d index => Device.flushBios c ch d (sb.buffer index)) d).stored c a =
          d.stored c a) ∧
      (l.foldl (fun d index => Device.flushBios c ch d (sb.buffer index)) d).segBuffer = d.segBuffer ∧
      (l.foldl (fun d index => Device.flushBios c ch d (sb.buffer index)) d).bufferioWq =
        d.bufferioWq := by
  induction l generalizing d with
  | nil => exact ⟨h, by simp, fun _ _ => rfl, rfl, rfl⟩
  | cons index l ih =>
    obtain ⟨hfirst, hage⟩ := List.pairwise_cons.mp hage
    obtain ⟨hsafely, hrest⟩ := hok
    obtain ⟨hsafe, hstored⟩ := Sound.flushBios ch hc hpool h hsafely
    obtain ⟨hsafe', hyoungest, hnone, hbuf, hwq⟩ := ih hsafe hage (hrest _ rfl)
    obtain ⟨hbuf₁, hwq₁⟩ := flushBios_kept ch (c := c) (d := d) (sb.buffer index)
    refine ⟨hsafe', fun i hi a x hx hyounger => ?_, fun a ha => ?_, hbuf.trans hbuf₁, hwq.trans hwq₁⟩
    · rcases List.mem_cons.mp hi with rfl | hi
      · -- the buffers behind it are younger, so none of them has the lba
        have hmiss : ∀ j ∈ l, (sb.buffer j).get a = none := by
          intro j hj
          by_contra hsome
          have hlt := hfirst j hj a (by rw [hx]; rfl) (Option.isSome_iff_ne_none.mpr hsome)
          exact hsome (hyounger j (List.mem_cons_of_mem _ hj) hlt)
        rw [List.foldl_cons, hnone a hmiss, hstored, hx, Option.some_or]
      · exact hyoungest i hi a x hx fun j hj => hyounger j (List.mem_cons_of_mem _ hj)
    · rw [List.foldl_cons, hnone a fun i hi => ha i (List.mem_cons_of_mem _ hi), hstored,
        ha index List.mem_cons_self, Option.none_or]

theorem Sound.commit (hc : c.Lawful) (h : d.Sound c) (hok : d.Good c (.commit ch)) :
    (d.flushPool c ch d.segBuffer).Sound c ∧ (d.flushPool c ch d.segBuffer).content c = d.content c := by
  obtain ⟨hage, halong⟩ := hok
  obtain ⟨hsafe, hyoungest, hnone, hbuf, hwq⟩ := Sound.flushAll ch hc h.pool h.safe hage halong
  have hstored : ∀ a, (d.flushPool c ch d.segBuffer).stored c a =
      (d.segBuffer.queryBlock a).or (d.stored c a) := by
    intro a
    cases hquery : d.segBuffer.queryBlock a with
    | none => exact hnone a fun i _ => (d.segBuffer.queryBlock_eq_none a).mp hquery i
    | some x =>
      obtain ⟨i, hi, hyounger⟩ := (d.segBuffer.queryBlock_eq_some a).mp hquery
      exact hyoungest i (List.mem_finRange i) a x hi fun j _ => hyounger j
  refine ⟨⟨hsafe, ?_, ?_⟩, funext fun a => ?_⟩
  · rw [flushPool, hbuf, hwq]
    exact h.pool.commit hstored
  · rw [flushPool, hbuf]
    exact h.notFull
  · rw [Device.content, flushPool, hbuf]
    exact PoolOk.content_commit hstored a

theorem Sound.compaction (h : d.Sound c) {m : Memtable κ} {order : List ℕ} {t : LsmTree κ}
    {sup : List (ℕ × Record κ)} {n : ℕ} (hworks : d.compactionWq = n + 1)
    (hm : d.lsmTree.immutable = some m) (hcomp : d.lsmTree.compactMemtable m order = some (t, sup))
    (hres : ¬Resurrecting d.lsmTree.levels order) :
    ({ d with lsmTree := t, compactionWq := n }.releaseAll ch sup).Sound c ∧
      ({ d with lsmTree := t, compactionWq := n }.releaseAll ch sup).content c = d.content c := by
  obtain ⟨hsafe, hstored⟩ := h.safe.compact ch hworks hm hcomp hres
  obtain ⟨hbuf, hwq⟩ := releaseAll_buffers ch { d with lsmTree := t, compactionWq := n } sup
  refine ⟨⟨hsafe, ?_, ?_⟩, funext fun a => ?_⟩
  · rw [hbuf, hwq, hstored]
    exact h.pool
  · rw [hbuf]
    exact h.notFull
  · rw [Device.content, Device.content, hbuf, hstored]

/-- **A good step** keeps what is in use apart, and the content is what was pushed. -/
theorem Sound.step (hc : c.Lawful) (h : d.Sound c) {w : DeviceWork κ D} (hok : d.Good c w)
    (hstep : d.step c w = some d') :
    d'.Sound c ∧ d'.content c = DeviceWork.record (d.content c) w := by
  cases w with
  | push lba data key =>
    obtain rfl := Option.some.inj hstep
    exact h.push hok.1 hok.2 key
  | bufferio ch =>
    simp only [Device.step] at hstep
    split at hstep
    · cases hstep
    · rename_i index rest hwq
      obtain rfl := Option.some.inj hstep
      exact h.bufferio ch hc hwq (hok index rest hwq)
  | commit ch =>
    obtain rfl := Option.some.inj hstep
    exact h.commit ch hc hok
  | compaction order ch =>
    simp only [Device.step] at hstep
    split at hstep
    · rename_i n m hworks hm
      obtain ⟨⟨t, sup⟩, hcomp, rfl⟩ := Option.map_eq_some_iff.mp hstep
      exact h.compaction ch hworks hm hcomp hok
    · cases hstep
  | gc ch =>
    obtain ⟨⟨d₁, n⟩, hgc, rfl⟩ := Option.map_eq_some_iff.mp hstep
    obtain ⟨hsafe, hpool, hsize, hcontent, -⟩ := h.safe.gcOneSegment ch h.pool h.notFull hok hgc
    exact ⟨⟨hsafe, hpool, hsize⟩, funext hcontent⟩

theorem sound_format (capacity maxFd nrSegment : ℕ) (zeroKey key : κ) (rawDev : ℕ → D)
    (hnr : nrSegment * blocksPerSegment ≤ infAddr) :
    (format capacity maxFd nrSegment zeroKey key rawDev).Sound c where
  safe := safe_format capacity maxFd nrSegment zeroKey key rawDev hnr
  pool := .init zeroKey key _
  notFull := by
    have hsize : (SegBuf.init zeroKey key : SegBuf κ D).cur.size = 0 := by
      simp [SegBuf.cur, SegBuf.init]
    exact hsize.trans_lt blocksPerSegment_pos

theorem content_format (capacity maxFd nrSegment : ℕ) (zeroKey key : κ) (rawDev : ℕ → D) (lba : ℕ) :
    (format capacity maxFd nrSegment zeroKey key rawDev).content c lba = none := by
  have hquery : (SegBuf.init zeroKey key : SegBuf κ D).queryBlock lba = none :=
    (SegBuf.queryBlock_eq_none _ _).mpr fun i => SegBuf.init_get zeroKey key i lba
  have hstored : (format capacity maxFd nrSegment zeroKey key rawDev).stored c lba = none := by
    rw [stored, show (format capacity maxFd nrSegment zeroKey key rawDev).lsmTree =
      LsmTree.init capacity maxFd from rfl, LsmTree.mapping_init, Option.bind_none]
  rw [Device.content, SegBuf.content, hstored]
  exact congrArg (fun o => o.or none) hquery

/-! ## Runs -/

variable {capacity maxFd nrSegment : ℕ} {zeroKey key : κ} {rawDev : ℕ → D}
  {run : List (DeviceWork κ D)}

theorem sound_exec (hc : c.Lawful) (h : d.Sound c)
    (hgood : Machine.Along (Device.step c) (Device.Good c) d run)
    (hrun : Machine.exec (Device.step c) d run = some d') :
    d'.Sound c ∧ d'.content c = run.foldl DeviceWork.record (d.content c) := by
  refine Machine.foldl_of_step (R := fun d content => d.Sound c ∧ d.content c = content) ?_ ⟨h, rfl⟩
    hgood hrun
  rintro d _ w d' ⟨hsound, rfl⟩ hok hstep
  exact hsound.step hc hok hstep

/-- **The content of a device.** After any run of good steps from a formatted device, the content of an
lba is what was pushed for it last. -/
theorem content_of_run (hc : c.Lawful) (hnr : nrSegment * blocksPerSegment ≤ infAddr)
    (hgood : Machine.Along (Device.step c) (Device.Good c)
      (format capacity maxFd nrSegment zeroKey key rawDev) run)
    (hrun : Machine.exec (Device.step c) (format capacity maxFd nrSegment zeroKey key rawDev) run =
      some d) (lba : ℕ) : d.content c lba = lastPushed run lba := by
  obtain ⟨-, hcontent⟩ := sound_exec hc (sound_format _ _ _ _ _ _ hnr) hgood hrun
  rw [hcontent, show (format capacity maxFd nrSegment zeroKey key rawDev).content c = fun _ => none from
    funext (content_format _ _ _ _ _ _)]
  rfl

/-- **Free safety.** After any run of good steps from a formatted device, the block of a newest record is
marked as valid, the reverse index names its lba, no other lba has it, and neither the allocation of
a segment nor threaded logging hands it out. -/
theorem free_of_run (hc : c.Lawful) (hnr : nrSegment * blocksPerSegment ≤ infAddr)
    (hgood : Machine.Along (Device.step c) (Device.Good c)
      (format capacity maxFd nrSegment zeroKey key rawDev) run)
    (hrun : Machine.exec (Device.step c) (format capacity maxFd nrSegment zeroKey key rawDev) run =
      some d) {lba : ℕ} {r : Record κ} (hr : d.lsmTree.mapping lba = some r) :
    d.Owns lba r.pba ∧
      (∀ lba' r', d.lsmTree.mapping lba' = some r' → r'.pba = r.pba → lba' = lba) ∧
      (∀ segno t, d.tables.saAlloc = (some segno, t) → blockToSegment r.pba ≠ segno) ∧
      ∀ pba t, d.tables.findLoggingBlock = (some pba, t) → r.pba ≠ pba := by
  obtain ⟨⟨hsafe, -, -⟩, -⟩ := sound_exec hc (sound_format _ _ _ _ _ _ hnr) hgood hrun
  refine ⟨hsafe.owned lba r hr, fun lba' r' hr' hpba => hsafe.eq_of_pba_eq hr' hr hpba,
    fun segno t halloc hseg => ?_, fun pba t hfind => (hsafe.findLoggingBlock hfind).2.unmapped lba r hr⟩
  refine ((hsafe.saAlloc halloc).2 (blockOffset r.pba) (blockOffset r.pba).isLt).unmapped lba r hr ?_
  rw [← hseg]
  exact (blockAddr_blockOffset r.pba).symm

/-- An empty buffer can always be flushed. -/
theorem Safe.flushesSafely_empty (h : d.Safe c) {ds : DataSegment κ D} (hsize : ds.size = 0) :
    d.FlushesSafely c ch ds := by
  have hnil : ds.root.toList = [] :=
    List.length_eq_zero_iff.mp (Std.ExtTreeMap.length_toList.trans hsize)
  refine ⟨Or.inr ?_, ?_⟩
  · rw [hsize]
    exact h.tree.ok.room
  · rw [FlushesFresh, hnil]
    split
    · exact fun e he => absurd he List.not_mem_nil
    · trivial

theorem along_empty {sb : SegBuf κ D} {l : List PoolIndex} (h : d.Safe c)
    (hsize : ∀ i ∈ l, (sb.buffer i).size = 0) :
    Machine.Along (fun d' index => some (Device.flushBios c ch d' (sb.buffer index)))
      (fun d' index => d'.FlushesSafely c ch (sb.buffer index)) d l := by
  induction l with
  | nil => trivial
  | cons i l ih =>
    refine ⟨h.flushesSafely_empty ch (hsize i List.mem_cons_self), fun d' hd' => ?_⟩
    obtain rfl := Option.some.inj hd'
    rw [Device.flushBios, if_pos (hsize i List.mem_cons_self)]
    exact ih fun j hj => hsize j (List.mem_cons_of_mem _ hj)

/-! ### A write and a flush -/

theorem plainCipher_lawful : Kernel.plainCipher.Lawful := fun _ _ _ => rfl

/-- One block is written, and flushed. -/
def writeAndFlush : List (DeviceWork Unit ℕ) := [.push 5 7 (), .commit Kernel.noChance]

/-- The device with the block in its segment buffer. -/
def written : Device Unit ℕ := (format 6 14 2 () () fun _ => 0).pushBlock 5 7 true ()

theorem written_segBuffer : written.segBuffer = (SegBuf.init () () : SegBuf Unit ℕ).write 5 7 := by
  rcases (SegBuf.init () () : SegBuf Unit ℕ).pushBlock_cases 5 7 true () with
    ⟨hflag, -⟩ | ⟨-, heq⟩ | ⟨hfull, -⟩
  · cases hflag
  · exact congrArg Prod.fst heq
  · have hle : ((SegBuf.init () () : SegBuf Unit ℕ).write 5 7).cur.size ≤ 1 := SegBuf.size_write_le
    rw [SegBuf.full, decide_eq_true_eq] at hfull
    exact absurd (hfull.trans hle) (by decide)

theorem written_buffer (i : PoolIndex) (hi : i ≠ 0) : written.segBuffer.buffer i = .init () := by
  rw [written_segBuffer, SegBuf.write_buffer_of_ne _ _ _ hi]
  simp [SegBuf.init]

theorem written_sound : written.Sound Kernel.plainCipher :=
  (Sound.push (sound_format _ _ _ _ _ _ (by decide)) (by decide) (fun _ => by simp [format]) ()).1

theorem written_saAlloc : written.tables.saAlloc.1 = some 0 := by
  change (SegmentTables.format 2).saAlloc.1 = some 0
  simp [SegmentTables.saAlloc, SegmentTables.format, SegValidator.next, SegValidator.scan,
    SegValidator.format, SegValidator.take, Dst.takeSegment, Dst.format, DstEntry.zero]

/-- The first buffer is flushed to a segment. -/
theorem written_flushesSafely :
    written.FlushesSafely Kernel.plainCipher Kernel.noChance (written.segBuffer.buffer 0) := by
  refine ⟨Or.inl ⟨rfl, (written_sound.pool.size 0).trans (by decide)⟩, ?_⟩
  have halloc := written_saAlloc
  rw [FlushesFresh]
  split
  · exact fun e _ A hA r hr => absurd hr (layers_format 6 14 2 () () (fun _ => 0) A hA _ r)
  · rename_i hnone
    rw [hnone] at halloc
    cases halloc

theorem write_and_flush : ∃ d, Machine.Runs (Device.step Kernel.plainCipher) (Device.Good Kernel.plainCipher)
    (format 6 14 2 () () fun _ => 0) writeAndFlush d ∧ d.stored Kernel.plainCipher 5 = some 7 := by
  have hpush : (format 6 14 2 () () fun _ => 0 : Device Unit ℕ).Good Kernel.plainCipher (.push 5 7 ()) :=
    ⟨by decide, fun _ => by simp [format]⟩
  have hsound := written_sound
  have hcur : written.segBuffer.curBuffer = 0 := by
    rw [written_segBuffer]
    rfl
  have hget : ∀ i lba, ((written.segBuffer.buffer i).get lba).isSome → i = 0 := by
    intro i lba hsome
    by_contra hi
    rw [written_buffer i hi] at hsome
    simp at hsome
  have hage : (List.finRange poolSize).Pairwise fun i j => ∀ lba,
      ((written.segBuffer.buffer i).get lba).isSome → ((written.segBuffer.buffer j).get lba).isSome →
        age written.segBuffer.curBuffer j < age written.segBuffer.curBuffer i := by
    refine (List.pairwise_lt_finRange poolSize).imp fun hlt lba hi hj => ?_
    rw [hget _ lba hi, hget _ lba hj] at hlt
    exact absurd hlt (lt_irrefl _)
  have halong : Machine.Along (fun d' index => some (Device.flushBios Kernel.plainCipher Kernel.noChance d'
      (written.segBuffer.buffer index))) (fun d' index => d'.FlushesSafely Kernel.plainCipher
        Kernel.noChance (written.segBuffer.buffer index)) written (List.finRange poolSize) := by
    -- the others are empty
    refine ⟨written_flushesSafely, fun d' hd' => ?_⟩
    obtain rfl := Option.some.inj hd'
    refine along_empty Kernel.noChance (Sound.flushBios Kernel.noChance plainCipher_lawful hsound.pool
      hsound.safe written_flushesSafely).1 ?_
    intro i hi
    have hne : i ≠ 0 := by
      revert i
      decide
    rw [written_buffer i hne, DataSegment.init_size]
  obtain ⟨-, hyoungest, -⟩ :=
    Sound.flushAll Kernel.noChance plainCipher_lawful hsound.pool hsound.safe hage halong
  refine ⟨_, ⟨rfl, Machine.along_cons_of hpush rfl ⟨⟨hage, halong⟩, fun _ _ => trivial⟩⟩, ?_⟩
  refine hyoungest 0 (List.mem_finRange 0) 5 7 ?_ fun j _ hj => ?_
  · rw [written_segBuffer]
    exact DataSegment.add_get_self _ 5 7
  · rw [hcur, age_self] at hj
    cases hj

theorem content_of_run_sample : ∃ d, Machine.exec (Device.step Kernel.plainCipher)
    (format 6 14 2 () () fun _ => 0) writeAndFlush = some d ∧ d.content Kernel.plainCipher 5 = some 7 := by
  obtain ⟨d, ⟨hrun, hgood⟩, -⟩ := write_and_flush
  exact ⟨d, hrun, content_of_run plainCipher_lawful (by decide) hgood hrun 5⟩

theorem free_of_run_sample : ∃ d r, Machine.exec (Device.step Kernel.plainCipher)
    (format 6 14 2 () () fun _ => 0) writeAndFlush = some d ∧ d.lsmTree.mapping 5 = some r ∧
      d.Owns 5 r.pba := by
  obtain ⟨d, ⟨hrun, hgood⟩, hstored⟩ := write_and_flush
  obtain ⟨r, hr, -⟩ := Option.bind_eq_some_iff.mp hstored
  exact ⟨d, r, hrun, hr, (free_of_run plainCipher_lawful (by decide) hgood hrun hr).1⟩

/-! ## Reads -/

/-- What is read for a block is its content. -/
theorem readBlock_eq {results : Option (Memtable κ)} {lba : ℕ}
    (hfound : (results.bind fun m => m.get lba) = d.lsmTree.newest lba) :
    d.readBlock c results lba = d.content c lba := by
  rw [readBlock, Device.content, SegBuf.content, hfound, stored, LsmTree.mapping]
  cases d.segBuffer.queryBlock lba with
  | some data => rfl
  | none =>
    cases d.lsmTree.newest lba with
    | none => rfl
    | some old =>
      by_cases hneg : old.pba = infAddr
      · simp [hneg, Record.positive?, Record.isNegative, Option.filter]
      · simp [hneg, Record.positive?, Record.isNegative, Option.filter]

/-- **A read** of blocks returns their content, whatever is cached, unless a record of the range is torn
or one of its keys is looked up in a file without entries. -/
theorem Safe.doRead_eq (h : d.Safe c) {caches : ℕ → LruCache (Leaf κ)}
    (hcaches : d.lsmTree.CachesOk caches) {start count : ℕ} (hcount : 0 < count)
    (htorn : ¬d.lsmTree.TornKey start (start + count - 1))
    (hhit : ¬d.lsmTree.EmptyFileHit start (start + count - 1)) :
    d.doRead c caches start count = some ((List.range' start count).map (d.content c)) := by
  obtain ⟨res, hres, hin, -, -⟩ := (h.tree.ok.rangeAgrees_iff (by omega)).mpr ⟨htorn, hhit⟩ caches hcaches
  rw [doRead, hres, Option.map_some]
  refine congrArg some (List.map_congr_left fun lba hlba => readBlock_eq ?_)
  rw [List.mem_range'_1] at hlba
  exact h.tree.ok.search_eq (hin lba (by omega) (by omega))

end Device

end JinDisk
