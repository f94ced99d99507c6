import JinDisk.DeviceRuns
import JinDisk.StoreRuns

/-!
# Sessions of a device

A device is closed and opened any number of times. Closing it flushes the current buffer and lets
the queues run empty, writes the memtable to a file and destroys everything; opening it makes the
parts again from what is stored: the tables of segments, the reverse index, and the table of the
files' statistics.

What was pushed before is there afterwards (`content_of_sessions`). The condition the code does not
look after is about the order of the flushes: `segbuf_destroy` flushes the current buffer before
the buffers that are still queued, so no lba of it may be in one of those.

Garbage collection is taken to be at rest while the device is closed; the timer is only deleted
after the buffers are gone.
-/

namespace JinDisk

open FlushState Layers

variable {κ D : Type}

/-- A device, with what is on disk beside it. -/
structure Session (κ D : Type) where
  /-- the device -/
  device : Device κ D
  /-- `file_stats` of the catalogue -/
  fileStats : ℕ → BitFile κ
  /-- `segbuf_destroy` has flushed the current buffer -/
  closing : Bool

/-- What happens in a session. -/
inductive SessionWork (κ D : Type) where
  /-- a step of the device -/
  | work (w : DeviceWork κ D)
  /-- the first line of `segbuf_destroy` -/
  | segbufDestroy (ch : Chance κ)
  /-- the queues are empty: the rest of `dm_jindisk_destroy`, and `dm_jindisk_target_ctr` for a
  device that has been formatted. `order` is the order of the pops in a merge, and the keys are
  those of the new buffers. -/
  | reopen (order : List ℕ) (ch : Chance κ) (zeroKey key : κ)

/-- Works that are queued are run to the end when their queue is destroyed. -/
def DeviceWork.IsQueued : DeviceWork κ D → Bool
  | .bufferio _ => true
  | .compaction _ _ => true
  | _ => false

/-- What was pushed last for each lba, after one more step. -/
def SessionWork.record (f : ℕ → Option D) : SessionWork κ D → ℕ → Option D
  | .work w => w.record f
  | _ => f

/-- What was pushed last for each lba, in whatever session. -/
def lastPushedEver (run : List (SessionWork κ D)) : ℕ → Option D :=
  run.foldl SessionWork.record fun _ => none

namespace Session

/-- A device that was just formatted. -/
def format (capacity maxFd nrSegment : ℕ) (zeroKey key : κ) (rawDev : ℕ → D) : Session κ D :=
  ⟨.format capacity maxFd nrSegment zeroKey key rawDev, fun _ => .zero, false⟩

/-- The LSM tree and its files. -/
def store (s : Session κ D) : LsmStore κ := ⟨s.device.lsmTree, s.fileStats, s.device.compactionWq⟩

/-- What is made of the stored tables and files. -/
def opened (s : Session κ D) (zeroKey key : κ) : Session κ D where
  device :=
    { segBuffer := .init zeroKey key
      bufferioWq := []
      lsmTree := s.store.load.tree
      compactionWq := 0
      tables := s.device.tables.reopen
      rit := s.device.rit
      rawDev := s.device.rawDev }
  fileStats := s.fileStats
  closing := false

variable [Inhabited κ]

/-- `file_stats` after a minor compaction of `m`. -/
def recorded (s : Session κ D) (m : Memtable κ) (order : List ℕ) : ℕ → BitFile κ :=
  ((minorCompaction s.device.lsmTree.levels s.device.lsmTree.catalogue m order).map fun comp =>
    setFileStats s.fileStats (comp.ops.filterMap LevelOp.added?)).getD s.fileStats

/-- `file_stats` after a step of the device. -/
def recordedBy (s : Session κ D) : DeviceWork κ D → ℕ → BitFile κ
  | .compaction order _ =>
    match s.device.lsmTree.immutable with
    | some m => s.recorded m order
    | none => s.fileStats
  | _ => s.fileStats

/-- `lsm_tree_destroy`, when its queue is empty. -/
def lsmTreeDestroy (s : Session κ D) (ch : Chance κ) (order : List ℕ) : Option (Session κ D) :=
  if s.device.lsmTree.memtable.size = 0 then some s
  else
    (s.device.lsmTree.compactMemtable s.device.lsmTree.memtable order).map fun r =>
      { s with
        device := { s.device with lsmTree := r.1 }.releaseAll ch r.2
        fileStats := s.recorded s.device.lsmTree.memtable order }

variable (c : DataCipher κ D)

/-- One step; `none` if there is nothing to do, or if the code would fault. -/
def step (s : Session κ D) : SessionWork κ D → Option (Session κ D)
  | .work w =>
    if s.closing && !w.IsQueued then none
    else (s.device.step c w).map fun d => { s with device := d, fileStats := s.recordedBy w }
  | .segbufDestroy ch =>
    if s.closing then none
    else some { s with device := s.device.flushBios c ch s.device.segBuffer.cur, closing := true }
  | .reopen order ch zeroKey key =>
    if s.closing && s.device.bufferioWq.isEmpty && s.device.compactionWq = 0 then
      (s.lsmTreeDestroy ch order).map fun s' => s'.opened zeroKey key
    else none

/-- What is needed for a step to be safe, and the code does not look after. -/
def Good (s : Session κ D) : SessionWork κ D → Prop
  | .work w => s.device.Good c w
  | .segbufDestroy ch => s.device.FlushesSafely c ch s.device.segBuffer.cur ∧
      ∀ index ∈ s.device.bufferioWq, ∀ lba, (s.device.segBuffer.cur.get lba).isSome →
        (s.device.segBuffer.buffer index).get lba = none
  | .reopen order _ _ _ =>
    s.device.lsmTree.memtable.size ≠ 0 → ¬Resurrecting s.device.lsmTree.levels order

end Session

/-! ## The tables of a device that was opened -/

namespace Dst

theorem perm_insertVictim (v : Victim) (vs : List Victim) : (insertVictim v vs).Perm (v :: vs) := by
  rw [insertVictim]
  refine List.perm_middle.trans (List.Perm.cons _ ?_)
  rw [List.takeWhile_append_dropWhile]

theorem loadEntry_loggingSegno (d : Dst) (segno : ℕ) :
    (d.loadEntry segno).loggingSegno = d.loggingSegno := by
  rw [loadEntry, addVictim]
  split
  · split <;> rfl
  · rfl

/-- The victims stay in order and distinct when more segments are loaded. -/
theorem sorted_loadEntry {d : Dst} (hsorted : Sorted d.victims)
    (hnodup : (d.victims.map Victim.segno).Nodup) {segno : ℕ} (hnew : ∀ v ∈ d.victims, v.segno ≠ segno) :
    Sorted (d.loadEntry segno).victims ∧ ((d.loadEntry segno).victims.map Victim.segno).Nodup := by
  rw [loadEntry, addVictim]
  split
  · split
    · exact ⟨hsorted, hnodup⟩
    · refine ⟨sorted_insertVictim hsorted _, ?_⟩
      rw [((perm_insertVictim _ _).map Victim.segno).nodup_iff, List.map_cons, List.nodup_cons]
      refine ⟨fun hmem => ?_, hnodup⟩
      obtain ⟨v, hv, hseg⟩ := List.mem_map.mp hmem
      exact hnew v hv hseg
  · exact ⟨hsorted, hnodup⟩

theorem sorted_foldl_loadEntry {segnos : List ℕ} {d : Dst} (hsegnos : segnos.Nodup)
    (hsorted : Sorted d.victims) (hnodup : (d.victims.map Victim.segno).Nodup)
    (hnew : ∀ v ∈ d.victims, v.segno ∉ segnos) :
    Sorted (segnos.foldl loadEntry d).victims ∧
      ((segnos.foldl loadEntry d).victims.map Victim.segno).Nodup ∧
      (segnos.foldl loadEntry d).loggingSegno = d.loggingSegno := by
  induction segnos generalizing d with
  | nil => exact ⟨hsorted, hnodup, rfl⟩
  | cons segno segnos ih =>
    obtain ⟨hfirst, hrest⟩ := List.nodup_cons.mp hsegnos
    obtain ⟨hsorted', hnodup'⟩ := sorted_loadEntry hsorted hnodup fun v hv (heq : v.segno = segno) =>
      hnew v hv (heq ▸ List.mem_cons_self)
    rw [List.foldl_cons, ← loadEntry_loggingSegno d segno]
    refine ih hrest hsorted' hnodup' fun v hv hmem => ?_
    rcases mem_loadEntry.mp hv with hv | ⟨rfl, -⟩
    · exact hnew v hv (List.mem_cons_of_mem _ hmem)
    · exact hfirst hmem

theorem init_array (nrSegment : ℕ) (array : ℕ → DstEntry) : (init nrSegment array).array = array :=
  foldl_loadEntry_array ..

end Dst

/-- **Tables that are opened** agree again. -/
theorem SegmentTables.Agree.reopen {t : SegmentTables} (h : t.Agree) : t.reopen.Agree := by
  obtain ⟨hsorted, hnodup, hlogging⟩ := Dst.sorted_foldl_loadEntry
    (d := ⟨t.dst.nrSegment, t.dst.array, [], none⟩) (List.nodup_range (n := t.dst.nrSegment))
    List.Pairwise.nil List.nodup_nil fun v hv => absurd hv List.not_mem_nil
  have hnr : t.reopen.dst.nrSegment = t.dst.nrSegment := Dst.foldl_loadEntry_nrSegment ..
  refine ⟨h.nrSegment.trans hnr.symm, fun s hs => ?_, fun v hv => ?_, fun s hs => ?_, rfl,
    hsorted, hnodup, fun v hv _ => ?_⟩
  · rw [SegmentTables.reopen, Dst.init_array]
    exact h.entry s hs
  · obtain ⟨hlt, hentry, hsome, -⟩ := Dst.mem_init.mp hv
    refine ⟨h.nrSegment ▸ hlt, ?_⟩
    by_contra hfree
    exact hsome (hentry ▸ h.entry v.segno (eq_false_of_ne_true hfree))
  · cases hlogging.symm.trans hs
  · rw [SegmentTables.reopen, Dst.init_array]
    exact (Dst.mem_init.mp hv).2.1

namespace Device

variable [Inhabited κ] {c : DataCipher κ D} {d d' : Device κ D} (ch : Chance κ)

omit [Inhabited κ] in
theorem TablesOk.reopen (h : d.TablesOk) :
    ({ d with tables := d.tables.reopen } : Device κ D).TablesOk where
  agree := h.agree.reopen
  counted segno := by
    rw [SegmentTables.reopen, Dst.init_array]
    exact h.counted segno
  nrBlock := by
    have hnr : d.tables.reopen.dst.nrSegment = d.tables.dst.nrSegment :=
      Dst.foldl_loadEntry_nrSegment ..
    rw [hnr]
    exact h.nrBlock
  bound := h.bound

/-! ## The files of a device -/

/-- The files and their descriptors are the same. -/
def SameFiles (d d' : Device κ D) : Prop :=
  d'.lsmTree.levels = d.lsmTree.levels ∧ d'.lsmTree.catalogue = d.lsmTree.catalogue

omit [Inhabited κ] in
theorem sameFiles_put (lba : ℕ) (val : Option (Record κ)) (h : d.SameFiles d') :
    d.SameFiles (d'.put ch lba val) := by
  rw [SameFiles, put_lsmTree]
  obtain ⟨hlevels, hcat⟩ := d'.lsmTree.put_levels lba val
  exact ⟨hlevels.trans h.1, hcat.trans h.2⟩

omit [Inhabited κ] in
theorem sameFiles_flushBios (h : d.SameFiles d') (ds : DataSegment κ D) :
    d.SameFiles (d'.flushBios c ch ds) := by
  rw [flushBios]
  split
  · exact h
  · split
    · refine List.foldlRecOn _ _ (motive := d.SameFiles) h fun u hu e _ => ?_
      exact sameFiles_put ch e.1.1 _ hu
    · refine List.foldlRecOn _ _ (motive := d.SameFiles) h fun u hu e _ => ?_
      rw [threadedLogging]
      split
      · exact hu
      · rename_i pba t _
        exact sameFiles_put ch e.1 _ (show d.SameFiles { u with tables := t } from hu)

theorem sameFiles_gcBlock {segno : ℕ} {st st' : GcState κ D} {o : Offset}
    (h : d.SameFiles st.device) (hs : gcBlock c ch segno st o = some st') :
    d.SameFiles st'.device := by
  simp only [gcBlock] at hs
  split at hs
  · obtain ⟨found, -, rfl⟩ := Option.map_eq_some_iff.mp hs
    split
    · exact h
    · have hput := sameFiles_put ch (st.device.rit.reset (blockAddr segno o) infAddr ch.newLba).2 none
        (show d.SameFiles { st.device with
          rit := (st.device.rit.reset (blockAddr segno o) infAddr ch.newLba).1 } from h)
      split <;> exact hput
  · obtain rfl := Option.some.inj hs
    exact h

/-- Only a compaction changes the files. -/
theorem step_files {w : DeviceWork κ D} (hw : ∀ order ch, w ≠ .compaction order ch)
    (hs : d.step c w = some d') : d.SameFiles d' := by
  cases w with
  | push lba data key =>
    obtain rfl := Option.some.inj hs
    exact ⟨rfl, rfl⟩
  | bufferio ch =>
    simp only [Device.step] at hs
    split at hs
    · cases hs
    · obtain rfl := Option.some.inj hs
      rename_i index rest _
      exact sameFiles_flushBios ch (show d.SameFiles { d with bufferioWq := rest } from ⟨rfl, rfl⟩) _
  | commit ch =>
    obtain rfl := Option.some.inj hs
    exact List.foldlRecOn _ _ (motive := d.SameFiles) ⟨rfl, rfl⟩ fun u hu index _ =>
      sameFiles_flushBios ch hu _
  | compaction order ch => exact absurd rfl (hw order ch)
  | gc ch =>
    obtain ⟨⟨d₁, n⟩, hgc, rfl⟩ := Option.map_eq_some_iff.mp hs
    simp only [gcOneSegment] at hgc
    split at hgc
    · obtain rfl := (Prod.mk.inj (Option.some.inj hgc)).1
      exact ⟨rfl, rfl⟩
    · obtain ⟨st, hst, heq⟩ := Option.map_eq_some_iff.mp hgc
      obtain rfl := (Prod.mk.inj heq).1
      rename_i v victims _
      have hstep : ∀ (st : GcState κ D) o st', d.SameFiles st.device →
          gcBlock c ch v.segno st o = some st' → d.SameFiles st'.device :=
        fun _ _ _ h hs => sameFiles_gcBlock ch h hs
      refine Machine.invariant_of_all hstep ?_ hst
      exact ⟨rfl, rfl⟩

/-! ## Closing -/

/-- The memtable becomes the immutable one, and its compaction is queued. -/
def rotated (d : Device κ D) : Device κ D := { d with lsmTree := d.lsmTree.rotated, compactionWq := 1 }

/-- The memtable was rotated, and has become a file by a compaction that has left the files of `t`. -/
def emptied (d : Device κ D) (t : LsmTree κ) : Device κ D :=
  { d.rotated with
    lsmTree := { d.lsmTree.rotated with levels := t.levels, catalogue := t.catalogue }
    compactionWq := 0 }

/-- A rotation changes no layer. -/
theorem Safe.rotated (h : d.Safe c) (hworks : d.compactionWq = 0) :
    d.rotated.Safe c ∧ d.rotated.stored c = d.stored c := by
  have hlayers : d.rotated.layers = (Memtable.create : Memtable κ).layer :: d.layers := by
    simp [layers, lower, Device.rotated, LsmTree.rotated, hworks]
  have hmapping : d.rotated.lsmTree.mapping = d.lsmTree.mapping :=
    LsmTree.mapping_rotated (h.tree.compacted hworks)
  refine ⟨⟨⟨h.tree.ok.rotated, fun hzero => ?_⟩, le_rfl, ?_, ?_, ?_, ?_, ?_⟩, funext fun lba => ?_⟩
  · cases hzero
  · exact ⟨h.tables.agree, h.tables.counted, h.tables.nrBlock, h.tables.bound⟩
  · rw [hlayers]
    exact h.scattered.push Memtable.layer_create
  · rw [hlayers]
    intro A hA key r hr
    rcases List.mem_cons.mp hA with rfl | hA
    · exact absurd hr (Memtable.layer_create key r)
    · exact h.keys A hA key r hr
  · rw [hmapping]
    intro key r hr
    obtain ⟨hlt, hvalid, hlba⟩ := h.owned key r hr
    exact ⟨hlt, hvalid, hlba⟩
  · rw [hmapping]
    exact h.intact
  · rw [stored, hmapping]
    rfl

omit [Inhabited κ] in
/-- Releasing has nothing to do with the tree. -/
theorem releaseAll_withTree (d : Device κ D) (t : LsmTree κ) (works : ℕ) (es : List (ℕ × Record κ)) :
    ({ d with lsmTree := t, compactionWq := works } : Device κ D).releaseAll ch es =
      { d.releaseAll ch es with lsmTree := t, compactionWq := works } := by
  induction es generalizing d with
  | nil => rfl
  | cons e es ih => exact ih (d.release ch e)

end Device

namespace Session

variable [Inhabited κ] {c : DataCipher κ D} {s s' : Session κ D}

/-- **A device that was opened**, when its memtable had become a file. -/
theorem safe_opened (h : s.device.Safe c) (hstored : Stored s.device.lsmTree.levels s.fileStats)
    (hworks : s.device.compactionWq = 0) (hsize : s.device.lsmTree.memtable.size = 0)
    (zeroKey key : κ) :
    (s.opened zeroKey key).device.Safe c ∧
      (s.opened zeroKey key).device.stored c = s.device.stored c := by
  have hstore : s.store.Ok := ⟨h.tree.ok, hstored⟩
  have hmapping : (s.opened zeroKey key).device.lsmTree.mapping = s.device.lsmTree.mapping :=
    hstore.mapping_load (h.tree.compacted hworks) hsize
  have hlayers : (s.opened zeroKey key).device.layers = [(Memtable.create : Memtable κ).layer,
      s.device.lsmTree.levels.level0.layer, s.device.lsmTree.levels.level1.layer] := by
    have hupper : s.store.load.tree.levels.level0.layer = s.device.lsmTree.levels.level0.layer := by
      funext key r
      rw [BitLevel.layer, (hstore.recordsOf_load key).1]
      rfl
    have hlower : s.store.load.tree.levels.level1.layer = s.device.lsmTree.levels.level1.layer := by
      funext key r
      rw [BitLevel.layer, (hstore.recordsOf_load key).2]
      rfl
    rw [← hupper, ← hlower]
    rfl
  have hbefore : s.device.layers = [s.device.lsmTree.memtable.layer,
      s.device.lsmTree.levels.level0.layer, s.device.lsmTree.levels.level1.layer] := by
    simp [Device.layers, Device.lower, hworks]
  have hscattered := h.scattered
  have hkeys := h.keys
  rw [hbefore] at hscattered hkeys
  refine ⟨⟨⟨hstore.load.tree, fun _ m hm => ?_⟩, Nat.zero_le 1, ?_, ?_, ?_, ?_, ?_⟩, funext fun lba => ?_⟩
  · cases hm
  · obtain ⟨hagree, hcounted, hnr, hbound⟩ := h.tables.reopen
    exact ⟨hagree, hcounted, hnr, hbound⟩
  · rw [hlayers]
    exact Scattered.push (List.pairwise_cons.mp hscattered).2 Memtable.layer_create
  · rw [hlayers]
    intro A hA key r hr
    rcases List.mem_cons.mp hA with rfl | hA
    · exact absurd hr (Memtable.layer_create key r)
    · exact hkeys A (List.mem_cons_of_mem _ hA) key r hr
  · rw [hmapping]
    intro key r hr
    obtain ⟨hlt, hvalid, hlba⟩ := h.owned key r hr
    refine ⟨hlt, ?_, hlba⟩
    rw [Dst.validBit, opened, SegmentTables.reopen, Dst.init_array]
    exact hvalid
  · rw [hmapping]
    exact h.intact
  · rw [Device.stored, hmapping]
    rfl

/-- The statistics are those of the files after a compaction. -/
theorem stored_recorded (h : s.store.Ok) {m : Memtable κ} {order : List ℕ} {t : LsmTree κ}
    {sup : List (ℕ × Record κ)} (hm : m.Ok) (hsize : m.size ≤ defaultLsmFileCapacity)
    (hcomp : s.device.lsmTree.compactMemtable m order = some (t, sup)) :
    Stored t.levels (s.recorded m order) := by
  obtain ⟨comp, hrun, heq⟩ := Option.map_eq_some_iff.mp hcomp
  obtain ⟨rfl, -⟩ := Prod.mk.inj heq
  have hstore : s.store.minorCompact m order = some { s.store with
      tree := { s.device.lsmTree with
        levels := s.device.lsmTree.levels.applyAll comp.ops, catalogue := comp.catalogue }
      fileStats := setFileStats s.fileStats (comp.ops.filterMap LevelOp.added?) } := by
    rw [LsmStore.minorCompact, show minorCompaction s.store.tree.levels s.store.tree.catalogue m order =
      some comp from hrun]
    rfl
  rw [recorded, hrun]
  exact (h.minorCompact hm hsize hstore).stored

/-- The same compaction after a rotation. -/
theorem compactMemtable_rotated {t t' : LsmTree κ} {m : Memtable κ} {order : List ℕ}
    {sup : List (ℕ × Record κ)} (hcomp : t.compactMemtable m order = some (t', sup)) :
    t.rotated.compactMemtable m order =
      some ({ t.rotated with levels := t'.levels, catalogue := t'.catalogue }, sup) := by
  obtain ⟨comp, hrun, heq⟩ := Option.map_eq_some_iff.mp hcomp
  obtain ⟨rfl, rfl⟩ := Prod.mk.inj heq
  rw [LsmTree.compactMemtable, show minorCompaction t.rotated.levels t.rotated.catalogue m order =
    some comp from hrun]
  rfl

omit [Inhabited κ] in
/-- Closing with the compaction of the memtable. The memtables are not stored, so it makes no
difference whether there was a rotation. -/
theorem opened_emptied (s : Session κ D) (ch : Chance κ) (t : LsmTree κ) (sup : List (ℕ × Record κ))
    (fileStats : ℕ → BitFile κ) (zeroKey key : κ) :
    Session.opened ⟨({ s.device with lsmTree := t } : Device κ D).releaseAll ch sup, fileStats,
      s.closing⟩ zeroKey key =
    Session.opened ⟨(s.device.emptied t).releaseAll ch sup, fileStats, s.closing⟩ zeroKey key := by
  have hleft : ({ s.device with lsmTree := t } : Device κ D).releaseAll ch sup = _ :=
    Device.releaseAll_withTree ch s.device t s.device.compactionWq sup
  have hright : (s.device.emptied t).releaseAll ch sup = _ :=
    Device.releaseAll_withTree ch s.device
      { s.device.lsmTree.rotated with levels := t.levels, catalogue := t.catalogue } 0 sup
  rw [hleft, hright]
  rfl

/-- **Closing and opening** a device whose queues are empty. -/
theorem safe_reopen (h : s.device.Safe c) (hstored : Stored s.device.lsmTree.levels s.fileStats)
    (hworks : s.device.compactionWq = 0) {ch : Chance κ} {order : List ℕ}
    (hgood : s.device.lsmTree.memtable.size ≠ 0 → ¬Resurrecting s.device.lsmTree.levels order)
    (hs : s.lsmTreeDestroy ch order = some s') (zeroKey key : κ) :
    (s'.opened zeroKey key).device.Safe c ∧
      (s'.opened zeroKey key).device.stored c = s.device.stored c ∧
      Stored (s'.opened zeroKey key).device.lsmTree.levels s'.fileStats := by
  rw [lsmTreeDestroy] at hs
  split at hs
  · rename_i hsize
    obtain rfl := Option.some.inj hs
    obtain ⟨hsafe, hsame⟩ := safe_opened h hstored hworks hsize zeroKey key
    exact ⟨hsafe, hsame, (LsmStore.Ok.load (s := s.store) ⟨h.tree.ok, hstored⟩).stored⟩
  · rename_i hsize
    obtain ⟨⟨t, sup⟩, hcomp, rfl⟩ := Option.map_eq_some_iff.mp hs
    rw [opened_emptied]
    -- what is left is a rotation, its compaction, and opening
    obtain ⟨hrotated, hsame⟩ := h.rotated hworks
    obtain ⟨hsafe, hkept⟩ : ((s.device.emptied t).releaseAll ch sup).Safe c ∧
        ((s.device.emptied t).releaseAll ch sup).stored c = s.device.rotated.stored c :=
      hrotated.compact ch (n := 0) rfl rfl (compactMemtable_rotated hcomp) (hgood hsize)
    obtain ⟨htree, hzero, -⟩ := Device.releaseAll_kept ch (s.device.emptied t) sup
    obtain ⟨v, hv⟩ : ∃ v : Session κ D, v = ⟨(s.device.emptied t).releaseAll ch sup,
      s.recorded s.device.lsmTree.memtable order, s.closing⟩ := ⟨_, rfl⟩
    have hdevice : v.device = (s.device.emptied t).releaseAll ch sup := by rw [hv]
    rw [← hdevice] at hsafe hkept htree hzero
    have hstats : v.fileStats = s.recorded s.device.lsmTree.memtable order := by rw [hv]
    have hfiles : Stored t.levels (s.recorded s.device.lsmTree.memtable order) :=
      stored_recorded ⟨h.tree.ok, hstored⟩ h.tree.ok.memtable (Nat.le_of_lt h.tree.ok.room) hcomp
    have hvstored : Stored v.device.lsmTree.levels v.fileStats := by
      rw [htree, hstats]
      exact hfiles
    obtain ⟨hsafe', hsame'⟩ := safe_opened hsafe hvstored hzero (by rw [htree]; rfl) zeroKey key
    have hload := (LsmStore.Ok.load (s := v.store) ⟨hsafe.tree.ok, hvstored⟩).stored
    rw [← hv]
    refine ⟨hsafe', hsame'.trans (hkept.trans hsame), ?_⟩
    rw [← hstats]
    exact hload

/-! ## The pool at the end -/

end Session

namespace PoolOk

variable {sb : SegBuf κ D} {wq : List PoolIndex} {stored stored' : ℕ → Option D}

/-- The current buffer is flushed before the queue. -/
theorem flushCur (h : PoolOk sb wq stored) (hstored : ∀ a, stored' a = (sb.cur.get a).or (stored a)) :
    PoolOk sb wq stored' := by
  refine ⟨h.waiting, h.few, h.size, h.keys, fun j hj a x hx => ?_⟩
  have hpos : age sb.curBuffer sb.curBuffer < age sb.curBuffer j := by
    rw [age_self]
    omega
  cases hcur : sb.cur.get a with
  | some y => exact Or.inl ⟨sb.curBuffer, hpos, by rw [← SegBuf.cur, hcur]; rfl⟩
  | none =>
    rw [hstored, hcur, Option.none_or]
    exact h.settled j hj a x hx

/-- When everything is flushed, what is stored is the content. -/
theorem content_flushed (h : PoolOk sb [] stored)
    (hcur : ∀ a x, sb.cur.get a = some x → stored a = some x) (a : ℕ) :
    sb.content a stored = stored a := by
  rw [SegBuf.content]
  cases hquery : sb.queryBlock a with
  | none => rw [Option.none_or]
  | some x =>
    obtain ⟨i, hi, hyounger⟩ := (sb.queryBlock_eq_some a).mp hquery
    rw [Option.some_or]
    rcases Nat.eq_zero_or_pos (age sb.curBuffer i) with hzero | hpos
    · obtain rfl : i = sb.curBuffer := age_inj _ _ _ (hzero.trans (age_self _).symm)
      exact (hcur a x hi).symm
    · refine ((h.settled i hpos a x hi).resolve_left ?_).symm
      rintro ⟨j, hj, hsome⟩
      rw [hyounger j hj] at hsome
      cases hsome

end PoolOk

namespace Session

variable [Inhabited κ] {c : DataCipher κ D} {s s' : Session κ D} {content : ℕ → Option D}

/-! ## Steps -/

variable (c) in
/-- What holds after any number of good steps. -/
structure Kept (s : Session κ D) (content : ℕ → Option D) : Prop where
  /-- nothing in use is free -/
  sound : s.device.Sound c
  /-- the files are recorded -/
  files : Stored s.device.lsmTree.levels s.fileStats
  /-- the content is what was pushed -/
  content : s.device.content c = content
  /-- what was in the current buffer is stored when the device is being closed, and no flush that
  is still queued touches it -/
  flushed : s.closing = true → ∀ a x, s.device.segBuffer.cur.get a = some x →
    s.device.stored c a = some x ∧
      ∀ index ∈ s.device.bufferioWq, (s.device.segBuffer.buffer index).get a = none

/-- The files after a step of the device. -/
theorem Kept.files_work (h : s.Kept c content) {w : DeviceWork κ D} {d : Device κ D}
    (hs : s.device.step c w = some d) : Stored d.lsmTree.levels (s.recordedBy w) := by
  by_cases hw : ∃ order ch, w = .compaction order ch
  · obtain ⟨order, ch, rfl⟩ := hw
    simp only [Device.step] at hs
    split at hs
    · rename_i n m _ hm
      obtain ⟨⟨t, sup⟩, hcomp, rfl⟩ := Option.map_eq_some_iff.mp hs
      obtain ⟨hmok, hsize⟩ := h.sound.safe.tree.ok.immutable m hm
      have hfiles : Stored t.levels (s.recorded m order) :=
        stored_recorded ⟨h.sound.safe.tree.ok, h.files⟩ hmok hsize hcomp
      rw [(Device.releaseAll_kept ch _ sup).1, recordedBy, hm]
      exact hfiles
    · cases hs
  · push Not at hw
    have hstats : s.recordedBy w = s.fileStats := by
      cases w with
      | compaction order ch => exact absurd rfl (hw order ch)
      | _ => rfl
    rw [hstats, (Device.step_files hw hs).1]
    exact h.files

/-- What was in the current buffer stays stored while the queues run empty. -/
theorem Kept.flushed_work (hc : c.Lawful) (h : s.Kept c content) {w : DeviceWork κ D} {d : Device κ D}
    (hok : s.device.Good c w) (hs : s.device.step c w = some d) (hqueued : w.IsQueued = true)
    (hclosing : s.closing = true) (a : ℕ) (x : D) (hx : d.segBuffer.cur.get a = some x) :
    d.stored c a = some x ∧ ∀ index ∈ d.bufferioWq, (d.segBuffer.buffer index).get a = none := by
  have hwas := h.flushed hclosing
  cases w with
  | bufferio ch =>
    simp only [Device.step] at hs
    split at hs
    · cases hs
    · rename_i index rest hwq
      obtain rfl := Option.some.inj hs
      have hpool := h.sound.pool
      rw [hwq] at hpool
      obtain ⟨-, hstored⟩ := Device.Sound.flushBios ch hc hpool
        (h.sound.safe.withBuffers s.device.segBuffer rest) (hok index rest hwq)
      obtain ⟨hbuf, hrest⟩ := Device.flushBios_kept ch (c := c)
        (d := { s.device with bufferioWq := rest }) (s.device.segBuffer.buffer index)
      rw [hbuf] at hx
      obtain ⟨hold, hnone⟩ := hwas a x hx
      rw [hwq] at hnone
      rw [hstored, hnone index List.mem_cons_self, Option.none_or, hbuf, hrest]
      exact ⟨hold, fun i hi => hnone i (List.mem_cons_of_mem _ hi)⟩
  | compaction order ch =>
    simp only [Device.step] at hs
    split at hs
    · rename_i n m hworks hm
      obtain ⟨⟨t, sup⟩, hcomp, rfl⟩ := Option.map_eq_some_iff.mp hs
      obtain ⟨-, hstored⟩ := h.sound.safe.compact ch hworks hm hcomp hok
      obtain ⟨hbuf, hwq⟩ := Device.releaseAll_buffers ch
        { s.device with lsmTree := t, compactionWq := n } sup
      rw [hbuf] at hx
      rw [hstored, hbuf, hwq]
      exact hwas a x hx
    · cases hs
  | push lba data key => cases hqueued
  | commit ch => cases hqueued
  | gc ch => cases hqueued

/-- The first line of `segbuf_destroy`. -/
theorem Kept.segbufDestroy (hc : c.Lawful) (h : s.Kept c content) {ch : Chance κ}
    (hok : s.Good c (.segbufDestroy ch)) :
    Kept c { s with
      device := s.device.flushBios c ch s.device.segBuffer.cur, closing := true } content := by
  obtain ⟨hsafely, hapart⟩ := hok
  obtain ⟨hsafe, hstored⟩ := Device.Sound.flushBios ch hc h.sound.pool h.sound.safe hsafely
  obtain ⟨hbuf, hwq⟩ := Device.flushBios_kept ch (c := c) (d := s.device) s.device.segBuffer.cur
  refine ⟨⟨hsafe, ?_, ?_⟩, ?_, ?_, fun _ a x hx => ?_⟩
  · change PoolOk (s.device.flushBios c ch s.device.segBuffer.cur).segBuffer
      (s.device.flushBios c ch s.device.segBuffer.cur).bufferioWq _
    rw [hbuf, hwq]
    exact h.sound.pool.flushCur hstored
  · rw [hbuf]
    exact h.sound.notFull
  · rw [(Device.sameFiles_flushBios ch ⟨rfl, rfl⟩ _).1]
    exact h.files
  · rw [← h.content]
    funext a
    rw [Device.content, hbuf]
    exact PoolOk.content_flush hstored a
  · rw [hbuf] at hx ⊢
    rw [hwq]
    refine ⟨?_, fun index hindex => hapart index hindex a (by rw [hx]; rfl)⟩
    exact (hstored a).trans (by rw [← SegBuf.cur, hx, Option.some_or])

/-- The device is closed and opened. -/
theorem Kept.reopen (h : s.Kept c content) {ch : Chance κ} {order : List ℕ} {zeroKey key : κ}
    (hok : s.Good c (.reopen order ch zeroKey key)) (hclosing : s.closing = true)
    (hwq : s.device.bufferioWq = []) (hworks : s.device.compactionWq = 0)
    (hs : s.lsmTreeDestroy ch order = some s') : (s'.opened zeroKey key).Kept c content := by
  obtain ⟨hsafe, hstored, hfiles⟩ := safe_reopen h.sound.safe h.files hworks hok hs zeroKey key
  refine ⟨⟨hsafe, .init zeroKey key _, ?_⟩, hfiles, ?_, fun hopen => ?_⟩
  · have hsize : (SegBuf.init zeroKey key : SegBuf κ D).cur.size = 0 := by
      simp [SegBuf.cur, SegBuf.init]
    exact hsize.trans_lt blocksPerSegment_pos
  · rw [← h.content]
    funext a
    have hpool := h.sound.pool
    rw [hwq] at hpool
    have hquery : (SegBuf.init zeroKey key : SegBuf κ D).queryBlock a = none :=
      (SegBuf.queryBlock_eq_none _ _).mpr fun i => SegBuf.init_get zeroKey key i a
    have hnew : (s'.opened zeroKey key).device.content c a = s.device.stored c a := by
      rw [Device.content, SegBuf.content, hstored]
      exact (congrArg (fun o : Option D => o.or (s.device.stored c a)) hquery).trans Option.none_or
    rw [hnew]
    exact (hpool.content_flushed (fun a x hx => (h.flushed hclosing a x hx).1) a).symm
  · cases hopen

/-- **A good step.** -/
theorem Kept.step (hc : c.Lawful) (h : s.Kept c content) {w : SessionWork κ D} (hok : s.Good c w)
    (hs : s.step c w = some s') : s'.Kept c (w.record content) := by
  cases w with
  | work w =>
    simp only [Session.step] at hs
    split at hs
    · cases hs
    · rename_i hopen
      obtain ⟨d, hd, rfl⟩ := Option.map_eq_some_iff.mp hs
      obtain ⟨hsound, hcontent⟩ := h.sound.step hc hok hd
      refine ⟨hsound, h.files_work hd, hcontent.trans (h.content ▸ rfl), fun hclosing => ?_⟩
      refine h.flushed_work hc hok hd ?_ hclosing
      simpa [show s.closing = true from hclosing] using hopen
  | segbufDestroy ch =>
    simp only [Session.step] at hs
    split at hs
    · cases hs
    · obtain rfl := Option.some.inj hs
      exact h.segbufDestroy hc hok
  | reopen order ch zeroKey key =>
    simp only [Session.step] at hs
    split at hs
    · rename_i hclosed
      simp only [Bool.and_eq_true, List.isEmpty_iff, decide_eq_true_eq] at hclosed
      obtain ⟨⟨hclosing, hwq⟩, hworks⟩ := hclosed
      obtain ⟨t, ht, rfl⟩ := Option.map_eq_some_iff.mp hs
      exact h.reopen hok hclosing hwq hworks ht
    · cases hs

theorem kept_format {capacity maxFd nrSegment : ℕ} (hnr : nrSegment * blocksPerSegment ≤ infAddr)
    (zeroKey key : κ) (rawDev : ℕ → D) :
    (format capacity maxFd nrSegment zeroKey key rawDev).Kept c fun _ => none where
  sound := Device.sound_format _ _ _ _ _ _ hnr
  files := (LsmStore.ok_init capacity maxFd).stored
  content := funext (Device.content_format _ _ _ _ _ _)
  flushed hclosing := by cases hclosing

/-- **What is pushed survives closing.** After any run of good steps from a formatted device, with any
number of sessions in it, the content of an lba is what was pushed for it last, in whatever session,
and the block of a newest record is in use for its lba. -/
theorem content_of_sessions (hc : c.Lawful) {capacity maxFd nrSegment : ℕ}
    (hnr : nrSegment * blocksPerSegment ≤ infAddr) {zeroKey key : κ} {rawDev : ℕ → D}
    {run : List (SessionWork κ D)}
    (hgood : Machine.Along (step c) (Good c) (format capacity maxFd nrSegment zeroKey key rawDev) run)
    (hrun : Machine.exec (step c) (format capacity maxFd nrSegment zeroKey key rawDev) run = some s)
    (lba : ℕ) : s.device.content c lba = lastPushedEver run lba ∧
      ∀ r, s.device.lsmTree.mapping lba = some r → s.device.Owns lba r.pba := by
  have hkept : s.Kept c (lastPushedEver run) :=
    Machine.foldl_of_step (fun s content w s' (h : s.Kept c content) hok hs => h.step hc hok hs)
      (kept_format hnr zeroKey key rawDev) hgood hrun
  exact ⟨congrFun hkept.content lba, hkept.sound.safe.owned lba⟩

/-! ### A block in two sessions -/

/-- With room for a file the memtable can be written. -/
theorem exists_lsmTreeDestroy (hempty : s.device.lsmTree.levels.level0.files = [])
    (hcap : s.device.lsmTree.levels.level0.capacity = 1)
    (hfree : ∃ fd < s.device.lsmTree.catalogue.maxFd, ¬s.device.lsmTree.catalogue.InUse fd)
    (ch : Chance κ) (order : List ℕ) : ∃ s', s.lsmTreeDestroy ch order = some s' := by
  obtain ⟨fd, hlt, hfd⟩ := hfree
  obtain ⟨i, c', hb, -⟩ := openBuilder_of_free (κ := κ) hlt hfd 0
  have hfull : s.device.lsmTree.levels.level0.isFull = false := by
    rw [BitLevel.isFull, hcap, hempty]
    rfl
  rw [lsmTreeDestroy]
  split
  · exact ⟨s, rfl⟩
  · rw [LsmTree.compactMemtable, minorCompaction, hfull]
    simp only [Bool.false_eq_true, if_false, Option.bind_some, hb, Option.map_some]
    exact ⟨_, rfl⟩

end Session

namespace Device

theorem written_cur : written.segBuffer.cur.root.toList = [(5, 7)] := by
  have hcur : written.segBuffer.cur = (SegBuf.init () () : SegBuf Unit ℕ).cur.add 5 7 := by
    rw [written_segBuffer]
    exact SegBuf.write_buffer_cur ..
  have hget : written.segBuffer.cur.get 5 = some 7 := by
    rw [hcur]
    exact DataSegment.add_get_self _ 5 7
  have hle : written.segBuffer.cur.root.toList.length ≤ 1 := by
    rw [Std.ExtTreeMap.length_toList, hcur]
    exact Std.ExtTreeMap.size_insert_le.trans (by simp [SegBuf.cur, SegBuf.init, DataSegment.init])
  have hmem : (5, 7) ∈ written.segBuffer.cur.root.toList :=
    Std.ExtTreeMap.mem_toList_iff_getElem?_eq_some.mpr hget
  obtain ⟨e, he⟩ := List.length_eq_one_iff.mp (le_antisymm hle (List.length_pos_of_mem hmem))
  rw [he] at hmem ⊢
  rw [List.mem_singleton.mp hmem]

theorem written_bufferioWq : written.bufferioWq = [] := by
  rcases (SegBuf.init () () : SegBuf Unit ℕ).pushBlock_cases 5 7 true () with
    ⟨hflag, -⟩ | ⟨-, heq⟩ | ⟨hfull, -⟩
  · cases hflag
  · exact congrArg (fun res : SegBuf Unit ℕ × Option PoolIndex => [] ++ res.2.toList) heq
  · have hle : ((SegBuf.init () () : SegBuf Unit ℕ).write 5 7).cur.size ≤ 1 := SegBuf.size_write_le
    rw [SegBuf.full, decide_eq_true_eq] at hfull
    exact absurd (hfull.trans hle) (by decide)

/-- One record does not fill the memtable. -/
theorem written_flushed_works :
    (written.flushBios Kernel.plainCipher Kernel.noChance written.segBuffer.cur).compactionWq = 0 := by
  have hsize : written.segBuffer.cur.size ≠ 0 := by
    rw [DataSegment.size, ← Std.ExtTreeMap.length_toList, written_cur]
    exact Nat.one_ne_zero
  have halloc := written_saAlloc
  have hrot : ∀ val, written.lsmTree.rotates 5 val = false := by
    intro val
    have hle := written.lsmTree.memtable.size_put_le 5 val
    rw [LsmTree.rotates, decide_eq_false_iff_not, not_le]
    exact hle.trans_lt (by decide)
  rw [flushBios, if_neg hsize]
  split
  · rename_i segno t _
    rw [written_cur]
    change (Device.logBlock Kernel.plainCipher Kernel.noChance written.segBuffer.cur.segKey
      { written with tables := t } (5, 7) (segno * blocksPerSegment + 0)).compactionWq = 0
    exact (put_compactionWq ..).trans (if_neg (ne_true_of_eq_false (hrot _)))
  · rename_i hnone
    rw [hnone] at halloc
    cases halloc

end Device

namespace Session

/-- A block is pushed, the device is closed and opened, and another block is pushed. -/
def twoSessions : List (SessionWork Unit ℕ) :=
  [.work (.push 5 7 ()), .segbufDestroy Kernel.noChance, .reopen [] Kernel.noChance () (),
    .work (.push 6 8 ())]

theorem content_of_sessions_sample : ∃ s : Session Unit ℕ,
    Machine.exec (step Kernel.plainCipher) (format 6 14 2 () () fun _ => 0) twoSessions = some s ∧
      s.device.content Kernel.plainCipher 5 = some 7 ∧ s.device.content Kernel.plainCipher 6 = some 8 := by
  obtain ⟨s₁, hs₁⟩ : ∃ s₁ : Session Unit ℕ, s₁ = ⟨Device.written, fun _ => .zero, false⟩ := ⟨_, rfl⟩
  have hpush : (format 6 14 2 () () fun _ => 0 : Session Unit ℕ).step Kernel.plainCipher
      (.work (.push 5 7 ())) = some s₁ := by
    rw [hs₁]
    rfl
  have hcur : Device.written.segBuffer.curBuffer = 0 := by
    rw [Device.written_segBuffer]
    rfl
  obtain ⟨s₂, hs₂⟩ : ∃ s₂ : Session Unit ℕ, s₂ = ⟨Device.written.flushBios Kernel.plainCipher
    Kernel.noChance Device.written.segBuffer.cur, fun _ => .zero, true⟩ := ⟨_, rfl⟩
  have hdestroy : s₁.step Kernel.plainCipher (.segbufDestroy Kernel.noChance) = some s₂ := by
    rw [hs₁, hs₂]
    rfl
  have hwq : s₂.device.bufferioWq = [] := by
    rw [hs₂]
    exact (Device.flushBios_kept Kernel.noChance _).2.trans Device.written_bufferioWq
  have hworks : s₂.device.compactionWq = 0 := by
    rw [hs₂]
    exact Device.written_flushed_works
  obtain ⟨hlevels, hcat⟩ : Device.written.SameFiles s₂.device := by
    rw [hs₂]
    exact Device.sameFiles_flushBios Kernel.noChance ⟨rfl, rfl⟩ _
  obtain ⟨t, ht⟩ := s₂.exists_lsmTreeDestroy (by rw [hlevels]; rfl) (by rw [hlevels]; rfl)
    (by rw [hcat]; exact ⟨0, by decide, Bool.false_ne_true⟩) Kernel.noChance []
  have hreopen : s₂.step Kernel.plainCipher (.reopen [] Kernel.noChance () ()) =
      some (t.opened () ()) := by
    have hclosing : s₂.closing = true := by rw [hs₂]
    simp [step, hclosing, hwq, hworks, ht]
  obtain ⟨s₄, hs₄⟩ : ∃ s₄, (t.opened () ()).step Kernel.plainCipher (.work (.push 6 8 ())) = some s₄ :=
    ⟨_, rfl⟩
  have hruns : Machine.Runs (step Kernel.plainCipher) (Good Kernel.plainCipher)
      (format 6 14 2 () () fun _ => 0) twoSessions s₄ := by
    refine .cons ⟨by decide, fun _ => List.not_mem_nil⟩ hpush (.cons ?_ hdestroy
      (.cons (fun _ => not_resurrecting_nil _) hreopen (.cons ?_ hs₄ (.nil _))))
    · rw [hs₁, Good]
      refine ⟨?_, ?_⟩
      · have hsafely := Device.written_flushesSafely
        rwa [← hcur] at hsafely
      · rw [Device.written_bufferioWq]
        simp
    · exact ⟨by decide, fun _ => List.not_mem_nil⟩
  have hcontent := fun lba => (content_of_sessions Device.plainCipher_lawful (by decide) hruns.along
    hruns.exec lba).1
  exact ⟨s₄, hruns.exec, hcontent 5, hcontent 6⟩

end Session

end JinDisk
