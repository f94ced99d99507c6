import JinDisk.Device

/-!
# The garbage collector and the flushes

`gc_one_segment` looks up the record of a block, and puts a negative record over it some time later;
it reads the block and pushes it into the segment buffer later still. A flush may come in between at
any place. Here the calls of `gc_one_segment` and of any number of flushes are steps of their own.

The record that `gc_one_segment` hides is the one it has looked up only if no flush puts a record for
the lba in between; a newer record is lost otherwise (`newer_record_deleted`). A flush that comes
after the negative record does no harm as long as the segment buffer still has the block
(`no_lost_update`).
-/

namespace JinDisk

open Machine

/-- A call that a flush has to make. -/
inductive FlushOp (κ D : Type) where
  /-- `find_logging_block`, and what follows from it for the block -/
  | log (key : κ) (lba : ℕ) (data : D)
  /-- `lsm_tree->put` -/
  | put (lba : ℕ) (new : Record κ)
  /-- `rit->set` -/
  | set (pba lba : ℕ)
  /-- `jindisk_write_blocks` -/
  | write (start : ℕ) (blocks : List D)

/-- Where `gc_one_segment` is. -/
inductive GcPc (D : Type) where
  /-- it does not run -/
  | idle
  /-- at the head of the loop -/
  | next
  /-- after `rit->reset` -/
  | reset (pba lba : ℕ)
  /-- after `lsm_tree->search`, which has found the block -/
  | searched (pba lba : ℕ)
  /-- after `lsm_tree->put` -/
  | deleted (pba lba : ℕ)
  /-- after the decryption -/
  | decrypted (lba : ℕ) (data : D)

/-- The lba that is being moved. -/
def GcPc.moving {D : Type} : GcPc D → Option ℕ
  | .searched _ lba => some lba
  | .deleted _ lba => some lba
  | .decrypted lba _ => some lba
  | _ => none

/-- The lba whose record is about to be hidden. -/
def GcPc.lookedUp {D : Type} : GcPc D → Option ℕ
  | .searched _ lba => some lba
  | _ => none

/-- The device, the flushes and `gc_one_segment`. -/
structure GcRun (κ D : Type) where
  /-- the device -/
  device : Device κ D
  /-- the flushes, with what is left of them -/
  flushes : List (List (FlushOp κ D))
  /-- `segno` of the victim -/
  segno : ℕ
  /-- the offsets that are left -/
  offsets : List Offset
  /-- where `gc_one_segment` is -/
  pc : GcPc D
  /-- `old` -/
  old : Record κ
  /-- `count` -/
  count : ℕ
  /-- history: a flush has put a record for the lba since the search -/
  overtaken : Bool

/-- The steps. -/
inductive GcRunAction (κ D : Type) where
  /-- `segbuf_push_block` for a bio -/
  | push (lba : ℕ) (data : D) (key : κ)
  /-- `segbuf_flush_bios`, up to `sa_alloc` -/
  | flush (index : PoolIndex)
  /-- a flush makes its next call -/
  | flushCall (i : ℕ) (ch : Chance κ)
  /-- `minor_compaction_handler` -/
  | compaction (order : List ℕ) (ch : Chance κ)
  /-- `pop_victim`; `old` is what is on the stack -/
  | popVictim (old : Record κ)
  /-- `rit->reset`; `newLba` is what is on the stack -/
  | reset (newLba : ℕ)
  /-- `lsm_tree->search` -/
  | search
  /-- `lsm_tree->put` -/
  | delete (ch : Chance κ)
  /-- `jindisk_read_blocks` and `decrypt` -/
  | decrypt
  /-- `segbuf_push_block` with `rflag = false` -/
  | pushBack (key : κ)
  /-- `return_segment` and `test_and_return` -/
  | finish

namespace GcRun

variable {κ D : Type} (c : DataCipher κ D)

/-- The calls of a flush that has got a segment. -/
def segmentCalls (ds : DataSegment κ D) (segno : ℕ) : List (FlushOp κ D) :=
  let blocks := ds.root.toList.zipIdx.map fun e =>
    (e.1.1, segno * blocksPerSegment + e.2,
      c.encrypt ds.segKey (segno * blocksPerSegment + e.2) e.1.2)
  (blocks.flatMap fun b => [.put b.1 ⟨b.2.1, b.2.2.2, ds.segKey⟩, .set b.2.1 b.1]) ++
    [.write (segno * blocksPerSegment) (blocks.map fun b => b.2.2.1)]

/-- The calls of a flush that has got none. -/
def loggingCalls (ds : DataSegment κ D) : List (FlushOp κ D) :=
  ds.root.toList.map fun e => .log ds.segKey e.1 e.2

/-- `jindisk_write_blocks` -/
def writeBlocks (rawDev : ℕ → D) (start : ℕ) (blocks : List D) : ℕ → D :=
  blocks.zipIdx.foldl (fun dev e => Function.update dev (start + e.2) e.1) rawDev

/-- A call of a flush: the device afterwards, and the calls that follow from it. -/
def flushCall (ch : Chance κ) (d : Device κ D) :
    FlushOp κ D → Option (Device κ D × List (FlushOp κ D))
  | .log key lba data =>
    match d.tables.findLoggingBlock with
    | (none, tables) => some ({ d with tables }, [])
    | (some pba, tables) =>
      let cipher := c.encrypt key pba data
      some ({ d with tables }, [.put lba ⟨pba, cipher.2, key⟩, .set pba lba, .write pba [cipher.1]])
  | .put lba new =>
    -- a block has an address below `INF_ADDR`
    if new.isNegative then none else some (d.put ch lba (some new), [])
  | .set pba lba => some ({ d with rit := d.rit.set pba lba }, [])
  | .write start blocks => some ({ d with rawDev := writeBlocks d.rawDev start blocks }, [])

/-- The call puts a record for the lba that is being moved. -/
def Overtakes (s : GcRun κ D) (op : FlushOp κ D) : Bool :=
  match op with
  | .put lba _ => s.pc.moving = some lba
  | _ => false

/-- The device of a formatted disk; nothing runs. -/
def start (d : Device κ D) (old : Record κ) : GcRun κ D := ⟨d, [], 0, [], .idle, old, 0, false⟩

variable [Inhabited κ]

/-- A step of `gc_one_segment` or of one of the flushes. -/
def step (s : GcRun κ D) : GcRunAction κ D → Option (GcRun κ D)
  | .push lba data key => some { s with device := s.device.pushBlock lba data true key }
  | .flush index =>
    let ds := s.device.segBuffer.buffer index
    if ds.size = 0 then some s
    else
      match s.device.tables.saAlloc with
      | (some segno, tables) =>
        some { s with
          device := { s.device with tables }
          flushes := s.flushes ++ [segmentCalls c ds segno] }
      | (none, tables) =>
        some { s with
          device := { s.device with tables }
          flushes := s.flushes ++ [loggingCalls ds] }
  | .flushCall i ch =>
    match s.flushes[i]? with
    | some (op :: ops) =>
      (flushCall c ch s.device op).map fun res =>
        { s with
          device := res.1
          flushes := s.flushes.set i (res.2 ++ ops)
          overtaken := s.overtaken || s.Overtakes op }
    | _ => none
  | .compaction order ch =>
    match s.device.compactionWq, s.device.lsmTree.immutable with
    | n + 1, some m =>
      (s.device.lsmTree.compactMemtable m order).map fun res =>
        { s with
          device := { s.device with lsmTree := res.1, compactionWq := n }.releaseAll ch res.2 }
    | _, _ => none
  | .popVictim old =>
    match s.pc, selectVictim s.device.tables.dst.loggingSegno s.device.tables.dst.victims with
    | .idle, (victim, victims) =>
      let t := s.device.tables
      let d := { s.device with tables := { t with dst := { t.dst with victims } } }
      match victim with
      | none => some { s with device := d }
      | some v =>
        some { s with
          device := d, segno := v.segno, offsets := v.lookedAt, pc := .next, old, count := 0 }
    | _, _ => none
  | .reset newLba =>
    match s.pc, s.offsets with
    | .next, o :: offsets =>
      let pba := blockAddr s.segno o
      if pba < s.device.rit.nrBlock then
        let res := s.device.rit.reset pba infAddr newLba
        some { s with device := { s.device with rit := res.1 }, offsets, pc := .reset pba res.2 }
      else some { s with offsets }
    | _, _ => none
  | .search =>
    match s.pc with
    | .reset pba lba =>
      (s.device.lsmTree.search lba).map fun found =>
        -- nothing is copied if nothing is found
        let old := found.getD s.old
        { s with
          old
          pc := if pba ≠ old.pba then .next else .searched pba lba
          overtaken := false }
    | _ => none
  | .delete ch =>
    match s.pc with
    | .searched pba lba => some { s with device := s.device.put ch lba none, pc := .deleted pba lba }
    | _ => none
  | .decrypt =>
    match s.pc with
    | .deleted pba lba =>
      match c.decrypt s.old.key s.old.mac s.old.pba (s.device.rawDev pba) with
      | .ok data => some { s with pc := .decrypted lba data }
      | .error _ => some { s with pc := .next }
    | _ => none
  | .pushBack key =>
    match s.pc with
    | .decrypted lba data =>
      some { s with
        device := s.device.pushBlock lba data false key
        pc := .next
        count := s.count + 1 }
    | _ => none
  | .finish =>
    match s.pc, s.offsets with
    | .next, [] =>
      let t := s.device.tables
      some { s with
        device := { s.device with
          tables := ⟨t.svt.testAndReturn s.segno, t.dst.returnSegment s.segno,
            if t.nrValidSegment = 0 then 2 ^ 64 - 1 else t.nrValidSegment - 1⟩ }
        pc := .idle }
    | _, _ => none

/-- What is put in place of a record, and what is pushed, is up to date: the record that is hidden is
the one that was looked up, in the block of the victim, and no newer one; and a block is pushed only
if it was not put in the meantime. -/
def NoLostUpdate (s : GcRun κ D) (a : GcRunAction κ D) : Prop :=
  match a, s.pc with
  | .delete _, .searched pba lba =>
    s.device.lsmTree.mapping lba = some s.old ∧ s.old.pba = pba ∧ s.overtaken = false
  | .pushBack _, .decrypted lba _ =>
    s.device.segBuffer.queryBlock lba = none → s.overtaken = false
  | _, _ => True

/-- The steps that do no harm. A search that finds nothing leaves no record of the block on the
stack. Between a search and the negative record, no flush puts a record for the lba. While a block is
moved, no rotation drops a memtable that is still to be compacted. When the block is pushed, it is in
the segment buffer unless the lba is still without a record. -/
def Apart (s : GcRun κ D) (a : GcRunAction κ D) : Prop :=
  match a, s.pc with
  | .search, .reset pba lba => s.device.lsmTree.search lba = some none → s.old.pba ≠ pba
  | .flushCall i _, pc =>
    match s.flushes[i]? with
    | some (.put lba new :: _) =>
      pc.lookedUp ≠ some lba ∧
        (pc.moving.isSome → s.device.lsmTree.rotates lba (some new) = true →
          s.device.compactionWq = 0)
    | _ => True
  | .pushBack _, .decrypted lba _ =>
    s.device.segBuffer.queryBlock lba = none → s.device.lsmTree.mapping lba = none
  | _, _ => True

instance [DecidableEq κ] (s : GcRun κ D) (a : GcRunAction κ D) : Decidable (s.Apart a) := by
  unfold Apart
  split
  · infer_instance
  · split <;> infer_instance
  · infer_instance
  · infer_instance

instance [DecidableEq κ] (s : GcRun κ D) (a : GcRunAction κ D) : Decidable (s.NoLostUpdate a) := by
  unfold NoLostUpdate
  split <;> infer_instance

/-! ## What holds in between -/

/-- What holds of a block that is being moved. -/
structure Inv (s : GcRun κ D) : Prop where
  /-- the tree -/
  tree : s.device.TreeOk
  /-- addresses are below `INF_ADDR` -/
  bound : s.device.rit.nrBlock ≤ infAddr
  /-- the block that is looked up is one of them -/
  reset : ∀ pba lba, s.pc = .reset pba lba → pba < s.device.rit.nrBlock
  /-- what was looked up is still the newest record -/
  searched : ∀ pba lba, s.pc = .searched pba lba →
    s.device.lsmTree.mapping lba = some s.old ∧ s.old.pba = pba ∧ s.overtaken = false
  /-- a record that was put since is there -/
  moved : ∀ lba, s.pc.moving = some lba → s.overtaken = true → s.device.lsmTree.mapping lba ≠ none

variable {s t : GcRun κ D}

theorem inv_start (capacity maxFd nrSegment : ℕ) (zeroKey key : κ) (rawDev : ℕ → D) (old : Record κ)
    (hnr : nrSegment * blocksPerSegment ≤ infAddr) :
    (start (.format capacity maxFd nrSegment zeroKey key rawDev) old : GcRun κ D).Inv := by
  refine ⟨Device.treeOk_format capacity maxFd nrSegment zeroKey key rawDev, hnr, ?_, ?_, ?_⟩
  · intro pba lba hpc
    cases hpc
  · intro pba lba hpc
    cases hpc
  · intro lba hpc
    cases hpc

/-- A step that leaves the tree, the works and `gc_one_segment` alone. -/
theorem Inv.aside (h : s.Inv) (d : Device κ D) (htree : d.lsmTree = s.device.lsmTree)
    (hworks : d.compactionWq = s.device.compactionWq)
    (hnr : d.rit.nrBlock = s.device.rit.nrBlock) (flushes : List (List (FlushOp κ D))) :
    Inv { s with device := d, flushes } := by
  have hok : d.TreeOk := by
    refine ⟨?_, fun hzero => ?_⟩
    · rw [htree]
      exact h.tree.ok
    · rw [htree]
      exact h.tree.compacted (hworks ▸ hzero)
  refine ⟨hok, hnr ▸ h.bound, fun pba lba hpc => ?_, fun pba lba hpc => ?_, fun lba hpc hover => ?_⟩
  · show pba < d.rit.nrBlock
    rw [hnr]
    exact h.reset pba lba hpc
  · show d.lsmTree.mapping lba = some s.old ∧ s.old.pba = pba ∧ s.overtaken = false
    rw [htree]
    exact h.searched pba lba hpc
  · show d.lsmTree.mapping lba ≠ none
    rw [htree]
    exact h.moved lba hpc hover

/-- A flush puts a record. -/
theorem Inv.flushPut (h : s.Inv) {ch : Chance κ} {lba : ℕ} {new : Record κ}
    (hnew : new.isNegative = false) (hlooked : s.pc.lookedUp ≠ some lba)
    (hquiet : s.pc.moving.isSome → s.device.lsmTree.rotates lba (some new) = true →
      s.device.compactionWq = 0) (flushes : List (List (FlushOp κ D))) :
    Inv { s with
      device := s.device.put ch lba (some new)
      flushes
      overtaken := s.overtaken || s.Overtakes (.put lba new) } := by
  have hval : ∀ r ∈ some new, r.isNegative = false := by
    rintro r ⟨⟩
    exact hnew
  have hmapping : ∀ a, s.pc.moving = some a → (s.device.put ch lba (some new)).lsmTree.mapping =
      Function.update s.device.lsmTree.mapping lba (some new) :=
    fun a ha => h.tree.mapping_put ch hval (hquiet (ha ▸ rfl))
  refine ⟨h.tree.put ch hval, ?_, fun pba a hpc => ?_, fun pba a hpc => ?_, fun a hpc hover => ?_⟩
  · show (s.device.put ch lba (some new)).rit.nrBlock ≤ infAddr
    rw [Device.put_nrBlock]
    exact h.bound
  · show pba < (s.device.put ch lba (some new)).rit.nrBlock
    rw [Device.put_nrBlock]
    exact h.reset pba a hpc
  · have hpc : s.pc = .searched pba a := hpc
    have hmoving : s.pc.moving = some a := hpc ▸ rfl
    have hne : a ≠ lba := by
      rintro rfl
      exact hlooked (hpc ▸ rfl)
    obtain ⟨hold, hpba, hover⟩ := h.searched pba a hpc
    refine ⟨?_, hpba, ?_⟩
    · show (s.device.put ch lba (some new)).lsmTree.mapping a = some s.old
      rw [hmapping a hmoving, Function.update_of_ne hne]
      exact hold
    · show (s.overtaken || decide (s.pc.moving = some lba)) = false
      rw [hover, hmoving, Bool.false_or]
      exact decide_eq_false fun heq => hne (Option.some.inj heq)
  · show (s.device.put ch lba (some new)).lsmTree.mapping a ≠ none
    rw [hmapping a hpc]
    by_cases ha : a = lba
    · rw [ha, Function.update_self]
      exact Option.some_ne_none new
    · rw [Function.update_of_ne ha]
      refine h.moved a hpc ?_
      have hover : (s.overtaken || decide (s.pc.moving = some lba)) = true := hover
      have hmoving : s.pc.moving ≠ some lba := fun heq =>
        ha (Option.some.inj ((show s.pc.moving = some a from hpc).symm.trans heq))
      rwa [decide_eq_false hmoving, Bool.or_false] at hover

/-- A flush makes a call. -/
theorem Inv.flushCall (h : s.Inv) {ch : Chance κ} {i : ℕ} (ha : s.Apart (.flushCall i ch))
    (ht : s.step c (.flushCall i ch) = some t) : t.Inv := by
  simp only [step] at ht
  split at ht
  · rename_i op ops hflush
    obtain ⟨⟨d, more⟩, hcall, rfl⟩ := Option.map_eq_some_iff.mp ht
    cases op with
    | log key lba data =>
      have hover : (s.overtaken || s.Overtakes (.log key lba data : FlushOp κ D)) = s.overtaken :=
        Bool.or_false _
      rw [hover]
      simp only [GcRun.flushCall] at hcall
      split at hcall
      · obtain ⟨rfl, rfl⟩ := Prod.mk.inj (Option.some.inj hcall)
        refine h.aside _ ?_ ?_ ?_ _ <;> rfl
      · obtain ⟨rfl, rfl⟩ := Prod.mk.inj (Option.some.inj hcall)
        refine h.aside _ ?_ ?_ ?_ _ <;> rfl
    | put lba new =>
      simp only [GcRun.flushCall] at hcall
      split at hcall
      · cases hcall
      · rename_i hnew
        obtain ⟨rfl, rfl⟩ := Prod.mk.inj (Option.some.inj hcall)
        simp only [Apart, hflush] at ha
        exact h.flushPut (Bool.eq_false_iff.mpr hnew) ha.1 ha.2 _
    | set pba lba =>
      have hover : (s.overtaken || s.Overtakes (.set pba lba : FlushOp κ D)) = s.overtaken :=
        Bool.or_false _
      rw [hover]
      obtain ⟨rfl, rfl⟩ := Prod.mk.inj (Option.some.inj hcall)
      exact h.aside { s.device with rit := s.device.rit.set pba lba } rfl rfl
        (ReverseIndexTable.nrBlock_set ..) _
    | write start blocks =>
      have hover : (s.overtaken || s.Overtakes (.write start blocks : FlushOp κ D)) = s.overtaken :=
        Bool.or_false _
      rw [hover]
      obtain ⟨rfl, rfl⟩ := Prod.mk.inj (Option.some.inj hcall)
      refine h.aside _ ?_ ?_ ?_ _ <;> rfl
  · cases ht

/-- A compaction keeps the record that was looked up. -/
theorem Inv.compaction (h : s.Inv) {ch : Chance κ} {order : List ℕ}
    (ht : s.step c (.compaction order ch) = some t) : t.Inv := by
  simp only [step] at ht
  split at ht
  · rename_i n m hworks hm
    obtain ⟨⟨tree, sup⟩, hc, rfl⟩ := Option.map_eq_some_iff.mp ht
    obtain ⟨htree, -, hnr⟩ := Device.releaseAll_kept ch
      { s.device with lsmTree := tree, compactionWq := n } sup
    have hkeeps : ∀ {key : ℕ} {r : Record κ}, s.device.lsmTree.mapping key = some r →
        tree.mapping key = some r := h.tree.ok.mapping_compactMemtable_of_some hm hc
    refine ⟨h.tree.compact ch hm hc n, ?_, fun pba lba hpc => ?_, fun pba lba hpc => ?_,
      fun lba hpc hover => ?_⟩
    · simp only [hnr]
      exact h.bound
    · simp only [hnr]
      exact h.reset pba lba hpc
    · simp only [htree]
      obtain ⟨hold, hpba, hover⟩ := h.searched pba lba hpc
      exact ⟨hkeeps hold, hpba, hover⟩
    · simp only [htree]
      obtain ⟨r, hr⟩ := Option.ne_none_iff_exists'.mp (h.moved lba hpc hover)
      rw [hkeeps hr]
      exact Option.some_ne_none r
  · cases ht

/-- `gc_one_segment` goes on to a place where no block is moved. -/
theorem Inv.goOn (h : s.Inv) {pc : GcPc D} (hreset : ∀ pba lba, pc ≠ .reset pba lba)
    (hmoving : pc.moving = none) (segno count : ℕ) (offsets : List Offset) (old : Record κ)
    (overtaken : Bool) : Inv { s with segno, count, offsets, pc, old, overtaken } := by
  refine ⟨h.tree, h.bound, fun pba lba hpc => absurd hpc (hreset pba lba), fun pba lba hpc => ?_,
    fun lba hpc => ?_⟩
  · have hpc : pc = .searched pba lba := hpc
    rw [hpc] at hmoving
    cases hmoving
  · exact absurd (hmoving.symm.trans hpc) (Option.some_ne_none lba).symm

/-- `gc_one_segment` looks up a block. -/
theorem Inv.search (h : s.Inv) {pba lba : ℕ} {found : Option (Record κ)} (ha : s.Apart .search)
    (hpc : s.pc = .reset pba lba) (hfound : s.device.lsmTree.search lba = some found) :
    Inv { s with
      old := found.getD s.old
      pc := if pba ≠ (found.getD s.old).pba then .next else .searched pba lba
      overtaken := false } := by
  by_cases hpba : pba ≠ (found.getD s.old).pba
  · rw [if_pos hpba]
    exact h.goOn (by nofun) rfl s.segno s.count s.offsets (found.getD s.old) false
  · rw [if_neg hpba]
    rw [not_not] at hpba
    cases found with
    | none =>
      simp only [Apart, hpc] at ha
      exact absurd hpba.symm (ha hfound)
    | some r =>
      have hnewest := h.tree.ok.search_eq hfound
      have hlt : pba < infAddr := Nat.lt_of_lt_of_le (h.reset pba lba hpc) h.bound
      have hpos : r.isNegative = false := by
        have hne : r.pba ≠ infAddr := fun heq => Nat.ne_of_lt hlt (hpba.trans heq)
        exact beq_eq_false_iff_ne.mpr hne
      have hmapping : s.device.lsmTree.mapping lba = some r :=
        LsmTree.mapping_eq_some.mpr ⟨hnewest.symm, hpos⟩
      refine ⟨h.tree, h.bound, nofun, fun p a hsearched => ?_,
        fun _ _ hover => absurd hover Bool.false_ne_true⟩
      obtain ⟨rfl, rfl⟩ := GcPc.searched.inj hsearched
      exact ⟨hmapping, hpba.symm, rfl⟩

theorem Inv.step {a : GcRunAction κ D} (h : s.Inv) (ha : s.Apart a) (ht : s.step c a = some t) :
    t.Inv := by
  cases a with
  | push lba data key =>
    obtain rfl := Option.some.inj ht
    exact h.aside (s.device.pushBlock lba data true key) rfl rfl rfl s.flushes
  | flush index =>
    simp only [GcRun.step] at ht
    split at ht
    · obtain rfl := Option.some.inj ht
      exact h
    · split at ht
      · obtain rfl := Option.some.inj ht
        refine h.aside _ ?_ ?_ ?_ _ <;> rfl
      · obtain rfl := Option.some.inj ht
        refine h.aside _ ?_ ?_ ?_ _ <;> rfl
  | flushCall i ch => exact h.flushCall c ha ht
  | compaction order ch => exact h.compaction c ht
  | popVictim old =>
    simp only [GcRun.step] at ht
    split at ht
    · rename_i victim victims hpc _
      have haside := h.aside { s.device with
        tables := { s.device.tables with dst := { s.device.tables.dst with victims } } } rfl rfl rfl
        s.flushes
      cases victim with
      | none =>
        obtain rfl := Option.some.inj ht
        exact haside
      | some v =>
        obtain rfl := Option.some.inj ht
        exact haside.goOn (by nofun) rfl v.segno 0 v.lookedAt old s.overtaken
    · cases ht
  | reset newLba =>
    simp only [GcRun.step] at ht
    split at ht
    · rename_i o offsets hpc _
      split at ht
      · rename_i hlt
        obtain rfl := Option.some.inj ht
        refine ⟨⟨h.tree.ok, h.tree.compacted⟩, ?_, fun pba lba hreset => ?_, fun pba lba hpc => ?_,
          fun lba hpc => ?_⟩
        · simp only [ReverseIndexTable.nrBlock_reset]
          exact h.bound
        · obtain ⟨rfl, -⟩ := GcPc.reset.inj hreset
          simp only [ReverseIndexTable.nrBlock_reset]
          exact hlt
        · cases hpc
        · cases hpc
      · obtain rfl := Option.some.inj ht
        exact h.goOn (by rw [hpc]; nofun) (by rw [hpc]; rfl) s.segno s.count offsets s.old
          s.overtaken
    · cases ht
  | search =>
    simp only [GcRun.step] at ht
    split at ht
    · rename_i pba lba hpc
      obtain ⟨found, hfound, rfl⟩ := Option.map_eq_some_iff.mp ht
      exact h.search ha hpc hfound
    · cases ht
  | delete ch =>
    simp only [GcRun.step] at ht
    split at ht
    · rename_i pba lba hpc
      obtain rfl := Option.some.inj ht
      obtain ⟨-, -, hover⟩ := h.searched pba lba hpc
      refine ⟨h.tree.put ch nofun, ?_, nofun, nofun, fun _ _ hovertaken => ?_⟩
      · simp only [Device.put_nrBlock]
        exact h.bound
      · exact absurd (hover.symm.trans hovertaken) Bool.false_ne_true
    · cases ht
  | decrypt =>
    simp only [GcRun.step] at ht
    split at ht
    · rename_i pba lba hpc
      split at ht
      · rename_i data _
        obtain rfl := Option.some.inj ht
        refine ⟨h.tree, h.bound, nofun, nofun, fun a ha => ?_⟩
        obtain rfl := Option.some.inj ha
        exact h.moved lba (hpc ▸ rfl)
      · obtain rfl := Option.some.inj ht
        exact h.goOn (by nofun) rfl s.segno s.count s.offsets s.old s.overtaken
    · cases ht
  | pushBack key =>
    simp only [GcRun.step] at ht
    split at ht
    · rename_i lba data hpc
      obtain rfl := Option.some.inj ht
      have haside := h.aside (s.device.pushBlock lba data false key) rfl rfl rfl s.flushes
      exact haside.goOn (by nofun) rfl s.segno (s.count + 1) s.offsets s.old s.overtaken
    · cases ht
  | finish =>
    simp only [GcRun.step] at ht
    split at ht
    · obtain rfl := Option.some.inj ht
      have haside := h.aside { s.device with
        tables := ⟨s.device.tables.svt.testAndReturn s.segno,
          s.device.tables.dst.returnSegment s.segno,
          if s.device.tables.nrValidSegment = 0 then 2 ^ 64 - 1
          else s.device.tables.nrValidSegment - 1⟩ } rfl rfl rfl s.flushes
      exact haside.goOn (by nofun) rfl s.segno s.count s.offsets s.old s.overtaken
    · cases ht

theorem Inv.noLostUpdate {a : GcRunAction κ D} (h : s.Inv) (ha : s.Apart a) : s.NoLostUpdate a := by
  cases a with
  | delete ch =>
    cases hpc : s.pc with
    | searched pba lba =>
      simp only [NoLostUpdate, hpc]
      exact h.searched pba lba hpc
    | _ => simp only [NoLostUpdate, hpc]
  | pushBack key =>
    cases hpc : s.pc with
    | decrypted lba data =>
      simp only [Apart, hpc] at ha
      simp only [NoLostUpdate, hpc]
      intro hquery
      by_contra hover
      exact h.moved lba (hpc ▸ rfl) (Bool.eq_true_of_not_eq_false hover) (ha hquery)
    | _ => simp only [NoLostUpdate, hpc]
  | _ => trivial

/-- **No lost update.** In every run in which flushes stay apart from the block that is moved,
`gc_one_segment` hides the record that it has looked up, which is the newest one, and pushes no block
that was put in the meantime. -/
theorem no_lost_update (capacity maxFd nrSegment : ℕ) (zeroKey key : κ) (rawDev : ℕ → D)
    (old : Record κ) (hnr : nrSegment * blocksPerSegment ≤ infAddr) {as : List (GcRunAction κ D)}
    (has : Along (step c) Apart
      (start (.format capacity maxFd nrSegment zeroKey key rawDev) old) as) :
    Along (step c) NoLostUpdate
      (start (.format capacity maxFd nrSegment zeroKey key rawDev) old) as :=
  along_of_invariant (fun _ _ _ h ha ht => h.step c ha ht) (fun _ _ h ha => h.noLostUpdate ha)
    (inv_start capacity maxFd nrSegment zeroKey key rawDev old hnr) has

/-! ## A segment with two blocks -/

/-- What the state does not determine, for a run that does not ask for it. -/
def noGcChance : Chance Unit := ⟨0, .negative, fun _ => ()⟩

/-- A cipher that leaves the blocks as they are. -/
def gcCipher : DataCipher Unit ℕ := ⟨fun _ _ data => (data, []), fun _ _ _ data => .ok data⟩

/-- A device with four segments. -/
def gcDevice : Device Unit ℕ := .format 6 14 4 () () fun _ => 0

/-- Two blocks are pushed and flushed. Then they are flushed again, and the first one has its new
place, when block 1 is looked up for garbage collection. -/
def untilSearch : List (GcRunAction Unit ℕ) :=
  [.push 0 7 (), .push 1 8 (), .flush 0] ++ List.replicate 5 (.flushCall 0 noGcChance) ++
    [.flush 0, .flushCall 1 noGcChance, .flushCall 1 noGcChance, .popVictim .negative, .reset 0,
      .search]

/-- The block is moved before the flush comes to it. -/
theorem no_lost_update_sample :
    Along (step gcCipher) NoLostUpdate (start gcDevice .negative)
      (untilSearch ++ [.delete noGcChance, .decrypt, .pushBack (), .flushCall 1 noGcChance]) :=
  no_lost_update gcCipher 6 14 4 () () (fun _ => 0) .negative (by decide) (by decide +kernel)

/-- **A newer record is deleted.** The flush puts a record for block 1 after it was looked up. This
is the record that is hidden, and the block has no record afterwards. -/
theorem newer_record_deleted :
    ¬Along (step gcCipher) NoLostUpdate (start gcDevice .negative)
        (untilSearch ++ [.flushCall 1 noGcChance, .delete noGcChance]) ∧
      ((exec (step gcCipher) (start gcDevice .negative)
          (untilSearch ++ [.flushCall 1 noGcChance])).map fun s =>
        (s.old.pba, (s.device.lsmTree.mapping 1).map Record.pba)) = some (1, some 1025) ∧
      ((exec (step gcCipher) (start gcDevice .negative)
          (untilSearch ++ [.flushCall 1 noGcChance, .delete noGcChance])).map fun s =>
        (s.overtaken, s.device.lsmTree.mapping 1)) = some (true, none) := by
  refine ⟨?_, ?_, ?_⟩
  · decide +kernel
  · decide +kernel
  · decide +kernel

end GcRun

end JinDisk
