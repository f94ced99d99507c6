import JinDisk.FlushOrder

/-!
# The order of the lookups of a read

`jindisk_do_read` searches the LSM tree for the whole range first. Then it goes through the blocks,
and asks the segment buffer for each; the record found before is used when the buffer does not have
the block. Between the search and the query a block can be flushed and its buffer recycled: it was
not yet in the tree when the tree was searched, and it is no longer in the buffer when that is
asked.

The machine has pushes, flushes put by put, and one read at a time, search and queries being steps
of their own. Blocks are stamped as in `FlushState`; the LSM tree is the log of its puts.
-/

namespace JinDisk

open Machine

variable {κ D : Type}

/-! ## Reads -/

/-- A `jindisk_do_read` under way. -/
structure Reader (D : Type) where
  /-- `start` -/
  start : ℕ
  /-- `count` -/
  count : ℕ
  /-- the last block is not read as a whole -/
  small : Bool
  /-- the LSM tree when it was searched -/
  index : Option (PutLog D)
  /-- what the blocks were resolved to so far -/
  resolved : List (Option (Stamped D))
  /-- history: the last data pushed for each lba when the read began -/
  before : ℕ → Option (Stamped D)

namespace Reader

/-- The block that is resolved next. -/
def lba (r : Reader D) : ℕ := r.start + r.resolved.length

/-- `results` is not `NULL`: the range search found a record. -/
def hasResults (r : Reader D) (l : PutLog D) : Bool :=
  (List.range r.count).any fun k => (l.newest (r.start + k)).isSome

/-- `read_small_block` returns at once, without a query. -/
def givesUp (r : Reader D) (l : PutLog D) : Bool :=
  r.small && r.resolved.length + 1 == r.count && !r.hasResults l

/-- The body of the loop: a query, and the record found before if that misses. -/
def resolve (r : Reader D) (l : PutLog D) (sb : SegBuf κ (Stamped D)) : Option (Stamped D) :=
  if r.givesUp l then none else (sb.queryBlock r.lba).or (l.newest r.lba)

/-- All blocks are resolved. -/
def done (r : Reader D) : Bool := r.index.isSome && r.resolved.length == r.count

/-- The block has still to be resolved. -/
def Awaits (r : Reader D) (a : ℕ) : Prop := r.lba ≤ a ∧ a < r.start + r.count

/-- No block is resolved to data older than the last data pushed before the read began. -/
def Fresh (r : Reader D) : Prop :=
  ∀ k res, r.resolved[k]? = some res → ∀ blk, r.before (r.start + k) = some blk →
    ∃ b, res = some b ∧ blk.stamp ≤ b.stamp

end Reader

/-- The segment buffer, its worker and a read. -/
structure LookupState (κ D : Type) where
  /-- the buffers, the queue and the LSM tree -/
  flush : FlushState κ D
  /-- the blocks that the running flush has still to put; it is the one of the head of the queue -/
  running : Option (List (ℕ × Stamped D))
  /-- the read -/
  reader : Option (Reader D)

/-- The steps. -/
inductive LookupAction (κ D : Type) where
  /-- `segbuf_push_block`; `key` is the next value of `get_random_bytes` -/
  | push (lba : ℕ) (data : D) (rflag : Bool) (key : κ)
  /-- the worker begins with the next work -/
  | flushStart (o : FlushOutcome)
  /-- the running flush puts its next block -/
  | flushPut
  /-- the running flush is complete -/
  | flushEnd
  /-- `jindisk_do_read` is entered -/
  | begin (start count : ℕ) (small : Bool)
  /-- `lsm_tree_range_search` -/
  | search
  /-- the next block: `segbuf_query_block` -/
  | query

namespace LookupState

/-- The device after `segbuf_init`. -/
def init (zeroKey key : κ) : LookupState κ D := ⟨.init zeroKey key, none, none⟩

/-- A push of the garbage collector for a block that is in the pool does nothing. -/
def skips (s : LookupState κ D) (lba : ℕ) (rflag : Bool) : Bool :=
  !rflag && (s.flush.segbuf.queryBlock lba).isSome

/-- One step. The lock of the pool is held during a push and during a query. -/
def step (s : LookupState κ D) : LookupAction κ D → Option (LookupState κ D)
  | .push lba data rflag key =>
    if s.skips lba rflag then some s
    else (s.flush.step (.push lba data key)).map fun f => { s with flush := f }
  | .flushStart o =>
    match s.running, s.flush.queue with
    | none, i :: _ => some { s with running := some ((s.flush.segbuf.buffer i).flushed o) }
    | _, _ => none
  | .flushPut =>
    match s.running with
    | some (e :: es) =>
      some { s with flush := { s.flush with puts := e :: s.flush.puts }, running := some es }
    | _ => none
  | .flushEnd =>
    match s.running with
    | some [] =>
      some { s with flush := { s.flush with queue := s.flush.queue.tail }, running := none }
    | _ => none
  | .begin start count small =>
    if s.reader.all Reader.done then
      some { s with reader := some ⟨start, count, small, none, [], s.flush.last⟩ }
    else none
  | .search =>
    match s.reader with
    | some r =>
      if r.index.isNone then some { s with reader := some { r with index := some s.flush.puts } }
      else none
    | none => none
  | .query =>
    match s.reader with
    | some r =>
      match r.index with
      | some l =>
        if r.resolved.length < r.count then
          some { s with
            reader := some { r with resolved := r.resolved ++ [r.resolve l s.flush.segbuf] } }
        else none
      | none => none
    | none => none

/-- The push fills the current buffer. -/
def fills (s : LookupState κ D) (lba : ℕ) (data : D) (rflag : Bool) : Bool :=
  !s.skips lba rflag && (s.flush.segbuf.write lba ⟨data, s.flush.clock⟩).full

/-- The flush of a buffer runs to completion before the buffer is recycled, and all its blocks find
a place. -/
def FlushedFirst (s : LookupState κ D) : LookupAction κ D → Prop
  | .push lba data rflag _ => s.fills lba data rflag = true → s.flush.segbuf.next ∉ s.flush.queue
  | .flushStart o => ∀ i ∈ s.flush.queue.head?, o.Complete (s.flush.segbuf.buffer i)
  | _ => True

/-- The steps that leave a read what it has still to ask for. A push does not recycle the last buffer
that holds a block which the read has still to query, unless the block was in the tree when that was
searched. A last block that is not read as a whole was never written, or there is a record in the
range. -/
def InTime (s : LookupState κ D) : LookupAction κ D → Prop
  | .push lba data rflag _ => s.fills lba data rflag = true →
    ∀ r ∈ s.reader, ∀ l ∈ r.index, ∀ a blk, r.Awaits a →
      (s.flush.segbuf.buffer s.flush.segbuf.next).get a = some blk →
      (a, blk) ∈ l ∨ ∃ i, i ≠ s.flush.segbuf.next ∧
        (((s.flush.segbuf.write lba ⟨data, s.flush.clock⟩).buffer i).get a).isSome = true
  | .query => ∀ r ∈ s.reader, ∀ l ∈ r.index, r.givesUp l = true → r.before r.lba = none
  | _ => True

/-- The read of the state returns no old data. -/
def Fresh (s : LookupState κ D) : Prop := ∀ r ∈ s.reader, r.Fresh

end LookupState

/-! ## The pool -/

namespace FlushState

variable {s : FlushState κ D}

/-- A query looks at young buffers first. -/
theorem lookupOrder_aged (sb : SegBuf κ D) :
    sb.lookupOrder.Pairwise fun i j => age sb.curBuffer i < age sb.curBuffer j := by
  have hall : ∀ c : PoolIndex, ((List.range poolSize).map fun i => c - Fin.ofNat poolSize i).Pairwise
      fun i j => age c i < age c j := by decide
  exact hall sb.curBuffer

theorem mem_lookupOrder (sb : SegBuf κ D) (i : PoolIndex) : i ∈ sb.lookupOrder := by
  have hall : ∀ c i : PoolIndex, i ∈ (List.range poolSize).map fun i => c - Fin.ofNat poolSize i := by
    decide
  exact hall sb.curBuffer i

/-- The buffer that the ring comes to next is the oldest. -/
theorem age_lt_next : ∀ c i : PoolIndex, i ≠ c + 1 → age c i < age c (c + 1) := by decide

/-- If the pool holds a block at all, it holds the last data pushed for it. -/
def HoldsLast (s : FlushState κ D) : Prop :=
  ∀ i lba blk, (s.segbuf.buffer i).get lba = some blk →
    ∃ j b, (s.segbuf.buffer j).get lba = some b ∧ s.last lba = some b

theorem HoldsLast.wrote (h : s.HoldsLast) (lba : ℕ) (data : D) : (s.wrote lba data).HoldsLast := by
  intro i a blk hget
  by_cases ha : a = lba
  · subst ha
    refine ⟨s.segbuf.curBuffer, ⟨data, s.clock⟩, ?_, wrote_last_self ..⟩
    rw [FlushState.wrote, SegBuf.write_buffer_cur, DataSegment.add_get_self]
  · rw [wrote_get_of_ne data i (Ne.symm ha)] at hget
    obtain ⟨j, b, hb, hlast⟩ := h i a blk hget
    exact ⟨j, b, (wrote_get_of_ne data j (Ne.symm ha)).trans hb, (wrote_last_of_ne s data ha).trans hlast⟩

theorem turned_get (key : κ) {i : PoolIndex} (hi : i ≠ s.segbuf.next) (a : ℕ) :
    ((s.turned key).segbuf.buffer i).get a = (s.segbuf.buffer i).get a := by
  rw [turned, SegBuf.recycle_buffer_of_ne _ _ hi]

theorem turned_get_next (key : κ) (a : ℕ) :
    ((s.turned key).segbuf.buffer s.segbuf.next).get a = none := by
  rw [turned, SegBuf.recycle_buffer_next, DataSegment.init_get]

/-- The buffer that is emptied is older than the others. -/
theorem HoldsLast.turned (h : s.HoldsLast) (hpool : s.PoolInv) (key : κ) :
    (s.turned key).HoldsLast := by
  intro i a blk hget
  have hi : i ≠ s.segbuf.next := by
    rintro rfl
    cases (turned_get_next key a).symm.trans hget
  rw [turned_get key hi] at hget
  obtain ⟨j, b, hb, hlast⟩ := h i a blk hget
  have hj : j ≠ s.segbuf.next := by
    rintro rfl
    have hlt := hpool.aged hb hget (age_lt_next _ i hi)
    obtain ⟨b', hb', hver⟩ := hpool.version hget
    obtain rfl := Option.some.inj (hlast.symm.trans hb')
    rcases hver with hver | rfl
    · exact Nat.lt_asymm hlt hver
    · exact Nat.lt_irrefl _ hlt
  exact ⟨j, b, (turned_get key hj a).trans hb, hlast⟩

/-- **A query** finds the last data pushed, if it finds the block. -/
theorem HoldsLast.queryBlock (h : s.HoldsLast) (hpool : s.PoolInv) {lba : ℕ} {b : Stamped D}
    (hquery : s.segbuf.queryBlock lba = some b) : s.last lba = some b := by
  rw [SegBuf.queryBlock] at hquery
  obtain ⟨young, i, old, horder, hi, hmiss⟩ := List.findSome?_eq_some_iff.mp hquery
  obtain ⟨j, b₀, hj, hlast⟩ := h i lba b hi
  have haged := lookupOrder_aged s.segbuf
  have hmem := mem_lookupOrder s.segbuf j
  rw [horder] at haged hmem
  rcases List.mem_append.mp hmem with hyoung | hmem
  · cases (hmiss j hyoung).symm.trans hj
  · rcases List.mem_cons.mp hmem with rfl | hold
    · rw [hlast, ← hi, hj]
    · -- an older buffer cannot hold newer data
      have hage := List.rel_of_pairwise_cons (List.pairwise_append.mp haged).2.1 hold
      have hlt := hpool.aged hj hi hage
      obtain ⟨b', hb', hver⟩ := hpool.version hi
      obtain rfl := Option.some.inj (hlast.symm.trans hb')
      rcases hver with hver | rfl
      · exact absurd hver (Nat.lt_asymm hlt)
      · exact absurd hlt (Nat.lt_irrefl _)

/-- One put of the flush of a queued buffer. -/
theorem PutsInv.put (h : s.PutsInv) (hpool : s.PoolInv) {i : PoolIndex} (hi : i ∈ s.queue)
    {e : ℕ × Stamped D} (he : (s.segbuf.buffer i).get e.1 = some e.2) :
    ({ s with puts := e :: s.puts } : FlushState κ D).PutsInv where
  ordered := by
    refine List.pairwise_cons.mpr ⟨fun p hp heq => ?_, h.ordered⟩
    exact hpool.unput (Or.inr hi) he p hp heq.symm
  version := by
    intro lba blk hmem
    rcases List.mem_cons.mp hmem with rfl | hmem
    · exact hpool.version he
    · exact h.version hmem
  stamp_lt := h.stamp_lt

/-- What is pending is not older than what the head of the queue holds. -/
theorem PoolInv.pending_le (h : s.PoolInv) {i j : PoolIndex} {queue : List PoolIndex}
    (hq : s.queue = i :: queue) (hj : s.Pending j) {lba : ℕ} {blk blk' : Stamped D}
    (hi : (s.segbuf.buffer i).get lba = some blk) (hget : (s.segbuf.buffer j).get lba = some blk') :
    blk.stamp ≤ blk'.stamp := by
  obtain ⟨hoverall, -⟩ := List.pairwise_cons.mp (hq ▸ h.queue_aged)
  have hicur : i ≠ s.segbuf.curBuffer := by
    rintro rfl
    exact h.cur_not_queued (hq ▸ List.mem_cons_self)
  rcases hj with rfl | hj
  · have hpos := age_pos s.segbuf.curBuffer i hicur
    rw [← age_self s.segbuf.curBuffer] at hpos
    exact (h.aged hi hget hpos).le
  · rw [hq] at hj
    rcases List.mem_cons.mp hj with rfl | hj
    · rw [Option.some.inj (hi.symm.trans hget)]
    · exact (h.aged hi hget (hoverall j hj)).le

theorem PoolInv.put (h : s.PoolInv) {i : PoolIndex} {queue : List PoolIndex}
    (hq : s.queue = i :: queue) {e : ℕ × Stamped D}
    (he : (s.segbuf.buffer i).get e.1 = some e.2) :
    ({ s with puts := e :: s.puts } : FlushState κ D).PoolInv where
  version := h.version
  aged := h.aged
  queue_aged := h.queue_aged
  cur_not_queued := h.cur_not_queued
  unput := by
    intro j lba blk hpend hget p hp heq
    rcases List.mem_cons.mp hp with rfl | hp
    · subst heq
      exact h.pending_le hq hpend he hget
    · exact h.unput hpend hget p hp heq
  kept := fun hlast => (h.kept hlast).imp_left (List.mem_cons_of_mem e)

/-- The end of the flush of the head of the queue. -/
theorem PoolInv.pop (h : s.PoolInv) {i : PoolIndex} {queue : List PoolIndex}
    (hq : s.queue = i :: queue)
    (hput : ∀ lba blk, (s.segbuf.buffer i).get lba = some blk → (lba, blk) ∈ s.puts) :
    ({ s with queue := queue } : FlushState κ D).PoolInv := by
  have hsub : ∀ {j}, j ∈ queue → j ∈ s.queue := fun hj => hq ▸ List.mem_cons_of_mem _ hj
  constructor
  case version => exact h.version
  case aged => exact h.aged
  case queue_aged => exact (List.pairwise_cons.mp (hq ▸ h.queue_aged)).2
  case cur_not_queued => exact fun hmem => h.cur_not_queued (hsub hmem)
  case unput => exact fun hpend => h.unput (hpend.imp_right hsub)
  case kept =>
    intro lba blk hlast
    rcases h.kept hlast with hmem | ⟨j, hpend, hget⟩
    · exact Or.inl hmem
    · by_cases hj : j = i
      · subst hj
        exact Or.inl (hput lba blk hget)
      · refine Or.inr ⟨j, ?_, hget⟩
        rcases hpend with hcur | hmem
        · exact Or.inl hcur
        · rw [hq] at hmem
          exact Or.inr ((List.mem_cons.mp hmem).resolve_left hj)

end FlushState

/-! ## What a read still finds -/

/-- Data for the block that is not older than `b` is among the records that were found, or the block
is in the pool. -/
def Covered (l : PutLog D) (sb : SegBuf κ (Stamped D)) (a : ℕ) (b : Stamped D) : Prop :=
  (∃ v, (a, v) ∈ l ∧ b.stamp ≤ v.stamp) ∨ ∃ i, ((sb.buffer i).get a).isSome = true

/-- What holds of a read. -/
structure Reader.Inv (r : Reader D) (s : FlushState κ D) : Prop where
  /-- what was pushed before the read is not newer than what was pushed last -/
  before : ∀ {a b}, r.before a = some b → ∃ b', s.last a = some b' ∧ b.stamp ≤ b'.stamp
  /-- the records that were found are the newest ones put -/
  ordered : ∀ {l}, r.index = some l → l.Ordered
  /-- what the read has still to ask for is there -/
  covered : ∀ {l a b}, r.index = some l → r.Awaits a → r.before a = some b →
    Covered l s.segbuf a b
  /-- what is resolved is not old -/
  fresh : r.Fresh

variable {r : Reader D} {s : FlushState κ D}

theorem Reader.Inv.congr {s' : FlushState κ D} (h : r.Inv s) (hlast : s'.last = s.last)
    (hsegbuf : s'.segbuf = s.segbuf) : r.Inv s' := by
  refine ⟨fun hb => ?_, h.ordered, fun hl ha hb => ?_, h.fresh⟩
  · rw [hlast]
    exact h.before hb
  · rw [hsegbuf]
    exact h.covered hl ha hb

/-- A read begins. -/
theorem Reader.inv_begin (s : FlushState κ D) (start count : ℕ) (small : Bool) :
    (⟨start, count, small, none, [], s.last⟩ : Reader D).Inv s := by
  refine ⟨fun hb => ⟨_, hb, le_rfl⟩, fun hl => ?_, fun hl => ?_, fun k res hk => ?_⟩
  · cases hl
  · cases hl
  · cases hk

/-- The tree is searched: the last data pushed is there or in the pool. -/
theorem Reader.Inv.search (h : r.Inv s) (hputs : s.PutsInv) (hpool : s.PoolInv) :
    ({ r with index := some s.puts } : Reader D).Inv s := by
  refine ⟨h.before, fun hl => ?_, fun {l a b} hl ha hb => ?_, h.fresh⟩
  · obtain rfl := Option.some.inj hl
    exact hputs.ordered
  · obtain rfl := Option.some.inj hl
    obtain ⟨b', hlast, hle⟩ := h.before hb
    rcases hpool.kept hlast with hput | ⟨i, -, hget⟩
    · exact Or.inl ⟨b', hput, hle⟩
    · exact Or.inr ⟨i, Option.isSome_of_mem hget⟩

/-- **The lookup of a block** finds nothing older than what was pushed before the read. -/
theorem Reader.Inv.resolve (h : r.Inv s) (hpool : s.PoolInv) (hheld : s.HoldsLast) {l : PutLog D}
    (hl : r.index = some l) (hlt : r.resolved.length < r.count) (hquery : r.givesUp l = false)
    {blk : Stamped D} (hb : r.before r.lba = some blk) :
    ∃ b, r.resolve l s.segbuf = some b ∧ blk.stamp ≤ b.stamp := by
  rw [Reader.resolve, hquery, if_neg Bool.false_ne_true]
  cases hq : s.segbuf.queryBlock r.lba with
  | some b =>
    obtain ⟨b', hlast, hle⟩ := h.before hb
    obtain rfl := Option.some.inj (hlast.symm.trans (hheld.queryBlock hpool hq))
    exact ⟨b', rfl, hle⟩
  | none =>
    rw [Option.none_or]
    have hawaits : r.Awaits r.lba := ⟨le_rfl, Nat.add_lt_add_left hlt _⟩
    rcases h.covered hl hawaits hb with ⟨v, hv, hle⟩ | ⟨i, hi⟩
    · obtain ⟨b, hnewest, -, hle'⟩ := (h.ordered hl).newest_max hv
      exact ⟨b, hnewest, hle.trans hle'⟩
    · rw [SegBuf.queryBlock, List.findSome?_eq_none_iff] at hq
      rw [hq i (FlushState.mem_lookupOrder s.segbuf i)] at hi
      cases hi

/-- A block is resolved. -/
theorem Reader.Inv.query (h : r.Inv s) (hpool : s.PoolInv) (hheld : s.HoldsLast) {l : PutLog D}
    (hl : r.index = some l) (hlt : r.resolved.length < r.count)
    (hsmall : r.givesUp l = true → r.before r.lba = none) :
    ({ r with resolved := r.resolved ++ [r.resolve l s.segbuf] } : Reader D).Inv s := by
  refine ⟨h.before, h.ordered, fun hl' ha hb => h.covered hl' ?_ hb, fun k res hk blk hb => ?_⟩
  · refine ⟨le_trans ?_ ha.1, ha.2⟩
    rw [Reader.lba, Reader.lba, List.length_append]
    exact Nat.add_le_add_left (Nat.le_add_right _ _) _
  · rcases Nat.lt_or_ge k r.resolved.length with hold | hnew
    · rw [List.getElem?_append_left hold] at hk
      exact h.fresh k res hk blk hb
    · rw [List.getElem?_append_right hnew, List.getElem?_singleton] at hk
      split at hk
      · rename_i hzero
        obtain rfl := Option.some.inj hk
        obtain rfl : k = r.resolved.length := Nat.le_antisymm (Nat.sub_eq_zero_iff_le.mp hzero) hnew
        have hquery : r.givesUp l = false := by
          cases hg : r.givesUp l with
          | false => rfl
          | true => cases (hsmall hg).symm.trans hb
        exact h.resolve hpool hheld hl hlt hquery hb
      · cases hk

/-- A block is copied into the pool. -/
theorem Reader.Inv.wrote (h : r.Inv s) (hputs : s.PutsInv) (lba : ℕ) (data : D) :
    r.Inv (s.wrote lba data) := by
  refine ⟨fun {a b} hb => ?_, h.ordered, fun {l a b} hl ha hb => ?_, h.fresh⟩
  · obtain ⟨b', hlast, hle⟩ := h.before hb
    by_cases ha : a = lba
    · subst ha
      exact ⟨_, FlushState.wrote_last_self .., hle.trans (hputs.stamp_lt hlast).le⟩
    · exact ⟨b', (FlushState.wrote_last_of_ne s data ha).trans hlast, hle⟩
  · rcases h.covered hl ha hb with hfound | ⟨i, hi⟩
    · exact Or.inl hfound
    · by_cases ha : a = lba
      · subst ha
        refine Or.inr ⟨s.segbuf.curBuffer, ?_⟩
        rw [FlushState.wrote, SegBuf.write_buffer_cur, DataSegment.add_get_self]
        rfl
      · refine Or.inr ⟨i, ?_⟩
        rwa [FlushState.wrote_get_of_ne data i (Ne.symm ha)]

/-- The ring turns, and the read does not need what is emptied. -/
theorem Reader.Inv.turned (h : r.Inv s) (hheld : s.HoldsLast) (key : κ)
    (hneeds : ∀ l, r.index = some l → ∀ a blk, r.Awaits a →
      (s.segbuf.buffer s.segbuf.next).get a = some blk →
      (a, blk) ∈ l ∨ ∃ i, i ≠ s.segbuf.next ∧ ((s.segbuf.buffer i).get a).isSome = true) :
    r.Inv (s.turned key) := by
  refine ⟨h.before, h.ordered, fun {l a b} hl ha hb => ?_, h.fresh⟩
  have hother : (∃ i, i ≠ s.segbuf.next ∧ ((s.segbuf.buffer i).get a).isSome = true) →
      Covered l (s.turned key).segbuf a b := by
    rintro ⟨i, hne, hi⟩
    refine Or.inr ⟨i, ?_⟩
    rwa [FlushState.turned_get key hne]
  by_cases hex : ∃ i, i ≠ s.segbuf.next ∧ ((s.segbuf.buffer i).get a).isSome = true
  · exact hother hex
  · rcases h.covered hl ha hb with hfound | ⟨i, hi⟩
    · exact Or.inl hfound
    · -- only the emptied buffer holds the block, so it holds the last data
      obtain ⟨blk, hblk⟩ := Option.isSome_iff_exists.mp hi
      obtain ⟨j, b', hj, hlast⟩ := hheld i a blk hblk
      have hjnext : j = s.segbuf.next := by
        by_contra hne
        exact hex ⟨j, hne, Option.isSome_of_mem hj⟩
      subst hjnext
      rcases hneeds l hl a b' ha hj with hput | hex'
      · obtain ⟨b'', hlast', hle⟩ := h.before hb
        obtain rfl := Option.some.inj (hlast.symm.trans hlast')
        exact Or.inl ⟨b', hput, hle⟩
      · exact absurd hex' hex

/-! ## Runs -/

namespace LookupState

/-- What is left of the flush of the head of the queue. -/
structure Flushing (s : FlushState κ D) (es : List (ℕ × Stamped D)) (i : PoolIndex) : Prop where
  /-- it flushes the head of the queue -/
  head : s.queue.head? = some i
  /-- the blocks are those of the buffer -/
  held : ∀ e ∈ es, (s.segbuf.buffer i).get e.1 = some e.2
  /-- the other blocks of the buffer were put -/
  put : ∀ lba blk, (s.segbuf.buffer i).get lba = some blk → (lba, blk) ∈ es ∨ (lba, blk) ∈ s.puts

/-- What holds at any time. -/
structure Inv (s : LookupState κ D) : Prop where
  puts : s.flush.PutsInv
  pool : s.flush.PoolInv
  held : s.flush.HoldsLast
  running : ∀ {es}, s.running = some es → ∃ i, Flushing s.flush es i
  reader : ∀ {r}, s.reader = some r → r.Inv s.flush

variable {s t : LookupState κ D}

theorem inv_init (zeroKey key : κ) : (init zeroKey key : LookupState κ D).Inv := by
  obtain ⟨hputs, hpool⟩ := FlushState.inv_init (D := D) zeroKey key
  refine ⟨hputs, hpool rfl, fun i lba blk hget => ?_, fun hes => ?_, fun hr => ?_⟩
  · cases (SegBuf.init_get zeroKey key i lba).symm.trans hget
  · cases hes
  · cases hr

theorem Flushing.ne_cur {f : FlushState κ D} {es : List (ℕ × Stamped D)} {i : PoolIndex}
    (h : Flushing f es i) (hpool : f.PoolInv) : i ≠ f.segbuf.curBuffer := by
  rintro rfl
  exact hpool.cur_not_queued (List.mem_of_mem_head? h.head)

/-- A buffer that is flushed is not written to. -/
theorem Flushing.wrote {f : FlushState κ D} {es : List (ℕ × Stamped D)} {i : PoolIndex}
    (h : Flushing f es i) (hpool : f.PoolInv) (lba : ℕ) (data : D) :
    Flushing (f.wrote lba data) es i := by
  have hbuffer : (f.wrote lba data).segbuf.buffer i = f.segbuf.buffer i :=
    SegBuf.write_buffer_of_ne _ _ _ (h.ne_cur hpool)
  refine ⟨h.head, ?_, ?_⟩
  · rw [hbuffer]
    exact h.held
  · rw [hbuffer]
    exact h.put

/-- Nor is it recycled. -/
theorem Flushing.turned {f : FlushState κ D} {es : List (ℕ × Stamped D)} {i : PoolIndex}
    (h : Flushing f es i) (hnext : f.segbuf.next ∉ f.queue) (key : κ) :
    Flushing (f.turned key) es i := by
  have hi : i ≠ f.segbuf.next := by
    rintro rfl
    exact hnext (List.mem_of_mem_head? h.head)
  have hbuffer : (f.turned key).segbuf.buffer i = f.segbuf.buffer i :=
    SegBuf.recycle_buffer_of_ne _ _ hi
  refine ⟨?_, ?_, ?_⟩
  · rw [FlushState.turned, List.head?_append, h.head]
    rfl
  · rw [hbuffer]
    exact h.held
  · rw [hbuffer]
    exact h.put

/-- What a push can do. -/
theorem step_push_cases {lba : ℕ} {data : D} {rflag : Bool} {key : κ}
    (ht : s.step (.push lba data rflag key) = some t) :
    t = s ∨ t = { s with flush := s.flush.wrote lba data } ∨
      s.fills lba data rflag = true ∧ t = { s with flush := (s.flush.wrote lba data).turned key } := by
  simp only [step] at ht
  split at ht
  · exact Or.inl (Option.some.inj ht).symm
  · rename_i hskip
    obtain ⟨f, hf, rfl⟩ := Option.map_eq_some_iff.mp ht
    obtain ⟨-, rfl | ⟨hfull, rfl⟩⟩ := FlushState.step_push hf
    · exact Or.inr (Or.inl rfl)
    · refine Or.inr (Or.inr ⟨?_, rfl⟩)
      rw [fills, hfull, Bool.and_true, Bool.not_eq_true']
      exact Bool.eq_false_of_not_eq_true hskip

theorem Inv.wrote (h : s.Inv) (lba : ℕ) (data : D) :
    ({ s with flush := s.flush.wrote lba data } : LookupState κ D).Inv where
  puts := h.puts.wrote lba data
  pool := h.pool.wrote h.puts lba data
  held := h.held.wrote lba data
  running := fun hes => (h.running hes).imp fun _ hi => hi.wrote h.pool lba data
  reader := fun hr => (h.reader hr).wrote h.puts lba data

theorem Inv.push {lba : ℕ} {data : D} {rflag : Bool} {key : κ} (h : s.Inv)
    (hfirst : s.FlushedFirst (.push lba data rflag key)) (htime : s.InTime (.push lba data rflag key))
    (ht : s.step (.push lba data rflag key) = some t) : t.Inv := by
  rcases step_push_cases ht with rfl | rfl | ⟨hfills, rfl⟩
  · exact h
  · exact h.wrote lba data
  · have hnext := hfirst hfills
    have hw := h.wrote lba data
    have hsame : (s.flush.wrote lba data).segbuf.buffer s.flush.segbuf.next =
        s.flush.segbuf.buffer s.flush.segbuf.next :=
      SegBuf.write_buffer_of_ne _ _ _ (PoolIndex.ne_add_one s.flush.segbuf.curBuffer).symm
    have hneeds : ∀ r, s.reader = some r → ∀ l, r.index = some l → ∀ a blk, r.Awaits a →
        ((s.flush.wrote lba data).segbuf.buffer s.flush.segbuf.next).get a = some blk →
        (a, blk) ∈ l ∨ ∃ i, i ≠ s.flush.segbuf.next ∧
          (((s.flush.wrote lba data).segbuf.buffer i).get a).isSome = true := by
      intro r hr l hl a blk ha hget
      rw [hsame] at hget
      exact htime hfills r hr l hl a blk ha hget
    exact {
      puts := ⟨hw.puts.ordered, hw.puts.version, hw.puts.stamp_lt⟩
      pool := hw.pool.turned hnext key
      held := hw.held.turned hw.pool key
      running := fun hes => (hw.running hes).imp fun _ hi => hi.turned hnext key
      reader := fun hr => (hw.reader hr).turned hw.held key (hneeds _ hr) }

/-- What the worker and the read can do. -/
theorem step_cases {a : LookupAction κ D} (ht : s.step a = some t) :
    (∃ lba data rflag key, a = .push lba data rflag key) ∨
    (∃ o i queue, a = .flushStart o ∧ s.flush.queue = i :: queue ∧
      t = { s with running := some ((s.flush.segbuf.buffer i).flushed o) }) ∨
    (∃ e es, a = .flushPut ∧ s.running = some (e :: es) ∧
      t = { s with flush := { s.flush with puts := e :: s.flush.puts }, running := some es }) ∨
    (a = .flushEnd ∧ s.running = some [] ∧
      t = { s with flush := { s.flush with queue := s.flush.queue.tail }, running := none }) ∨
    (∃ start count small, a = .begin start count small ∧
      t = { s with reader := some ⟨start, count, small, none, [], s.flush.last⟩ }) ∨
    (∃ r, a = .search ∧ s.reader = some r ∧ r.index = none ∧
      t = { s with reader := some { r with index := some s.flush.puts } }) ∨
    ∃ r l, a = .query ∧ s.reader = some r ∧ r.index = some l ∧ r.resolved.length < r.count ∧
      t = { s with
        reader := some { r with resolved := r.resolved ++ [r.resolve l s.flush.segbuf] } } := by
  cases a with
  | push lba data rflag key => exact Or.inl ⟨lba, data, rflag, key, rfl⟩
  | flushStart o =>
    simp only [step] at ht
    split at ht
    · rename_i i queue _ hq
      exact Or.inr (Or.inl ⟨o, i, queue, rfl, hq, (Option.some.inj ht).symm⟩)
    · cases ht
  | flushPut =>
    simp only [step] at ht
    split at ht
    · rename_i e es hes
      exact Or.inr (Or.inr (Or.inl ⟨e, es, rfl, hes, (Option.some.inj ht).symm⟩))
    · cases ht
  | flushEnd =>
    simp only [step] at ht
    split at ht
    · rename_i hes
      exact Or.inr (Or.inr (Or.inr (Or.inl ⟨rfl, hes, (Option.some.inj ht).symm⟩)))
    · cases ht
  | begin start count small =>
    simp only [step] at ht
    split at ht
    · exact Or.inr (Or.inr (Or.inr (Or.inr (Or.inl
        ⟨start, count, small, rfl, (Option.some.inj ht).symm⟩))))
    · cases ht
  | search =>
    simp only [step] at ht
    split at ht
    · rename_i r hr
      split at ht
      · rename_i hnone
        exact Or.inr (Or.inr (Or.inr (Or.inr (Or.inr (Or.inl
          ⟨r, rfl, hr, Option.isNone_iff_eq_none.mp hnone, (Option.some.inj ht).symm⟩)))))
      · cases ht
    · cases ht
  | query =>
    simp only [step] at ht
    split at ht
    · rename_i r hr
      split at ht
      · rename_i l hl
        split at ht
        · rename_i hlt
          exact Or.inr (Or.inr (Or.inr (Or.inr (Or.inr (Or.inr
            ⟨r, l, rfl, hr, hl, hlt, (Option.some.inj ht).symm⟩)))))
        · cases ht
      · cases ht
    · cases ht

/-- **Step lemma.** -/
theorem Inv.step {a : LookupAction κ D} (h : s.Inv) (hok : s.FlushedFirst a ∧ s.InTime a)
    (ht : s.step a = some t) : t.Inv := by
  rcases step_cases ht with ⟨lba, data, rflag, key, rfl⟩ | ⟨o, i, queue, rfl, hq, rfl⟩ |
    ⟨e, es, rfl, hes, rfl⟩ | ⟨rfl, hes, rfl⟩ | ⟨start, count, small, rfl, rfl⟩ |
    ⟨r, rfl, hr, -, rfl⟩ | ⟨r, l, rfl, hr, hl, hlt, rfl⟩
  · exact h.push hok.1 hok.2 ht
  · -- the whole buffer is to be put
    refine ⟨h.puts, h.pool, h.held, fun hes => ⟨i, ?_⟩, h.reader⟩
    obtain rfl := Option.some.inj hes
    have hhead : s.flush.queue.head? = some i := by
      rw [hq]
      rfl
    have hflushed := DataSegment.flushed_of_complete (hok.1 i hhead)
    refine ⟨hhead, fun e he => ?_, fun lba blk hget => Or.inl ?_⟩
    · rw [hflushed] at he
      exact (DataSegment.mem_root ..).mp he
    · rw [hflushed]
      exact (DataSegment.mem_root ..).mpr hget
  · obtain ⟨i, hi⟩ := h.running hes
    obtain ⟨queue, hq⟩ := List.head?_eq_some_iff.mp hi.head
    have he := hi.held e List.mem_cons_self
    refine ⟨h.puts.put h.pool (List.mem_of_mem_head? hi.head) he, h.pool.put hq he, h.held,
      fun hes' => ⟨i, ?_⟩, fun hr => (h.reader hr).congr rfl rfl⟩
    obtain rfl := Option.some.inj hes'
    refine ⟨hi.head, fun e' he' => hi.held e' (List.mem_cons_of_mem _ he'), fun lba blk hget => ?_⟩
    rcases hi.put lba blk hget with hmem | hmem
    · rcases List.mem_cons.mp hmem with rfl | hmem
      · exact Or.inr List.mem_cons_self
      · exact Or.inl hmem
    · exact Or.inr (List.mem_cons_of_mem _ hmem)
  · obtain ⟨i, hi⟩ := h.running hes
    obtain ⟨queue, hq⟩ := List.head?_eq_some_iff.mp hi.head
    have hput : ∀ lba blk, (s.flush.segbuf.buffer i).get lba = some blk →
        (lba, blk) ∈ s.flush.puts := fun lba blk hget =>
      (hi.put lba blk hget).resolve_left List.not_mem_nil
    have hpool := h.pool.pop hq hput
    rw [hq]
    refine ⟨⟨h.puts.ordered, h.puts.version, h.puts.stamp_lt⟩, hpool, h.held, fun hes' => ?_,
      fun hr => (h.reader hr).congr rfl rfl⟩
    cases hes'
  · refine ⟨h.puts, h.pool, h.held, h.running, fun hr => ?_⟩
    obtain rfl := Option.some.inj hr
    exact Reader.inv_begin s.flush start count small
  · refine ⟨h.puts, h.pool, h.held, h.running, fun hr' => ?_⟩
    obtain rfl := Option.some.inj hr'
    exact (h.reader hr).search h.puts h.pool
  · refine ⟨h.puts, h.pool, h.held, h.running, fun hr' => ?_⟩
    obtain rfl := Option.some.inj hr'
    exact (h.reader hr).query h.pool h.held hl hlt (hok.2 r hr l hl)

/-- Pushes for the `n` lbas from `base` on. -/
def pushes (base : ℕ) (data : D) (key : κ) (n : ℕ) : List (LookupAction κ D) :=
  (List.range n).map fun i => .push (base + i) data true key

/-- The pool after these pushes, while they fit into the current buffer. -/
def pushed (f : FlushState κ D) (base : ℕ) (data : D) : ℕ → FlushState κ D
  | 0 => f
  | n + 1 => (pushed f base data n).wrote (base + n) data

-- the pushes of a whole buffer are reasoned about, never listed
attribute [irreducible] pushes

/-- The buffer before the current one is full and queued. -/
structure Filled (s : LookupState κ D) (c : PoolIndex) : Prop where
  opened : s.flush.closed = false
  queue : s.flush.queue = [c]
  running : s.running = none
  curBuffer : s.flush.segbuf.curBuffer = c + 1
  empty : ∃ key, s.flush.segbuf.cur = .init key
  size : (s.flush.segbuf.buffer c).size = blocksPerSegment

/-- The flush of a full buffer that gets segment `segno`. -/
def flushes (segno : ℕ) : List (LookupAction κ D) :=
  .flushStart ⟨some segno, fun _ => none⟩ ::
    (List.replicate blocksPerSegment .flushPut ++ [.flushEnd])

attribute [irreducible] flushes

end LookupState

end JinDisk
