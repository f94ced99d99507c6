import JinDisk.RbtreeMemtable
import JinDisk.RangeAgreement
import JinDisk.Capacity

/-!
# Distinct blocks

A logical block address is a `dm_block_t` in the bios, and a `uint32_t` from `segment_block_new`,
`data_segment_get` and `lsm_tree_put` on. The trees of the segment buffer compare addresses by a
difference that is returned as an `int`. On a device with at most `2 ^ 31` blocks neither loses
anything: what is done for one block does not concern another one, except that the push that fills
the current buffer empties the next buffer of the pool, whatever that one holds.
-/

namespace JinDisk

variable {κ D : Type}

/-! ## The segment buffer with its trees -/

/-- `segment_block_cmp_key` and `segment_block_cmp_node`: the address in a node came through
`segment_block_new(uint32_t)`. -/
def segmentBlockCmp (key lba : UInt32) : Int32 := Int32.ofInt ((key.toNat : ℤ) - (lba.toNat : ℤ))

/-- `struct default_segment_buffer`, with the trees of its segments. -/
structure RbSegBuf (D : Type) where
  /-- `cur_buffer` -/
  curBuffer : PoolIndex
  /-- the trees; `size` is the number of nodes -/
  buffer : PoolIndex → SearchTree (UInt32 × D)

namespace RbSegBuf

/-- `segbuf_init` -/
def init : RbSegBuf D := ⟨0, fun _ => .nil⟩

/-- `data_segment_get` -/
def get (s : RbSegBuf D) (i : PoolIndex) (lba : UInt32) : Option D :=
  ((s.buffer i).find fun e => branch (segmentBlockCmp lba e.1)).map Prod.snd

/-- The buffers, the current one first, then backwards. -/
def lookupOrder (s : RbSegBuf D) : List PoolIndex :=
  (List.range poolSize).map fun i => s.curBuffer - Fin.ofNat poolSize i

/-- `segbuf_query_block` -/
def queryBlock (s : RbSegBuf D) (lba : UInt32) : Option D :=
  s.lookupOrder.findSome? fun i => s.get i lba

/-- The copy to the block found in the current buffer, or to a new one. -/
def write (s : RbSegBuf D) (lba : UInt32) (data : D) : RbSegBuf D :=
  { s with
    buffer := Function.update s.buffer s.curBuffer
      ((s.buffer s.curBuffer).findAdd (fun e => branch (segmentBlockCmp lba e.1)) (lba, data)
        fun e => (e.1, data)) }

/-- The buffer after the current one. -/
def next (s : RbSegBuf D) : PoolIndex := s.curBuffer + 1

/-- The ring advances to the next buffer, which is emptied. -/
def recycle (s : RbSegBuf D) : RbSegBuf D :=
  ⟨s.next, Function.update s.buffer s.next .nil⟩

/-- Does the current buffer hold a whole segment? -/
def full (s : RbSegBuf D) : Bool := blocksPerSegment ≤ (s.buffer s.curBuffer).inorder.length

/-- Is the push one by the garbage collector for a block that has newer data in the pool? -/
def skips (s : RbSegBuf D) (lba : UInt32) (rflag : Bool) : Bool :=
  !rflag && (s.queryBlock lba).isSome

/-- Does the push fill the current buffer? -/
def fills (s : RbSegBuf D) (lba : UInt32) (data : D) (rflag : Bool) : Bool :=
  !s.skips lba rflag && (s.write lba data).full

/-- `segbuf_push_block`, before the trees are rebalanced. -/
def pushBlock (s : RbSegBuf D) (lba : UInt64) (data : D) (rflag : Bool) : RbSegBuf D :=
  if s.skips lba.toUInt32 rflag then s
  else if s.fills lba.toUInt32 data rflag then (s.write lba.toUInt32 data).recycle
  else s.write lba.toUInt32 data

/-- The second pool is the first one with its trees rebalanced. -/
structure Rebalanced (s s' : RbSegBuf D) : Prop where
  curBuffer : s'.curBuffer = s.curBuffer
  buffer : ∀ i, (s.buffer i).Rebalanced (s'.buffer i)

/-- The pools that pushes to a device of `blocks` blocks can make. -/
inductive Reached (blocks : ℕ) : RbSegBuf D → Prop where
  | init : Reached blocks init
  | push {s s' : RbSegBuf D} (h : Reached blocks s) (lba : UInt64) (hlba : lba.toNat < blocks)
      (data : D) (rflag : Bool) (hs' : (s.pushBlock lba data rflag).Rebalanced s') : Reached blocks s'

/-! ## Pushes -/

theorem write_buffer_cur (s : RbSegBuf D) (lba : UInt32) (data : D) :
    (s.write lba data).buffer s.curBuffer = (s.buffer s.curBuffer).findAdd
      (fun e => branch (segmentBlockCmp lba e.1)) (lba, data) fun e => (e.1, data) :=
  Function.update_self ..

theorem write_buffer_of_ne (s : RbSegBuf D) (lba : UInt32) (data : D) {i : PoolIndex}
    (h : i ≠ s.curBuffer) : (s.write lba data).buffer i = s.buffer i :=
  Function.update_of_ne h ..

theorem recycle_buffer_next (s : RbSegBuf D) : s.recycle.buffer s.next = .nil :=
  Function.update_self ..

theorem recycle_buffer_of_ne (s : RbSegBuf D) {i : PoolIndex} (h : i ≠ s.next) :
    s.recycle.buffer i = s.buffer i :=
  Function.update_of_ne h ..

/-- The address of an entry as a number. -/
def lbaNat (e : UInt32 × D) : ℕ := e.1.toNat

/-- The trees are sorted, with addresses of the device. -/
structure Ok (blocks : ℕ) (s : RbSegBuf D) : Prop where
  sorted : ∀ i, (s.buffer i).Sorted lbaNat
  keys : ∀ i, ∀ e ∈ (s.buffer i).inorder, lbaNat e < blocks

variable {blocks : ℕ} {s s' : RbSegBuf D} {lba : UInt32} {data : D}

theorem toNat_toUInt32 {a : UInt64} (h : a.toNat < 2 ^ 31) : a.toUInt32.toNat = a.toNat := by
  rw [UInt64.toNat_toUInt32]
  omega

section Blocks

variable (hblocks : blocks ≤ 2 ^ 31)
include hblocks

theorem Ok.seeks (h : Ok blocks s) (hlba : lba.toNat < blocks) (i : PoolIndex) :
    (s.buffer i).Seeks lbaNat lba.toNat fun e => branch (segmentBlockCmp lba e.1) := by
  intro e he
  have hkey := h.keys i e he
  refine branch_memtableEntryCmp ⟨?_, ?_⟩
  · omega
  · rw [lbaNat] at hkey
    omega

/-- A lookup reads the entry of the address. -/
theorem Ok.get_eq (h : Ok blocks s) (hlba : lba.toNat < blocks) (i : PoolIndex) :
    s.get i lba = ((s.buffer i).inorder.find? fun e => lbaNat e = lba.toNat).map Prod.snd := by
  obtain ⟨as, bs, hcut⟩ := (h.sorted i).exists_cut (h.seeks hblocks hlba i)
  rw [get, hcut.find_eq]

theorem Ok.write (h : Ok blocks s) (hlba : lba.toNat < blocks) (data : D) :
    Ok blocks (s.write lba data) ∧ ∀ i a, a ≠ lba → a.toNat < blocks →
      (s.write lba data).get i a = s.get i a := by
  obtain ⟨as, bs, hcut⟩ := (h.sorted s.curBuffer).exists_cut (h.seeks hblocks hlba s.curBuffer)
  obtain ⟨e, he⟩ : ∃ e, e = ((s.buffer s.curBuffer).find fun e =>
      branch (segmentBlockCmp lba e.1)).elim (lba, data) (fun e => (e.1, data)) := ⟨_, rfl⟩
  have hkey : lbaNat e = lba.toNat := by
    rw [he]
    cases hfind : (s.buffer s.curBuffer).find fun e => branch (segmentBlockCmp lba e.1) with
    | none => rfl
    | some e' => exact hcut.found e' hfind
  have hcur : ((s.write lba data).buffer s.curBuffer).inorder = as ++ e :: bs := by
    rw [write_buffer_cur, hcut.inorder_findAdd, ← he]
  have hok : Ok blocks (s.write lba data) := by
    refine ⟨fun i => ?_, fun i x hx => ?_⟩
    · by_cases hi : i = s.curBuffer
      · subst hi
        rw [SearchTree.Sorted, hcur]
        exact hcut.sorted_insert (h.sorted s.curBuffer) hkey
      · rw [write_buffer_of_ne s lba data hi]
        exact h.sorted i
    · by_cases hi : i = s.curBuffer
      · subst hi
        rw [hcur] at hx
        rcases hcut.mem_insert hx with rfl | hx
        · rw [hkey]
          exact hlba
        · exact h.keys s.curBuffer x hx
      · rw [write_buffer_of_ne s lba data hi] at hx
        exact h.keys i x hx
  refine ⟨hok, fun i a hne ha => ?_⟩
  rw [hok.get_eq hblocks ha, h.get_eq hblocks ha]
  by_cases hi : i = s.curBuffer
  · subst hi
    rw [hcur, hcut.find?_insert hkey, if_neg fun heq => hne (UInt32.toNat_inj.mp heq).symm]
  · rw [write_buffer_of_ne s lba data hi]

end Blocks

theorem Ok.recycle (h : Ok blocks s) : Ok blocks s.recycle := by
  refine ⟨fun i => ?_, fun i e he => ?_⟩
  · by_cases hi : i = s.next
    · subst hi
      rw [recycle_buffer_next]
      exact List.Pairwise.nil
    · rw [recycle_buffer_of_ne s hi]
      exact h.sorted i
  · by_cases hi : i = s.next
    · subst hi
      rw [recycle_buffer_next] at he
      cases he
    · rw [recycle_buffer_of_ne s hi] at he
      exact h.keys i e he

theorem Ok.rebalanced (h : Ok blocks s) (hs' : s.Rebalanced s') : Ok blocks s' := by
  refine ⟨fun i => ?_, fun i => ?_⟩
  · rw [SearchTree.Sorted, hs'.buffer i]
    exact h.sorted i
  · rw [hs'.buffer i]
    exact h.keys i

/-- What a push can do. -/
theorem pushBlock_cases (s : RbSegBuf D) (lba : UInt64) (data : D) (rflag : Bool) :
    (s.fills lba.toUInt32 data rflag = false ∧ s.pushBlock lba data rflag = s) ∨
      (s.fills lba.toUInt32 data rflag = false ∧
        s.pushBlock lba data rflag = s.write lba.toUInt32 data) ∨
      (s.fills lba.toUInt32 data rflag = true ∧
        s.pushBlock lba data rflag = (s.write lba.toUInt32 data).recycle) := by
  rw [pushBlock]
  cases hskip : s.skips lba.toUInt32 rflag with
  | true => exact Or.inl ⟨by simp [fills, hskip], rfl⟩
  | false =>
    cases hfill : s.fills lba.toUInt32 data rflag with
    | true => exact Or.inr (Or.inr ⟨rfl, rfl⟩)
    | false => exact Or.inr (Or.inl ⟨rfl, rfl⟩)

/-- **Run lemma.** -/
theorem Reached.ok (hblocks : blocks ≤ 2 ^ 31) (h : Reached blocks s) : Ok blocks s := by
  induction h with
  | init => exact ⟨fun i => List.Pairwise.nil, fun i e he => by cases he⟩
  | @push s s' _ lba hlba data rflag hs' ih =>
    have hnarrow : lba.toUInt32.toNat < blocks := by
      rw [toNat_toUInt32 (by omega)]
      exact hlba
    refine Ok.rebalanced ?_ hs'
    rcases s.pushBlock_cases lba data rflag with ⟨-, heq⟩ | ⟨-, heq⟩ | ⟨-, heq⟩
    · rw [heq]
      exact ih
    · rw [heq]
      exact (ih.write hblocks hnarrow data).1
    · rw [heq]
      exact (ih.write hblocks hnarrow data).1.recycle

end RbSegBuf

/-! ## The index -/

variable [Inhabited κ]

namespace LsmStore

/-- With an empty queue the immutable memtable is compacted. -/
structure Idle (s : LsmStore κ) : Prop where
  ok : s.Ok
  compacted : s.works = 0 → s.tree.Compacted

/-- **Step lemma.** -/
theorem Idle.step {s s' : LsmStore κ} (h : s.Idle) {a : LsmAction κ} (hs : s.step a = some s') :
    s'.Idle := by
  refine ⟨h.ok.step hs, fun hworks => ?_⟩
  rcases step_cases hs with ⟨key, val, -, -, rfl⟩ | ⟨order, n, m, t, -, -, hm, ht, rfl⟩ |
    ⟨order, -, -, -, rfl⟩ | ⟨order, t, -, -, -, ht, rfl⟩
  · -- a put that rotates queues a work
    cases hrot : s.tree.rotates key val with
    | true => simp [hrot] at hworks
    | false =>
      simp only [hrot, Bool.false_eq_true, if_false] at hworks
      rw [LsmTree.put, hrot]
      exact h.compacted hworks
  · obtain ⟨hmok, hsize⟩ := h.ok.tree.immutable m hm
    obtain ⟨comp, hcomp, rfl⟩ := Option.map_eq_some_iff.mp ht
    intro m' hm'
    obtain rfl : m = m' := Option.some.inj (hm.symm.trans hm')
    exact (minorCompaction_spec h.ok.tree.levels hmok hsize hcomp).file
  · intro m hm
    cases hm
  · intro m hm
    cases hm

end LsmStore

/-- The range lookup reads every key of the range as the point lookup does. -/
def LsmTree.Readable (t : LsmTree κ) (start stop : ℕ) : Prop :=
  ¬t.TornKey start stop ∧ ¬t.EmptyFileHit start stop

namespace RbSegBuf

variable {blocks : ℕ} {s : RbSegBuf D}

theorem Rebalanced.refl (s : RbSegBuf D) : s.Rebalanced s := ⟨rfl, fun _ => rfl⟩

/-- The addresses in a buffer, in order. -/
def lbas (s : RbSegBuf D) (i : PoolIndex) : List ℕ := (s.buffer i).inorder.map lbaNat

/-- An address above all others is added at the right end. -/
theorem Ok.lbas_write (hblocks : blocks ≤ 2 ^ 31) (h : Ok blocks s) (lba : UInt32)
    (hlba : lba.toNat < blocks) (data : D) (habove : ∀ n ∈ s.lbas s.curBuffer, n < lba.toNat) :
    (s.write lba data).lbas s.curBuffer = s.lbas s.curBuffer ++ [lba.toNat] := by
  obtain ⟨as, bs, hcut⟩ := (h.sorted s.curBuffer).exists_cut (h.seeks hblocks hlba s.curBuffer)
  have hlt : ∀ e ∈ (s.buffer s.curBuffer).inorder, lbaNat e < lba.toNat := fun e he =>
    habove _ (List.mem_map_of_mem he)
  have hnone : ((s.buffer s.curBuffer).find fun e => branch (segmentBlockCmp lba e.1)) = none := by
    cases hfind : (s.buffer s.curBuffer).find fun e => branch (segmentBlockCmp lba e.1) with
    | none => rfl
    | some e =>
      have hmem : e ∈ (s.buffer s.curBuffer).inorder := by
        rw [hcut.inorder_eq, hfind]
        simp
      exact absurd (hcut.found e hfind) (hlt e hmem).ne
  have hbs : bs = [] := by
    refine List.eq_nil_iff_forall_not_mem.mpr fun e he => ?_
    have hmem : e ∈ (s.buffer s.curBuffer).inorder := by
      rw [hcut.inorder_eq]
      exact List.mem_append_right _ (List.mem_append_right _ he)
    exact (hlt e hmem).not_gt (hcut.gt e he)
  rw [lbas, lbas, write_buffer_cur, hcut.inorder_findAdd, hcut.inorder_eq, hnone, hbs]
  simp [lbaNat]

theorem lbas_write_of_ne (s : RbSegBuf D) (lba : UInt32) (data : D) {i : PoolIndex}
    (h : i ≠ s.curBuffer) : (s.write lba data).lbas i = s.lbas i := by
  rw [lbas, write_buffer_of_ne s lba data h, lbas]

/-- Pushes can make a pool with these addresses in its buffers. -/
def Holds (blocks : ℕ) (cur : PoolIndex) (content : PoolIndex → List ℕ) : Prop :=
  ∃ s : RbSegBuf Unit, s.Reached blocks ∧ s.curBuffer = cur ∧ s.lbas = content

variable {cur : PoolIndex} {content : PoolIndex → List ℕ}

/-- The push of an address above the ones in the current buffer. -/
theorem Reached.push_above (hblocks : blocks ≤ 2 ^ 31) {s : RbSegBuf Unit} (h : s.Reached blocks)
    {base : ℕ} (hbase : base < blocks) (habove : ∀ n ∈ s.lbas s.curBuffer, n < base) :
    (s.write (UInt64.ofNat base).toUInt32 ()).lbas =
        Function.update s.lbas s.curBuffer (s.lbas s.curBuffer ++ [base]) ∧
      s.fills (UInt64.ofNat base).toUInt32 () true =
        decide (blocksPerSegment ≤ (s.lbas s.curBuffer).length + 1) ∧
      (s.pushBlock (UInt64.ofNat base) () true).Reached blocks := by
  have hnat : (UInt64.ofNat base).toNat = base := UInt64.toNat_ofNat_of_lt'
    (hbase.trans_le (hblocks.trans (by decide)))
  have hnarrow : (UInt64.ofNat base).toUInt32.toNat = base := by
    rw [toNat_toUInt32 (by omega), hnat]
  have hcur := (h.ok hblocks).lbas_write hblocks (UInt64.ofNat base).toUInt32
    (hnarrow.trans_lt hbase) () (by rwa [hnarrow])
  rw [hnarrow] at hcur
  refine ⟨?_, ?_, .push h _ (hnat.trans_lt hbase) () true (.refl _)⟩
  · refine Function.eq_update_iff.mpr ⟨hcur, fun i hi => ?_⟩
    exact lbas_write_of_ne s _ () hi
  · have hlength := congrArg List.length hcur
    rw [lbas, List.length_map, List.length_append, List.length_singleton] at hlength
    rw [fills, skips, full, Bool.not_true, Bool.false_and, Bool.not_false, Bool.true_and, ← hlength]
    rfl

/-- Addresses one after the other, fewer than a segment has. -/
theorem Holds.pushes (hblocks : blocks ≤ 2 ^ 31) (h : Holds blocks cur content)
    (hempty : content cur = []) (base k : ℕ) (hk : k < blocksPerSegment)
    (hbase : base + k ≤ blocks) :
    Holds blocks cur (Function.update content cur (List.range' base k)) := by
  induction k with
  | zero =>
    rw [List.range'_zero, ← hempty, Function.update_eq_self]
    exact h
  | succ k ih =>
    obtain ⟨s, hs, rfl, hlbas⟩ := ih (Nat.lt_of_succ_lt hk) (Nat.le_of_succ_le hbase)
    have hcur : s.lbas s.curBuffer = List.range' base k := by
      rw [hlbas, Function.update_self]
    obtain ⟨hwrite, hfills, hreached⟩ := hs.push_above hblocks (show base + k < blocks from hbase)
      (fun n hn => by
        rw [hcur, List.mem_range'_1] at hn
        exact hn.2)
    have hroom : s.fills (UInt64.ofNat (base + k)).toUInt32 () true = false := by
      rw [hfills, hcur, List.length_range', decide_eq_false_iff_not, not_le]
      exact hk
    refine ⟨_, hreached, ?_, ?_⟩
    · rw [pushBlock, hroom]
      rfl
    · rw [hcur, ← List.range'_1_concat, hlbas, Function.update_idem] at hwrite
      rw [pushBlock, hroom]
      exact hwrite

theorem lbas_recycle (s : RbSegBuf D) : s.recycle.lbas = Function.update s.lbas s.next [] := by
  refine Function.eq_update_iff.mpr ⟨?_, fun i hi => ?_⟩
  · rw [lbas, recycle_buffer_next]
    rfl
  · rw [lbas, recycle_buffer_of_ne s hi, lbas]

/-- Addresses one after the other, as many as a segment has. -/
theorem Holds.fill (hblocks : blocks ≤ 2 ^ 31) (h : Holds blocks cur content)
    (hempty : content cur = []) (base : ℕ) (hbase : base + blocksPerSegment ≤ blocks) :
    Holds blocks (cur + 1) (Function.update (Function.update content cur
      (List.range' base blocksPerSegment)) (cur + 1) []) := by
  obtain ⟨s, hs, rfl, hlbas⟩ := h.pushes hblocks hempty base (blocksPerSegment - 1)
    (by decide) (Nat.le_of_succ_le hbase)
  have hcur : s.lbas s.curBuffer = List.range' base (blocksPerSegment - 1) := by
    rw [hlbas, Function.update_self]
  obtain ⟨hwrite, hfills, hreached⟩ := hs.push_above hblocks
    (show base + (blocksPerSegment - 1) < blocks from hbase)
    (fun n hn => by
      rw [hcur, List.mem_range'_1] at hn
      exact hn.2)
  have hfull : s.fills (UInt64.ofNat (base + (blocksPerSegment - 1))).toUInt32 () true = true := by
    rw [hfills, hcur, List.length_range']
    rfl
  rw [hcur, ← List.range'_1_concat, hlbas, Function.update_idem] at hwrite
  refine ⟨_, hreached, ?_, ?_⟩
  · rw [pushBlock, hfull]
    rfl
  · rw [pushBlock, hfull]
    change (s.write _ ()).recycle.lbas = _
    rw [lbas_recycle, hwrite]
    rfl

end RbSegBuf

end JinDisk
