import Mathlib.Logic.Function.Basic
import Mathlib.Data.Fin.Basic
import JinDisk.Lib.RbTree

/-!
# The segment buffer

`segment_buffer.c`: writes are collected in a ring of `POOL_SIZE` data segments. A
segment maps lbas to plaintext blocks; when the current one holds
`BLOCKS_PER_SEGMENT` blocks its flush is queued, the ring advances by one, and
whatever the next segment still holds is destroyed.

This module is the data model and the pieces of `segbuf_push_block` and
`segbuf_query_block`. How the pieces interleave with the flush worker, with
`flush_and_commit` and with garbage collection is the business of the modules that
build machines out of them.

An lba here is the key the code works with after `segment_block_new(uint32_t lba)`.
The tree comparators return a truncated `int64_t` difference, which orders keys
correctly as long as they are less than `2 ^ 31` apart; the model stands there.
-/

namespace JinDisk

/-- `BLOCKS_PER_SEGMENT` -/
def blocksPerSegment : ℕ := 1024

/-- `POOL_SIZE` -/
def poolSize : ℕ := 4

/-- A position in the ring of buffers. -/
abbrev PoolIndex : Type := Fin poolSize

instance : NeZero poolSize := ⟨by decide⟩

theorem PoolIndex.ne_add_one : ∀ i : PoolIndex, i ≠ i + 1 := by decide

/-- `struct data_segment`: the key its blocks are encrypted with and the tree of
plaintext blocks. `size` is the number of nodes of the tree. -/
structure DataSegment (κ D : Type) where
  /-- the key drawn by `data_segment_init` -/
  segKey : κ
  /-- the blocks, by lba -/
  root : RbTree D

namespace DataSegment

variable {κ D : Type}

/-- The `size` field. -/
def size (ds : DataSegment κ D) : ℕ := ds.root.size

/-- `data_segment_init` with the key that `get_random_bytes` returned. -/
def init (key : κ) : DataSegment κ D := ⟨key, ∅⟩

/-- `data_segment_get` -/
def get (ds : DataSegment κ D) (lba : ℕ) : Option D := ds.root[lba]?

/-- The block of `lba` is added, or overwritten when there is one. -/
def add (ds : DataSegment κ D) (lba : ℕ) (data : D) : DataSegment κ D :=
  { ds with root := ds.root.insert lba data }

@[simp] theorem init_segKey (key : κ) : (init key : DataSegment κ D).segKey = key := rfl

@[simp] theorem init_get (key : κ) (lba : ℕ) : (init key : DataSegment κ D).get lba = none :=
  Std.ExtTreeMap.getElem?_empty

@[simp] theorem init_size (key : κ) : (init key : DataSegment κ D).size = 0 :=
  Std.ExtTreeMap.size_empty

@[simp] theorem add_segKey (ds : DataSegment κ D) (lba : ℕ) (data : D) :
    (ds.add lba data).segKey = ds.segKey := rfl

theorem add_get (ds : DataSegment κ D) (lba : ℕ) (data : D) (a : ℕ) :
    (ds.add lba data).get a = if lba = a then some data else ds.get a :=
  RbTree.getElem?_insert ..

@[simp] theorem add_get_self (ds : DataSegment κ D) (lba : ℕ) (data : D) :
    (ds.add lba data).get lba = some data := by
  rw [add_get, if_pos rfl]

theorem add_get_of_ne (ds : DataSegment κ D) {lba a : ℕ} (data : D) (h : lba ≠ a) :
    (ds.add lba data).get a = ds.get a := by
  rw [add_get, if_neg h]

theorem mem_root (ds : DataSegment κ D) (lba : ℕ) (data : D) :
    (lba, data) ∈ ds.root.toList ↔ ds.get lba = some data :=
  RbTree.mem_toList ..

end DataSegment

/-- How the rest of the device answers a flush: the segment that `sa_alloc` found, if any,
and, should the flush fall back to threaded logging, what `find_logging_block` returns for
each block in turn. -/
structure FlushOutcome where
  /-- the allocated segment -/
  segment : Option ℕ
  /-- the places found by threaded logging -/
  logging : ℕ → Option ℕ

/-- The blocks of `ds` that a flush encrypts and puts into the LSM tree, in the order of
the tree walk: all of them when a segment was allocated, those that found a place when not
(`segbuf_threaded_logging` skips the others). -/
def DataSegment.flushed {κ D : Type} (ds : DataSegment κ D) (o : FlushOutcome) : List (ℕ × D) :=
  match o.segment with
  | some _ => ds.root.toList
  | none => (ds.root.toList.zipIdx.filter fun e => (o.logging e.2).isSome).map Prod.fst

/-- Every block of `ds` found a place. -/
def FlushOutcome.Complete {κ D : Type} (o : FlushOutcome) (ds : DataSegment κ D) : Prop :=
  o.segment = none → ∀ k < ds.size, (o.logging k).isSome

theorem DataSegment.flushed_of_complete {κ D : Type} {ds : DataSegment κ D} {o : FlushOutcome}
    (h : o.Complete ds) : ds.flushed o = ds.root.toList := by
  rw [flushed]
  cases hseg : o.segment with
  | some segment => rfl
  | none =>
    have hall : (ds.root.toList.zipIdx.filter fun e => (o.logging e.2).isSome) =
        ds.root.toList.zipIdx := by
      refine List.filter_eq_self.mpr fun e he => h hseg e.2 ?_
      have hlt := List.snd_lt_of_mem_zipIdx he
      rwa [Std.ExtTreeMap.length_toList] at hlt
    simp [hall]

/-- `struct default_segment_buffer` -/
structure SegBuf (κ D : Type) where
  /-- `cur_buffer` -/
  curBuffer : PoolIndex
  /-- the ring -/
  buffer : PoolIndex → DataSegment κ D

namespace SegBuf

variable {κ D : Type}

/-- `segbuf_init`: only the first buffer is initialised, the others are zeroed memory. -/
def init (zeroKey key : κ) : SegBuf κ D where
  curBuffer := 0
  buffer := Function.update (fun _ => .init zeroKey) 0 (.init key)

/-- Nothing is buffered at first. -/
theorem init_get (zeroKey key : κ) (i : PoolIndex) (lba : ℕ) :
    ((init zeroKey key : SegBuf κ D).buffer i).get lba = none := by
  by_cases hi : i = 0
  · subst hi
    simp [init]
  · simp [init, Function.update_of_ne hi]

/-- The current buffer. -/
def cur (s : SegBuf κ D) : DataSegment κ D := s.buffer s.curBuffer

/-- The copy into the current buffer. -/
def write (s : SegBuf κ D) (lba : ℕ) (data : D) : SegBuf κ D :=
  { s with buffer := Function.update s.buffer s.curBuffer (s.cur.add lba data) }

/-- The test of `segbuf_push_block` for a full current buffer. -/
def full (s : SegBuf κ D) : Bool := blocksPerSegment ≤ s.cur.size

/-- The buffer the ring advances to: `(cur + 1) % POOL_SIZE`. -/
def next (s : SegBuf κ D) : PoolIndex := s.curBuffer + 1

/-- The ring advances. -/
def advance (s : SegBuf κ D) : SegBuf κ D := { s with curBuffer := s.next }

/-- The current buffer is destroyed and initialised again. -/
def reinit (s : SegBuf κ D) (key : κ) : SegBuf κ D :=
  { s with buffer := Function.update s.buffer s.curBuffer (.init key) }

/-- A turn of the ring: it advances, and the buffer it comes to is initialised again. -/
def recycle (s : SegBuf κ D) (key : κ) : SegBuf κ D := s.advance.reinit key

/-- The buffers in the order in which `segbuf_query_block` and the garbage collector's
`segbuf_push_block` look at them: the current one first, then backwards. -/
def lookupOrder (s : SegBuf κ D) : List PoolIndex :=
  (List.range poolSize).map fun i => s.curBuffer - Fin.ofNat poolSize i

/-- `segbuf_query_block` -/
def queryBlock (s : SegBuf κ D) (lba : ℕ) : Option D :=
  s.lookupOrder.findSome? fun i => (s.buffer i).get lba

/-- `segbuf_push_block`: the buffer afterwards and the index whose flush was queued, if
any. With `rflag = false` (a push by the garbage collector) nothing happens when the pool
holds the lba. `key` is what `get_random_bytes` returns should the ring advance. -/
def pushBlock (s : SegBuf κ D) (lba : ℕ) (data : D) (rflag : Bool) (key : κ) :
    SegBuf κ D × Option PoolIndex :=
  if rflag = false ∧ (s.queryBlock lba).isSome then (s, none)
  else
    let s' := s.write lba data
    if s'.full then (s'.recycle key, some s.curBuffer) else (s', none)

@[simp] theorem write_curBuffer (s : SegBuf κ D) (lba : ℕ) (data : D) :
    (s.write lba data).curBuffer = s.curBuffer := rfl

@[simp] theorem write_buffer_cur (s : SegBuf κ D) (lba : ℕ) (data : D) :
    (s.write lba data).buffer s.curBuffer = s.cur.add lba data :=
  Function.update_self ..

theorem write_buffer_of_ne (s : SegBuf κ D) (lba : ℕ) (data : D) {i : PoolIndex}
    (h : i ≠ s.curBuffer) : (s.write lba data).buffer i = s.buffer i :=
  Function.update_of_ne h ..

@[simp] theorem recycle_curBuffer (s : SegBuf κ D) (key : κ) :
    (s.recycle key).curBuffer = s.next := rfl

@[simp] theorem recycle_buffer_next (s : SegBuf κ D) (key : κ) :
    (s.recycle key).buffer s.next = .init key :=
  Function.update_self ..

theorem recycle_buffer_of_ne (s : SegBuf κ D) (key : κ) {i : PoolIndex} (h : i ≠ s.next) :
    (s.recycle key).buffer i = s.buffer i :=
  Function.update_of_ne h ..

@[simp] theorem write_next (s : SegBuf κ D) (lba : ℕ) (data : D) :
    (s.write lba data).next = s.next := rfl

/-- What a push can do: nothing, a copy, or a copy followed by a turn of the ring. -/
theorem pushBlock_cases (s : SegBuf κ D) (lba : ℕ) (data : D) (rflag : Bool) (key : κ) :
    (rflag = false ∧ (s.queryBlock lba).isSome ∧ s.pushBlock lba data rflag key = (s, none)) ∨
    ((s.write lba data).full = false ∧
      s.pushBlock lba data rflag key = (s.write lba data, none)) ∨
    ((s.write lba data).full = true ∧
      s.pushBlock lba data rflag key =
        ((s.write lba data).recycle key, some s.curBuffer)) := by
  rw [pushBlock]
  split
  next h => exact Or.inl ⟨h.1, h.2, rfl⟩
  next h =>
    cases hf : (s.write lba data).full with
    | false => exact Or.inr (Or.inl ⟨rfl, by simp [hf]⟩)
    | true => exact Or.inr (Or.inr ⟨rfl, by simp [hf]⟩)

/-! ## Filling a buffer -/

/-- `n` blocks are copied into the current buffer, at the lbas from `base` on. -/
def fill (s : SegBuf κ D) (base : ℕ) (f : ℕ → D) : ℕ → SegBuf κ D
  | 0 => s
  | n + 1 => (fill s base f n).write (base + n) (f n)

theorem fill_zero (s : SegBuf κ D) (base : ℕ) (f : ℕ → D) : s.fill base f 0 = s := rfl

theorem fill_succ (s : SegBuf κ D) (base : ℕ) (f : ℕ → D) (n : ℕ) :
    s.fill base f (n + 1) = (s.fill base f n).write (base + n) (f n) := rfl

-- a whole segment is 1024 copies: they are reasoned about, never computed
attribute [irreducible] fill

@[simp] theorem fill_curBuffer (s : SegBuf κ D) (base : ℕ) (f : ℕ → D) (n : ℕ) :
    (s.fill base f n).curBuffer = s.curBuffer := by
  induction n with
  | zero => rw [fill_zero]
  | succ n ih => rw [fill_succ, write_curBuffer, ih]

end SegBuf

/-- A 4 KiB block of one repeated byte. -/
def fillBlock (b : UInt8) : List UInt8 := List.replicate 4096 b

end JinDisk
