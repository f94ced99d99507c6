import JinDisk.FreeSafety
import JinDisk.ReadOrder

/-!
# The content of a device

The content of an lba is what a read finds: a block of the segment buffer, the youngest first, or
else what is stored. A buffer of the ring is pending from the first block in it until it is flushed;
after that it keeps its blocks for the reads, until the ring comes to it again. By then each of its
blocks is stored or a younger buffer has one for the lba (`PoolOk.settled`), so emptying it changes
no content.

Whatever is stored is a parameter here; all the pool has to do with is the function.
-/

namespace JinDisk

open FlushState

variable {κ D : Type}

/-! ## The ring -/

/-- The `n` positions behind `c`, the one that is furthest behind first. -/
def behind (c : PoolIndex) : ℕ → List PoolIndex
  | 0 => []
  | n + 1 => (c - Fin.ofNat poolSize (n + 1)) :: behind c n

theorem behind_turn : ∀ c : PoolIndex, ∀ n < 3, behind (c + 1) (n + 1) = behind c n ++ [c] := by decide

theorem mem_behind : ∀ c i : PoolIndex, ∀ n < 4, i ∈ behind c n ↔ 0 < age c i ∧ age c i ≤ n := by
  decide

theorem age_next : ∀ c : PoolIndex, age c (c + 1) = 3 := by decide

theorem age_head : ∀ c : PoolIndex, ∀ n < 3, age c (c - Fin.ofNat poolSize (n + 1)) = n + 1 := by decide

theorem age_inj : ∀ c i j : PoolIndex, age c i = age c j → i = j := by decide

namespace SegBuf

variable (sb : SegBuf κ D) (lba : ℕ)

theorem queryBlock_eq_none : sb.queryBlock lba = none ↔ ∀ i, (sb.buffer i).get lba = none := by
  rw [queryBlock, List.findSome?_eq_none_iff]
  exact ⟨fun h i => h i (mem_lookupOrder sb i), fun h i _ => h i⟩

/-- A query finds the youngest block. -/
theorem queryBlock_eq_some {x : D} : sb.queryBlock lba = some x ↔ ∃ i,
    (sb.buffer i).get lba = some x ∧
      ∀ j, age sb.curBuffer j < age sb.curBuffer i → (sb.buffer j).get lba = none := by
  have haged := lookupOrder_aged sb
  constructor
  · intro h
    obtain ⟨young, i, old, horder, hi, hmiss⟩ := List.findSome?_eq_some_iff.mp h
    refine ⟨i, hi, fun j hj => ?_⟩
    have hmem := mem_lookupOrder sb j
    rw [horder] at haged hmem
    rcases List.mem_append.mp hmem with hyoung | hold
    · exact hmiss j hyoung
    · rcases List.mem_cons.mp hold with rfl | hold
      · exact absurd hj (Nat.lt_irrefl _)
      · have hlt := (List.pairwise_cons.mp (List.pairwise_append.mp haged).2.1).1 j hold
        exact absurd hj (Nat.lt_asymm hlt)
  · rintro ⟨i, hi, hyounger⟩
    cases hquery : sb.queryBlock lba with
    | none =>
      rw [(sb.queryBlock_eq_none lba).mp hquery i] at hi
      cases hi
    | some y =>
      obtain ⟨young, j, old, horder, hj, hmiss⟩ := List.findSome?_eq_some_iff.mp hquery
      have hmem := mem_lookupOrder sb i
      rw [horder] at haged hmem
      rcases List.mem_append.mp hmem with hyoung | hold
      · rw [hmiss i hyoung] at hi
        cases hi
      · rcases List.mem_cons.mp hold with rfl | hold
        · exact hj.symm.trans hi
        · have hlt := (List.pairwise_cons.mp (List.pairwise_append.mp haged).2.1).1 i hold
          rw [hyounger j hlt] at hj
          cases hj

/-- What a read of the lba finds, when `stored` is what is stored. -/
def content (stored : ℕ → Option D) : Option D := (sb.queryBlock lba).or (stored lba)

end SegBuf

/-! ## The pool -/

/-- The buffers, their works, and what is stored. -/
structure PoolOk (sb : SegBuf κ D) (wq : List PoolIndex) (stored : ℕ → Option D) : Prop where
  /-- the buffers behind the current one are queued, in order -/
  waiting : wq = behind sb.curBuffer wq.length
  /-- not all the others are -/
  few : wq.length < poolSize
  /-- no buffer has more blocks than a segment -/
  size : ∀ i, (sb.buffer i).size ≤ blocksPerSegment
  /-- `INF_ADDR` is no lba -/
  keys : ∀ i lba x, (sb.buffer i).get lba = some x → lba ≠ infAddr
  /-- a block of a buffer that was flushed is stored, unless there is a younger one -/
  settled : ∀ i, wq.length < age sb.curBuffer i → ∀ lba x, (sb.buffer i).get lba = some x →
    (∃ j, age sb.curBuffer j < age sb.curBuffer i ∧ ((sb.buffer j).get lba).isSome) ∨
      stored lba = some x

/-- If the pool has the lba at all, a pending buffer has it. -/
def Held (sb : SegBuf κ D) (wq : List PoolIndex) (lba : ℕ) : Prop :=
  ∀ i, ((sb.buffer i).get lba).isSome →
    ∃ j, age sb.curBuffer j ≤ wq.length ∧ ((sb.buffer j).get lba).isSome

/-- There is room for `n` blocks in the current buffer, or the ring can turn once. -/
def Fits (sb : SegBuf κ D) (wq : List PoolIndex) (n : ℕ) : Prop :=
  sb.cur.size + n < blocksPerSegment ∨ n ≤ blocksPerSegment ∧ sb.next ∉ wq

variable {sb : SegBuf κ D} {wq : List PoolIndex} {lba : ℕ} {data : D}

theorem SegBuf.size_write_le : (sb.write lba data).cur.size ≤ sb.cur.size + 1 := by
  rw [SegBuf.cur, SegBuf.write_curBuffer, SegBuf.write_buffer_cur]
  exact Std.ExtTreeMap.size_insert_le

/-- A block is never lost in a copy. -/
theorem SegBuf.isSome_write {i : PoolIndex} {a : ℕ} (h : ((sb.buffer i).get a).isSome) :
    (((sb.write lba data).buffer i).get a).isSome := by
  by_cases hi : i = sb.curBuffer
  · subst hi
    rw [SegBuf.write_buffer_cur, DataSegment.add_get]
    split
    · rfl
    · exact h
  · rwa [sb.write_buffer_of_ne lba data hi]

theorem Fits.mono {n : ℕ} (h : Fits sb wq (n + 1)) : Fits sb wq n := by
  rcases h with hlt | ⟨hn, hnext⟩
  · exact Or.inl (by omega)
  · exact Or.inr ⟨by omega, hnext⟩

theorem Fits.next {n : ℕ} (h : Fits sb wq (n + 1)) (hfull : (sb.write lba data).full = true) :
    sb.next ∉ wq := by
  rcases h with hlt | ⟨-, hnext⟩
  · have hle : (sb.write lba data).cur.size ≤ sb.cur.size + 1 := SegBuf.size_write_le
    rw [SegBuf.full, decide_eq_true_eq] at hfull
    omega
  · exact hnext

theorem Fits.push {n : ℕ} (h : Fits sb wq (n + 1)) (key : κ) :
    Fits (sb.pushBlock lba data true key).1 (wq ++ (sb.pushBlock lba data true key).2.toList) n := by
  rcases sb.pushBlock_cases lba data true key with ⟨hflag, -⟩ | ⟨-, heq⟩ | ⟨-, heq⟩
  · cases hflag
  · rw [heq, Option.toList_none, List.append_nil]
    have hle : (sb.write lba data).cur.size ≤ sb.cur.size + 1 := SegBuf.size_write_le
    rcases h with hlt | ⟨hn, hnext⟩
    · left
      simp only
      omega
    · exact Or.inr ⟨by omega, hnext⟩
  · rw [heq]
    left
    rw [SegBuf.cur, SegBuf.recycle_curBuffer, SegBuf.recycle_buffer_next, DataSegment.init_size]
    rcases h with hlt | ⟨hn, -⟩ <;> omega

namespace PoolOk

variable {stored : ℕ → Option D}

theorem init (zeroKey key : κ) (stored : ℕ → Option D) : PoolOk (.init zeroKey key) [] stored where
  waiting := rfl
  few := by decide
  size i := by
    by_cases hi : i = 0
    · subst hi
      simp [SegBuf.init]
    · simp [SegBuf.init, Function.update_of_ne hi]
  keys i lba x hx := by
    rw [SegBuf.init_get] at hx
    cases hx
  settled i _ lba x hx := by
    rw [SegBuf.init_get] at hx
    cases hx

/-- A queued buffer is not the next one if the ring is to turn. -/
theorem length_lt (h : PoolOk sb wq stored) (hnext : sb.next ∉ wq) : wq.length < 3 := by
  have hfew := h.few
  rw [h.waiting] at hnext
  have hmem := (mem_behind sb.curBuffer sb.next wq.length h.few).not.mp hnext
  rw [SegBuf.next, age_next] at hmem
  omega

/-- A block is copied into the current buffer. -/
theorem write (h : PoolOk sb wq stored) (hroom : sb.cur.size < blocksPerSegment)
    (hlba : lba ≠ infAddr) : PoolOk (sb.write lba data) wq stored := by
  refine ⟨h.waiting, h.few, fun i => ?_, fun i a x hx => ?_, fun i hi a x hx => ?_⟩
  · by_cases hi : i = sb.curBuffer
    · subst hi
      rw [SegBuf.write_buffer_cur]
      exact Std.ExtTreeMap.size_insert_le.trans hroom
    · rw [sb.write_buffer_of_ne lba data hi]
      exact h.size i
  · by_cases hi : i = sb.curBuffer
    · subst hi
      rw [SegBuf.write_buffer_cur, DataSegment.add_get] at hx
      split at hx
      · rename_i ha
        exact ha ▸ hlba
      · exact h.keys _ a x hx
    · rw [sb.write_buffer_of_ne lba data hi] at hx
      exact h.keys i a x hx
  · have hne : i ≠ sb.curBuffer := by
      rintro rfl
      rw [SegBuf.write_curBuffer, age_self] at hi
      omega
    rw [sb.write_buffer_of_ne lba data hne] at hx
    rcases h.settled i hi a x hx with ⟨j, hj, hsome⟩ | hold
    · exact Or.inl ⟨j, hj, SegBuf.isSome_write hsome⟩
    · exact Or.inr hold

theorem content_write (a : ℕ) : (sb.write lba data).content a stored =
    if a = lba then some data else sb.content a stored := by
  split
  · rename_i ha
    subst ha
    have hquery : (sb.write a data).queryBlock a = some data :=
      ((sb.write a data).queryBlock_eq_some a).mpr ⟨sb.curBuffer, by simp, fun j hj => by
        rw [SegBuf.write_curBuffer, age_self] at hj
        omega⟩
    rw [SegBuf.content, hquery, Option.some_or]
  · rename_i ha
    have hbuffer : ∀ i, ((sb.write lba data).buffer i).get a = (sb.buffer i).get a := by
      intro i
      by_cases hi : i = sb.curBuffer
      · subst hi
        rw [SegBuf.write_buffer_cur, DataSegment.add_get_of_ne _ _ (Ne.symm ha)]
        rfl
      · rw [sb.write_buffer_of_ne lba data hi]
    rw [SegBuf.content, SegBuf.content, SegBuf.queryBlock, SegBuf.queryBlock]
    simp only [hbuffer]
    rfl

/-- The ring turns to a buffer that is not queued. -/
theorem recycle (h : PoolOk sb wq stored) (hnext : sb.next ∉ wq) (key : κ) :
    PoolOk (sb.recycle key) (wq ++ [sb.curBuffer]) stored := by
  have hlt := h.length_lt hnext
  refine ⟨?_, ?_, fun i => ?_, fun i a x hx => ?_, fun i hi a x hx => ?_⟩
  · rw [List.length_append, List.length_singleton, SegBuf.recycle_curBuffer, SegBuf.next,
      behind_turn _ _ hlt, ← h.waiting]
  · rw [List.length_append, List.length_singleton, poolSize]
    omega
  · by_cases hi : i = sb.next
    · rw [hi, SegBuf.recycle_buffer_next, DataSegment.init_size]
      exact Nat.zero_le _
    · rw [sb.recycle_buffer_of_ne key hi]
      exact h.size i
  · by_cases hi : i = sb.next
    · rw [hi, SegBuf.recycle_buffer_next, DataSegment.init_get] at hx
      cases hx
    · rw [sb.recycle_buffer_of_ne key hi] at hx
      exact h.keys i a x hx
  · by_cases hne : i = sb.next
    · rw [hne, SegBuf.recycle_buffer_next, DataSegment.init_get] at hx
      cases hx
    · rw [SegBuf.recycle_curBuffer, SegBuf.next] at hi ⊢
      rw [List.length_append, List.length_singleton, age_add_one _ _ hne] at hi
      rw [sb.recycle_buffer_of_ne key hne] at hx
      rcases h.settled i (by omega) a x hx with ⟨j, hj, hsome⟩ | hold
      · have hj' : j ≠ sb.next := by
          rintro rfl
          exact Nat.lt_asymm hj (age_lt_next sb.curBuffer i hne)
        refine Or.inl ⟨j, ?_, ?_⟩
        · rw [age_add_one _ _ hne, age_add_one _ _ hj']
          omega
        · rwa [sb.recycle_buffer_of_ne key hj']
      · exact Or.inr hold

/-- Nothing is lost in the turn: what the buffer had is stored. -/
theorem content_recycle (h : PoolOk sb wq stored) (hnext : sb.next ∉ wq) (key : κ) (a : ℕ) :
    (sb.recycle key).content a stored = sb.content a stored := by
  have hlt := h.length_lt hnext
  rw [SegBuf.content, SegBuf.content]
  cases hquery : sb.queryBlock a with
  | none =>
    have hnone := (sb.queryBlock_eq_none a).mp hquery
    have hquery' : (sb.recycle key).queryBlock a = none := by
      refine ((sb.recycle key).queryBlock_eq_none a).mpr fun i => ?_
      by_cases hi : i = sb.next
      · rw [hi, SegBuf.recycle_buffer_next, DataSegment.init_get]
      · rw [sb.recycle_buffer_of_ne key hi]
        exact hnone i
    rw [hquery']
  | some x =>
    obtain ⟨i, hi, hyounger⟩ := (sb.queryBlock_eq_some a).mp hquery
    by_cases hne : i = sb.next
    · -- the oldest buffer has the block, and no other
      have hquery' : (sb.recycle key).queryBlock a = none := by
        refine ((sb.recycle key).queryBlock_eq_none a).mpr fun j => ?_
        by_cases hj : j = sb.next
        · rw [hj, SegBuf.recycle_buffer_next, DataSegment.init_get]
        · rw [sb.recycle_buffer_of_ne key hj]
          refine hyounger j ?_
          rw [hne]
          exact age_lt_next _ j hj
      have hstored : stored a = some x := by
        refine (h.settled i ?_ a x hi).resolve_left fun ⟨j, hj, hsome⟩ => ?_
        · rw [hne, SegBuf.next, age_next]
          exact hlt
        · rw [hyounger j hj] at hsome
          cases hsome
      rw [hquery', Option.none_or, Option.some_or, hstored]
    · have hquery' : (sb.recycle key).queryBlock a = some x := by
        refine ((sb.recycle key).queryBlock_eq_some a).mpr ⟨i, ?_, fun j hj => ?_⟩
        · rwa [sb.recycle_buffer_of_ne key hne]
        · by_cases hj' : j = sb.next
          · rw [hj', SegBuf.recycle_buffer_next, DataSegment.init_get]
          · rw [sb.recycle_buffer_of_ne key hj']
            rw [SegBuf.recycle_curBuffer, SegBuf.next, age_add_one _ _ hj', age_add_one _ _ hne] at hj
            exact hyounger j (by omega)
      rw [hquery']

/-- The first buffer of the queue is flushed. -/
theorem flush {i : PoolIndex} {stored' : ℕ → Option D} (h : PoolOk sb (i :: wq) stored)
    (hstored : ∀ a, stored' a = ((sb.buffer i).get a).or (stored a)) : PoolOk sb wq stored' := by
  have hwaiting := h.waiting
  have hfew := h.few
  rw [List.length_cons] at hfew
  have hlt : wq.length < 3 := Nat.lt_of_succ_lt_succ hfew
  rw [List.length_cons, behind] at hwaiting
  obtain ⟨hhead, htail⟩ := List.cons.inj hwaiting
  have hage : age sb.curBuffer i = wq.length + 1 := by
    rw [hhead]
    exact age_head _ _ hlt
  refine ⟨htail, Nat.lt_of_succ_lt hfew, h.size, h.keys, fun j hj a x hx => ?_⟩
  rw [hstored]
  by_cases hji : j = i
  · rw [← hji, hx]
    exact Or.inr rfl
  · have hne : age sb.curBuffer j ≠ age sb.curBuffer i := fun heq => hji (age_inj _ _ _ heq)
    rcases h.settled j (by rw [List.length_cons]; omega) a x hx with hyoung | hold
    · exact Or.inl hyoung
    · cases hget : (sb.buffer i).get a with
      | some y => exact Or.inl ⟨i, by omega, by rw [hget]; rfl⟩
      | none => exact Or.inr hold

theorem content_flush {i : PoolIndex} {stored' : ℕ → Option D}
    (hstored : ∀ a, stored' a = ((sb.buffer i).get a).or (stored a)) (a : ℕ) :
    sb.content a stored' = sb.content a stored := by
  rw [SegBuf.content, SegBuf.content, hstored]
  cases hquery : sb.queryBlock a with
  | some x => rfl
  | none => rw [(sb.queryBlock_eq_none a).mp hquery i, Option.none_or]

/-- All buffers are flushed, whatever is queued. -/
theorem commit {stored' : ℕ → Option D} (h : PoolOk sb wq stored)
    (hstored : ∀ a, stored' a = (sb.queryBlock a).or (stored a)) : PoolOk sb wq stored' := by
  refine ⟨h.waiting, h.few, h.size, h.keys, fun i _ a x hx => ?_⟩
  rw [hstored]
  cases hquery : sb.queryBlock a with
  | none =>
    rw [(sb.queryBlock_eq_none a).mp hquery i] at hx
    cases hx
  | some y =>
    obtain ⟨j, hj, hyounger⟩ := (sb.queryBlock_eq_some a).mp hquery
    rcases Nat.lt_trichotomy (age sb.curBuffer j) (age sb.curBuffer i) with hlt | heq | hgt
    · exact Or.inl ⟨j, hlt, by rw [hj]; rfl⟩
    · rw [age_inj _ _ _ heq, hx] at hj
      exact Or.inr hj.symm
    · rw [hyounger i hgt] at hx
      cases hx

theorem content_commit {stored' : ℕ → Option D}
    (hstored : ∀ a, stored' a = (sb.queryBlock a).or (stored a)) (a : ℕ) :
    sb.content a stored' = sb.content a stored := by
  rw [SegBuf.content, SegBuf.content, hstored]
  cases sb.queryBlock a <;> rfl

/-- Nothing is stored for the lba any more. -/
theorem delete (h : PoolOk sb wq stored) (hheld : Held sb wq lba) :
    PoolOk sb wq (Function.update stored lba none) := by
  refine ⟨h.waiting, h.few, h.size, h.keys, fun i hi a x hx => ?_⟩
  by_cases ha : a = lba
  · subst ha
    obtain ⟨j, hj, hsome⟩ := hheld i (by rw [hx]; rfl)
    exact Or.inl ⟨j, hj.trans_lt hi, hsome⟩
  · rw [Function.update_of_ne ha]
    exact h.settled i hi a x hx

/-! ### Pushes -/

/-- **A push.** -/
theorem push (h : PoolOk sb wq stored) (hroom : sb.cur.size < blocksPerSegment)
    (hlba : lba ≠ infAddr) (hnext : (sb.write lba data).full = true → sb.next ∉ wq) (key : κ) :
    PoolOk (sb.pushBlock lba data true key).1 (wq ++ (sb.pushBlock lba data true key).2.toList) stored ∧
      (sb.pushBlock lba data true key).1.cur.size < blocksPerSegment ∧
      ∀ a, (sb.pushBlock lba data true key).1.content a stored =
        if a = lba then some data else sb.content a stored := by
  have hwrite : PoolOk (sb.write lba data) wq stored := h.write hroom hlba
  rcases sb.pushBlock_cases lba data true key with ⟨hflag, -⟩ | ⟨hfull, heq⟩ | ⟨hfull, heq⟩
  · cases hflag
  · rw [heq]
    refine ⟨?_, ?_, content_write⟩
    · rw [Option.toList_none, List.append_nil]
      exact hwrite
    · simpa [SegBuf.full] using hfull
  · rw [heq]
    refine ⟨hwrite.recycle (hnext hfull) key, ?_, fun a => ?_⟩
    · rw [SegBuf.cur, SegBuf.recycle_curBuffer, SegBuf.recycle_buffer_next, DataSegment.init_size]
      exact blocksPerSegment_pos
    · rw [hwrite.content_recycle (hnext hfull) key a, content_write]

/-- A push leaves what is pending pending. -/
theorem held_push (h : PoolOk sb wq stored)
    (hnext : (sb.write lba data).full = true → sb.next ∉ wq) (key : κ) {a : ℕ} (hheld : Held sb wq a) :
    Held (sb.pushBlock lba data true key).1 (wq ++ (sb.pushBlock lba data true key).2.toList) a := by
  have hwrite : Held (sb.write lba data) wq a := by
    intro i hi
    by_cases hcur : i = sb.curBuffer
    · refine ⟨i, ?_, hi⟩
      rw [hcur, SegBuf.write_curBuffer, age_self]
      exact Nat.zero_le _
    · rw [sb.write_buffer_of_ne lba data hcur] at hi
      obtain ⟨j, hj, hsome⟩ := hheld i hi
      exact ⟨j, hj, SegBuf.isSome_write hsome⟩
  rcases sb.pushBlock_cases lba data true key with ⟨hflag, -⟩ | ⟨-, heq⟩ | ⟨hfull, heq⟩
  · cases hflag
  · rw [heq, Option.toList_none, List.append_nil]
    exact hwrite
  · rw [heq]
    have hlt := h.length_lt (hnext hfull)
    intro i hi
    have hne : i ≠ sb.next := by
      rintro rfl
      rw [show ((sb.write lba data).recycle key).buffer sb.next = .init key from
        (sb.write lba data).recycle_buffer_next key, DataSegment.init_get] at hi
      cases hi
    rw [(sb.write lba data).recycle_buffer_of_ne key hne] at hi
    obtain ⟨j, hj, hsome⟩ := hwrite i hi
    rw [SegBuf.write_curBuffer] at hj
    have hj' : j ≠ sb.curBuffer + 1 := by
      rintro rfl
      rw [age_next] at hj
      omega
    refine ⟨j, ?_, ?_⟩
    · rw [SegBuf.recycle_curBuffer, SegBuf.write_next, SegBuf.next, age_add_one _ _ hj']
      simp only [Option.toList_some, List.length_append, List.length_singleton]
      omega
    · rwa [(sb.write lba data).recycle_buffer_of_ne key hj']

/-- A stored block is moved to the pool, unless the pool has the lba. -/
theorem move {n : ℕ} (h : PoolOk sb wq stored) (hroom : sb.cur.size < blocksPerSegment)
    (hlba : lba ≠ infAddr) (hheld : Held sb wq lba) (hfits : Fits sb wq (n + 1))
    (hstored : stored lba = some data) (key : κ) {res : SegBuf κ D × Option PoolIndex}
    (hres : sb.pushBlock lba data false key = res) :
    PoolOk res.1 (wq ++ res.2.toList) (Function.update stored lba none) ∧
      res.1.cur.size < blocksPerSegment ∧
      (∀ a, res.1.content a (Function.update stored lba none) = sb.content a stored) ∧
      (∀ a, Held sb wq a → Held res.1 (wq ++ res.2.toList) a) ∧ Fits res.1 (wq ++ res.2.toList) n := by
  have hdelete := h.delete hheld
  cases hquery : sb.queryBlock lba with
  | some x =>
    have heq : sb.pushBlock lba data false key = (sb, none) := by
      rw [SegBuf.pushBlock, if_pos ⟨rfl, by rw [hquery]; rfl⟩]
    obtain rfl := heq.symm.trans hres
    rw [Option.toList_none, List.append_nil]
    refine ⟨hdelete, hroom, fun a => ?_, fun _ => id, hfits.mono⟩
    rw [SegBuf.content, SegBuf.content, Function.update_apply]
    split
    · rename_i ha
      rw [ha, hquery]
      rfl
    · rfl
  | none =>
    have heq : sb.pushBlock lba data false key = sb.pushBlock lba data true key := by
      simp [SegBuf.pushBlock, hquery]
    obtain rfl := heq.symm.trans hres
    obtain ⟨hpool, hsize, hcontent⟩ := hdelete.push hroom hlba hfits.next key
    refine ⟨hpool, hsize, fun a => ?_, fun a ha => h.held_push hfits.next key ha, hfits.push key⟩
    rw [hcontent, SegBuf.content, SegBuf.content, Function.update_apply]
    split
    · rename_i ha
      rw [ha, hquery, hstored]
      rfl
    · rfl

end PoolOk

end JinDisk
