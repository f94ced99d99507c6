import JinDisk.DiskStructs

/-!
# Disk arrays against their plaintext

The abstract meaning of a disk array is the plaintext of each of its blocks:
`plainStep` says what `format` and `set` do to it, and nothing else changes it.
`Holds s P` ties a cache state to such a plaintext: a buffer that has not been
written back, or that is dirty, holds the plaintext, a clean buffer that has been
written back holds the ciphertext that `meta_write_cb` left in it, and a block
without a dirty buffer is on the device in its encrypted form.

`get` and `set` decrypt only on a cache miss, so they read ciphertext as if it
were plaintext when they hit a buffer that was written back and not evicted
since. `FreshAccess` is the condition that this does not happen; under it the
refinement is preserved (`Holds.step`) and reads are coherent.
-/

namespace JinDisk

open Machine

variable {A : DiskArray} {sc : Skcipher}

/-- The plaintext of every block. -/
abbrev Plain : Type := ℕ → MetaBlock

variable (A) in
/-- The blocks of the array after an action. -/
def plainStep (P : Plain) : ArrayOp A → Plain
  | .format value => fun b =>
    if A.start ≤ b ∧ b < A.start + A.blocks then memsetBytes value metadataBlockSize else P b
  | .set index entry =>
    if index < A.nrEntry then
      Function.update P (A.entryBlock index)
        (memcpyIn (P (A.entryBlock index)) (A.entryOffset index) entry)
    else P
  | .get _ => P
  | .writeBack _ => P
  | .evict _ => P

variable (A) in
/-- The blocks of the array after a run. -/
def plainRun (P : Plain) (ops : List (ArrayOp A)) : Plain := ops.foldl (plainStep A) P

variable (A) in
/-- The entry an action leaves at each index, as far as the run determines it. -/
def storedStep (m : ℕ → Option A.Entry) : ArrayOp A → ℕ → Option A.Entry
  | .format value => fun _ => some (memsetBytes value A.entrySize)
  | .set index entry =>
    if index < A.nrEntry then Function.update m index (some entry) else m
  | .get _ => m
  | .writeBack _ => m
  | .evict _ => m

variable (A) in
/-- The entry last stored at each index: the last `set`, or the format value. -/
def stored (ops : List (ArrayOp A)) : ℕ → Option A.Entry :=
  ops.foldl (storedStep A) fun _ => none

/-! ## The plaintext blocks hold the stored entries -/

/-- The entries `m` are what the blocks `P` contain. -/
def Contains (A : DiskArray) (P : Plain) (m : ℕ → Option A.Entry) : Prop :=
  ∀ i e, i < A.nrEntry → m i = some e →
    memcpyOut (P (A.entryBlock i)) (A.entryOffset i) A.entrySize = e

theorem Contains.step {P : Plain} {m : ℕ → Option A.Entry} (h : Contains A P m)
    (op : ArrayOp A) : Contains A (plainStep A P op) (storedStep A m op) := by
  intro i e hi hm
  cases op with
  | format value =>
    have hin : A.start ≤ A.entryBlock i ∧ A.entryBlock i < A.start + A.blocks :=
      ⟨Nat.le_add_right _ _, A.entryBlock_lt hi⟩
    obtain rfl := Option.some.inj hm
    simp only [plainStep, if_pos hin]
    exact memcpyOut_memsetBytes value (A.entryOffset_add_le i)
  | set index entry =>
    by_cases hx : index < A.nrEntry
    · simp only [storedStep, if_pos hx] at hm
      simp only [plainStep, if_pos hx]
      by_cases hij : i = index
      · subst hij
        rw [Function.update_self] at hm ⊢
        obtain rfl := Option.some.inj hm
        exact memcpyOut_memcpyIn_self _ _ (A.entryOffset_add_le i)
      · rw [Function.update_of_ne hij] at hm
        by_cases hb : A.entryBlock i = A.entryBlock index
        · -- the same block, but not the same bytes of it
          rw [hb, Function.update_self,
            memcpyOut_memcpyIn_of_disjoint _ _ (A.entryOffset_disjoint (Ne.symm hij) hb.symm),
            ← hb]
          exact h i e hi hm
        · rw [Function.update_of_ne hb]
          exact h i e hi hm
    · simp only [storedStep, if_neg hx] at hm
      simp only [plainStep, if_neg hx]
      exact h i e hi hm
  | get index => exact h i e hi hm
  | writeBack b => exact h i e hi hm
  | evict b => exact h i e hi hm

theorem Contains.run {P : Plain} {m : ℕ → Option A.Entry} (h : Contains A P m)
    (ops : List (ArrayOp A)) : Contains A (plainRun A P ops) (ops.foldl (storedStep A) m) := by
  induction ops generalizing P m with
  | nil => exact h
  | cons op ops ih => exact ih (h.step op)

/-- Whatever the blocks were at first, after a run they contain the entries the run
stored. -/
theorem contains_stored (P : Plain) (ops : List (ArrayOp A)) :
    Contains A (plainRun A P ops) (stored A ops) := by
  refine Contains.run ?_ ops
  intro i e _ hm
  cases hm

/-! ## The refinement -/

/-- The cache state `s` represents the plaintext blocks `P`. -/
structure Holds (A : DiskArray) (sc : Skcipher) (s : Bufio) (P : Plain) : Prop where
  plain : ∀ b buf, s.cache b = some buf → buf.writtenBack = false ∨ buf.dirty = true →
    buf.data = P b
  cipher : ∀ b buf, s.cache b = some buf → buf.writtenBack = true → buf.dirty = false →
    buf.data = metaWriteCb A sc b (P b)
  disk : ∀ b, (∀ buf, s.cache b = some buf → buf.dirty = false) →
    s.disk b = metaWriteCb A sc b (P b)

/-- The buffer an operation on block `b` works on holds the block's plaintext. -/
def Readable (A : DiskArray) (sc : Skcipher) (s : Bufio) (P : Plain) (b : ℕ) : Prop :=
  (acquire A sc s b).data = P b

/-- Putting a buffer with the right plaintext into the cache. -/
theorem Holds.hold {s : Bufio} {P P' : Plain} {b : ℕ} {buf : DmBuffer}
    (h : Holds A sc s P) (hP : ∀ b', b' ≠ b → P' b' = P b')
    (hdata : buf.writtenBack = false ∨ buf.dirty = true → buf.data = P' b)
    (hcipher : buf.writtenBack = true → buf.dirty = false →
      buf.data = metaWriteCb A sc b (P' b))
    (hdisk : buf.dirty = false → s.disk b = metaWriteCb A sc b (P' b)) :
    Holds A sc (s.hold b buf) P' := by
  refine ⟨?_, ?_, ?_⟩
  · intro b' buf' hc hor
    by_cases hb : b' = b
    · subst hb
      rw [Bufio.hold_cache_self] at hc
      obtain rfl := Option.some.inj hc
      exact hdata hor
    · rw [Bufio.hold_cache_of_ne s hb] at hc
      rw [hP b' hb]
      exact h.plain b' buf' hc hor
  · intro b' buf' hc hw hd
    by_cases hb : b' = b
    · subst hb
      rw [Bufio.hold_cache_self] at hc
      obtain rfl := Option.some.inj hc
      exact hcipher hw hd
    · rw [Bufio.hold_cache_of_ne s hb] at hc
      rw [hP b' hb]
      exact h.cipher b' buf' hc hw hd
  · intro b' hclean
    by_cases hb : b' = b
    · subst hb
      exact hdisk (hclean buf (Bufio.hold_cache_self ..))
    · rw [hP b' hb]
      refine h.disk b' fun buf' hc => hclean buf' ?_
      rw [Bufio.hold_cache_of_ne s hb]
      exact hc

/-- The buffer `acquire` returns, kept in the cache, changes nothing. -/
theorem Holds.acquire {s : Bufio} {P : Plain} {b : ℕ} (h : Holds A sc s P)
    (hread : Readable A sc s P b) : Holds A sc (s.hold b (acquire A sc s b)) P := by
  rcases hc : s.cache b with _ | buf
  · have hacq : JinDisk.acquire A sc s b = ⟨(sc.decrypt A.key b (s.disk b)).2, false, false⟩ := by
      simp [JinDisk.acquire, hc]
    refine h.hold (fun _ _ => rfl) (fun _ => hread) ?_ ?_
    · intro hw
      rw [hacq] at hw
      cases hw
    · intro _
      exact h.disk b fun buf hbuf => by rw [hc] at hbuf; cases hbuf
  · have hacq : JinDisk.acquire A sc s b = buf := by simp [JinDisk.acquire, hc]
    rw [hacq]
    refine h.hold (fun _ _ => rfl) (h.plain b buf hc) (h.cipher b buf hc) ?_
    intro hd
    refine h.disk b fun buf' hbuf' => ?_
    obtain rfl := Option.some.inj (hc.symm.trans hbuf')
    exact hd

/-- `disk_array_format` sets every block of the array, whatever was cached. -/
theorem Holds.format {s : Bufio} {P : Plain} (h : Holds A sc s P) (value : Bool) :
    Holds A sc (diskArrayFormat A s value) (plainStep A P (.format value)) := by
  -- the induction is on the number of blocks formatted so far
  have hgen : ∀ n, Holds A sc
      ((List.range n).foldl (fun s shift => s.hold (A.start + shift)
        ⟨memsetBytes value metadataBlockSize, true, false⟩) s)
      (fun b => if A.start ≤ b ∧ b < A.start + n then memsetBytes value metadataBlockSize
        else P b) := by
    intro n
    induction n with
    | zero =>
      have hP : (fun b => if A.start ≤ b ∧ b < A.start + 0 then
          memsetBytes value metadataBlockSize else P b) = P := by
        funext b
        exact if_neg (by omega)
      rw [hP]
      exact h
    | succ n ih =>
      rw [List.range_succ, List.foldl_append]
      refine ih.hold ?_ ?_ ?_ ?_
      · intro b hb
        by_cases hlt : A.start ≤ b ∧ b < A.start + n
        · rw [if_pos hlt, if_pos (by omega)]
        · rw [if_neg hlt, if_neg (by omega)]
      · intro _
        rw [if_pos (by omega)]
      · intro hw
        cases hw
      · intro hd
        cases hd
  exact hgen A.blocks

theorem Holds.writeBack {s s' : Bufio} {P : Plain} {b : ℕ} (h : Holds A sc s P)
    (hs : arrayStep A sc s (.writeBack b) = some s') : Holds A sc s' P := by
  rcases hc : s.cache b with _ | buf
  · simp [arrayStep, hc] at hs
  rcases hd : buf.dirty with _ | _
  · simp [arrayStep, hc, hd] at hs
  have hdata : buf.data = P b := h.plain b buf hc (Or.inr hd)
  simp only [arrayStep, hc, hd, if_true, Option.some.injEq, hdata] at hs
  subst hs
  -- the block on the device is only looked at once its buffer is clean
  have hwrite : Holds A sc (s.write b (metaWriteCb A sc b (P b))) P := by
    refine ⟨h.plain, h.cipher, fun b' hclean => ?_⟩
    by_cases hb : b' = b
    · subst hb
      exact s.write_disk_self b' _
    · rw [s.write_disk_of_ne hb]
      exact h.disk b' hclean
  refine hwrite.hold (fun _ _ => rfl) ?_ (fun _ _ => rfl) (fun _ => s.write_disk_self b _)
  intro hor
  rcases hor with hw | hw <;> cases hw

theorem Holds.evict {s s' : Bufio} {P : Plain} {b : ℕ} (h : Holds A sc s P)
    (hs : arrayStep A sc s (.evict b) = some s') : Holds A sc s' P := by
  rcases hc : s.cache b with _ | buf
  · simp [arrayStep, hc] at hs
  rcases hd : buf.dirty with _ | _
  · simp only [arrayStep, hc, hd, Bool.false_eq_true, if_false, Option.some.injEq] at hs
    subst hs
    refine ⟨fun b' buf' hc' => h.plain b' buf' (Bufio.drop_cache_eq_some hc').2,
      fun b' buf' hc' => h.cipher b' buf' (Bufio.drop_cache_eq_some hc').2, ?_⟩
    intro b' hclean
    refine h.disk b' fun buf' hc' => ?_
    by_cases hb : b' = b
    · subst hb
      obtain rfl := Option.some.inj (hc.symm.trans hc')
      exact hd
    · exact hclean buf' ((s.drop_cache_of_ne hb).trans hc')
  · simp [arrayStep, hc, hd] at hs

/-- The blocks an action reads through the cache are readable. -/
def Accesses (A : DiskArray) (sc : Skcipher) (s : Bufio) (P : Plain) : ArrayOp A → Prop
  | .set index _ => index < A.nrEntry → Readable A sc s P (A.entryBlock index)
  | .get index => index < A.nrEntry → Readable A sc s P (A.entryBlock index)
  | .format _ => True
  | .writeBack _ => True
  | .evict _ => True

/-- **One action preserves the refinement**, as long as it does not read ciphertext
for plaintext. -/
theorem Holds.step {s s' : Bufio} {P : Plain} {op : ArrayOp A} (h : Holds A sc s P)
    (hacc : Accesses A sc s P op) (hs : arrayStep A sc s op = some s') :
    Holds A sc s' (plainStep A P op) := by
  cases op with
  | format value =>
    obtain rfl := Option.some.inj hs
    exact h.format value
  | set index entry =>
    obtain rfl := Option.some.inj hs
    by_cases hx : index < A.nrEntry
    · have hread := hacc hx
      simp only [diskArraySet, if_neg (Nat.not_le.mpr hx), Option.getD_some, plainStep,
        if_pos hx]
      refine h.hold (fun b' hb => Function.update_of_ne hb _ _) ?_ ?_ ?_
      · intro _
        rw [Function.update_self, hread]
      · intro _ hd
        cases hd
      · intro hd
        cases hd
    · simp only [diskArraySet, if_pos (Nat.not_lt.mp hx), Option.getD_none, plainStep,
        if_neg hx]
      exact h
  | get index =>
    obtain rfl := Option.some.inj hs
    by_cases hx : index < A.nrEntry
    · simp only [diskArrayGet, if_neg (Nat.not_le.mpr hx), Option.map_some, Option.getD_some]
      exact h.acquire (hacc hx)
    · simp only [diskArrayGet, if_pos (Nat.not_lt.mp hx), Option.map_none, Option.getD_none]
      exact h
  | writeBack b => exact h.writeBack hs
  | evict b => exact h.evict hs

/-! ## Coherence -/

/-- What the condition of coherence says about one action: a `get` or `set` does not
hit a buffer that has been written back since it was read or created. -/
def FreshAccess (A : DiskArray) (s : Bufio) : ArrayOp A → Prop
  | .set index _ => index < A.nrEntry →
    ∀ buf, s.cache (A.entryBlock index) = some buf → buf.writtenBack = false
  | .get index => index < A.nrEntry →
    ∀ buf, s.cache (A.entryBlock index) = some buf → buf.writtenBack = false
  | .format _ => True
  | .writeBack _ => True
  | .evict _ => True

/-- With a cipher that inverts itself, a buffer that has not been written back is
readable, and so is a block that has to be read in. -/
theorem Holds.readable {s : Bufio} {P : Plain} {b : ℕ} (hsc : sc.Lawful)
    (h : Holds A sc s P) (hfresh : ∀ buf, s.cache b = some buf → buf.writtenBack = false) :
    Readable A sc s P b := by
  rcases hc : s.cache b with _ | buf
  · have hdisk : s.disk b = metaWriteCb A sc b (P b) :=
      h.disk b fun buf hbuf => by rw [hc] at hbuf; cases hbuf
    rw [Readable, JinDisk.acquire, hc, hdisk]
    exact hsc.decrypt_encrypt A.key b (P b)
  · rw [Readable, JinDisk.acquire, hc]
    exact h.plain b buf hc (Or.inl (hfresh buf hc))

theorem Holds.accesses {s : Bufio} {P : Plain} {op : ArrayOp A} (hsc : sc.Lawful)
    (h : Holds A sc s P) (hfresh : FreshAccess A s op) : Accesses A sc s P op := by
  cases op with
  | set index entry => exact fun hx => h.readable hsc (hfresh hx)
  | get index => exact fun hx => h.readable hsc (hfresh hx)
  | format value => trivial
  | writeBack b => trivial
  | evict b => trivial

/-- The plaintext an untouched device stands for. -/
def plainOf (A : DiskArray) (sc : Skcipher) (disk : ℕ → MetaBlock) : Plain :=
  fun b => (sc.decrypt A.key b (disk b)).2

theorem holds_init (hsc : sc.Lawful) (disk : ℕ → MetaBlock) :
    Holds A sc (Bufio.init disk) (plainOf A sc disk) := by
  refine ⟨?_, ?_, fun b _ => (hsc.encrypt_decrypt A.key b (disk b)).symm⟩
  · intro b buf hc
    cases hc
  · intro b buf hc
    cases hc

/-- The refinement along a run. -/
theorem Holds.run {s s' : Bufio} {P : Plain} {ops : List (ArrayOp A)} (hsc : sc.Lawful)
    (h : Holds A sc s P) (hok : Along (arrayStep A sc) (FreshAccess A) s ops)
    (hrun : exec (arrayStep A sc) s ops = some s') : Holds A sc s' (plainRun A P ops) := by
  induction ops generalizing s P with
  | nil =>
    obtain rfl := Option.some.inj hrun
    exact h
  | cons op ops ih =>
    obtain ⟨t, ht, hrest⟩ := exec_cons_eq_some hrun
    obtain ⟨hfresh, hok'⟩ := hok
    exact ih (h.step (h.accesses hsc hfresh) ht) (hok' t ht) hrest

/-- **Coherence over write-back.** In a run from an empty cache in which no `get` or
`set` hits a buffer that was written back and not evicted since, `disk_array_get`
returns the entry last stored at the index: by the last `set` of that very index, or
by the last `format`. -/
theorem diskArrayGet_coherent (A : DiskArray) (sc : Skcipher) (hsc : sc.Lawful)
    (disk : ℕ → MetaBlock) (ops : List (ArrayOp A)) (s : Bufio) (i : ℕ) (e : A.Entry)
    (hrun : exec (arrayStep A sc) (Bufio.init disk) ops = some s)
    (hok : Along (arrayStep A sc) (FreshAccess A) (Bufio.init disk) (ops ++ [.get i]))
    (hi : i < A.nrEntry) (he : stored A ops i = some e) :
    (diskArrayGet A sc s i).map Prod.fst = some e := by
  obtain ⟨hops, hlast⟩ := along_append hok
  have h : Holds A sc s (plainRun A (plainOf A sc disk) ops) :=
    (holds_init hsc disk).run hsc hops hrun
  have hread : Readable A sc s _ (A.entryBlock i) := h.readable hsc ((hlast s hrun).1 hi)
  have hcontains := contains_stored (plainOf A sc disk) ops i e hi he
  simp only [diskArrayGet, if_neg (Nat.not_le.mpr hi), Option.map_some, Option.some.injEq]
  rw [hread]
  exact hcontains

/-! ### A run that reads ciphertext

The toy cipher complements every byte; the array is a small reverse index table. -/

/-- A reverse index table of 512 entries at block 0. -/
def sampleRit : DiskArray := ⟨0, 512, 8, [], by decide, by decide⟩

/-- The entry for logical block 5. -/
def sampleEntry : sampleRit.Entry := #v[5, 0, 0, 0, 0, 0, 0, 0]

/-- A toy cipher: complement every byte. -/
def complementCipher : Skcipher where
  encrypt _ _ b := (0, b.map (· ^^^ 0xff))
  decrypt _ _ b := (0, b.map (· ^^^ 0xff))

theorem map_complement_complement (b : MetaBlock) :
    (b.map (· ^^^ 0xff)).map (· ^^^ 0xff) = b := by
  apply Vector.ext
  intro i hi
  rw [Vector.getElem_map, Vector.getElem_map, UInt8.xor_assoc, UInt8.xor_self, UInt8.xor_zero]

theorem complementCipher_lawful : complementCipher.Lawful where
  encrypt_ok _ _ _ := rfl
  decrypt_ok _ _ _ := rfl
  decrypt_encrypt _ _ b := map_complement_complement b
  encrypt_decrypt _ _ b := map_complement_complement b

/-- A device of zeroes. -/
def sampleDisk : ℕ → MetaBlock := fun _ => memsetBytes false metadataBlockSize

/-- `format`, then `set(0, 5)`. -/
def sampleOps : List (ArrayOp sampleRit) := [.format false, .set 0 sampleEntry]

/-- The block that run leaves in the cache. -/
def sampleBlock : MetaBlock := memcpyIn (memsetBytes false metadataBlockSize) 0 sampleEntry

/-- The cache after that run. -/
def sampleCached : Bufio :=
  (diskArrayFormat sampleRit (Bufio.init sampleDisk) false).hold 0 ⟨sampleBlock, true, false⟩

/-- The cache after writing block 0 back. -/
def sampleWritten : Bufio :=
  let data := sampleBlock.map (· ^^^ 0xff)
  (sampleCached.write 0 data).hold 0 ⟨data, false, true⟩

theorem sampleFormatted_cache :
    (diskArrayFormat sampleRit (Bufio.init sampleDisk) false).cache 0 =
      some ⟨memsetBytes false metadataBlockSize, true, false⟩ := by
  rfl

theorem sampleSet_step :
    arrayStep sampleRit complementCipher
      (diskArrayFormat sampleRit (Bufio.init sampleDisk) false) (.set 0 sampleEntry) =
        some sampleCached := by
  rfl

theorem sampleWriteBack_step :
    arrayStep sampleRit complementCipher sampleCached (.writeBack 0) = some sampleWritten := by
  rfl

theorem memcpyOut_map {N n off : ℕ} (f : UInt8 → UInt8) (b : Vector UInt8 N)
    (hfit : off + n ≤ N) : memcpyOut (b.map f) off n = (memcpyOut b off n).map f := by
  apply Vector.ext
  intro j hj
  have hlt : off + j < N := by omega
  simp [memcpyOut, hlt]

/-- After the write-back the cached block is ciphertext, and `disk_array_get` returns
its bytes as the entry. -/
theorem diskArrayGet_reads_ciphertext :
    ¬∀ (A : DiskArray) (sc : Skcipher), sc.Lawful → ∀ (disk : ℕ → MetaBlock)
      (ops : List (ArrayOp A)) (s : Bufio) (i : ℕ) (e : A.Entry),
      exec (arrayStep A sc) (Bufio.init disk) ops = some s → i < A.nrEntry →
      stored A ops i = some e → (diskArrayGet A sc s i).map Prod.fst = some e := by
  intro h
  have hrun : exec (arrayStep sampleRit complementCipher) (Bufio.init sampleDisk)
      (sampleOps ++ [.writeBack 0]) = some sampleWritten :=
    exec_cons_of rfl (exec_cons_of sampleSet_step (exec_cons_of sampleWriteBack_step rfl))
  have hget := h sampleRit complementCipher complementCipher_lawful sampleDisk
    (sampleOps ++ [.writeBack 0]) sampleWritten 0 sampleEntry hrun (by decide) rfl
  have hread : (diskArrayGet sampleRit complementCipher sampleWritten 0).map Prod.fst =
      some (memcpyOut (sampleBlock.map (· ^^^ 0xff)) 0 8) := rfl
  rw [hread, memcpyOut_map _ _ (by decide)] at hget
  have hblock : memcpyOut sampleBlock 0 8 = sampleEntry :=
    memcpyOut_memcpyIn_self _ _ (by decide)
  rw [hblock] at hget
  have hbyte : (5 : UInt8) ^^^ 0xff = 5 := by
    simpa [sampleEntry] using congrArg (fun e : Vector UInt8 8 => e[0]) (Option.some.inj hget)
  exact absurd hbyte (by decide)

/-- With the buffer evicted after the write-back, the same `get` is coherent. -/
theorem diskArrayGet_coherent_sample :
    (diskArrayGet sampleRit complementCipher (sampleWritten.drop 0) 0).map Prod.fst =
      some sampleEntry := by
  refine diskArrayGet_coherent sampleRit complementCipher complementCipher_lawful sampleDisk
    (sampleOps ++ [.writeBack 0, .evict 0]) (sampleWritten.drop 0) 0 sampleEntry
    (exec_cons_of rfl (exec_cons_of sampleSet_step
      (exec_cons_of sampleWriteBack_step (exec_cons_of rfl rfl)))) ?_ (by decide) rfl
  refine along_cons_of trivial rfl (along_cons_of ?_ sampleSet_step (along_cons_of trivial
    sampleWriteBack_step (along_cons_of trivial rfl (along_cons_of ?_ rfl trivial))))
  · intro _ buf hbuf
    obtain rfl := Option.some.inj (sampleFormatted_cache.symm.trans hbuf)
    rfl
  · intro _ buf hbuf
    exact absurd rfl (Bufio.drop_cache_eq_some hbuf).1

end JinDisk
