import JinDisk.AtRest
import JinDisk.TableBlocks

/-!
# The tables over one cache

`metadata_init` opens the five tables over one `dm_bufio` client, each on the pack that its bit of
`valid_fields` names. The blocks of all of them are cached, written back and dropped as the client
likes.

If no table reaches into the pack of another one (`SeparateTables`), each of them is an array by itself:
what is read from it is what was stored in it last, whatever was done to the others and whenever
blocks were written back (`tables_coherent`). The packs that are not in use are left alone
(`Confined`).
-/

namespace JinDisk

open Machine

/-- `valid_fields` of the journal region: a bit for each table. -/
abbrev ValidFields : Type := MetaTable → Bool

/-- A table as `metadata_init` opens it. -/
abbrev MetaTable.opened (n : ℕ) (key : Bytes) (fields : ValidFields) (t : MetaTable) : DiskArray :=
  t.array n key (fields t).toNat

/-- An operation of a table, or what the client does with one of its blocks. -/
structure TableOp (n : ℕ) (key : Bytes) (fields : ValidFields) where
  /-- the table -/
  table : MetaTable
  /-- the operation -/
  op : ArrayOp (table.opened n key fields)

/-- No bitset fills its last block. -/
structure SeparateTables (n : ℕ) : Prop where
  /-- of the segments -/
  svt : ¬512 ∣ diskBitsetNrGroup n
  /-- of the index files -/
  indexSvt : ¬512 ∣ diskBitsetNrGroup (nrBits n)

section

variable {n : ℕ} {key : Bytes} {fields : ValidFields} (tfm : CbcAes)

/-- One operation. The tables have the same key, so it makes no difference whose callback is called
when a block is written back. -/
def tableStep (s : Bufio) (o : TableOp n key fields) : Option Bufio :=
  arrayStep (o.table.opened n key fields) (aesCbcCipher tfm) s o.op

/-- What it does to the plaintext of the blocks. -/
def tablePlain (P : Plain) (o : TableOp n key fields) : Plain :=
  plainStep (o.table.opened n key fields) P o.op

/-- The operations of one table. -/
def opsOf (t : MetaTable) (ops : List (TableOp n key fields)) :
    List (ArrayOp (t.opened n key fields)) :=
  ops.filterMap fun o => if h : o.table = t then some (h ▸ o.op) else none

/-- The entries of a table, as far as the operations say. -/
def storedIn (t : MetaTable) (ops : List (TableOp n key fields)) :
    ℕ → Option (t.opened n key fields).Entry :=
  stored (t.opened n key fields) (opsOf t ops)

end

/-! ## Blocks of other tables -/

variable {n v : ℕ} {key : Bytes} {fields : ValidFields} {t : MetaTable} {b : ℕ}

/-- A table stays in its pack. -/
theorem SeparateTables.inPack (h : SeparateTables n) (hb : (t.array n key v).Touches b) :
    t.InPack n v b := by
  refine (MetaTable.inPack_iff n key t v).mpr ?_ b hb
  cases t with
  | svt => exact (MetaTable.bitset_blocks_le _).mpr h.svt
  | indexSvt => exact (MetaTable.bitset_blocks_le _).mpr h.indexSvt
  | dst => exact le_rfl
  | rit => exact le_rfl
  | bitc => exact le_rfl

theorem toNat_lt_two (x : Bool) : x.toNat < 2 := Nat.lt_succ_of_le x.toNat_le

/-- Two tables have no block in common. -/
theorem SeparateTables.not_touches (h : SeparateTables n) {t' : MetaTable} (hne : t ≠ t')
    (hb : (t.opened n key fields).Touches b) : ¬(t'.opened n key fields).Touches b := by
  intro hb'
  have hpair := MetaTable.InPack.unique (toNat_lt_two _) (toNat_lt_two _) (h.inPack hb) (h.inPack hb')
  exact hne (Prod.mk.inj hpair).1

theorem plainStep_of_not_touches {A : DiskArray} (P : Plain) (op : ArrayOp A) (h : ¬A.Touches b) :
    plainStep A P op b = P b := by
  cases op with
  | format value =>
    refine if_neg fun hin => h (Or.inr ⟨b - A.start, by omega, by omega⟩)
  | set index entry =>
    simp only [plainStep]
    split
    · rename_i hlt
      exact Function.update_of_ne (fun heq => h (Or.inl ⟨index, hlt, heq⟩)) ..
    · rfl
  | get index => rfl
  | writeBack b' => rfl
  | evict b' => rfl

/-- A table contains its entries still if its blocks are the same. -/
theorem Contains.congr {A : DiskArray} {P P' : Plain} {m : ℕ → Option A.Entry} (h : Contains A P m)
    (hP : ∀ i < A.nrEntry, P' (A.entryBlock i) = P (A.entryBlock i)) : Contains A P' m := by
  intro i e hi hm
  rw [hP i hi]
  exact h i e hi hm

/-- Each table contains what was stored in it. -/
theorem Contains.tables (h : SeparateTables n) {P : Plain}
    {m : ℕ → Option (t.opened n key fields).Entry} (hP : Contains (t.opened n key fields) P m)
    (ops : List (TableOp n key fields)) :
    Contains (t.opened n key fields) (ops.foldl tablePlain P)
      ((opsOf t ops).foldl (storedStep (t.opened n key fields)) m) := by
  induction ops generalizing P m with
  | nil => exact hP
  | cons o ops ih =>
    rw [List.foldl_cons]
    by_cases ht : o.table = t
    · obtain ⟨t', op⟩ := o
      obtain rfl : t' = t := ht
      rw [opsOf, List.filterMap_cons_some (dif_pos rfl)]
      exact ih (hP.step op)
    · rw [opsOf, List.filterMap_cons_none (dif_neg ht)]
      refine ih (hP.congr fun i hi => plainStep_of_not_touches P o.op ?_)
      exact h.not_touches (Ne.symm ht) (Or.inl ⟨i, hi, rfl⟩)

/-! ## The cache -/

variable {tfm : CbcAes} {s s' : Bufio} {P : Plain} {o : TableOp n key fields}
  {ops : List (TableOp n key fields)}

/-- Which array it is makes no difference to what the cache stands for: the cipher changes nothing. -/
theorem Holds.of_clear {A A' : DiskArray} (h : Holds A (aesCbcCipher tfm) s P) :
    Holds A' (aesCbcCipher tfm) s P := by
  refine ⟨h.plain, fun b buf hc hw hd => ?_, fun b hclean => ?_⟩
  · rw [metaWriteCb_aesCbcCipher, h.cipher b buf hc hw hd, metaWriteCb_aesCbcCipher]
  · rw [metaWriteCb_aesCbcCipher, h.disk b hclean, metaWriteCb_aesCbcCipher]

/-- One operation of a table. -/
theorem Holds.tableStep {A : DiskArray} (h : Holds A (aesCbcCipher tfm) s P)
    (hs : tableStep tfm s o = some s') : Holds A (aesCbcCipher tfm) s' (tablePlain P o) := by
  have hown : Holds (o.table.opened n key fields) (aesCbcCipher tfm) s P := h.of_clear
  exact (hown.step (hown.accesses_clear o.op) hs).of_clear

/-- Any number of them. -/
theorem Holds.tableRun {A : DiskArray} (h : Holds A (aesCbcCipher tfm) s P)
    (hrun : exec (JinDisk.tableStep tfm) s ops = some s') :
    Holds A (aesCbcCipher tfm) s' (ops.foldl tablePlain P) := by
  induction ops generalizing s P with
  | nil =>
    obtain rfl := Option.some.inj hrun
    exact h
  | cons o ops ih =>
    obtain ⟨s₁, hs, hrest⟩ := exec_cons_eq_some hrun
    exact ih (h.tableStep hs) hrest

/-- What is read from a table that the cache stands for. -/
theorem Holds.get {A : DiskArray} {m : ℕ → Option A.Entry} (h : Holds A (aesCbcCipher tfm) s P)
    (hP : Contains A P m) {i : ℕ} {e : A.Entry} (hi : i < A.nrEntry) (he : m i = some e) :
    (diskArrayGet A (aesCbcCipher tfm) s i).map Prod.fst = some e := by
  have hread : Readable A (aesCbcCipher tfm) s P (A.entryBlock i) := h.readable_clear _
  rw [diskArrayGet, if_neg (Nat.not_le.mpr hi), Option.map_some]
  simp only [Option.some.injEq]
  rw [hread]
  exact hP i e hi he

/-- **The tables are coherent.** Whatever is done to the tables, and whenever the client writes blocks
back or drops them, what is read from a table is what was stored in it last. -/
theorem tables_coherent (h : SeparateTables n) (disk : ℕ → MetaBlock)
    (hrun : exec (tableStep tfm) (Bufio.init disk) ops = some s) {i : ℕ}
    {e : (t.opened n key fields).Entry} (hi : i < (t.opened n key fields).nrEntry)
    (he : storedIn t ops i = some e) :
    (diskArrayGet (t.opened n key fields) (aesCbcCipher tfm) s i).map Prod.fst = some e := by
  have hholds : Holds (t.opened n key fields) (aesCbcCipher tfm) s (ops.foldl tablePlain disk) :=
    (holds_init_clear disk).tableRun hrun
  have hnone : Contains (t.opened n key fields) disk fun _ => none := by
    intro i e _ hm
    cases hm
  exact hholds.get (Contains.tables h hnone ops) hi he

theorem separateTables_one : SeparateTables 1 := ⟨by decide, by decide⟩

/-- The first packs are in use. -/
def firstPacks : ValidFields := fun _ => false

/-- The reverse index is formatted and names lba 5 for the first block, and the validity table is
formatted. -/
def formatTables : List (TableOp 1 [] firstPacks) :=
  [⟨.rit, .format true⟩, ⟨.rit, .set 0 sampleEntry⟩, ⟨.svt, .format false⟩]

theorem tables_coherent_sample :
    ∃ s, exec (tableStep complementCbc) (Bufio.init sampleDisk) formatTables = some s ∧
      (diskArrayGet (MetaTable.rit.opened 1 [] firstPacks) (aesCbcCipher complementCbc) s 0).map
        Prod.fst = some sampleEntry :=
  have hrun : ∃ s, exec (tableStep complementCbc) (Bufio.init sampleDisk) formatTables = some s :=
    ⟨_, rfl⟩
  hrun.imp fun _ hs => ⟨hs, tables_coherent separateTables_one sampleDisk hs (by decide) rfl⟩

/-! ## Blocks that are not in use -/

/-- The block is in no pack that is in use. -/
def NotInUse (n : ℕ) (fields : ValidFields) (b : ℕ) : Prop := ∀ t : MetaTable, ¬t.InPack n (fields t).toNat b

/-- Blocks that are not in use are not cached, and they are what they were. -/
def Confined (n : ℕ) (fields : ValidFields) (disk : ℕ → MetaBlock) (s : Bufio) : Prop :=
  ∀ b, NotInUse n fields b → s.cache b = none ∧ s.disk b = disk b

theorem Confined.step (h : SeparateTables n) {disk : ℕ → MetaBlock} (hs : Confined n fields disk s)
    (hstep : tableStep tfm s o = some s') : Confined n fields disk s' := by
  intro b hb
  obtain ⟨hcache, hdisk⟩ := hs b hb
  have hkeeps := DiskArray.keeps_of_not_touches (A := o.table.opened n key fields) fun htouches =>
    hb o.table (h.inPack htouches)
  obtain ⟨t, op⟩ := o
  cases op with
  | format value =>
    obtain rfl := Option.some.inj hstep
    obtain ⟨hcache', hdisk'⟩ := hkeeps.format s value
    exact ⟨hcache'.trans hcache, hdisk'.trans hdisk⟩
  | set index entry =>
    obtain rfl := Option.some.inj hstep
    cases hset : diskArraySet (t.opened n key fields) (aesCbcCipher tfm) s index entry with
    | none => exact ⟨hcache, hdisk⟩
    | some s₁ =>
      obtain ⟨hcache', hdisk'⟩ := hkeeps.set _ s s₁ index entry hset
      exact ⟨hcache'.trans hcache, hdisk'.trans hdisk⟩
  | get index =>
    obtain rfl := Option.some.inj hstep
    cases hget : diskArrayGet (t.opened n key fields) (aesCbcCipher tfm) s index with
    | none => exact ⟨hcache, hdisk⟩
    | some r =>
      obtain ⟨hcache', hdisk'⟩ := hkeeps.get _ s index r hget
      exact ⟨hcache'.trans hcache, hdisk'.trans hdisk⟩
  | writeBack b' =>
    simp only [tableStep, arrayStep] at hstep
    split at hstep
    · rename_i buf hbuf
      split at hstep
      · obtain rfl := Option.some.inj hstep
        -- a block that is written back is cached
        have hne : b ≠ b' := fun heq => by
          rw [heq, hbuf] at hcache
          cases hcache
        rw [Bufio.hold_cache_of_ne _ hne, Bufio.hold_disk, Bufio.write_disk_of_ne _ hne]
        exact ⟨hcache, hdisk⟩
      · cases hstep
    · cases hstep
  | evict b' =>
    simp only [tableStep, arrayStep] at hstep
    split at hstep
    · rename_i buf hbuf
      split at hstep
      · cases hstep
      · obtain rfl := Option.some.inj hstep
        have hne : b ≠ b' := fun heq => by
          rw [heq, hbuf] at hcache
          cases hcache
        exact ⟨(s.drop_cache_of_ne hne).trans hcache, hdisk⟩
    · cases hstep

theorem Confined.run (h : SeparateTables n) {disk : ℕ → MetaBlock} (hs : Confined n fields disk s)
    (hrun : exec (tableStep tfm) s ops = some s') : Confined n fields disk s' :=
  invariant_of_all (fun _ _ _ hs hstep => Confined.step h hs hstep) hs hrun

end JinDisk
