import JinDisk.Layout

/-!
# The blocks of a table

Each table is an array on disk, and so is a bitset: an array of groups of 64 bits. For the blocks
of a validity table, the layout reckons with the bytes of the groups, rounded up; the array
reckons with one block more than there are full ones. The two differ if the last block is full.
Formatting such a table then takes the first block of what lies behind it.
-/

namespace JinDisk

open Arith (const)

/-- `__disk_bitset_nr_group` -/
def diskBitsetNrGroup (nrBit : ℕ) : ℕ := if nrBit = 0 then 0 else (nrBit - 1) / bitsPerLong + 1

namespace DiskArray

/-- The blocks that `disk_array_get`, `disk_array_set` and `disk_array_format` go to. -/
def Touches (A : DiskArray) (b : ℕ) : Prop :=
  (∃ i < A.nrEntry, b = A.entryBlock i) ∨ ∃ shift < A.blocks, b = A.start + shift

/-- None of the three changes the block, neither in the cache nor on disk. -/
structure Keeps (A : DiskArray) (b : ℕ) : Prop where
  get : ∀ (sc : Skcipher) (s : Bufio) (index : ℕ) (r : A.Entry × Bufio),
    diskArrayGet A sc s index = some r → r.2.cache b = s.cache b ∧ r.2.disk b = s.disk b
  set : ∀ (sc : Skcipher) (s t : Bufio) (index : ℕ) (entry : A.Entry),
    diskArraySet A sc s index entry = some t → t.cache b = s.cache b ∧ t.disk b = s.disk b
  format : ∀ (s : Bufio) (value : Bool), (diskArrayFormat A s value).cache b = s.cache b ∧
    (diskArrayFormat A s value).disk b = s.disk b

variable {A : DiskArray} {s : Bufio} {b : ℕ}

theorem Touches.cases (h : A.Touches b) : A.start ≤ b ∧ b < A.start + A.blocks := by
  rcases h with ⟨i, hi, rfl⟩ | ⟨shift, hshift, rfl⟩
  · exact ⟨Nat.le_add_right .., A.entryBlock_lt hi⟩
  · exact ⟨Nat.le_add_right .., Nat.add_lt_add_left hshift _⟩

/-- What formatting a number of blocks leaves in the cache. -/
theorem format_blocks (A : DiskArray) (value : Bool) (s : Bufio) (k : ℕ) (b : ℕ) :
    ((List.range k).foldl (fun s shift => s.hold (A.start + shift)
        ⟨memsetBytes value metadataBlockSize, true, false⟩) s).cache b =
      (if A.start ≤ b ∧ b < A.start + k then
        some ⟨memsetBytes value metadataBlockSize, true, false⟩ else s.cache b) ∧
    ((List.range k).foldl (fun s shift => s.hold (A.start + shift)
        ⟨memsetBytes value metadataBlockSize, true, false⟩) s).disk = s.disk := by
  induction k with
  | zero =>
    rw [if_neg (by omega)]
    exact ⟨rfl, rfl⟩
  | succ k ih =>
    rw [List.range_succ, List.foldl_append]
    refine ⟨?_, ih.2⟩
    by_cases hb : b = A.start + k
    · subst hb
      rw [if_pos (by omega)]
      exact Bufio.hold_cache_self ..
    · refine (Bufio.hold_cache_of_ne _ hb _).trans (ih.1.trans ?_)
      by_cases hin : A.start ≤ b ∧ b < A.start + k
      · rw [if_pos hin, if_pos (by omega)]
      · rw [if_neg hin, if_neg (by omega)]

/-- **Other blocks are left alone.** -/
theorem keeps_of_not_touches (h : ¬A.Touches b) : A.Keeps b := by
  have hentry : ∀ index, ¬A.nrEntry ≤ index → b ≠ A.entryBlock index :=
    fun index hlt heq => h (Or.inl ⟨index, Nat.lt_of_not_le hlt, heq⟩)
  refine ⟨fun sc s index r hr => ?_, fun sc s t index entry ht => ?_, fun s value => ?_⟩
  · rw [diskArrayGet] at hr
    split at hr
    · cases hr
    · rename_i hlt
      obtain rfl := Option.some.inj hr
      exact ⟨s.hold_cache_of_ne (hentry index hlt) _, rfl⟩
  · rw [diskArraySet] at ht
    split at ht
    · cases ht
    · rename_i hlt
      obtain rfl := Option.some.inj ht
      exact ⟨s.hold_cache_of_ne (hentry index hlt) _, rfl⟩
  · obtain ⟨hcache, hdisk⟩ := A.format_blocks value s A.blocks b
    refine ⟨hcache.trans (if_neg fun hin => h (Or.inr ⟨b - A.start, by omega, by omega⟩)), ?_⟩
    exact congrFun hdisk b

/-- All blocks are reached by formatting. -/
theorem format_of_lt {shift : ℕ} (h : shift < A.blocks) (value : Bool) :
    (diskArrayFormat A s value).cache (A.start + shift) =
      some ⟨memsetBytes value metadataBlockSize, true, false⟩ :=
  (A.format_blocks value s A.blocks _).1.trans (if_pos (by omega))

end DiskArray

namespace MetaTable

/-- `nr_entry` of the array of a table -/
def nrEntry (nrSegment : ℕ) : MetaTable → ℕ
  | svt => diskBitsetNrGroup nrSegment
  | dst => nrSegment
  | rit => nrSegment * blocksPerSegment
  | indexSvt => diskBitsetNrGroup (nrBits nrSegment)
  | bitc => nrBits nrSegment

/-- `entry_size` of the array of a table -/
def entrySize : MetaTable → ℕ
  | svt => sizeofLong
  | dst => sizeofDstEntry
  | rit => sizeofReverseIndexEntry
  | indexSvt => sizeofLong
  | bitc => sizeofFileStat

/-- The array of a pack. -/
def array (nrSegment : ℕ) (key : Bytes) (t : MetaTable) (validField : ℕ) : DiskArray where
  start := t.packStart nrSegment validField
  nrEntry := t.nrEntry nrSegment
  entrySize := t.entrySize
  key := key
  entrySize_pos := by cases t <;> decide
  entrySize_le := by cases t <;> decide

/-- The blocks that the layout has for a pack. -/
def InPack (nrSegment : ℕ) (t : MetaTable) (validField b : ℕ) : Prop :=
  t.start nrSegment + validField * t.blkCount nrSegment ≤ b ∧
    b < t.start nrSegment + (validField + 1) * t.blkCount nrSegment

variable {n v v' b : ℕ} {key : Bytes} {t t' : MetaTable}

/-- The order of the tables on disk. -/
def rank : MetaTable → ℕ
  | svt => 0
  | dst => 1
  | rit => 2
  | indexSvt => 3
  | bitc => 4

theorem eq_of_rank : ∀ {t t' : MetaTable}, t.rank = t'.rank → t = t' := by
  intro t t' h
  cases t <;> cases t' <;> first | rfl | cases h

/-- A table starts behind the two packs of every table in front of it. -/
theorem packs_le_start (n : ℕ) (h : t.rank < t'.rank) :
    t.start n + 2 * t.blkCount n ≤ t'.start n := by
  have htwo : (const nrCheckpointPacks : ℕ) = 2 := rfl
  have hdst := start_dst n
  have hrit := start_rit n
  have hindexSvt := start_indexSvt n
  have hbitc := start_bitc n
  rw [htwo] at hdst hrit hindexSvt hbitc
  cases t' with
  | svt => cases h
  | dst => cases t <;> first | omega | exact absurd h (by decide)
  | rit => cases t <;> first | omega | exact absurd h (by decide)
  | indexSvt => cases t <;> first | omega | exact absurd h (by decide)
  | bitc => cases t <;> omega

theorem InPack.bounds (hv : v < 2) (h : t.InPack n v b) :
    t.start n ≤ b ∧ b < t.start n + 2 * t.blkCount n := by
  have hle : (v + 1) * t.blkCount n ≤ 2 * t.blkCount n := Nat.mul_le_mul_right _ hv
  exact ⟨Nat.le_of_add_right_le h.1, Nat.lt_of_lt_of_le h.2 (Nat.add_le_add_left hle _)⟩

/-- Packs do not overlap. -/
theorem InPack.unique (hv : v < 2) (hv' : v' < 2) (h : t.InPack n v b) (h' : t'.InPack n v' b) :
    (t, v) = (t', v') := by
  have hb := h.bounds hv
  have hb' := h'.bounds hv'
  rcases Nat.lt_trichotomy t.rank t'.rank with hlt | heq | hgt
  · have hle := packs_le_start n hlt
    omega
  · obtain rfl := eq_of_rank heq
    refine Prod.ext rfl ?_
    -- the packs of one table lie side by side
    have hstep : ∀ {i j : ℕ}, i < j → (i + 1) * t.blkCount n ≤ j * t.blkCount n :=
      fun hij => Nat.mul_le_mul_right _ hij
    simp only [InPack] at h h'
    rcases Nat.lt_trichotomy v v' with hlt | heq | hgt
    · have hle := hstep hlt
      omega
    · exact heq
    · have hle := hstep hgt
      omega
  · have hle := packs_le_start n hgt
    omega

/-- **A table stays in its pack** if formatting takes no more blocks than there are for it. -/
theorem inPack_iff (n : ℕ) (key : Bytes) (t : MetaTable) (v : ℕ) :
    (∀ b, (t.array n key v).Touches b → t.InPack n v b) ↔
      (t.array n key v).blocks ≤ t.blkCount n := by
  have hstart : (t.array n key v).start = t.start n + v * t.blkCount n := rfl
  have hend : t.start n + (v + 1) * t.blkCount n = t.start n + v * t.blkCount n + t.blkCount n := by
    rw [Nat.succ_mul, Nat.add_assoc]
  refine ⟨fun h => ?_, fun hle b hb => ?_⟩
  · by_contra hgt
    have hin := h _ (Or.inr ⟨t.blkCount n, Nat.lt_of_not_le hgt, rfl⟩)
    rw [InPack, hend, hstart] at hin
    omega
  · obtain ⟨hfirst, hlast⟩ := hb.cases
    rw [InPack, hend]
    omega

/-- When the blocks of a bitset are enough. -/
theorem bitset_blocks_le (nrBit : ℕ) :
    diskBitsetNrGroup nrBit / (metadataBlockSize / sizeofLong) + 1 ≤ segValidityTableBlocks nrBit ↔
      ¬512 ∣ diskBitsetNrGroup nrBit := by
  have hgroups : metadataBlockSize / sizeofLong = 512 := rfl
  rw [hgroups, segValidityTableBlocks_nat, diskBitsetNrGroup, bitsPerLong]
  by_cases hzero : nrBit = 0
  · rw [if_pos hzero, if_pos hzero]
    omega
  · rw [if_neg hzero, if_neg hzero]
    omega

end MetaTable

/-- **Every table stays in its packs**, and leaves all other packs alone, if and only if the last
block of neither of the two bitsets is full. -/
theorem tables_inside_iff (nrSegment : ℕ) (key : Bytes) :
    ((∀ (t : MetaTable) (v : ℕ), v < 2 →
        ∀ b, (t.array nrSegment key v).Touches b → t.InPack nrSegment v b) ∧
      ∀ (t : MetaTable) (v : ℕ), v < 2 → ∀ (t' : MetaTable) (v' : ℕ), v' < 2 → (t, v) ≠ (t', v') →
        ∀ b, t'.InPack nrSegment v' b → (t.array nrSegment key v).Keeps b) ↔
      ¬512 ∣ diskBitsetNrGroup nrSegment ∧ ¬512 ∣ diskBitsetNrGroup (nrBits nrSegment) := by
  refine ⟨fun h => ⟨?_, ?_⟩, fun ⟨hsvt, hindex⟩ => ?_⟩
  · exact (MetaTable.bitset_blocks_le _).mp
      ((MetaTable.inPack_iff nrSegment key .svt 0).mp (h.1 .svt 0 (by decide)))
  · exact (MetaTable.bitset_blocks_le _).mp
      ((MetaTable.inPack_iff nrSegment key .indexSvt 0).mp (h.1 .indexSvt 0 (by decide)))
  · have hblocks : ∀ (t : MetaTable) (v : ℕ),
        (t.array nrSegment key v).blocks ≤ t.blkCount nrSegment := by
      intro t v
      cases t with
      | svt => exact (MetaTable.bitset_blocks_le _).mpr hsvt
      | indexSvt => exact (MetaTable.bitset_blocks_le _).mpr hindex
      | dst => exact le_rfl
      | rit => exact le_rfl
      | bitc => exact le_rfl
    have hinside : ∀ (t : MetaTable) (v b : ℕ), (t.array nrSegment key v).Touches b →
        t.InPack nrSegment v b := fun t v => (MetaTable.inPack_iff nrSegment key t v).mpr (hblocks t v)
    refine ⟨fun t v _ b hb => hinside t v b hb, fun t v hv t' v' hv' hne b hb => ?_⟩
    exact DiskArray.keeps_of_not_touches fun hin =>
      hne (MetaTable.InPack.unique hv hv' (hinside t v b hin) hb)

/-- With 32768 segments, formatting the second pack of the validity table clears the first block
of the data segment table. -/
theorem format_clears_other_table : MetaTable.dst.InPack 32768 0 (MetaTable.dst.packStart 32768 0) ∧
    ∀ (key : Bytes) (s : Bufio),
      (diskArrayFormat (MetaTable.svt.array 32768 key 1) s false).cache
          (MetaTable.dst.packStart 32768 0) =
        some ⟨memsetBytes false metadataBlockSize, true, false⟩ := by
  have hstart := start_dst (32768 : ℕ)
  have hsvt : MetaTable.svt.blkCount (32768 : ℕ) = 1 := by decide
  have hdst : MetaTable.dst.blkCount (32768 : ℕ) = 1093 := by decide
  have htwo : (const nrCheckpointPacks : ℕ) = 2 := rfl
  have hfirst : MetaTable.dst.packStart 32768 0 = MetaTable.dst.start (32768 : ℕ) + 0 * 1093 := by
    rw [MetaTable.packStart, hdst]
    rfl
  rw [hsvt, htwo] at hstart
  refine ⟨?_, fun key s => ?_⟩
  · rw [MetaTable.InPack, hfirst, hdst]
    omega
  · have hblock : MetaTable.dst.packStart 32768 0 = (MetaTable.svt.array 32768 key 1).start + 1 := by
      have hsecond : (MetaTable.svt.array 32768 key 1).start =
          MetaTable.svt.start (32768 : ℕ) + 1 * 1 := by
        rw [← hsvt]
        rfl
      omega
    rw [hblock]
    have hlt : 1 < diskBitsetNrGroup 32768 / (metadataBlockSize / sizeofLong) + 1 := by decide
    exact DiskArray.format_of_lt hlt false

end JinDisk
