import JinDisk.Lib.Words
import JinDisk.BitWriter
import JinDisk.Capacity
import JinDisk.DiskStructs

/-!
# The layout of the device

Block 0 is the superblock. Behind it lie the index region, the journal region and the checkpoint
region, with two packs of each of five tables, and then the data. The sizes depend on the number
of segments. They are computed in 64-bit words, in three places: `superblock_init` when the device
is formatted, `calc_metadata_blocks` when it is decided whether a device is large enough, and
`bit_catalogue_init` for the tables of the index.

The definitions have two readings (`Arith`), in words and in numbers.
-/

namespace JinDisk

open Arith (const toNat Denotes denotes_const)

/-! ## The sizes -/

section Sizes

variable {α : Type} [Arith α]

/-- `BITS_PER_LONG` -/
def bitsPerLong : ℕ := 64

/-- `sizeof(unsigned long)` -/
def sizeofLong : ℕ := 8

/-- `sizeof(struct dst_entry)` -/
def sizeofDstEntry : ℕ := 136

/-- `sizeof(struct reverse_index_entry)` -/
def sizeofReverseIndexEntry : ℕ := 8

/-- `sizeof(struct file_stat)` -/
def sizeofFileStat : ℕ := 88

/-- `NR_CHECKPOINT_PACKS` -/
def nrCheckpointPacks : ℕ := 2

/-- `NR_JOURNAL_SEGMENT` -/
def nrJournalSegment : ℕ := 16

/-- `STRUCTURE_BLOCKS(struct superblock)`; the structure has 216 bytes. -/
def superblockBlocks : ℕ := (216 - 1) / metadataBlockSize + 1

/-- `__bytes_to_block` -/
def bytesToBlock (bytes blockSize : α) : α :=
  if toNat bytes = 0 then const 0 else (bytes - const 1) / blockSize + const 1

/-- `__disk_array_blocks` -/
def diskArrayBlocks (nrElem elemSize blockSize : α) : α :=
  if toNat elemSize = 0 then const 0 else nrElem / (blockSize / elemSize) + const 1

/-- The loop of `__total_bit`, for the levels that remain. -/
def totalBitsLoop (commonRatio : α) : ℕ → α → α → α
  | 0, _, total => total
  | n + 1, capacity, total =>
    totalBitsLoop commonRatio n (capacity / commonRatio)
      (total + if toNat capacity = 0 then const 0 else
        (capacity - const 1) / const defaultLsmFileCapacity + const 1)

/-- `__total_bit` -/
def totalBits (nrDiskLevel : ℕ) (commonRatio maxDiskLevelCapacity : α) : α :=
  totalBitsLoop commonRatio (nrDiskLevel - 1) maxDiskLevelCapacity (const 0) +
    const BitLevel.defaultLsmLevel0NrFile

/-- `__extra_bit` -/
def extraBits (maxDiskLevelCapacity : α) : α :=
  totalBits 2 (const lsmTreeDiskLevelCommonRatio) maxDiskLevelCapacity

/-- `__index_region_blocks` -/
def indexRegionBlocks (nrDiskLevel : ℕ) (commonRatio maxDiskLevelCapacity : α) : α :=
  bytesToBlock
    ((totalBits nrDiskLevel commonRatio maxDiskLevelCapacity + extraBits maxDiskLevelCapacity) *
      const (calculateBitSize defaultLsmFileCapacity defaultBitDegree))
    (const metadataBlockSize)

/-- `__seg_validity_table_blocks` -/
def segValidityTableBlocks (nrSegment : α) : α :=
  if toNat nrSegment = 0 then const 0
  else
    (((nrSegment - const 1) / const bitsPerLong + const 1) * const sizeofLong - const 1) /
      const metadataBlockSize + const 1

/-- `__data_seg_table_blocks` -/
def dataSegTableBlocks (nrSegment : α) : α :=
  diskArrayBlocks nrSegment (const sizeofDstEntry) (const metadataBlockSize)

/-- `__reverse_index_table_blocks` -/
def reverseIndexTableBlocks (nrBlock : α) : α :=
  diskArrayBlocks nrBlock (const sizeofReverseIndexEntry) (const metadataBlockSize)

/-- `__bit_catalogue_blocks` -/
def bitCatalogueBlocks (nrFd : α) : α :=
  diskArrayBlocks nrFd (const sizeofFileStat) (const metadataBlockSize)

/-- The `max_fd` of `bit_catalogue_init`, and the `nr_bits` of the other two. -/
def nrBits (nrSegment : α) : α :=
  totalBits defaultLsmTreeNrDiskLevel (const lsmTreeDiskLevelCommonRatio)
      (nrSegment * const blocksPerSegment) + extraBits (nrSegment * const blocksPerSegment)

/-- `calc_metadata_blocks` -/
def calcMetadataBlocks (nrSegment : α) : α :=
  const superblockBlocks +
    indexRegionBlocks defaultLsmTreeNrDiskLevel (const lsmTreeDiskLevelCommonRatio)
      (nrSegment * const blocksPerSegment) +
    const (nrJournalSegment * blocksPerSegment) +
    segValidityTableBlocks nrSegment * const nrCheckpointPacks +
    dataSegTableBlocks nrSegment * const nrCheckpointPacks +
    reverseIndexTableBlocks (nrSegment * const blocksPerSegment) * const nrCheckpointPacks +
    segValidityTableBlocks (nrBits nrSegment) * const nrCheckpointPacks +
    bitCatalogueBlocks (nrBits nrSegment) * const nrCheckpointPacks

/-- The starts of the regions in a `struct superblock`. -/
structure RegionStarts (α : Type) where
  /-- `index_region_start` -/
  indexRegionStart : α
  /-- `journal_region_start` -/
  journalRegionStart : α
  /-- `seg_validity_table_start` -/
  segValidityTableStart : α
  /-- `data_seg_table_start` -/
  dataSegTableStart : α
  /-- `reverse_index_table_start` -/
  reverseIndexTableStart : α
  /-- `block_index_table_catalogue_start` -/
  blockIndexTableCatalogueStart : α
  /-- `data_start` -/
  dataStart : α

/-- `superblock_init` with `format = true` -/
def superblockFormat (nrSegment : α) : RegionStarts α :=
  let maxDiskLevelCapacity := nrSegment * const blocksPerSegment
  let indexRegionStart := const 0 + const superblockBlocks
  let journalRegionStart := indexRegionStart +
    indexRegionBlocks defaultLsmTreeNrDiskLevel (const lsmTreeDiskLevelCommonRatio)
      maxDiskLevelCapacity
  let segValidityTableStart := journalRegionStart + const (nrJournalSegment * blocksPerSegment)
  let dataSegTableStart := segValidityTableStart +
    segValidityTableBlocks nrSegment * const nrCheckpointPacks
  let reverseIndexTableStart := dataSegTableStart +
    dataSegTableBlocks nrSegment * const nrCheckpointPacks
  let blockIndexTableCatalogueStart := reverseIndexTableStart +
    reverseIndexTableBlocks (nrSegment * const blocksPerSegment) * const nrCheckpointPacks
  let nrBits := totalBits defaultLsmTreeNrDiskLevel (const lsmTreeDiskLevelCommonRatio)
      maxDiskLevelCapacity + extraBits maxDiskLevelCapacity
  { indexRegionStart
    journalRegionStart
    segValidityTableStart
    dataSegTableStart
    reverseIndexTableStart
    blockIndexTableCatalogueStart
    dataStart := blockIndexTableCatalogueStart +
      (segValidityTableBlocks nrBits + bitCatalogueBlocks nrBits) * const nrCheckpointPacks }

/-- The blocks of the index region. -/
def indexBlocks (nrSegment : α) : α :=
  indexRegionBlocks defaultLsmTreeNrDiskLevel (const lsmTreeDiskLevelCommonRatio)
    (nrSegment * const blocksPerSegment)

end Sizes

/-! ## The tables -/

/-- The tables of the checkpoint region. -/
inductive MetaTable where
  /-- the segment validity table of the data -/
  | svt
  /-- the data segment table -/
  | dst
  /-- the reverse index table -/
  | rit
  /-- the validity table of the index files -/
  | indexSvt
  /-- `file_stats` of the catalogue -/
  | bitc
  deriving DecidableEq

namespace MetaTable

section

variable {α : Type} [Arith α]

/-- `blk_count` of a table -/
def blkCount (nrSegment : α) : MetaTable → α
  | svt => segValidityTableBlocks nrSegment
  | dst => dataSegTableBlocks nrSegment
  | rit => reverseIndexTableBlocks (nrSegment * const blocksPerSegment)
  | indexSvt => segValidityTableBlocks (nrBits nrSegment)
  | bitc => bitCatalogueBlocks (nrBits nrSegment)

/-- Where its packs start; for `file_stats` as `bit_catalogue_init` computes it. -/
def start (nrSegment : α) : MetaTable → α
  | svt => (superblockFormat nrSegment).segValidityTableStart
  | dst => (superblockFormat nrSegment).dataSegTableStart
  | rit => (superblockFormat nrSegment).reverseIndexTableStart
  | indexSvt => (superblockFormat nrSegment).blockIndexTableCatalogueStart
  | bitc => (superblockFormat nrSegment).blockIndexTableCatalogueStart +
      blkCount nrSegment indexSvt * const nrCheckpointPacks

/-- Where a pack starts. -/
def packStart (nrSegment : α) (t : MetaTable) (validField : ℕ) : α :=
  t.start nrSegment + const validField * t.blkCount nrSegment

end

end MetaTable

/-! ## In numbers -/

theorem bytesToBlock_nat (bytes blockSize : ℕ) :
    bytesToBlock bytes blockSize = if bytes = 0 then 0 else (bytes - 1) / blockSize + 1 := rfl

theorem segValidityTableBlocks_nat (n : ℕ) :
    segValidityTableBlocks n = if n = 0 then 0 else (((n - 1) / 64 + 1) * 8 - 1) / 4096 + 1 := rfl

theorem dataSegTableBlocks_nat (n : ℕ) : dataSegTableBlocks n = n / 30 + 1 := rfl

theorem bitCatalogueBlocks_nat (n : ℕ) : bitCatalogueBlocks n = n / 46 + 1 := rfl

theorem totalBits_nat (ratio capacity : ℕ) : totalBits 2 ratio capacity =
    (if capacity = 0 then 0 else (capacity - 1) / defaultLsmFileCapacity + 1) + 1 := by
  show 0 + _ + 1 = _
  rw [Nat.zero_add]
  rfl

theorem nrBits_nat (n : ℕ) : nrBits n =
    2 * ((if n * 1024 = 0 then 0 else (n * 1024 - 1) / defaultLsmFileCapacity + 1) + 1) := by
  rw [Nat.two_mul]
  exact congrArg₂ (· + ·) (totalBits_nat 10 (n * 1024)) (totalBits_nat 10 (n * 1024))

/-! ## The regions -/

section Regions

variable {α : Type} [Arith α] (n : α)

theorem indexBlocks_eq : indexBlocks n =
    bytesToBlock (nrBits n * const (calculateBitSize defaultLsmFileCapacity defaultBitDegree))
      (const metadataBlockSize) := rfl

theorem journalRegionStart_eq : (superblockFormat n).journalRegionStart =
    (superblockFormat n).indexRegionStart + indexBlocks n := rfl

theorem start_svt : MetaTable.svt.start n = (superblockFormat n).journalRegionStart +
    const (nrJournalSegment * blocksPerSegment) := rfl

theorem start_dst : MetaTable.dst.start n =
    MetaTable.svt.start n + MetaTable.svt.blkCount n * const nrCheckpointPacks := rfl

theorem start_rit : MetaTable.rit.start n =
    MetaTable.dst.start n + MetaTable.dst.blkCount n * const nrCheckpointPacks := rfl

theorem start_indexSvt : MetaTable.indexSvt.start n =
    MetaTable.rit.start n + MetaTable.rit.blkCount n * const nrCheckpointPacks := rfl

theorem start_bitc : MetaTable.bitc.start n =
    MetaTable.indexSvt.start n + MetaTable.indexSvt.blkCount n * const nrCheckpointPacks := rfl

theorem dataStart_eq : (superblockFormat n).dataStart = MetaTable.indexSvt.start n +
    (MetaTable.indexSvt.blkCount n + MetaTable.bitc.blkCount n) * const nrCheckpointPacks := rfl

theorem calcMetadataBlocks_eq : calcMetadataBlocks n = const superblockBlocks + indexBlocks n +
    const (nrJournalSegment * blocksPerSegment) +
    MetaTable.svt.blkCount n * const nrCheckpointPacks +
    MetaTable.dst.blkCount n * const nrCheckpointPacks +
    MetaTable.rit.blkCount n * const nrCheckpointPacks +
    MetaTable.indexSvt.blkCount n * const nrCheckpointPacks +
    MetaTable.bitc.blkCount n * const nrCheckpointPacks := rfl

/-- The two packs of a table. -/
def packs (t : MetaTable) : List (α × α) :=
  [(t.packStart n 0, t.blkCount n), (t.packStart n 1, t.blkCount n)]

/-- The regions in front of the data, with their first block and their size. -/
def regions : List (α × α) :=
  [(const 0, const superblockBlocks), ((superblockFormat n).indexRegionStart, indexBlocks n),
    ((superblockFormat n).journalRegionStart, const (nrJournalSegment * blocksPerSegment))] ++
  packs n .svt ++ packs n .dst ++ packs n .rit ++ packs n .indexSvt ++ packs n .bitc

end Regions

/-- A region ends where another one starts, or in front of it. -/
def EndsBefore (r r' : ℕ × ℕ) : Prop := r.1 + r.2 ≤ r'.1

instance : IsTrans (ℕ × ℕ) EndsBefore where
  trans r r' r'' h h' := by
    simp only [EndsBefore] at *
    omega

/-- The regions lie one behind the other, and the data behind the last one. -/
theorem regions_chain (n : ℕ) :
    (regions n ++ [((superblockFormat n).dataStart, 0)]).IsChain EndsBefore := by
  have hstart : ∀ t : MetaTable, t.packStart n 0 = t.start n := fun t => by
    rw [MetaTable.packStart, Arith.const_nat, Nat.zero_mul, Nat.add_zero]
  have hsecond : ∀ t : MetaTable, t.packStart n 1 = t.start n + t.blkCount n := fun t => by
    rw [MetaTable.packStart, Arith.const_nat, Nat.one_mul]
  have htwo : (const nrCheckpointPacks : ℕ) = 2 := rfl
  have hindex : (superblockFormat n).indexRegionStart = 0 + const superblockBlocks := rfl
  have hdata := dataStart_eq n
  have hcatalogue := start_bitc n
  rw [htwo] at hdata hcatalogue
  simp only [regions, packs, List.cons_append, List.nil_append, List.isChain_cons_cons, EndsBefore,
    hstart, hsecond]
  refine ⟨?_, ?_, ?_, le_rfl, ?_, le_rfl, ?_, le_rfl, ?_, le_rfl, ?_, le_rfl, ?_, .singleton _⟩
  · exact hindex.ge
  · exact (journalRegionStart_eq n).ge
  · exact (start_svt n).ge
  · rw [start_dst, htwo]
    omega
  · rw [start_rit, htwo]
    omega
  · rw [start_indexSvt, htwo]
    omega
  · omega
  · omega

/-- The packs of a table end in front of the data. -/
theorem packs_le_dataStart (n : ℕ) (t : MetaTable) :
    t.start n + t.blkCount n * 2 ≤ (superblockFormat n).dataStart := by
  have htwo : (const nrCheckpointPacks : ℕ) = 2 := rfl
  have hdata := dataStart_eq n
  have hdst := start_dst n
  have hrit := start_rit n
  have hindexSvt := start_indexSvt n
  have hbitc := start_bitc n
  rw [htwo] at hdata hdst hrit hindexSvt hbitc
  cases t <;> omega

/-- The superblock has what the check of the size reckons with. -/
theorem dataStart_eq_calcMetadataBlocks (n : ℕ) :
    (superblockFormat n).dataStart = calcMetadataBlocks n := by
  have htwo : (const nrCheckpointPacks : ℕ) = 2 := rfl
  have hindex : (superblockFormat n).indexRegionStart = 0 + const superblockBlocks := rfl
  rw [dataStart_eq, start_indexSvt, start_rit, start_dst, start_svt, journalRegionStart_eq, hindex,
    calcMetadataBlocks_eq, htwo]
  omega

/-! ## In words -/

section Words

variable {x y : UInt64} {n a b : ℕ}

theorem denotes_bytesToBlock (hx : Denotes x a) (hy : Denotes y b) :
    Denotes (bytesToBlock x y) (bytesToBlock a b) := by
  have hlt : a < 2 ^ 64 := hx ▸ x.toNat_lt
  rw [bytesToBlock, bytesToBlock, Arith.toNat_word, hx, Arith.toNat_nat]
  split
  · exact denotes_const (by decide)
  · rename_i hne
    have hone : Denotes (const 1) 1 := denotes_const (by decide)
    have hdiv : (a - 1) / b ≤ a - 1 := Nat.div_le_self ..
    exact ((hx.sub hone (Nat.pos_of_ne_zero hne)).div hy).add hone (by
      show (a - 1) / b + 1 < 2 ^ 64
      omega)

/-- A table of entries that two of fit into a block. -/
theorem denotes_diskArrayBlocks (hx : Denotes x a) {elemSize : ℕ} (hpos : elemSize ≠ 0)
    (hsize : 2 ≤ metadataBlockSize / elemSize) :
    Denotes (diskArrayBlocks x (const elemSize) (const metadataBlockSize))
      (diskArrayBlocks a (const elemSize) (const metadataBlockSize)) := by
  have hlt : a < 2 ^ 64 := hx ▸ x.toNat_lt
  have hle : elemSize ≤ metadataBlockSize := by
    by_contra hgt
    rw [Nat.div_eq_of_lt (by omega)] at hsize
    omega
  have helem : elemSize < 2 ^ 64 := hle.trans_lt (by decide)
  have hconst : Denotes (const elemSize) elemSize := denotes_const helem
  rw [diskArrayBlocks, diskArrayBlocks, Arith.toNat_word, hconst, if_neg hpos, Arith.const_nat,
    Arith.toNat_nat, if_neg hpos]
  have hdiv : a / (metadataBlockSize / elemSize) ≤ a / 2 := Nat.div_le_div_left hsize (by decide)
  exact (hx.div ((denotes_const (by decide)).div hconst)).add (denotes_const (by decide)) (by
    show a / (metadataBlockSize / elemSize) + 1 < 2 ^ 64
    omega)

theorem denotes_segValidityTableBlocks (hx : Denotes x n) :
    Denotes (segValidityTableBlocks x) (segValidityTableBlocks n) := by
  have hlt : n < 2 ^ 64 := hx ▸ x.toNat_lt
  rw [segValidityTableBlocks, segValidityTableBlocks, Arith.toNat_word, hx, Arith.toNat_nat]
  split
  · exact denotes_const (by decide)
  · rename_i hne
    have hone : Denotes (const 1) 1 := denotes_const (by decide)
    have hlong : Denotes (const bitsPerLong) 64 := denotes_const (by decide)
    have hgroup := ((hx.sub hone (Nat.pos_of_ne_zero hne)).div hlong).add hone (by omega)
    have hbytes := (hgroup.mul (denotes_const (by decide : sizeofLong < 2 ^ 64)) (by
      show ((n - 1) / 64 + 1) * 8 < 2 ^ 64
      omega)).sub hone (by
      show 1 ≤ ((n - 1) / 64 + 1) * 8
      omega)
    exact (hbytes.div (denotes_const (by decide : metadataBlockSize < 2 ^ 64))).add hone (by
      show (((n - 1) / 64 + 1) * 8 - 1) / 4096 + 1 < 2 ^ 64
      omega)

theorem denotes_dataSegTableBlocks (hx : Denotes x n) :
    Denotes (dataSegTableBlocks x) (dataSegTableBlocks n) :=
  denotes_diskArrayBlocks hx (by decide) (by decide)

theorem denotes_reverseIndexTableBlocks (hx : Denotes x n) :
    Denotes (reverseIndexTableBlocks x) (reverseIndexTableBlocks n) :=
  denotes_diskArrayBlocks hx (by decide) (by decide)

theorem denotes_bitCatalogueBlocks (hx : Denotes x n) :
    Denotes (bitCatalogueBlocks x) (bitCatalogueBlocks n) :=
  denotes_diskArrayBlocks hx (by decide) (by decide)

theorem denotes_totalBits (hx : Denotes x n) (ratio : UInt64) (ratio' : ℕ) :
    Denotes (totalBits 2 ratio x) (totalBits 2 ratio' n) := by
  have hlt : n < 2 ^ 64 := hx ▸ x.toNat_lt
  have hone : Denotes (const 1) 1 := denotes_const (by decide)
  have hzero : Denotes (const 0) 0 := denotes_const (by decide)
  have hfiles : Denotes
      (if toNat x = 0 then const 0 else (x - const 1) / const defaultLsmFileCapacity + const 1)
      (if n = 0 then 0 else (n - 1) / defaultLsmFileCapacity + 1) := by
    rw [Arith.toNat_word, hx]
    split
    · exact hzero
    · rename_i hne
      exact ((hx.sub hone (Nat.pos_of_ne_zero hne)).div
        (denotes_const (by decide : defaultLsmFileCapacity < 2 ^ 64))).add hone (by
          rw [defaultLsmFileCapacity]
          omega)
  have hbound : (if n = 0 then 0 else (n - 1) / defaultLsmFileCapacity + 1) < 2 ^ 60 := by
    rw [defaultLsmFileCapacity]
    split <;> omega
  rw [totalBits_nat]
  refine Denotes.add ?_ hone (by omega)
  have hsum := hzero.add hfiles (by omega)
  rwa [Nat.zero_add] at hsum

theorem denotes_blocks (hx : Denotes x n) (hn : n < 2 ^ 50) :
    Denotes (x * const blocksPerSegment) (n * const blocksPerSegment) := by
  refine hx.mul (denotes_const (by decide)) ?_
  show n * 1024 < 2 ^ 64
  omega

theorem denotes_nrBits (hx : Denotes x n) (hn : n < 2 ^ 50) : Denotes (nrBits x) (nrBits n) := by
  have hblocks := denotes_blocks hx hn
  have hbound : nrBits n < 2 ^ 64 := by
    rw [nrBits_nat, defaultLsmFileCapacity]
    split <;> omega
  exact (denotes_totalBits hblocks _ _).add (denotes_totalBits hblocks _ _) hbound

/-- The size of the index in bytes is a word. -/
def IndexFits (n : ℕ) : Prop := nrBits n * 5815513 < 2 ^ 64

theorem denotes_indexBlocks (hx : Denotes x n) (hn : n < 2 ^ 50) (hfits : IndexFits n) :
    Denotes (indexBlocks x) (indexBlocks n) := by
  rw [indexBlocks_eq, indexBlocks_eq]
  refine denotes_bytesToBlock ((denotes_nrBits hx hn).mul (denotes_const ?_) ?_)
    (denotes_const (by decide))
  · rw [calculateBitSize_default]
    decide
  · rw [calculateBitSize_default]
    exact hfits

theorem denotes_blkCount (hx : Denotes x n) (hn : n < 2 ^ 50) (t : MetaTable) :
    Denotes (t.blkCount x) (t.blkCount n) := by
  cases t with
  | svt => exact denotes_segValidityTableBlocks hx
  | dst => exact denotes_dataSegTableBlocks hx
  | rit => exact denotes_reverseIndexTableBlocks (denotes_blocks hx hn)
  | indexSvt => exact denotes_segValidityTableBlocks (denotes_nrBits hx hn)
  | bitc => exact denotes_bitCatalogueBlocks (denotes_nrBits hx hn)

/-- A device has less than `2 ^ 54` sectors, and a segment has `2 ^ 13` of them. -/
theorem nrBits_lt (hn : n < 2 ^ 42) : nrBits n < 2 ^ 37 := by
  rw [nrBits_nat, defaultLsmFileCapacity]
  split <;> omega

theorem indexFits_of_lt (hn : n < 2 ^ 42) : IndexFits n := by
  have hbits := nrBits_lt hn
  rw [IndexFits]
  omega

/-- The whole of the metadata is far from the end of the words. -/
theorem dataStart_lt (hn : n < 2 ^ 42) : (superblockFormat n).dataStart < 2 ^ 50 := by
  have hbits := nrBits_lt hn
  have hindex : indexBlocks n ≤ nrBits n * 1420 + 1 := by
    rw [indexBlocks_eq, calculateBitSize_default, bytesToBlock_nat, Arith.const_nat]
    show (if nrBits n * 5815513 = 0 then 0 else (nrBits n * 5815513 - 1) / 4096 + 1) ≤ _
    split <;> omega
  have hvalidity : ∀ k < 2 ^ 42, segValidityTableBlocks k < 2 ^ 42 := by
    intro k hk
    rw [segValidityTableBlocks_nat]
    split <;> omega
  have hsvt : MetaTable.svt.blkCount n < 2 ^ 42 := hvalidity n hn
  have hindexSvt : MetaTable.indexSvt.blkCount n < 2 ^ 42 := hvalidity _ (by omega)
  have hdst : MetaTable.dst.blkCount n < 2 ^ 42 := by
    rw [MetaTable.blkCount, dataSegTableBlocks_nat]
    omega
  have hrit : MetaTable.rit.blkCount n ≤ 2 ^ 43 := by
    show n * 1024 / 512 + 1 ≤ _
    omega
  have hbitc : MetaTable.bitc.blkCount n < 2 ^ 42 := by
    rw [MetaTable.blkCount, bitCatalogueBlocks_nat]
    omega
  have htwo : (const nrCheckpointPacks : ℕ) = 2 := rfl
  have hjournal : (const (nrJournalSegment * blocksPerSegment) : ℕ) = 16384 := rfl
  have hone : (const superblockBlocks : ℕ) = 1 := rfl
  rw [dataStart_eq_calcMetadataBlocks, calcMetadataBlocks_eq, htwo, hjournal, hone]
  omega

/-- Every start is a number in front of the data. -/
theorem denotes_starts (hx : Denotes x n) (hn : n < 2 ^ 42) :
    Denotes (superblockFormat x).indexRegionStart (superblockFormat n).indexRegionStart ∧
      Denotes (superblockFormat x).journalRegionStart (superblockFormat n).journalRegionStart ∧
      (∀ t : MetaTable, Denotes (t.start x) (t.start n)) ∧
      Denotes (superblockFormat x).dataStart (superblockFormat n).dataStart := by
  have hlt := dataStart_lt hn
  have hsmall : n < 2 ^ 50 := hn.trans (by decide)
  have hblk := denotes_blkCount hx hsmall
  have htwo : Denotes (const nrCheckpointPacks) 2 := denotes_const (by decide)
  have hnat : (const nrCheckpointPacks : ℕ) = 2 := rfl
  have hdata := dataStart_eq n
  have hdst := start_dst n
  have hrit := start_rit n
  have hindexSvt := start_indexSvt n
  have hbitc := start_bitc n
  have hsvt := start_svt n
  have hjournal := journalRegionStart_eq n
  rw [hnat] at hdata hdst hrit hindexSvt hbitc
  -- two packs of a table behind the start of a table
  have hstep : ∀ {y : UInt64} {a : ℕ} (t : MetaTable), Denotes y a →
      a + t.blkCount n * 2 < 2 ^ 64 →
      Denotes (y + t.blkCount x * const nrCheckpointPacks) (a + t.blkCount n * 2) := by
    intro y a t hy ha
    exact hy.add ((hblk t).mul htwo (by omega)) ha
  have h₁ : Denotes (superblockFormat x).indexRegionStart (superblockFormat n).indexRegionStart :=
    (denotes_const (by decide)).add (denotes_const (by decide)) (by decide)
  have h₂ : Denotes (superblockFormat x).journalRegionStart (superblockFormat n).journalRegionStart := by
    rw [journalRegionStart_eq, journalRegionStart_eq]
    exact h₁.add (denotes_indexBlocks hx hsmall (indexFits_of_lt hn)) (by omega)
  have h₃ : Denotes (MetaTable.svt.start x) (MetaTable.svt.start n) := by
    have hconst : Denotes (const (nrJournalSegment * blocksPerSegment))
        (const (nrJournalSegment * blocksPerSegment)) := denotes_const (by decide)
    rw [start_svt, start_svt]
    exact h₂.add hconst (by omega)
  have h₄ : Denotes (MetaTable.dst.start x) (MetaTable.dst.start n) := by
    rw [start_dst, hdst]
    exact hstep .svt h₃ (by omega)
  have h₅ : Denotes (MetaTable.rit.start x) (MetaTable.rit.start n) := by
    rw [start_rit, hrit]
    exact hstep .dst h₄ (by omega)
  have h₆ : Denotes (MetaTable.indexSvt.start x) (MetaTable.indexSvt.start n) := by
    rw [start_indexSvt, hindexSvt]
    exact hstep .rit h₅ (by omega)
  have h₇ : Denotes (MetaTable.bitc.start x) (MetaTable.bitc.start n) := by
    rw [start_bitc, hbitc]
    exact hstep .indexSvt h₆ (by omega)
  refine ⟨h₁, h₂, fun t => ?_, ?_⟩
  · cases t with
    | svt => exact h₃
    | dst => exact h₄
    | rit => exact h₅
    | indexSvt => exact h₆
    | bitc => exact h₇
  · rw [dataStart_eq, hdata]
    exact h₆.add (((hblk .indexSvt).add (hblk .bitc) (by omega)).mul htwo (by omega)) (by omega)

/-- In words the regions are the same. -/
theorem regions_words (hx : Denotes x n) (hn : n < 2 ^ 42) :
    (regions x).map (fun r => (r.1.toNat, r.2.toNat)) = regions n := by
  obtain ⟨hindex, hjournal, hstart, -⟩ := denotes_starts hx hn
  have hlt := dataStart_lt hn
  have hsmall : n < 2 ^ 50 := hn.trans (by decide)
  have hpacks : ∀ t : MetaTable, (packs x t).map (fun r => (r.1.toNat, r.2.toNat)) = packs n t := by
    intro t
    have hend := packs_le_dataStart n t
    have hblk := denotes_blkCount hx hsmall t
    have hpack : ∀ v < 2, (t.packStart x v).toNat = t.packStart n v := by
      intro v hv
      have hconst : Denotes (const v) (const v) := denotes_const (by omega)
      have hle : const v * t.blkCount n ≤ 2 * t.blkCount n := Nat.mul_le_mul_right _ hv.le
      exact (hstart t).add (hconst.mul hblk (by omega)) (by omega)
    simp only [packs, List.map_cons, List.map_nil, hpack 0 (by decide), hpack 1 (by decide),
      show (t.blkCount x).toNat = t.blkCount n from hblk]
  have hzero : Denotes (const 0) (const 0) := denotes_const (by decide)
  have hone : Denotes (const superblockBlocks) (const superblockBlocks) := denotes_const (by decide)
  have hconst : Denotes (const (nrJournalSegment * blocksPerSegment))
      (const (nrJournalSegment * blocksPerSegment)) := denotes_const (by decide)
  simp only [regions, List.map_append, hpacks, List.map_cons, List.map_nil]
  rw [hzero, hone, hindex, denotes_indexBlocks hx hsmall (indexFits_of_lt hn), hjournal, hconst]

end Words

/-! ## The check of the size -/

/-- `SECTORS_PER_SEGMENT` -/
def sectorsPerSegment : ℕ := sectorsPerBlock * blocksPerSegment

section Target

variable {α : Type} [Arith α]

/-- `nr_segment` of the superblock, for a target of `len` sectors -/
def targetSegments (len : α) : α := len / const sectorsPerSegment + const nrGcPreserved

/-- `total_sector` in `dm_jindisk_target_ctr` -/
def totalSector (len : α) : α :=
  calcMetadataBlocks (targetSegments len) * const sectorsPerBlock + len +
    const (nrGcPreserved * sectorsPerSegment)

/-- `lsm_catalogue.start`, in bytes -/
def catalogueStart (nrSegment : α) : α :=
  (superblockFormat nrSegment).indexRegionStart * const metadataBlockSize

/-- `lsm_catalogue.file_size` -/
def fileSize : α := const (calculateBitSize defaultLsmFileCapacity defaultBitDegree)

/-- Where the block index table of a file starts, in bytes. -/
def fileStart (nrSegment fd : α) : α := catalogueStart nrSegment + fd * fileSize

/-- `.sector` of a block of the data in `jindisk_block_io` -/
def blockSector (nrSegment pba : α) : α :=
  ((superblockFormat nrSegment).dataStart + pba) * const sectorsPerBlock

end Target

theorem le_bytesToBlock_mul (bytes : ℕ) {blockSize : ℕ} (h : 0 < blockSize) :
    bytes ≤ bytesToBlock bytes blockSize * blockSize := by
  rw [bytesToBlock_nat]
  split
  · rename_i hzero
    rw [hzero]
    exact Nat.zero_le _
  · have hlt := Nat.lt_mul_div_succ (bytes - 1) h
    rw [Nat.mul_comm]
    omega

/-- Files lie in the index region. -/
theorem fileStart_add_le {n fd : ℕ} (hfd : fd < nrBits n) :
    fileStart n fd + fileSize ≤
      ((superblockFormat n).indexRegionStart + indexBlocks n) * metadataBlockSize := by
  have hbytes : (fd + 1) * fileSize ≤ indexBlocks n * metadataBlockSize := by
    rw [indexBlocks_eq]
    exact (Nat.mul_le_mul_right _ hfd).trans (le_bytesToBlock_mul _ (by decide))
  rw [Nat.succ_mul] at hbytes
  rw [fileStart, catalogueStart, Nat.add_mul, Arith.const_nat, Nat.add_assoc]
  exact Nat.add_le_add_left hbytes _

/-- The two sums are the same in words, too, where the terms may be added in any order. -/
theorem dataStart_words (x : UInt64) : (superblockFormat x).dataStart = calcMetadataBlocks x := by
  have hindex : (superblockFormat x).indexRegionStart = const superblockBlocks :=
    UInt64.zero_add _
  rw [dataStart_eq, start_indexSvt, start_rit, start_dst, start_svt, journalRegionStart_eq, hindex,
    calcMetadataBlocks_eq, UInt64.add_mul, ← UInt64.add_assoc]

/-- **The layout fits together** on every device that is large enough: the regions in front of the
data are disjoint, the files of the index lie in their region, and the data in the device. -/
theorem layout_fits (len dev : UInt64) (hlen : len.toNat < 2 ^ 54) (hcheck : totalSector len ≤ dev) :
    (superblockFormat (targetSegments len)).dataStart = calcMetadataBlocks (targetSegments len) ∧
      ((regions (targetSegments len)).Pairwise fun r r' =>
        r.1.toNat + r.2.toNat ≤ r'.1.toNat) ∧
      (∀ r ∈ regions (targetSegments len),
        r.1.toNat + r.2.toNat ≤ (superblockFormat (targetSegments len)).dataStart.toNat) ∧
      (∀ fd < nrBits (targetSegments len),
        (fileStart (targetSegments len) fd).toNat =
          (superblockFormat (targetSegments len)).indexRegionStart.toNat * metadataBlockSize +
            fd.toNat * calculateBitSize defaultLsmFileCapacity defaultBitDegree ∧
        (fileStart (targetSegments len) fd).toNat +
            calculateBitSize defaultLsmFileCapacity defaultBitDegree ≤
          ((superblockFormat (targetSegments len)).indexRegionStart.toNat +
            (indexBlocks (targetSegments len)).toNat) * metadataBlockSize) ∧
      ∀ pba < targetSegments len * const blocksPerSegment,
        (blockSector (targetSegments len) pba).toNat =
            ((superblockFormat (targetSegments len)).dataStart.toNat + pba.toNat) *
              sectorsPerBlock ∧
          (blockSector (targetSegments len) pba).toNat + sectorsPerBlock ≤ dev.toNat := by
  obtain ⟨n, hn⟩ : ∃ n, n = len.toNat / 8192 + 320 := ⟨_, rfl⟩
  obtain ⟨x, hsegments⟩ : ∃ x, x = targetSegments len := ⟨_, rfl⟩
  have hx : Denotes x n := by
    have hdiv : Denotes (len / const sectorsPerSegment) (len.toNat / 8192) :=
      Denotes.div rfl (denotes_const (by decide))
    rw [hn, hsegments]
    exact hdiv.add (denotes_const (by decide)) (by omega)
  have hlt : n < 2 ^ 42 := by omega
  rw [totalSector] at hcheck
  rw [← hsegments] at hcheck ⊢
  obtain ⟨hindex, -, -, hdata⟩ := denotes_starts hx hlt
  have hregions := regions_words hx hlt
  have hpairwise := List.isChain_iff_pairwise.mp (regions_chain n)
  rw [List.pairwise_append, ← hregions, List.pairwise_map] at hpairwise
  have hbound := dataStart_lt hlt
  refine ⟨dataStart_words x, hpairwise.1, fun r hr => ?_, fun fd hfd => ?_, fun pba hpba => ?_⟩
  · rw [hdata]
    exact hpairwise.2.2 _ (List.mem_map_of_mem hr) _ List.mem_cons_self
  · have hfd' : fd.toNat < nrBits n := by
      rw [UInt64.lt_iff_toNat_lt, denotes_nrBits hx (hlt.trans (by decide))] at hfd
      exact hfd
    have hle := fileStart_add_le hfd'
    have hend : (superblockFormat n).indexRegionStart + indexBlocks n < 2 ^ 50 := by
      rw [← journalRegionStart_eq]
      have hsvt := start_svt n
      have hlast := packs_le_dataStart n .svt
      omega
    have hregion : ((superblockFormat n).indexRegionStart + indexBlocks n) * metadataBlockSize <
        2 ^ 64 := by
      rw [metadataBlockSize]
      omega
    have hstart : Denotes (catalogueStart x) (catalogueStart n) := by
      refine hindex.mul (denotes_const (by decide)) ?_
      rw [Nat.add_mul] at hregion
      exact Nat.lt_of_le_of_lt (Nat.le_add_right ..) hregion
    have hsize : Denotes fileSize fileSize := by
      refine denotes_const ?_
      rw [calculateBitSize_default]
      decide
    have hfile : Denotes (fileStart x fd) (fileStart n fd.toNat) := by
      have hlt : fileStart n fd.toNat < 2 ^ 64 := by omega
      have hmul : fd.toNat * fileSize ≤ fileStart n fd.toNat := Nat.le_add_left ..
      exact hstart.add (Denotes.mul rfl hsize (by omega)) hlt
    rw [hfile, hindex, denotes_indexBlocks hx (hlt.trans (by decide)) (indexFits_of_lt hlt)]
    exact ⟨rfl, hle⟩
  · have hpba' : pba.toNat < n * 1024 := by
      have hblocks : Denotes (x * const blocksPerSegment) (n * 1024) :=
        hx.mul (denotes_const (by decide)) (by omega)
      rw [UInt64.lt_iff_toNat_lt, hblocks] at hpba
      exact hpba
    have height : Denotes (const sectorsPerBlock) 8 := denotes_const (by decide)
    have hsector : Denotes (blockSector x pba) (((superblockFormat n).dataStart + pba.toNat) * 8) :=
      (hdata.add rfl (by omega)).mul height (by omega)
    have htotal : Denotes (calcMetadataBlocks x * const sectorsPerBlock + len +
        const (nrGcPreserved * sectorsPerSegment))
        ((superblockFormat n).dataStart * 8 + len.toNat + 2621440) := by
      rw [← dataStart_words]
      exact ((hdata.mul height (by omega)).add rfl (by omega)).add (denotes_const (by decide))
        (by omega)
    rw [UInt64.le_iff_toNat_le, htotal] at hcheck
    rw [hsector, hdata]
    refine ⟨rfl, ?_⟩
    rw [sectorsPerBlock]
    omega

/-- A target of ten segments on a device of `2 ^ 30` sectors. -/
theorem layout_fits_sample : totalSector (81920 : UInt64) ≤ 2 ^ 30 ∧
    (superblockFormat (targetSegments (81920 : UInt64))).dataStart =
      calcMetadataBlocks (targetSegments 81920) := by
  have hcheck : totalSector (81920 : UInt64) ≤ 2 ^ 30 := by decide +kernel
  exact ⟨hcheck, (layout_fits 81920 (2 ^ 30) (by decide) hcheck).1⟩

end JinDisk
