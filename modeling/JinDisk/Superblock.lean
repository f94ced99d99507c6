import JinDisk.BitNode

/-!
# The superblock

`superblock_write` takes the first `SUPERBLOCK_ENCRYPTED_SIZE` bytes of the structure in memory as
they are: it puts the checksum of the rest in front and encrypts all of it. `superblock_read`
decrypts the block and copies it field by field. One field is not copied: `last_checkpoint_pack`
keeps what was in the memory when the structure was allocated, and `superblock_validate` then
takes the checksum over it.

The machine is little endian, so that `le64_to_cpu` and its like do nothing.
-/

namespace JinDisk

/-- `SUPERBLOCK_MAGIC` -/
def superblockMagic : ℕ := 0x22946

/-- `SUPERBLOCK_CSUM_XOR` -/
def superblockCsumXor : UInt32 := 0x3828

/-- `EACCES` -/
def EACCES : Int := 13

/-- `crc32_checksum` -/
def crc32Checksum (data : Bytes) (initXor : UInt32) : UInt32 := crc32Be 0xffffffff data ^^^ initXor

/-- An IV: `char[AES_GCM_IV_SIZE]` -/
abbrev GcmIv : Type := Vector UInt8 aesGcmIvSize

/-- A `struct aead_cipher` as the superblock uses it: with an IV, and with `seq` 0. -/
structure IvAeadCipher where
  /-- `encrypt`: the ciphertext and the mac, or an error -/
  encrypt : GcmKey → GcmIv → Bytes → Except Int (Bytes × Bytes)
  /-- `decrypt`: the plaintext, or an error -/
  decrypt : GcmKey → GcmIv → Bytes → Bytes → Except Int Bytes

/-- Decryption undoes encryption under the same key and IV. -/
structure IvAeadCipher.Lawful (c : IvAeadCipher) : Prop where
  length_encrypt : ∀ key iv data out mac, c.encrypt key iv data = .ok (out, mac) →
    out.length = data.length
  length_mac : ∀ key iv data out mac, c.encrypt key iv data = .ok (out, mac) →
    mac.length = aesGcmAuthSize
  decrypt_encrypt : ∀ key iv data out mac, c.encrypt key iv data = .ok (out, mac) →
    c.decrypt key iv out mac = .ok data

/-- The part of `struct superblock` that is written to disk. -/
structure DiskSuperblock where
  /-- `csum` -/
  csum : ℕ
  /-- `magic` -/
  magic : ℕ
  /-- `blocks_per_seg` -/
  blocksPerSeg : ℕ
  /-- `nr_segment` -/
  nrSegment : ℕ
  /-- `data_start` -/
  dataStart : ℕ
  /-- `common_ratio` -/
  commonRatio : ℕ
  /-- `nr_disk_level` -/
  nrDiskLevel : ℕ
  /-- `max_disk_level_capacity` -/
  maxDiskLevelCapacity : ℕ
  /-- `index_region_start` -/
  indexRegionStart : ℕ
  /-- `journal_size` -/
  journalSize : ℕ
  /-- `nr_journal` -/
  nrJournal : ℕ
  /-- `record_start` -/
  recordStart : ℕ
  /-- `record_end` -/
  recordEnd : ℕ
  /-- `last_checkpoint_pack` -/
  lastCheckpointPack : ℕ
  /-- `journal_region_start` -/
  journalRegionStart : ℕ
  /-- `seg_validity_table_start` -/
  segValidityTableStart : ℕ
  /-- `data_seg_table_start` -/
  dataSegTableStart : ℕ
  /-- `reverse_index_table_start` -/
  reverseIndexTableStart : ℕ
  /-- `block_index_table_catalogue_start` -/
  blockIndexTableCatalogueStart : ℕ
  deriving DecidableEq

namespace DiskSuperblock

/-- The bytes from `magic` on, which the checksum is taken over. -/
def bodyLayout : Packed (ℕ × ℕ × ℕ × ℕ × ℕ × ℕ × ℕ × ℕ × ℕ × ℕ × ℕ × ℕ × ℕ × ℕ × ℕ × ℕ × ℕ × ℕ) :=
  let u32 := Packed.uint 4
  let u64 := Packed.uint 8
  u64.pair <| u32.pair <| u64.pair <| u64.pair <| u32.pair <| u32.pair <| u64.pair <| u64.pair <|
    u32.pair <| u64.pair <| u64.pair <| u64.pair <| u64.pair <| u64.pair <| u64.pair <| u64.pair <|
    u64.pair u64

/-- The fields from `magic` on. -/
def body (d : DiskSuperblock) : ℕ × ℕ × ℕ × ℕ × ℕ × ℕ × ℕ × ℕ × ℕ × ℕ × ℕ × ℕ × ℕ × ℕ × ℕ × ℕ × ℕ × ℕ :=
  (d.magic, d.blocksPerSeg, d.nrSegment, d.dataStart, d.commonRatio, d.nrDiskLevel,
    d.maxDiskLevelCapacity, d.indexRegionStart, d.journalSize, d.nrJournal, d.recordStart,
    d.recordEnd, d.lastCheckpointPack, d.journalRegionStart, d.segValidityTableStart,
    d.dataSegTableStart, d.reverseIndexTableStart, d.blockIndexTableCatalogueStart)

/-- The structure in memory, without gaps. -/
def layout : Packed DiskSuperblock :=
  ((Packed.uint 4).pair bodyLayout).via (fun d => (d.csum, d.body))
    (fun ⟨csum, magic, blocksPerSeg, nrSegment, dataStart, commonRatio, nrDiskLevel,
      maxDiskLevelCapacity, indexRegionStart, journalSize, nrJournal, recordStart, recordEnd,
      lastCheckpointPack, journalRegionStart, segValidityTableStart, dataSegTableStart,
      reverseIndexTableStart, blockIndexTableCatalogueStart⟩ =>
      ⟨csum, magic, blocksPerSeg, nrSegment, dataStart, commonRatio, nrDiskLevel,
      maxDiskLevelCapacity, indexRegionStart, journalSize, nrJournal, recordStart, recordEnd,
      lastCheckpointPack, journalRegionStart, segValidityTableStart, dataSegTableStart,
      reverseIndexTableStart, blockIndexTableCatalogueStart⟩) fun _ => rfl

/-- What `superblock_write` and `superblock_validate` compute over the bytes from `magic` on. -/
def checksum (d : DiskSuperblock) : ℕ :=
  (crc32Checksum ((layout.write d).drop 4) superblockCsumXor).toNat

end DiskSuperblock

/-- `SUPERBLOCK_ENCRYPTED_SIZE` -/
def superblockEncryptedSize : ℕ := DiskSuperblock.layout.size

/-- `struct superblock`, without its functions -/
structure Superblock extends DiskSuperblock where
  /-- `root_mac` -/
  rootMac : Bytes
  /-- `root_key` -/
  rootKey : GcmKey
  /-- `root_iv` -/
  rootIv : GcmIv

namespace Superblock

/-- `superblock_write`: the structure and the block afterwards. -/
def write (c : IvAeadCipher) (s : Superblock) (block : Bytes) : Except Int (Superblock × Bytes) :=
  let s := { s with csum := s.checksum }
  match c.encrypt s.rootKey s.rootIv (DiskSuperblock.layout.write s.toDiskSuperblock) with
  | .error err => .error err
  | .ok (out, mac) =>
    .ok ({ s with rootMac := mac },
      out ++ mac ++ block.drop (superblockEncryptedSize + aesGcmAuthSize))

/-- The copies in `superblock_read`, one for each field but one. -/
def copyFields (s : Superblock) (disk : DiskSuperblock) : Superblock :=
  { s with
    csum := disk.csum
    magic := disk.magic
    blocksPerSeg := disk.blocksPerSeg
    nrSegment := disk.nrSegment
    commonRatio := disk.commonRatio
    nrDiskLevel := disk.nrDiskLevel
    maxDiskLevelCapacity := disk.maxDiskLevelCapacity
    indexRegionStart := disk.indexRegionStart
    journalSize := disk.journalSize
    nrJournal := disk.nrJournal
    recordStart := disk.recordStart
    recordEnd := disk.recordEnd
    journalRegionStart := disk.journalRegionStart
    segValidityTableStart := disk.segValidityTableStart
    dataSegTableStart := disk.dataSegTableStart
    reverseIndexTableStart := disk.reverseIndexTableStart
    blockIndexTableCatalogueStart := disk.blockIndexTableCatalogueStart
    dataStart := disk.dataStart }

/-- `superblock_read`: the structure and the buffer afterwards. The block is decrypted where it
lies in the buffer. -/
def read (c : IvAeadCipher) (s : Superblock) (block : Bytes) : Except Int (Superblock × Bytes) :=
  match c.decrypt s.rootKey s.rootIv (block.take superblockEncryptedSize)
      ((block.drop superblockEncryptedSize).take aesGcmAuthSize) with
  | .error err => .error err
  | .ok data =>
    .ok (s.copyFields (DiskSuperblock.layout.read data), data ++ block.drop superblockEncryptedSize)

/-- `superblock_validate` -/
def validate (s : Superblock) : Bool := s.magic = superblockMagic && s.checksum = s.csum

/-- `superblock_init` with `format = false`; `s` is the structure as it was allocated. -/
def init (c : IvAeadCipher) (s : Superblock) (key : GcmKey) (iv : GcmIv) (block : Bytes) :
    Except Int (Superblock × Bytes) :=
  match read c { s with rootKey := key, rootIv := iv } block with
  | .error err => .error err
  | .ok r => if r.1.validate then .ok r else .error (-EACCES)

/-! ## Writing and reading back -/

variable {c : IvAeadCipher} {s s' junk : Superblock} {block block' : Bytes}

/-- The checksum does not depend on the field it is stored in. -/
theorem checksum_csum (d : DiskSuperblock) (x : ℕ) :
    DiskSuperblock.checksum { d with csum := x } = d.checksum := by
  have hdrop : ∀ x, (DiskSuperblock.layout.write { d with csum := x }).drop 4 =
      DiskSuperblock.bodyLayout.write d.body := by
    intro x
    exact List.drop_left' (Packed.length_leBytes 4 x)
  rw [DiskSuperblock.checksum, DiskSuperblock.checksum, hdrop, ← hdrop d.csum]

/-- What was written fits if what was in memory did. -/
theorem fits_csum {d : DiskSuperblock} (h : DiskSuperblock.layout.Fits d) :
    DiskSuperblock.layout.Fits { d with csum := d.checksum } := by
  refine ⟨?_, h.2⟩
  show (crc32Checksum _ superblockCsumXor).toNat < 256 ^ 4
  exact UInt32.toNat_lt _

/-- **What is on disk is read**, but for the field that is not copied. -/
theorem read_write (hc : c.Lawful) (hfits : DiskSuperblock.layout.Fits s.toDiskSuperblock)
    (hw : write c s block = .ok (s', block')) (junk : Superblock) :
    s'.toDiskSuperblock = { s.toDiskSuperblock with csum := s.checksum } ∧
      ∃ buffer, read c { junk with rootKey := s.rootKey, rootIv := s.rootIv } block' =
        .ok (copyFields { junk with rootKey := s.rootKey, rootIv := s.rootIv } s'.toDiskSuperblock,
          buffer) := by
  rw [write] at hw
  split at hw
  · cases hw
  · rename_i out mac henc
    obtain ⟨rfl, rfl⟩ := Prod.mk.inj (Except.ok.inj hw)
    refine ⟨rfl, ?_⟩
    have hdata := DiskSuperblock.layout.length_write _ (fits_csum hfits)
    have hout : out.length = superblockEncryptedSize :=
      (hc.length_encrypt _ _ _ _ _ henc).trans hdata
    have hmac : mac.length = aesGcmAuthSize := hc.length_mac _ _ _ _ _ henc
    have htake : (out ++ mac ++ block.drop (superblockEncryptedSize + aesGcmAuthSize)).take
        superblockEncryptedSize = out := by
      rw [List.append_assoc]
      exact List.take_left' hout
    have hdrop : ((out ++ mac ++ block.drop (superblockEncryptedSize + aesGcmAuthSize)).drop
        superblockEncryptedSize).take aesGcmAuthSize = mac := by
      rw [List.append_assoc, List.drop_left' hout]
      exact List.take_left' hmac
    have hread := DiskSuperblock.layout.read_write _ (fits_csum hfits) []
    rw [List.append_nil] at hread
    rw [read, htake, hdrop, hc.decrypt_encrypt _ _ _ _ _ henc]
    simp only [hread]
    exact ⟨_, rfl⟩

/-- The structure after reading, against the one that was written. -/
theorem copyFields_eq (junk : Superblock) (d : DiskSuperblock) :
    (junk.copyFields d).toDiskSuperblock =
      { d with lastCheckpointPack := junk.lastCheckpointPack } := rfl

end Superblock

/-- **A superblock is read back** if and only if its magic is right and the memory the structure
was allocated in happened to hold the value of the field that is not copied. -/
theorem superblock_reload_iff {c : IvAeadCipher} (hc : c.Lawful) {s s' : Superblock}
    {block block' : Bytes} (hfits : DiskSuperblock.layout.Fits s.toDiskSuperblock)
    (hw : Superblock.write c s block = .ok (s', block')) (junk : Superblock) :
    (∃ t buffer, Superblock.init c junk s.rootKey s.rootIv block' = .ok (t, buffer) ∧
        t.toDiskSuperblock = s'.toDiskSuperblock) ↔
      junk.lastCheckpointPack = s.lastCheckpointPack ∧ s.magic = superblockMagic := by
  obtain ⟨hs', buffer, hread⟩ := Superblock.read_write hc hfits hw junk
  rw [Superblock.init, hread]
  obtain ⟨t, ht⟩ : ∃ t, t = Superblock.copyFields
    { junk with rootKey := s.rootKey, rootIv := s.rootIv } s'.toDiskSuperblock := ⟨_, rfl⟩
  have hfields : t.toDiskSuperblock =
      { s'.toDiskSuperblock with lastCheckpointPack := junk.lastCheckpointPack } := by
    rw [ht]
    rfl
  simp only [← ht]
  refine ⟨fun ⟨t', buffer', hok, heq⟩ => ?_, fun ⟨hpack, hmagic⟩ => ?_⟩
  · split at hok
    · rename_i hvalid
      obtain ⟨rfl, rfl⟩ := Prod.mk.inj (Except.ok.inj hok)
      have hmagic : t.magic = superblockMagic := by
        rw [Superblock.validate, Bool.and_eq_true] at hvalid
        exact of_decide_eq_true hvalid.1
      have hpack : t.lastCheckpointPack = s'.lastCheckpointPack :=
        congrArg DiskSuperblock.lastCheckpointPack heq
      rw [hfields] at hpack
      rw [heq, hs'] at hmagic
      rw [hs'] at hpack
      exact ⟨hpack, hmagic⟩
    · cases hok
  · have heq : t.toDiskSuperblock = s'.toDiskSuperblock := by
      rw [hfields, hpack, hs']
    have hvalid : t.validate = true := by
      rw [Superblock.validate, heq, hs', Superblock.checksum_csum, Bool.and_eq_true]
      exact ⟨decide_eq_true hmagic, decide_eq_true rfl⟩
    exact ⟨t, buffer, if_pos hvalid, heq⟩

/-- A cipher that adds the first byte of the key and the IV and sums up the bytes for its mac. -/
def addingIvAead : IvAeadCipher where
  encrypt key iv data :=
    .ok (data.map (· + (key.toList.headD 0 + iv.toList.headD 0)),
      List.replicate aesGcmAuthSize (key.toList.getD 1 0 + data.sum))
  decrypt key iv data mac :=
    let plain := data.map (· - (key.toList.headD 0 + iv.toList.headD 0))
    if mac = List.replicate aesGcmAuthSize (key.toList.getD 1 0 + plain.sum) then .ok plain
    else .error (-74)

theorem addingIvAead_lawful : addingIvAead.Lawful := by
  refine ⟨fun key iv data out mac h => ?_, fun key iv data out mac h => ?_,
    fun key iv data out mac h => ?_⟩
  all_goals obtain ⟨rfl, rfl⟩ := Prod.mk.inj (Except.ok.inj h)
  · exact List.length_map ..
  · exact List.length_replicate
  · simp only [addingIvAead, map_sub_map_add, if_true]

/-- A superblock as a small device may have it. -/
def sampleSuperblock : Superblock where
  csum := 0
  magic := superblockMagic
  blocksPerSeg := 1024
  nrSegment := 330
  dataStart := 47000
  commonRatio := 10
  nrDiskLevel := 2
  maxDiskLevelCapacity := 337920
  indexRegionStart := 1
  journalSize := 64
  nrJournal := 1032192
  recordStart := 5
  recordEnd := 9
  lastCheckpointPack := 0
  journalRegionStart := 20000
  segValidityTableStart := 36384
  dataSegTableStart := 36386
  reverseIndexTableStart := 36400
  blockIndexTableCatalogueStart := 37722
  rootMac := List.replicate aesGcmAuthSize 0
  rootKey := .replicate _ 7
  rootIv := .replicate _ 3

theorem sampleSuperblock_fits : DiskSuperblock.layout.Fits sampleSuperblock.toDiskSuperblock := by
  refine ⟨?_, ?_, ?_, ?_, ?_, ?_, ?_, ?_, ?_, ?_, ?_, ?_, ?_, ?_, ?_, ?_, ?_, ?_, ?_⟩ <;>
    exact Packed.uint_fits.mpr (by decide)

theorem superblock_reload_iff_sample : ∃ s' block', Superblock.write addingIvAead sampleSuperblock
    (List.replicate 4096 0) = .ok (s', block') ∧
      ∃ t buffer, Superblock.init addingIvAead sampleSuperblock sampleSuperblock.rootKey
        sampleSuperblock.rootIv block' = .ok (t, buffer) ∧
          t.toDiskSuperblock = s'.toDiskSuperblock :=
  ⟨_, _, rfl, (superblock_reload_iff addingIvAead_lawful sampleSuperblock_fits rfl
    sampleSuperblock).mpr ⟨rfl, rfl⟩⟩

/-- With other memory the checksum is wrong. -/
theorem superblock_not_reloaded : ∃ s' block', Superblock.write addingIvAead sampleSuperblock
    (List.replicate 4096 0) = .ok (s', block') ∧
      Superblock.init addingIvAead { sampleSuperblock with lastCheckpointPack := 1 }
        sampleSuperblock.rootKey sampleSuperblock.rootIv block' = .error (-EACCES) := by
  refine ⟨_, _, rfl, ?_⟩
  obtain ⟨-, buffer, hread⟩ := Superblock.read_write addingIvAead_lawful sampleSuperblock_fits rfl
    { sampleSuperblock with lastCheckpointPack := 1 }
  have hsum : DiskSuperblock.checksum { sampleSuperblock.toDiskSuperblock with
      csum := sampleSuperblock.checksum, lastCheckpointPack := 1 } ≠ sampleSuperblock.checksum := by
    decide +kernel
  rw [Superblock.init, hread]
  refine if_neg fun hvalid => hsum ?_
  rw [Superblock.validate, Bool.and_eq_true] at hvalid
  exact of_decide_eq_true hvalid.2

end JinDisk
