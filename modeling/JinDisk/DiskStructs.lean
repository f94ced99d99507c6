import JinDisk.Lib.Run
import JinDisk.Crypto
import Mathlib.Logic.Function.Basic

/-!
# Disk arrays over `dm_bufio` (`disk_structs.c`, `meta_write_cb`)

SVT, DST, RIT and the block index table catalogue are all `disk_array`s: entries
of a fixed size packed into 4096-byte metadata blocks, which are reached through
a `dm_bufio` client. `dm_bufio` is a write-back cache of block buffers: it may
write a dirty buffer to the device at any time, calling `meta_write_cb` on the
cached data in place and keeping the buffer as a clean one, and it may drop a
clean buffer at any time.

The machine below has the three array operations and these two background events
as actions. Over it stands the abstract meaning of an array: the plaintext of
every block (`Plain`), which only `set` and `format` change.
-/

namespace JinDisk

/-- `METADATA_BLOCK_SIZE` -/
def metadataBlockSize : ℕ := 4096

/-- The contents of a metadata block. -/
abbrev MetaBlock : Type := Vector UInt8 metadataBlockSize

/-- A `struct skcipher` at the length and IV the disk arrays use it with
(`METADATA_BLOCK_SIZE`, `NULL`), in place: key and seq, then the return code and
the buffer afterwards. -/
structure Skcipher where
  /-- `sc->encrypt(sc, data, METADATA_BLOCK_SIZE, key, NULL, seq, data)` -/
  encrypt : Bytes → ℕ → MetaBlock → Int × MetaBlock
  /-- `sc->decrypt(sc, data, METADATA_BLOCK_SIZE, key, NULL, seq, data)` -/
  decrypt : Bytes → ℕ → MetaBlock → Int × MetaBlock

/-- Encryption and decryption succeed on metadata blocks and are mutual inverses
for equal key and seq. -/
structure Skcipher.Lawful (sc : Skcipher) : Prop where
  encrypt_ok : ∀ key seq b, (sc.encrypt key seq b).1 = 0
  decrypt_ok : ∀ key seq b, (sc.decrypt key seq b).1 = 0
  decrypt_encrypt : ∀ key seq b, (sc.decrypt key seq (sc.encrypt key seq b).2).2 = b
  encrypt_decrypt : ∀ key seq b, (sc.encrypt key seq (sc.decrypt key seq b).2).2 = b

/-- `struct disk_array`. Every array the driver creates has entries of at least
one byte and at most one block (8 bytes in SVT and RIT, 136 in DST). -/
structure DiskArray where
  /-- first block of the array -/
  start : ℕ
  /-- number of entries -/
  nrEntry : ℕ
  /-- size of an entry in bytes -/
  entrySize : ℕ
  /-- the cipher key -/
  key : Bytes
  entrySize_pos : 0 < entrySize
  entrySize_le : entrySize ≤ metadataBlockSize

namespace DiskArray

variable (A : DiskArray)

/-- The bytes of one entry. -/
abbrev Entry : Type := Vector UInt8 A.entrySize

/-- `entries_per_block` -/
def entriesPerBlock : ℕ := metadataBlockSize / A.entrySize

theorem entriesPerBlock_pos : 0 < A.entriesPerBlock :=
  Nat.div_pos A.entrySize_le A.entrySize_pos

/-- `disk_array_entry_block` -/
def entryBlock (index : ℕ) : ℕ := A.start + index / A.entriesPerBlock

/-- `disk_array_entry_offset` -/
def entryOffset (index : ℕ) : ℕ := index % A.entriesPerBlock * A.entrySize

/-- `__disk_array_blocks` at the array's own numbers -/
def blocks : ℕ := A.nrEntry / A.entriesPerBlock + 1

/-- An entry lies inside its block. -/
theorem entryOffset_add_le (index : ℕ) :
    A.entryOffset index + A.entrySize ≤ metadataBlockSize := by
  have hmod : index % A.entriesPerBlock + 1 ≤ A.entriesPerBlock :=
    Nat.mod_lt _ A.entriesPerBlock_pos
  calc A.entryOffset index + A.entrySize
      = (index % A.entriesPerBlock + 1) * A.entrySize := by
        rw [entryOffset, Nat.add_mul, Nat.one_mul]
    _ ≤ A.entriesPerBlock * A.entrySize := Nat.mul_le_mul_right _ hmod
    _ ≤ metadataBlockSize := Nat.div_mul_le_self _ _

/-- Two different entries of one block do not overlap. -/
theorem entryOffset_disjoint {i j : ℕ} (hne : i ≠ j)
    (hblk : A.entryBlock i = A.entryBlock j) :
    A.entryOffset i + A.entrySize ≤ A.entryOffset j ∨
      A.entryOffset j + A.entrySize ≤ A.entryOffset i := by
  have hdiv : i / A.entriesPerBlock = j / A.entriesPerBlock := by
    rw [entryBlock, entryBlock] at hblk
    omega
  have hmod : i % A.entriesPerBlock ≠ j % A.entriesPerBlock := by
    intro hm
    apply hne
    rw [← Nat.div_add_mod i A.entriesPerBlock, ← Nat.div_add_mod j A.entriesPerBlock,
      hdiv, hm]
  have hstep : ∀ {a b : ℕ}, a < b → a * A.entrySize + A.entrySize ≤ b * A.entrySize := by
    intro a b hab
    rw [← Nat.succ_mul]
    exact Nat.mul_le_mul_right _ hab
  rcases Nat.lt_or_gt_of_ne hmod with hlt | hgt
  · exact Or.inl (hstep hlt)
  · exact Or.inr (hstep hgt)

/-- Every accepted index falls into one of the blocks `disk_array_format`
covers. -/
theorem entryBlock_lt {i : ℕ} (hi : i < A.nrEntry) :
    A.entryBlock i < A.start + A.blocks := by
  have : i / A.entriesPerBlock ≤ A.nrEntry / A.entriesPerBlock :=
    Nat.div_le_div_right (Nat.le_of_lt hi)
  rw [entryBlock, blocks]
  omega

end DiskArray

/-! ## Copying entries in and out of a block -/

section

variable {N n m off off' : ℕ}

/-- `memcpy(data + off, entry, n)` -/
def memcpyIn (b : Vector UInt8 N) (off : ℕ) (e : Vector UInt8 n) : Vector UInt8 N :=
  Vector.ofFn fun i =>
    if h : off ≤ i.1 ∧ i.1 - off < n then e[(⟨i.1 - off, h.2⟩ : Fin n)] else b[i]

/-- `memcpy(entry, data + off, n)` -/
def memcpyOut (b : Vector UInt8 N) (off n : ℕ) : Vector UInt8 n :=
  Vector.ofFn fun j => if h : off + j.1 < N then b[(⟨off + j.1, h⟩ : Fin N)] else 0

/-- A buffer as `memset(data, value ? 0xff : 0, n)` leaves it. -/
def memsetBytes (value : Bool) (n : ℕ) : Vector UInt8 n :=
  Vector.replicate n (if value then 0xff else 0)

/-- What was copied in is read back. -/
theorem memcpyOut_memcpyIn_self (b : Vector UInt8 N) (e : Vector UInt8 n)
    (hfit : off + n ≤ N) : memcpyOut (memcpyIn b off e) off n = e := by
  apply Vector.ext
  intro j hj
  have hlt : off + j < N := by omega
  simp [memcpyOut, memcpyIn, hlt]

/-- Copying elsewhere is not seen. -/
theorem memcpyOut_memcpyIn_of_disjoint (b : Vector UInt8 N) (e : Vector UInt8 n)
    (hdisj : off + n ≤ off' ∨ off' + m ≤ off) :
    memcpyOut (memcpyIn b off e) off' m = memcpyOut b off' m := by
  apply Vector.ext
  intro j hj
  by_cases hlt : off' + j < N
  · have hout : ¬(off ≤ off' + j ∧ off' + j - off < n) := by omega
    simp [memcpyOut, memcpyIn, hlt, hout]
  · simp [memcpyOut, hlt]

theorem memcpyOut_memsetBytes (value : Bool) (hfit : off + n ≤ N) :
    memcpyOut (memsetBytes value N) off n = memsetBytes value n := by
  apply Vector.ext
  intro j hj
  have hlt : off + j < N := by omega
  simp [memcpyOut, memsetBytes, hlt]

end

/-! ## The cache and the array operations -/

/-- A `struct dm_buffer`. `writtenBack` is a history variable: the buffer has been
written to the device since it was read or created, so `meta_write_cb` has run on
the cached data. -/
structure DmBuffer where
  /-- `dm_bufio_get_block_data` -/
  data : MetaBlock
  /-- marked by `dm_bufio_mark_buffer_dirty` -/
  dirty : Bool
  /-- written to the device since it was read or created -/
  writtenBack : Bool

/-- The device below a `dm_bufio` client and the buffers the client holds. -/
structure Bufio where
  /-- the blocks on the device -/
  disk : ℕ → MetaBlock
  /-- the cached buffers -/
  cache : ℕ → Option DmBuffer

/-- A client that holds no buffer. -/
def Bufio.init (disk : ℕ → MetaBlock) : Bufio := ⟨disk, fun _ => none⟩

/-- Put a buffer into the cache. -/
def Bufio.hold (s : Bufio) (b : ℕ) (buf : DmBuffer) : Bufio :=
  { s with cache := Function.update s.cache b (some buf) }

/-- Write a block to the device. -/
def Bufio.write (s : Bufio) (b : ℕ) (data : MetaBlock) : Bufio :=
  { s with disk := Function.update s.disk b data }

/-- Take a buffer out of the cache. -/
def Bufio.drop (s : Bufio) (b : ℕ) : Bufio :=
  { s with cache := Function.update s.cache b none }

@[simp] theorem Bufio.hold_disk (s : Bufio) (b : ℕ) (buf : DmBuffer) :
    (s.hold b buf).disk = s.disk := rfl

@[simp] theorem Bufio.hold_cache_self (s : Bufio) (b : ℕ) (buf : DmBuffer) :
    (s.hold b buf).cache b = some buf := Function.update_self ..

theorem Bufio.hold_cache_of_ne (s : Bufio) {b b' : ℕ} (hb : b' ≠ b) (buf : DmBuffer) :
    (s.hold b buf).cache b' = s.cache b' := Function.update_of_ne hb ..

@[simp] theorem Bufio.write_cache (s : Bufio) (b : ℕ) (data : MetaBlock) :
    (s.write b data).cache = s.cache := rfl

@[simp] theorem Bufio.write_disk_self (s : Bufio) (b : ℕ) (data : MetaBlock) :
    (s.write b data).disk b = data := Function.update_self ..

theorem Bufio.write_disk_of_ne (s : Bufio) {b b' : ℕ} (hb : b' ≠ b) (data : MetaBlock) :
    (s.write b data).disk b' = s.disk b' := Function.update_of_ne hb ..

@[simp] theorem Bufio.drop_disk (s : Bufio) (b : ℕ) : (s.drop b).disk = s.disk := rfl

theorem Bufio.drop_cache_of_ne (s : Bufio) {b b' : ℕ} (hb : b' ≠ b) :
    (s.drop b).cache b' = s.cache b' := Function.update_of_ne hb ..

/-- A buffer that is still cached after a drop is another one. -/
theorem Bufio.drop_cache_eq_some {s : Bufio} {b b' : ℕ} {buf : DmBuffer}
    (h : (s.drop b).cache b' = some buf) : b' ≠ b ∧ s.cache b' = some buf := by
  by_cases hb : b' = b
  · subst hb
    have hnone : (s.drop b').cache b' = none := Function.update_self ..
    rw [hnone] at h
    cases h
  · exact ⟨hb, (s.drop_cache_of_ne hb).symm.trans h⟩

section

variable (A : DiskArray) (sc : Skcipher)

/-- The common part of `disk_array_set` and `disk_array_get`: `dm_bufio_get`
returns the buffer if it is cached; otherwise `dm_bufio_read` brings it in and the
array decrypts it in place. -/
def acquire (s : Bufio) (b : ℕ) : DmBuffer :=
  match s.cache b with
  | some buf => buf
  | none => ⟨(sc.decrypt A.key b (s.disk b)).2, false, false⟩

/-- `disk_array_set`; `none` for `-EINVAL`. -/
def diskArraySet (s : Bufio) (index : ℕ) (entry : A.Entry) : Option Bufio :=
  if A.nrEntry ≤ index then none
  else
    let b := A.entryBlock index
    let buf := acquire A sc s b
    some (s.hold b
      { buf with data := memcpyIn buf.data (A.entryOffset index) entry, dirty := true })

/-- `disk_array_get`: the entry read and the client afterwards; `none` for
`-EINVAL`. -/
def diskArrayGet (s : Bufio) (index : ℕ) : Option (A.Entry × Bufio) :=
  if A.nrEntry ≤ index then none
  else
    let b := A.entryBlock index
    let buf := acquire A sc s b
    some (memcpyOut buf.data (A.entryOffset index) A.entrySize, s.hold b buf)

/-- `disk_array_format`: every block is obtained with `dm_bufio_new`, filled and
marked dirty. -/
def diskArrayFormat (s : Bufio) (value : Bool) : Bufio :=
  (List.range A.blocks).foldl
    (fun s shift => s.hold (A.start + shift) ⟨memsetBytes value metadataBlockSize, true, false⟩) s

/-- `meta_write_cb`: the block handed to the device, which is also what the cached
buffer holds from then on. The return code of the cipher is not looked at. -/
def metaWriteCb (seq : ℕ) (data : MetaBlock) : MetaBlock := (sc.encrypt A.key seq data).2

/-- An action on a disk array and the cache below it. -/
inductive ArrayOp : Type where
  /-- `disk_array_format` -/
  | format (value : Bool) : ArrayOp
  /-- `disk_array_set` -/
  | set (index : ℕ) (entry : A.Entry) : ArrayOp
  /-- `disk_array_get` -/
  | get (index : ℕ) : ArrayOp
  /-- `dm_bufio` writes a dirty buffer back -/
  | writeBack (b : ℕ) : ArrayOp
  /-- `dm_bufio` drops a clean buffer -/
  | evict (b : ℕ) : ArrayOp

/-- One action. A rejected `set` or `get` changes nothing; a write-back needs a
dirty buffer and an eviction a clean one. -/
def arrayStep (s : Bufio) : ArrayOp A → Option Bufio
  | .format value => some (diskArrayFormat A s value)
  | .set index entry => some ((diskArraySet A sc s index entry).getD s)
  | .get index => some (((diskArrayGet A sc s index).map Prod.snd).getD s)
  | .writeBack b =>
    match s.cache b with
    | some buf =>
      if buf.dirty then
        let data := metaWriteCb A sc b buf.data
        some ((s.write b data).hold b ⟨data, false, true⟩)
      else none
    | none => none
  | .evict b =>
    match s.cache b with
    | some buf =>
      if buf.dirty then none else some (s.drop b)
    | none => none

end

end JinDisk
