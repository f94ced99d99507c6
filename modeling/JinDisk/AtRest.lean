import JinDisk.Coherence

/-!
# What the untrusted device sees of the metadata

The cipher of the disk arrays is `cbc(aes)` behind `__aes_cbc_cipher_helper`
(`aesCbcCipher`). `meta_write_cb` and the read path both ask it for
`METADATA_BLOCK_SIZE` bytes, which the guard of the helper rejects, and neither
looks at the return code: every metadata block goes to the device, and comes back
from it, as it is. The tables therefore stay consistent with themselves
(`Holds.run_clear`), and a block handed to the device is its own plaintext.
-/

namespace JinDisk

open Machine

/-- A byte buffer as a metadata block. -/
def blockOfBytes (l : Bytes) : MetaBlock := Vector.ofFn fun i => l.getD i.1 0

theorem blockOfBytes_toList (b : MetaBlock) : blockOfBytes b.toList = b := by
  apply Vector.ext
  intro i hi
  simp [blockOfBytes, List.getD_eq_getElem?_getD]

/-- `aes_cbc_cipher_encrypt` and `aes_cbc_cipher_decrypt` as the disk arrays call them:
in place, on `METADATA_BLOCK_SIZE` bytes, without an IV. -/
def aesCbcCipher (tfm : CbcAes) : Skcipher where
  encrypt key seq b :=
    let r := aesCbcCipherHelper tfm .encrypt b.toList metadataBlockSize key none seq b.toList
    (r.1, blockOfBytes r.2)
  decrypt key seq b :=
    let r := aesCbcCipherHelper tfm .decrypt b.toList metadataBlockSize key none seq b.toList
    (r.1, blockOfBytes r.2)

theorem blockSize_lt_metadataBlockSize : (blockSize : Int) < (metadataBlockSize : Int) := by
  decide

/-- The helper rejects a metadata block and leaves the buffer alone. -/
theorem aesCbcCipher_encrypt (tfm : CbcAes) (key : Bytes) (seq : ℕ) (b : MetaBlock) :
    (aesCbcCipher tfm).encrypt key seq b = (-EINVAL, b) := by
  simp only [aesCbcCipher,
    aesCbcCipherHelper_too_long tfm _ _ blockSize_lt_metadataBlockSize, blockOfBytes_toList]

theorem aesCbcCipher_decrypt (tfm : CbcAes) (key : Bytes) (seq : ℕ) (b : MetaBlock) :
    (aesCbcCipher tfm).decrypt key seq b = (-EINVAL, b) := by
  simp only [aesCbcCipher,
    aesCbcCipherHelper_too_long tfm _ _ blockSize_lt_metadataBlockSize, blockOfBytes_toList]

variable {A : DiskArray} {tfm : CbcAes}

theorem metaWriteCb_aesCbcCipher (seq : ℕ) (b : MetaBlock) :
    metaWriteCb A (aesCbcCipher tfm) seq b = b := by
  rw [metaWriteCb, aesCbcCipher_encrypt]

/-- A cipher that changes nothing never makes a cached block unreadable. -/
theorem Holds.readable_clear {s : Bufio} {P : Plain} (h : Holds A (aesCbcCipher tfm) s P)
    (b : ℕ) : Readable A (aesCbcCipher tfm) s P b := by
  rcases hc : s.cache b with _ | buf
  · have hdisk := h.disk b fun buf hbuf => by rw [hc] at hbuf; cases hbuf
    rw [Readable, JinDisk.acquire, hc, aesCbcCipher_decrypt, hdisk, metaWriteCb_aesCbcCipher]
  · rw [Readable, JinDisk.acquire, hc]
    rcases hw : buf.writtenBack with _ | _
    · exact h.plain b buf hc (Or.inl hw)
    rcases hd : buf.dirty with _ | _
    · have hcipher := h.cipher b buf hc hw hd
      rw [metaWriteCb_aesCbcCipher] at hcipher
      exact hcipher
    · exact h.plain b buf hc (Or.inr hd)

theorem Holds.accesses_clear {s : Bufio} {P : Plain} (h : Holds A (aesCbcCipher tfm) s P)
    (op : ArrayOp A) : Accesses A (aesCbcCipher tfm) s P op := by
  cases op with
  | set index entry => exact fun _ => h.readable_clear _
  | get index => exact fun _ => h.readable_clear _
  | format value => trivial
  | writeBack b => trivial
  | evict b => trivial

theorem holds_init_clear (disk : ℕ → MetaBlock) :
    Holds A (aesCbcCipher tfm) (Bufio.init disk) disk := by
  refine ⟨?_, ?_, fun b _ => (metaWriteCb_aesCbcCipher b (disk b)).symm⟩
  · intro b buf hc
    cases hc
  · intro b buf hc
    cases hc

/-- The refinement along an arbitrary run: nothing has to be assumed about when blocks
are written back. -/
theorem Holds.run_clear {s s' : Bufio} {P : Plain} {ops : List (ArrayOp A)}
    (h : Holds A (aesCbcCipher tfm) s P)
    (hrun : exec (arrayStep A (aesCbcCipher tfm)) s ops = some s') :
    Holds A (aesCbcCipher tfm) s' (plainRun A P ops) := by
  induction ops generalizing s P with
  | nil =>
    obtain rfl := Option.some.inj hrun
    exact h
  | cons op ops ih =>
    obtain ⟨t, ht, hrest⟩ := exec_cons_eq_some hrun
    exact ih (h.step (h.accesses_clear op) ht) hrest

/-! ## Encryption at rest -/

/-- Every write-back of the run, as a property of the block number, the plaintext of the
block at that moment and the block `meta_write_cb` hands to the device. -/
def EveryWrite (A : DiskArray) (tfm : CbcAes) (disk : ℕ → MetaBlock) (ops : List (ArrayOp A))
    (p : ℕ → MetaBlock → MetaBlock → Prop) : Prop :=
  ∀ pre b post s buf, ops = pre ++ .writeBack b :: post →
    exec (arrayStep A (aesCbcCipher tfm)) (Bufio.init disk) pre = some s →
    s.cache b = some buf → buf.dirty = true →
    p b (plainRun A disk pre b) (metaWriteCb A (aesCbcCipher tfm) b buf.data)

/-- `c` is the AES-CBC encryption of `m` under the array's key and the IV generated from
the block number. -/
def IsCbcOf (A : DiskArray) (tfm : CbcAes) (b : ℕ) (m c : MetaBlock) : Prop :=
  tfm.encrypt A.key (generateIv b aesCbcIvSize) m.toList = .ok c.toList

/-- What is handed to the device is the plaintext itself. -/
theorem write_is_plain (A : DiskArray) (tfm : CbcAes) (disk : ℕ → MetaBlock)
    (ops : List (ArrayOp A)) : EveryWrite A tfm disk ops fun _ m c => c = m := by
  intro pre b post s buf _ hrun hc hd
  have h : Holds A (aesCbcCipher tfm) s (plainRun A disk pre) :=
    (holds_init_clear disk).run_clear hrun
  rw [metaWriteCb_aesCbcCipher]
  exact h.plain b buf hc (Or.inr hd)

/-- **Metadata is encrypted at rest exactly when encryption changes nothing**: in every
run, every block handed to the device is the AES-CBC encryption of its plaintext if and
only if every such plaintext is a fixed point of that encryption. -/
theorem encrypted_at_rest_iff_fixed_points (A : DiskArray) (tfm : CbcAes)
    (disk : ℕ → MetaBlock) (ops : List (ArrayOp A)) :
    EveryWrite A tfm disk ops (IsCbcOf A tfm) ↔
      EveryWrite A tfm disk ops fun b m _ => IsCbcOf A tfm b m m := by
  constructor
  · intro h pre b post s buf hops hrun hc hd
    have hcbc := h pre b post s buf hops hrun hc hd
    rw [write_is_plain A tfm disk ops pre b post s buf hops hrun hc hd] at hcbc
    exact hcbc
  · intro h pre b post s buf hops hrun hc hd
    rw [write_is_plain A tfm disk ops pre b post s buf hops hrun hc hd]
    exact h pre b post s buf hops hrun hc hd

/-- A toy transform that, like AES, maps no block to itself: complement every byte. -/
def complementCbc : CbcAes where
  encrypt _ _ p := .ok (p.map (· ^^^ 0xff))
  decrypt _ _ c := .ok (c.map (· ^^^ 0xff))

theorem xor_ff_ne_self (x : UInt8) : x ^^^ 0xff ≠ x := by
  intro h
  have hzero : x ^^^ (x ^^^ 0xff) = x ^^^ x := by rw [h]
  rw [← UInt8.xor_assoc, UInt8.xor_self, UInt8.zero_xor] at hzero
  exact absurd hzero (by decide)

theorem complement_ne_self (b : MetaBlock) : b.toList.map (· ^^^ 0xff) ≠ b.toList := by
  intro h
  have hlen : b.toList.length = metadataBlockSize := Vector.length_toList ..
  cases hb : b.toList with
  | nil =>
    rw [hb] at hlen
    exact absurd hlen (by decide)
  | cons x xs =>
    rw [hb, List.map_cons] at h
    exact xor_ff_ne_self x (List.cons.inj h).1

/-- `format`, `set(0, 5)`, write-back of block 0: the reverse index table reaches the device
in clear. -/
theorem rit_block_written_in_clear :
    ¬EveryWrite sampleRit complementCbc sampleDisk (sampleOps ++ [.writeBack 0])
      (IsCbcOf sampleRit complementCbc) := by
  intro h
  have hrun : exec (arrayStep sampleRit (aesCbcCipher complementCbc)) (Bufio.init sampleDisk)
      sampleOps = some sampleCached := exec_cons_of rfl (exec_cons_of rfl rfl)
  have hcached : sampleCached.cache 0 = some ⟨sampleBlock, true, false⟩ :=
    Bufio.hold_cache_self ..
  have hcbc := h sampleOps 0 [] sampleCached _ rfl hrun hcached rfl
  rw [write_is_plain sampleRit complementCbc sampleDisk _ sampleOps 0 [] sampleCached _ rfl hrun
    hcached rfl] at hcbc
  exact complement_ne_self _ (Except.ok.inj hcbc)

end JinDisk
