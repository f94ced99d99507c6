import Mathlib.Data.List.Basic
import Mathlib.Logic.Function.Iterate

/-!
# The block ciphers (`crypto.c`)

Two ciphers are used by the driver. Data blocks and block index table nodes go
through `aes_gcm_cipher_encrypt`; what matters of it here is the pair of key
and IV each call is made with, so a call is recorded as a `GcmCall`. Metadata
blocks go through `__aes_cbc_cipher_helper`, which has a length guard and a
rounding of its own in front of the kernel's `cbc(aes)`; that function is
modelled in full, over the kernel transform as a parameter.
-/

namespace JinDisk

/-- A byte buffer. -/
abbrev Bytes : Type := List UInt8

/-- `EINVAL`. -/
def EINVAL : Int := 22

/-- `ENODATA` -/
def ENODATA : Int := 61

/-! ## `cbc(aes)` -/

/-- `AES_CBC_BLOCK_SIZE` -/
def aesCbcBlockSize : ℕ := 16

/-- `AES_CBC_BLOCK_MASK` -/
def aesCbcBlockMask : ℕ := aesCbcBlockSize - 1

/-- `AES_CBC_IV_SIZE` -/
def aesCbcIvSize : ℕ := 16

/-- `BLOCK_SIZE` as `include/uapi/linux/fs.h` defines it; the driver uses the
name without defining it. -/
def blockSize : ℕ := 1024

/-- The kernel's `cbc(aes)` transform after `crypto_skcipher_setkey`: what
`crypto_skcipher_encrypt` and `crypto_skcipher_decrypt` make of a buffer under
a key and an IV, or the (negative) code they fail with. -/
structure CbcAes where
  /-- `crypto_skcipher_encrypt`: key, IV, plaintext -/
  encrypt : Bytes → Bytes → Bytes → Except Int Bytes
  /-- `crypto_skcipher_decrypt`: key, IV, ciphertext -/
  decrypt : Bytes → Bytes → Bytes → Except Int Bytes

/-- The `op` argument of `__aes_cbc_cipher_helper`. -/
inductive CbcOp : Type where
  /-- `AES_CBC_ENCRYPT` -/
  | encrypt : CbcOp
  /-- `AES_CBC_DECRYPT` -/
  | decrypt : CbcOp
  deriving DecidableEq

/-- One bit of the kernel's big-endian CRC. -/
def crc32BeBit (crc : UInt32) : UInt32 :=
  (crc <<< 1) ^^^ (if crc &&& 0x80000000 = 0 then 0 else 0x04c11db7)

/-- `crc32_be` -/
def crc32Be (crc : UInt32) (p : Bytes) : UInt32 :=
  p.foldl (fun c b => crc32BeBit^[8] (c ^^^ (b.toUInt32 <<< (24 : UInt32)))) crc

/-- Store a 32-bit word in little-endian order at byte offset `off`. -/
def storeU32 (p : Bytes) (off : ℕ) (w : UInt32) : Bytes :=
  p.take off ++ [w.toUInt8, (w >>> 8).toUInt8, (w >>> 16).toUInt8, (w >>> 24).toUInt8]
    ++ p.drop (off + 4)

/-- `generate_iv`: clear the buffer, then overwrite it word by word, each word
being the CRC of the buffer as it is at that point. -/
def generateIv (seed len : ℕ) : Bytes :=
  (List.range (len / 4)).foldl
    (fun iv k => storeU32 iv (4 * k) (crc32Be (UInt32.ofNat seed) iv))
    (List.replicate len 0)

/-- The length `__aes_cbc_cipher_helper` hands to the cipher. -/
def aesCbcAlign (len : ℕ) : ℕ :=
  if len &&& aesCbcBlockMask = 0 then len
  else ((len ||| aesCbcBlockMask) ^^^ aesCbcBlockMask) + 1

/-- `__aes_cbc_cipher_helper`: the return code and the contents of `dst`
afterwards. The mutex is taken and the key is accepted. -/
def aesCbcCipherHelper (tfm : CbcAes) (op : CbcOp) (src : Bytes) (len : Int) (key : Bytes)
    (iv : Option Bytes) (seq : ℕ) (dst : Bytes) : Int × Bytes :=
  if len ≤ 0 ∨ (blockSize : Int) < len then (-EINVAL, dst)
  else
    let n := aesCbcAlign len.toNat
    let riv := iv.getD (generateIv seq aesCbcIvSize)
    let r := match op with
      | .encrypt => tfm.encrypt key riv (src.take n)
      | .decrypt => tfm.decrypt key riv (src.take n)
    match r with
    | .ok out => (0, out ++ dst.drop n)
    | .error e => (e, dst)

/-- A length beyond `BLOCK_SIZE` is rejected before the cipher is reached, and
the destination keeps what it held. -/
theorem aesCbcCipherHelper_too_long (tfm : CbcAes) (op : CbcOp) (src : Bytes) {len : Int}
    (hlen : (blockSize : Int) < len) (key : Bytes) (iv : Option Bytes) (seq : ℕ) (dst : Bytes) :
    aesCbcCipherHelper tfm op src len key iv seq dst = (-EINVAL, dst) := by
  rw [aesCbcCipherHelper, if_pos (Or.inr hlen)]

/-! ## `gcm(aes)` -/

/-- `AES_GCM_IV_SIZE` -/
def aesGcmIvSize : ℕ := 12

/-- One call of `aes_gcm_cipher_encrypt`, as the cipher sees it: the key, the
IV actually used and the plaintext. The `seq` argument enters the associated
data only. -/
structure GcmCall (κ π : Type) where
  /-- the key -/
  key : κ
  /-- the IV -/
  riv : Bytes
  /-- the plaintext -/
  data : π
  deriving DecidableEq

/-- `aes_gcm_cipher_encrypt`: the IV is the caller's, or all zeroes when the
caller passes `NULL`. -/
def aesGcmCipherEncrypt {κ π : Type} (data : π) (key : κ) (iv : Option Bytes) : GcmCall κ π :=
  ⟨key, iv.getD (List.replicate aesGcmIvSize 0), data⟩

end JinDisk
