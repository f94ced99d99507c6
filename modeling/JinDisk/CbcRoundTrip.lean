import Mathlib.Order.Bounds.Basic
import JinDisk.Crypto

/-!
# There and back through `__aes_cbc_cipher_helper`

The helper is meant to round a length up to whole cipher blocks. What `aesCbcAlign` computes is
the length rounded *down*, plus one: right for a length that is aligned already, where the
rounding is skipped, and never a multiple of the block size otherwise. So the helper works
exactly on the lengths that needed no rounding.
-/

namespace JinDisk

/-- `AES_CBC_KEY_SIZE` -/
def aesCbcKeySize : ℕ := 16

/-! ## What is passed to the cipher -/

theorem and_aesCbcBlockMask (len : ℕ) : len &&& aesCbcBlockMask = len % aesCbcBlockSize :=
  Nat.and_two_pow_sub_one_eq_mod len 4

/-- The trick with the mask: setting the low bits and taking them away again leaves the whole
blocks. -/
theorem or_xor_aesCbcBlockMask (len : ℕ) :
    (len ||| aesCbcBlockMask) ^^^ aesCbcBlockMask = aesCbcBlockSize * (len / aesCbcBlockSize) := by
  apply Nat.eq_of_testBit_eq
  intro i
  have hmask : aesCbcBlockMask.testBit i = decide (i < 4) := Nat.testBit_two_pow_sub_one 4 i
  have hright : (aesCbcBlockSize * (len / aesCbcBlockSize)).testBit i =
      (decide (4 ≤ i) && len.testBit i) := by
    have hdiv : (len / 2 ^ 4).testBit (i - 4) = len.testBit (i - 4 + 4) :=
      Nat.testBit_div_two_pow len (i - 4)
    have hmul : (2 ^ 4 * (len / 2 ^ 4)).testBit i =
        (decide (4 ≤ i) && (len / 2 ^ 4).testBit (i - 4)) := Nat.testBit_two_pow_mul
    rw [show aesCbcBlockSize = 2 ^ 4 from rfl, hmul]
    by_cases hi : 4 ≤ i
    · rw [hdiv, Nat.sub_add_cancel hi]
    · simp only [hi, decide_false, Bool.false_and]
  rw [Nat.testBit_xor, Nat.testBit_or, hmask, hright]
  by_cases hi : i < 4
  · simp only [hi, not_le.mpr hi, decide_true, decide_false, Bool.or_true, Bool.false_and,
      Bool.xor_self]
  · simp only [hi, not_lt.mp hi, decide_true, decide_false, Bool.or_false, Bool.true_and,
      Bool.xor_false]

theorem aesCbcAlign_of_dvd {len : ℕ} (h : aesCbcBlockSize ∣ len) : aesCbcAlign len = len := by
  rw [aesCbcAlign, and_aesCbcBlockMask, if_pos (Nat.mod_eq_zero_of_dvd h)]

theorem aesCbcAlign_of_not_dvd {len : ℕ} (h : ¬aesCbcBlockSize ∣ len) :
    aesCbcAlign len = aesCbcBlockSize * (len / aesCbcBlockSize) + 1 := by
  rw [aesCbcAlign, and_aesCbcBlockMask, if_neg (mt Nat.dvd_of_mod_eq_zero h),
    or_xor_aesCbcBlockMask]

/-- A length that is not aligned does not get aligned. -/
theorem dvd_aesCbcAlign {len : ℕ} : aesCbcBlockSize ∣ aesCbcAlign len ↔ aesCbcBlockSize ∣ len := by
  by_cases h : aesCbcBlockSize ∣ len
  · rw [aesCbcAlign_of_dvd h]
  · refine iff_of_false ?_ h
    rw [aesCbcAlign_of_not_dvd h, Nat.dvd_add_right (Nat.dvd_mul_right _ _)]
    decide

/-! ## The initialization vector -/

theorem storeU32_length {p : Bytes} {off : ℕ} (w : UInt32) (h : off + 4 ≤ p.length) :
    (storeU32 p off w).length = p.length := by
  simp only [storeU32, List.length_append, List.length_take, List.length_drop, List.length_cons,
    List.length_nil]
  omega

/-- `generate_iv` fills the buffer without growing it. -/
theorem generateIv_length (seed len : ℕ) : (generateIv seed len).length = len := by
  have hfold : ∀ ks : List ℕ, (∀ k ∈ ks, 4 * k + 4 ≤ len) → ∀ iv : Bytes, iv.length = len →
      (ks.foldl (fun iv k => storeU32 iv (4 * k) (crc32Be (UInt32.ofNat seed) iv)) iv).length =
        len := by
    intro ks
    induction ks with
    | nil => exact fun _ iv hiv => hiv
    | cons k ks ih =>
      intro hks iv hiv
      refine ih (fun k' hk' => hks k' (List.mem_cons_of_mem k hk')) _ ?_
      rw [storeU32_length _ (by rw [hiv]; exact hks k List.mem_cons_self), hiv]
  refine hfold _ (fun k hk => ?_) _ List.length_replicate
  have hlt := List.mem_range.mp hk
  omega

/-! ## The round trip -/

/-- What the kernel promises of `cbc(aes)`: it takes whole cipher blocks, at least one of them
and nothing else, keeps their number, and decryption inverts encryption. -/
structure CbcAes.Lawful (tfm : CbcAes) : Prop where
  /-- when encryption succeeds -/
  encrypt_ok : ∀ key iv p, key.length = aesCbcKeySize → iv.length = aesCbcIvSize →
    ((∃ c, tfm.encrypt key iv p = .ok c) ↔ 0 < p.length ∧ aesCbcBlockSize ∣ p.length)
  /-- when decryption succeeds -/
  decrypt_ok : ∀ key iv c, key.length = aesCbcKeySize → iv.length = aesCbcIvSize →
    ((∃ p, tfm.decrypt key iv c = .ok p) ↔ 0 < c.length ∧ aesCbcBlockSize ∣ c.length)
  /-- the ciphertext has the length of the plaintext -/
  length_eq : ∀ key iv p c, tfm.encrypt key iv p = .ok c → c.length = p.length
  /-- decryption inverts encryption -/
  decrypt_encrypt : ∀ key iv p c, tfm.encrypt key iv p = .ok c → tfm.decrypt key iv c = .ok p

/-- The helper does what it is there for on `len` bytes of `src`: it hands the cipher the least
whole number of blocks that holds them, both directions return success, and decrypting what
encryption left in `dst` brings the bytes back. -/
def CbcRoundTrip (tfm : CbcAes) (src : Bytes) (len : ℕ) (key : Bytes) (iv : Option Bytes)
    (seq : ℕ) (dst dst' : Bytes) : Prop :=
  let enc := aesCbcCipherHelper tfm .encrypt src len key iv seq dst
  let dec := aesCbcCipherHelper tfm .decrypt enc.2 len key iv seq dst'
  IsLeast {n | aesCbcBlockSize ∣ n ∧ len ≤ n} (aesCbcAlign len) ∧
    enc.1 = 0 ∧ dec.1 = 0 ∧ dec.2.take len = src.take len

variable {tfm : CbcAes} {src key dst dst' : Bytes} {len : ℕ} {iv : Option Bytes} {seq : ℕ}

/-- Between the guards the helper is the kernel's cipher on the first `aesCbcAlign len` bytes. -/
theorem aesCbcCipherHelper_encrypt {c : Bytes} (hpos : 0 < len) (hle : len ≤ blockSize)
    (h : tfm.encrypt key (iv.getD (generateIv seq aesCbcIvSize)) (src.take (aesCbcAlign len)) =
      .ok c) :
    aesCbcCipherHelper tfm .encrypt src len key iv seq dst =
      (0, c ++ dst.drop (aesCbcAlign len)) := by
  rw [aesCbcCipherHelper, if_neg (by omega)]
  simp only [Int.toNat_natCast, h]

theorem aesCbcCipherHelper_decrypt {p : Bytes} (hpos : 0 < len) (hle : len ≤ blockSize)
    (h : tfm.decrypt key (iv.getD (generateIv seq aesCbcIvSize)) (src.take (aesCbcAlign len)) =
      .ok p) :
    aesCbcCipherHelper tfm .decrypt src len key iv seq dst =
      (0, p ++ dst.drop (aesCbcAlign len)) := by
  rw [aesCbcCipherHelper, if_neg (by omega)]
  simp only [Int.toNat_natCast, h]

/-- **Where the helper works.** Of the lengths its guard lets through, those that are a multiple
of the block size to begin with. -/
theorem cbc_round_trip_iff (htfm : tfm.Lawful) (hpos : 0 < len) (hle : len ≤ blockSize)
    (hsrc : len ≤ src.length) (hkey : key.length = aesCbcKeySize)
    (hiv : ∀ v ∈ iv, v.length = aesCbcIvSize) :
    CbcRoundTrip tfm src len key iv seq dst dst' ↔ aesCbcBlockSize ∣ len := by
  constructor
  · intro h
    exact dvd_aesCbcAlign.mp h.1.1.1
  · intro hdvd
    have halign := aesCbcAlign_of_dvd hdvd
    have hriv : (iv.getD (generateIv seq aesCbcIvSize)).length = aesCbcIvSize := by
      cases iv with
      | none => exact generateIv_length seq aesCbcIvSize
      | some v => exact hiv v rfl
    have htake : (src.take len).length = len := List.length_take_of_le hsrc
    obtain ⟨c, hc⟩ := (htfm.encrypt_ok key _ (src.take len) hkey hriv).mpr
      ⟨by rw [htake]; exact hpos, by rw [htake]; exact hdvd⟩
    have hclen : c.length = len := (htfm.length_eq _ _ _ _ hc).trans htake
    have henc : aesCbcCipherHelper tfm .encrypt src len key iv seq dst =
        (0, c ++ dst.drop (aesCbcAlign len)) := by
      apply aesCbcCipherHelper_encrypt hpos hle
      rw [halign]
      exact hc
    have hdec : aesCbcCipherHelper tfm .decrypt (c ++ dst.drop (aesCbcAlign len)) len key iv seq
        dst' = (0, src.take len ++ dst'.drop (aesCbcAlign len)) := by
      apply aesCbcCipherHelper_decrypt hpos hle
      rw [halign, List.take_left' hclen]
      exact htfm.decrypt_encrypt _ _ _ _ hc
    simp only [CbcRoundTrip, henc, hdec, true_and]
    refine ⟨⟨⟨?_, ?_⟩, fun n hn => ?_⟩, ?_⟩
    · rw [halign]
      exact hdvd
    · exact halign.ge
    · rw [halign]
      exact hn.2
    · exact List.take_left' htake

/-! ## A length that is not aligned -/

/-- A small stand-in for `cbc(aes)`: whole blocks only, and every byte is shifted by what key and
IV add up to. -/
def addingCbc : CbcAes where
  encrypt key iv p :=
    if 0 < p.length ∧ aesCbcBlockSize ∣ p.length then .ok (p.map (· + (key ++ iv).foldl (· + ·) 0))
    else .error (-EINVAL)
  decrypt key iv c :=
    if 0 < c.length ∧ aesCbcBlockSize ∣ c.length then .ok (c.map (· - (key ++ iv).foldl (· + ·) 0))
    else .error (-EINVAL)

theorem addingCbc_lawful : addingCbc.Lawful := by
  constructor
  · intro key iv p _ _
    simp only [addingCbc]
    split <;> simp [*]
  · intro key iv c _ _
    simp only [addingCbc]
    split <;> simp [*]
  · intro key iv p c h
    simp only [addingCbc] at h
    split at h
    · obtain rfl := Except.ok.inj h
      exact List.length_map _
    · cases h
  · intro key iv p c h
    simp only [addingCbc] at h ⊢
    split at h
    · obtain rfl := Except.ok.inj h
      rw [List.length_map, if_pos ‹_›, List.map_map]
      simp [Function.comp_def]
    · cases h

/-- Twenty bytes: the cipher is given seventeen of them and turns them down. -/
theorem cbc_unaligned_refused :
    aesCbcAlign 20 = 17 ∧
      (aesCbcCipherHelper addingCbc .encrypt (List.replicate 20 7) 20 (List.replicate 16 1)
        none 5 (List.replicate 32 0)).1 = -EINVAL ∧
      ¬CbcRoundTrip addingCbc (List.replicate 20 7) 20 (List.replicate 16 1) none 5
        (List.replicate 32 0) (List.replicate 32 0) := by
  refine ⟨by decide, by decide, fun h => ?_⟩
  exact absurd (dvd_aesCbcAlign.mp h.1.1.1) (by decide)

/-- Two blocks go through. -/
theorem cbc_round_trip_sample :
    CbcRoundTrip addingCbc (List.replicate 32 7) 32 (List.replicate 16 1) none 5
      (List.replicate 32 0) (List.replicate 32 0) :=
  (cbc_round_trip_iff addingCbc_lawful (by decide) (by decide) (by decide) (by decide)
    (by simp)).mpr (by decide)

end JinDisk
