import JinDisk.BitBuilder
import JinDisk.SegmentBuffer
import JinDisk.Lib.KeyLog
import JinDisk.Lib.Run

/-!
# Nonces of AES-GCM

Three parts of the device encrypt with `aes_gcm_cipher_encrypt`: a data segment encrypts
the blocks it flushes, a block index table encrypts its nodes, and the superblock encrypts
itself. The first two pass a `NULL` IV, which stands for twelve zero bytes; the superblock
always passes the same IV. So it all comes down to who shares a key with whom: a segment
draws one key for all its blocks, a builder draws one key for all its nodes, and the root
key never changes.

The machine below runs any sequence of pushes, flushes, builder calls and superblock
writes. Its history variables (`sealed`, `drawn`, `calls`) record what was encrypted. It
refines the bookkeeping of `KeyLog`, which gives the exact reach of the guarantee: a pair
of key and IV never sees two plaintexts as long as every segment flushes one plaintext
only, no table with an entry in it is completed, and the superblock never changes.
-/

namespace JinDisk

open Machine

/-- What is encrypted: a data block, a node of a block index table together with the bits
of it that the code leaves as `kmalloc` returned them, or the superblock. -/
inductive Plaintext (κ D S : Type) where
  /-- a data block -/
  | block (data : D)
  /-- a table node -/
  | node (n : BitNode κ) (junk : Bytes)
  /-- the superblock -/
  | superblock (sb : S)

/-- Who draws and uses keys. -/
inductive KeyOwner where
  /-- a data segment of the pool -/
  | segment (i : PoolIndex)
  /-- a builder, numbered in the order of creation -/
  | builder (j : ℕ)
  /-- the superblock -/
  | root
  deriving DecidableEq

/-- The encrypting parts of the device. -/
structure GcmDevice (κ D S : Type) where
  /-- the segment buffer -/
  segbuf : SegBuf κ D
  /-- the builders created so far -/
  builders : List (BitBuilder κ)
  /-- `root_key` -/
  rootKey : κ
  /-- `root_iv` -/
  rootIv : Bytes
  /-- history: the keys in use so far -/
  drawn : List κ
  /-- history: what each owner encrypted since it drew its key -/
  sealed : KeyOwner → List (Plaintext κ D S)
  /-- history: the calls of `aes_gcm_cipher_encrypt` -/
  calls : List (GcmCall κ (Plaintext κ D S))

/-- The events of a run. -/
inductive GcmAction (κ D S : Type) where
  /-- `segbuf_push_block`; `key` is the next value of `get_random_bytes` -/
  | push (lba : ℕ) (data : D) (rflag : Bool) (key : κ)
  /-- `segbuf_flush_bios(index)` -/
  | flush (index : PoolIndex) (o : FlushOutcome)
  /-- `bit_builder_create`; `key` is the next value of `get_random_bytes` -/
  | create (begin : ℕ) (key : κ)
  /-- `bit_builder_add_entry` on builder `j` -/
  | addEntry (j key : ℕ) (val : Record κ) (junk : ℕ → Bytes)
  /-- `bit_builder_complete` on builder `j` -/
  | complete (j : ℕ) (junk : ℕ → Bytes)
  /-- `superblock_write` with the given contents -/
  | superblockWrite (sb : S)

variable {κ D S : Type}

namespace GcmDevice

/-- The device after `segbuf_init` and `superblock_init`. -/
def init (zeroKey segKey rootKey : κ) (rootIv : Bytes) : GcmDevice κ D S where
  segbuf := .init zeroKey segKey
  builders := []
  rootKey := rootKey
  rootIv := rootIv
  drawn := [segKey, rootKey]
  sealed := fun _ => []
  calls := []

/-- Owner `o` encrypts the plaintexts `ps`. -/
def encrypt (s : GcmDevice κ D S) (o : KeyOwner) (key : κ) (iv : Option Bytes)
    (ps : List (Plaintext κ D S)) : GcmDevice κ D S :=
  { s with
    sealed := Function.update s.sealed o (s.sealed o ++ ps)
    calls := s.calls ++ ps.map fun p => aesGcmCipherEncrypt p key iv }

/-- Owner `o` draws a key: one that `get_random_bytes` never returned before. -/
def draw [DecidableEq κ] (s : GcmDevice κ D S) (o : KeyOwner) (key : κ) : Option (GcmDevice κ D S) :=
  if key ∈ s.drawn then none
  else some { s with drawn := key :: s.drawn, sealed := Function.update s.sealed o [] }

/-- The plaintexts of a list of blocks. -/
def blockPlaintexts (blocks : List (ℕ × D)) : List (Plaintext κ D S) :=
  blocks.map fun b => .block b.2

/-- The plaintexts of a list of nodes. -/
def nodePlaintexts (nodes : List (BitNode κ)) (junk : ℕ → Bytes) : List (Plaintext κ D S) :=
  nodes.mapIdx fun i n => .node n (junk i)

/-- One event. -/
def step [DecidableEq κ] [Inhabited κ] (s : GcmDevice κ D S) : GcmAction κ D S → Option (GcmDevice κ D S)
  | .push lba data rflag key =>
    match s.segbuf.pushBlock lba data rflag key with
    | (sb, none) => some { s with segbuf := sb }
    | (sb, some _) => { s with segbuf := sb }.draw (.segment sb.curBuffer) key
  | .flush index o =>
    let ds := s.segbuf.buffer index
    some (s.encrypt (.segment index) ds.segKey none (blockPlaintexts (ds.flushed o)))
  | .create begin key =>
    { s with builders := s.builders ++ [BitBuilder.init begin key] }.draw
      (.builder s.builders.length) key
  | .addEntry j key val junk =>
    (s.builders[j]?).bind fun b => (b.addEntry key val).map fun r =>
      { s with builders := s.builders.set j r.1 }.encrypt (.builder j) b.bitKey none
        (nodePlaintexts r.2 junk)
  | .complete j junk =>
    (s.builders[j]?).map fun b =>
      { s with builders := s.builders.set j b.complete.1 }.encrypt (.builder j) b.bitKey none
        (nodePlaintexts b.complete.2 junk)
  | .superblockWrite sb => some (s.encrypt .root s.rootKey (some s.rootIv) [.superblock sb])

/-- No two calls with one key and one IV have different plaintexts. -/
def NonceUnique (calls : List (GcmCall κ (Plaintext κ D S))) : Prop :=
  ∀ c ∈ calls, ∀ c' ∈ calls, c.key = c'.key → c.riv = c'.riv → c.data = c'.data

/-- The events that keep nonces unique: a flush encrypts one plaintext, the one that
earlier flushes of the same segment encrypted; a builder takes less than two leaves of
entries and is completed only when it has none; the superblock is written with the contents
it was written with before. -/
def SingleUse (s : GcmDevice κ D S) : GcmAction κ D S → Prop
  | .push .. => True
  | .flush index o =>
    let blocks := blockPlaintexts ((s.segbuf.buffer index).flushed o)
    ∀ p ∈ blocks, ∀ q ∈ s.sealed (.segment index) ++ blocks, p = q
  | .create .. => True
  | .addEntry j .. => ∀ b, s.builders[j]? = some b → b.size + 1 < 2 * bitLeafLen
  | .complete j _ => ∀ b, s.builders[j]? = some b → b.size = 0
  | .superblockWrite sb => ∀ q ∈ s.sealed .root, q = .superblock sb

/-! ## The key log of a device -/

/-- The key an owner holds. A segment that was never initialised holds none. -/
def ownerKey (s : GcmDevice κ D S) : KeyOwner → Option κ
  | .segment i =>
    if i = s.segbuf.curBuffer ∨ (s.segbuf.buffer i).size ≠ 0 then
      some (s.segbuf.buffer i).segKey
    else none
  | .builder j => s.builders[j]?.map BitBuilder.bitKey
  | .root => some s.rootKey

/-- The device as a key log. -/
def keyLog (s : GcmDevice κ D S) : KeyLog KeyOwner κ (Plaintext κ D S) where
  key := s.ownerKey
  sealed := s.sealed
  drawn := s.drawn
  log := s.calls.map fun c => (c.key, c.data)

/-- The invariant: the key log is sound, and the builders have encoded at most their first
leaf. -/
structure Inv (s : GcmDevice κ D S) : Prop where
  /-- the key log is sound -/
  sound : s.keyLog.Sound
  /-- every builder is below its second leaf -/
  small : ∀ (j : ℕ) (b : BitBuilder κ), s.builders[j]? = some b → b.Small
  /-- before its first leaf is full a builder has encoded nothing -/
  unused : ∀ (j : ℕ) (b : BitBuilder κ), s.builders[j]? = some b → b.size < bitLeafLen →
    s.sealed (.builder j) = []
  /-- a builder that does not exist yet has encoded nothing -/
  fresh : ∀ j, s.builders.length ≤ j → s.sealed (.builder j) = []

/-- A key log that is sound gives unique nonces. -/
theorem nonceUnique_of_sound {s : GcmDevice κ D S} (h : s.keyLog.Sound) : NonceUnique s.calls := by
  intro c hc c' hc' hkey _
  refine h.unique (List.mem_map.mpr ⟨c, hc, rfl⟩) (List.mem_map.mpr ⟨c', hc', ?_⟩)
  rw [hkey]

/-- Encrypting is sealing in the key log. -/
theorem keyLog_encrypt (s : GcmDevice κ D S) (o : KeyOwner) (key : κ) (iv : Option Bytes)
    (ps : List (Plaintext κ D S)) :
    (s.encrypt o key iv ps).keyLog = s.keyLog.sealAll o key ps := by
  have hcalls : (s.encrypt o key iv ps).calls.map (fun c => (c.key, c.data)) =
      s.calls.map (fun c => (c.key, c.data)) ++ ps.map fun p => (key, p) := by
    simp [encrypt, aesGcmCipherEncrypt]
  rw [keyLog, KeyLog.sealAll, hcalls]
  rfl

/-! ## One event -/

/-- A push that does not turn the ring leaves every key where it was. -/
theorem keyLog_write (s : GcmDevice κ D S) (lba : ℕ) (data : D) :
    { s with segbuf := s.segbuf.write lba data }.keyLog = s.keyLog := by
  have hkey : { s with segbuf := s.segbuf.write lba data }.ownerKey = s.ownerKey := by
    funext o
    cases o with
    | segment i =>
      by_cases hi : i = s.segbuf.curBuffer
      · subst hi
        simp [ownerKey, SegBuf.cur]
      · simp [ownerKey, s.segbuf.write_buffer_of_ne lba data hi]
    | builder j => rfl
    | root => rfl
  rw [keyLog, hkey]
  rfl

/-- Drawing a key, in a device that differs from `s` only in giving that key to `o`, is a
draw in the key log of `s`. -/
theorem keyLog_draw [DecidableEq κ] {s s' t : GcmDevice κ D S} {o : KeyOwner} {key : κ}
    (hkey : s'.ownerKey = Function.update s.ownerKey o (some key)) (hsealed : s'.sealed = s.sealed)
    (hdrawn : s'.drawn = s.drawn) (hcalls : s'.calls = s.calls) (ht : s'.draw o key = some t) :
    key ∉ s.drawn ∧ t.keyLog = s.keyLog.draw o key ∧ t.builders = s'.builders ∧
      t.sealed = Function.update s.sealed o [] := by
  rw [draw, hdrawn, hsealed] at ht
  by_cases hmem : key ∈ s.drawn
  · rw [if_pos hmem] at ht
    cases ht
  · rw [if_neg hmem] at ht
    obtain rfl := Option.some.inj ht
    refine ⟨hmem, ?_, rfl, rfl⟩
    rw [KeyLog.draw]
    simp only [keyLog, ← hkey, ← hcalls]
    rfl

/-- A turn of the ring gives a key to the segment it turns to; the full segment keeps its
own. -/
theorem ownerKey_recycle (s : GcmDevice κ D S) (key : κ) (hfull : s.segbuf.full = true) :
    { s with segbuf := s.segbuf.recycle key }.ownerKey =
      Function.update s.ownerKey (.segment s.segbuf.next) (some key) := by
  have hcur : (s.segbuf.buffer s.segbuf.curBuffer).size ≠ 0 := by
    have hle : blocksPerSegment ≤ s.segbuf.cur.size := by simpa [SegBuf.full] using hfull
    have hpos : 0 < blocksPerSegment := by decide
    exact Nat.ne_of_gt (Nat.lt_of_lt_of_le hpos hle)
  funext o
  by_cases ho : o = .segment s.segbuf.next
  · subst ho
    simp [ownerKey]
  · rw [Function.update_of_ne ho]
    cases o with
    | segment i =>
      have hi : i ≠ s.segbuf.next := fun h => ho (h ▸ rfl)
      by_cases hi' : i = s.segbuf.curBuffer
      · subst hi'
        simp [ownerKey, s.segbuf.recycle_buffer_of_ne key hi, hcur]
      · simp [ownerKey, s.segbuf.recycle_buffer_of_ne key hi, hi, hi']
    | builder j => rfl
    | root => rfl

/-- A new builder is given its key. -/
theorem ownerKey_create [Inhabited κ] (s : GcmDevice κ D S) (begin : ℕ) (key : κ) :
    { s with builders := s.builders ++ [BitBuilder.init begin key] }.ownerKey =
      Function.update s.ownerKey (.builder s.builders.length) (some key) := by
  funext o
  by_cases ho : o = .builder s.builders.length
  · subst ho
    simp [ownerKey, BitBuilder.init]
  · rw [Function.update_of_ne ho]
    cases o with
    | segment i => rfl
    | builder j =>
      have hj : j ≠ s.builders.length := fun h => ho (h ▸ rfl)
      rcases Nat.lt_or_gt_of_ne hj with hlt | hgt
      · simp [ownerKey, List.getElem?_append_left hlt]
      · have hlen : (s.builders ++ [BitBuilder.init begin key]).length ≤ j := by
          simp only [List.length_append, List.length_cons, List.length_nil]
          omega
        simp only [ownerKey, List.getElem?_eq_none hlen, List.getElem?_eq_none hgt.le]
    | root => rfl

/-- Replacing a builder by one with the same key is not visible in the key log. -/
theorem keyLog_set (s : GcmDevice κ D S) {j : ℕ} {b b' : BitBuilder κ}
    (hb : s.builders[j]? = some b) (hkey : b'.bitKey = b.bitKey) :
    { s with builders := s.builders.set j b' }.keyLog = s.keyLog := by
  have hown : { s with builders := s.builders.set j b' }.ownerKey = s.ownerKey := by
    funext o
    cases o with
    | segment i => rfl
    | builder i =>
      by_cases hi : j = i
      · subst hi
        have hlt : j < s.builders.length := (List.getElem?_eq_some_iff.mp hb).1
        simp [ownerKey, List.getElem?_set_self hlt, hb, hkey]
      · simp [ownerKey, List.getElem?_set_ne hi]
    | root => rfl
  rw [keyLog, hown]
  rfl

@[simp] theorem encrypt_nil (s : GcmDevice κ D S) (o : KeyOwner) (key : κ) (iv : Option Bytes) :
    s.encrypt o key iv [] = s := by
  simp [encrypt]

@[simp] theorem encrypt_builders (s : GcmDevice κ D S) (o : KeyOwner) (key : κ)
    (iv : Option Bytes) (ps : List (Plaintext κ D S)) :
    (s.encrypt o key iv ps).builders = s.builders := rfl

theorem encrypt_sealed_of_ne (s : GcmDevice κ D S) {o o' : KeyOwner} (key : κ)
    (iv : Option Bytes) (ps : List (Plaintext κ D S)) (h : o' ≠ o) :
    (s.encrypt o key iv ps).sealed o' = s.sealed o' :=
  Function.update_of_ne h ..

/-- Encrypting by an owner other than a builder keeps the invariant when it seals one
plaintext. -/
theorem Inv.encrypt {s : GcmDevice κ D S} (h : s.Inv) {o : KeyOwner} {key : κ}
    {iv : Option Bytes} {ps : List (Plaintext κ D S)} (hkey : s.ownerKey o = some key)
    (hbuilder : ∀ j, o ≠ .builder j) (hone : ∀ p ∈ ps, ∀ q ∈ s.sealed o ++ ps, p = q) :
    (s.encrypt o key iv ps).Inv where
  sound := by
    rw [keyLog_encrypt]
    exact h.sound.sealAll hkey hone
  small := h.small
  unused := by
    intro j b hb hlt
    rw [encrypt_sealed_of_ne _ _ _ _ (hbuilder j).symm]
    exact h.unused j b hb hlt
  fresh := by
    intro j hj
    rw [encrypt_sealed_of_ne _ _ _ _ (hbuilder j).symm]
    exact h.fresh j hj

/-- A draw by a segment keeps the invariant. -/
theorem Inv.drawSegment [DecidableEq κ] {s s' t : GcmDevice κ D S} (h : s.Inv) {i : PoolIndex} {key : κ}
    (hkey : s'.ownerKey = Function.update s.ownerKey (.segment i) (some key))
    (hbuilders : s'.builders = s.builders) (hsealed : s'.sealed = s.sealed)
    (hdrawn : s'.drawn = s.drawn) (hcalls : s'.calls = s.calls)
    (ht : s'.draw (.segment i) key = some t) : t.Inv := by
  obtain ⟨hfresh, hlog, hb, hs⟩ := keyLog_draw hkey hsealed hdrawn hcalls ht
  have hs' : ∀ j, t.sealed (.builder j) = s.sealed (.builder j) := fun j => by
    rw [hs]
    exact Function.update_of_ne (by simp) ..
  rw [hbuilders] at hb
  refine ⟨hlog ▸ h.sound.draw hfresh, ?_, ?_, ?_⟩
  · intro j b hj
    exact h.small j b (hb ▸ hj)
  · intro j b hj hlt
    rw [hs']
    exact h.unused j b (hb ▸ hj) hlt
  · intro j hj
    rw [hs']
    exact h.fresh j (hb ▸ hj)

theorem inv_init {zeroKey segKey rootKey : κ} (rootIv : Bytes) (hroot : segKey ≠ rootKey) :
    (init zeroKey segKey rootKey rootIv : GcmDevice κ D S).Inv := by
  have hkey : ∀ {o k}, (init zeroKey segKey rootKey rootIv : GcmDevice κ D S).ownerKey o = some k →
      (o = .segment 0 ∧ k = segKey) ∨ (o = .root ∧ k = rootKey) := by
    intro o k hk
    cases o with
    | segment i =>
      by_cases hi : i = 0
      · subst hi
        refine Or.inl ⟨rfl, ?_⟩
        simpa [ownerKey, init, SegBuf.init, eq_comm] using hk
      · simp [ownerKey, init, SegBuf.init, hi] at hk
    | builder j => simp [ownerKey, init] at hk
    | root => exact Or.inr ⟨rfl, (Option.some.inj hk).symm⟩
  refine ⟨⟨?_, ?_, ?_, ?_, ?_⟩, ?_, ?_, ?_⟩
  · intro o k hk
    rcases hkey hk with ⟨-, rfl⟩ | ⟨-, rfl⟩ <;> simp [keyLog, init]
  · intro o o' k hk hk'
    rcases hkey hk with ⟨rfl, rfl⟩ | ⟨rfl, rfl⟩ <;> rcases hkey hk' with ⟨rfl, h⟩ | ⟨rfl, h⟩
    · rfl
    · exact absurd h hroot
    · exact absurd h.symm hroot
    · rfl
  all_goals simp [keyLog, init]

/-- A builder call keeps the invariant when the builder stays small and encodes nothing, or
its first leaf. -/
theorem Inv.builderCall {s : GcmDevice κ D S} (h : s.Inv) {j : ℕ} {b b' : BitBuilder κ}
    {nodes : List (BitNode κ)} (junk : ℕ → Bytes) (hb : s.builders[j]? = some b)
    (hsmall : b'.Small) (hkey : b'.bitKey = b.bitKey) (hsize : b.size ≤ b'.size)
    (hnodes : nodes = [] ∨ b.size < bitLeafLen ∧ bitLeafLen ≤ b'.size ∧ nodes.length = 1) :
    ({ s with builders := s.builders.set j b' }.encrypt (.builder j) b.bitKey none
      (nodePlaintexts nodes junk)).Inv := by
  have hlt : j < s.builders.length := (List.getElem?_eq_some_iff.mp hb).1
  have hget : ∀ i c, (s.builders.set j b')[i]? = some c →
      (i = j ∧ c = b') ∨ (i ≠ j ∧ s.builders[i]? = some c) := by
    intro i c hi
    by_cases hij : i = j
    · subst hij
      rw [List.getElem?_set_self hlt] at hi
      exact Or.inl ⟨rfl, (Option.some.inj hi).symm⟩
    · rw [List.getElem?_set_ne (Ne.symm hij)] at hi
      exact Or.inr ⟨hij, hi⟩
  have hone : ∀ p ∈ (nodePlaintexts nodes junk : List (Plaintext κ D S)),
      ∀ q ∈ s.sealed (.builder j) ++ nodePlaintexts nodes junk, p = q := by
    rcases hnodes with rfl | ⟨hfirst, -, hlen⟩
    · intro p hp
      simp [nodePlaintexts] at hp
    · obtain ⟨n, rfl⟩ := List.length_eq_one_iff.mp hlen
      rw [h.unused j b hb hfirst]
      simp [nodePlaintexts]
  constructor
  case sound =>
    rw [keyLog_encrypt, keyLog_set s hb hkey]
    refine h.sound.sealAll ?_ hone
    simp [keyLog, ownerKey, hb]
  case small =>
    intro i c hi
    rcases hget i c hi with ⟨-, rfl⟩ | ⟨-, hold⟩
    · exact hsmall
    · exact h.small i c hold
  case unused =>
    intro i c hi hc
    rcases hget i c hi with ⟨rfl, rfl⟩ | ⟨hij, hold⟩
    · rcases hnodes with rfl | ⟨-, hge, -⟩
      · simpa [nodePlaintexts] using h.unused i b hb (by omega)
      · omega
    · rw [encrypt_sealed_of_ne _ _ _ _ (by simpa using hij)]
      exact h.unused i c hold hc
  case fresh =>
    intro i hi
    have hij : i ≠ j := by
      rintro rfl
      simp only [encrypt_builders, List.length_set] at hi
      omega
    rw [encrypt_sealed_of_ne _ _ _ _ (by simpa using hij)]
    exact h.fresh i (by simpa using hi)

variable [DecidableEq κ] [Inhabited κ]

theorem Inv.push {s t : GcmDevice κ D S} (h : s.Inv) {lba : ℕ} {data : D} {rflag : Bool}
    {key : κ} (ht : s.step (.push lba data rflag key) = some t) : t.Inv := by
  simp only [GcmDevice.step] at ht
  rcases s.segbuf.pushBlock_cases lba data rflag key with
    ⟨-, -, heq⟩ | ⟨-, heq⟩ | ⟨hfull, heq⟩ <;> rw [heq] at ht
  · obtain rfl := Option.some.inj ht
    exact h
  · obtain rfl := Option.some.inj ht
    exact ⟨keyLog_write s lba data ▸ h.sound, h.small, h.unused, h.fresh⟩
  · -- the copy first, which no key notices, then the turn of the ring
    have hkey := ownerKey_recycle { s with segbuf := s.segbuf.write lba data } key hfull
    have hown : { s with segbuf := s.segbuf.write lba data }.ownerKey = s.ownerKey :=
      congrArg KeyLog.key (keyLog_write s lba data)
    rw [hown] at hkey
    exact h.drawSegment hkey rfl rfl rfl rfl ht

theorem Inv.flush {s t : GcmDevice κ D S} (h : s.Inv) {index : PoolIndex} {o : FlushOutcome}
    (hok : s.SingleUse (.flush index o)) (ht : s.step (.flush index o) = some t) : t.Inv := by
  obtain rfl := Option.some.inj ht
  by_cases hempty : (s.segbuf.buffer index).flushed o = []
  · simpa [hempty, blockPlaintexts] using h
  · refine h.encrypt ?_ (by simp) hok
    -- a segment with a block to flush holds a key
    have hsize : (s.segbuf.buffer index).size ≠ 0 := by
      intro hzero
      have hnil : (s.segbuf.buffer index).root.toList = [] :=
        Std.ExtTreeMap.toList_eq_nil_iff.mpr (Std.ExtTreeMap.eq_empty_iff_size_eq_zero.mpr hzero)
      apply hempty
      rw [DataSegment.flushed]
      cases o.segment <;> simp [hnil]
    simp [ownerKey, hsize]

theorem Inv.create {s t : GcmDevice κ D S} (h : s.Inv) {begin : ℕ} {key : κ}
    (ht : s.step (.create begin key) = some t) : t.Inv := by
  obtain ⟨hfresh, hlog, hb, hs⟩ := keyLog_draw (ownerKey_create s begin key) rfl rfl rfl ht
  have hbuilder : ∀ j b, t.builders[j]? = some b →
      s.builders[j]? = some b ∨ (j = s.builders.length ∧ b = .init begin key) := by
    intro j b hj
    rw [hb] at hj
    rcases Nat.lt_trichotomy j s.builders.length with hlt | rfl | hgt
    · rw [List.getElem?_append_left hlt] at hj
      exact Or.inl hj
    · rw [List.getElem?_concat_length] at hj
      exact Or.inr ⟨rfl, (Option.some.inj hj).symm⟩
    · rw [List.getElem?_eq_none (by simp; omega)] at hj
      cases hj
  have hsealed : ∀ j, s.sealed (.builder j) = [] → t.sealed (.builder j) = [] := by
    intro j hj
    rw [hs]
    by_cases hj' : (KeyOwner.builder j) = .builder s.builders.length
    · rw [hj', Function.update_self]
    · rw [Function.update_of_ne hj', hj]
  refine ⟨hlog ▸ h.sound.draw hfresh, ?_, ?_, ?_⟩
  · intro j b hj
    rcases hbuilder j b hj with hold | ⟨-, rfl⟩
    · exact h.small j b hold
    · exact BitBuilder.small_init ..
  · intro j b hj hlt
    rcases hbuilder j b hj with hold | ⟨rfl, -⟩
    · exact hsealed j (h.unused j b hold hlt)
    · exact hsealed _ (h.fresh _ le_rfl)
  · intro j hj
    refine hsealed j (h.fresh j ?_)
    rw [hb] at hj
    simp only [List.length_append, List.length_cons, List.length_nil] at hj
    omega

/-- Every event that meets the condition keeps the invariant. -/
theorem Inv.step {s t : GcmDevice κ D S} {a : GcmAction κ D S} (h : s.Inv) (hok : s.SingleUse a)
    (ht : s.step a = some t) : t.Inv := by
  cases a with
  | push lba data rflag key => exact h.push ht
  | flush index o => exact h.flush hok ht
  | create begin key => exact h.create ht
  | addEntry j key val junk =>
    obtain ⟨b, hb, hmap⟩ := Option.bind_eq_some_iff.mp ht
    obtain ⟨⟨b', nodes⟩, hadd, rfl⟩ := Option.map_eq_some_iff.mp hmap
    obtain ⟨hsmall, hkey, hsize, hnodes⟩ := (h.small j b hb).addEntry (hok b hb) hadd
    have hle : b.size ≤ b'.size := by omega
    exact h.builderCall junk hb hsmall hkey hle hnodes
  | complete j junk =>
    obtain ⟨b, hb, rfl⟩ := Option.map_eq_some_iff.mp ht
    obtain ⟨hsmall, hkey, hsize, hnodes⟩ := (h.small j b hb).complete_empty (hok b hb)
    exact h.builderCall junk hb hsmall hkey (by rw [hok b hb]; omega) (Or.inl hnodes)
  | superblockWrite sb =>
    obtain rfl := Option.some.inj ht
    refine h.encrypt rfl (by simp) ?_
    intro p hp q hq
    obtain rfl := List.mem_singleton.mp hp
    rcases List.mem_append.mp hq with hold | hnew
    · exact (hok q hold).symm
    · exact (List.mem_singleton.mp hnew).symm

/-- **Nonces are unique in every run that uses each key once**: whatever the order of
pushes, flushes, builder calls and superblock writes, no two calls of
`aes_gcm_cipher_encrypt` with one key and one IV have different plaintexts. -/
theorem nonce_unique {zeroKey segKey rootKey : κ} {rootIv : Bytes} (hroot : segKey ≠ rootKey)
    {as : List (GcmAction κ D S)} {s : GcmDevice κ D S}
    (hok : Along step SingleUse (init zeroKey segKey rootKey rootIv) as)
    (hrun : exec step (init zeroKey segKey rootKey rootIv) as = some s) : NonceUnique s.calls :=
  nonceUnique_of_sound
    (Machine.invariant (fun _ _ _ h hok ht => Inv.step h hok ht) (inv_init rootIv hroot) hok
      hrun).sound

/-! ## Sample runs -/

/-- A 16-byte key of one repeated byte. -/
def sampleKey (b : UInt8) : Bytes := List.replicate 16 b

/-- A device whose first segment holds the key `sampleKey 1`. -/
def sampleDevice : GcmDevice Bytes Bytes Bytes :=
  init (sampleKey 0) (sampleKey 1) (sampleKey 2) (List.replicate aesGcmIvSize 7)

/-- Two blocks are pushed and their segment is flushed. -/
def sampleRun (a b : Bytes) : List (GcmAction Bytes Bytes Bytes) :=
  [.push 0 a true (sampleKey 3), .push 1 b true (sampleKey 3), .flush 0 ⟨some 0, fun _ => none⟩]

theorem sampleRun_calls (a b : Bytes) :
    ∃ s, exec step sampleDevice (sampleRun a b) = some s ∧
      s.calls = [aesGcmCipherEncrypt (.block a) (sampleKey 1) none,
        aesGcmCipherEncrypt (.block b) (sampleKey 1) none] :=
  ⟨_, exec_cons_of rfl (exec_cons_of rfl (exec_cons_of rfl rfl)), rfl⟩

/-- Two different blocks of one segment are encrypted with one key and one IV. -/
theorem segment_reuses_nonce :
    ∃ s, exec step sampleDevice (sampleRun (fillBlock 0) (fillBlock 1)) = some s ∧
      ¬NonceUnique s.calls := by
  obtain ⟨s, hrun, hcalls⟩ := sampleRun_calls (fillBlock 0) (fillBlock 1)
  refine ⟨s, hrun, fun h => ?_⟩
  rw [hcalls] at h
  have heq := h _ List.mem_cons_self _ (List.mem_cons_of_mem _ List.mem_cons_self) rfl rfl
  have hblock : fillBlock 0 = fillBlock 1 := Plaintext.block.inj heq
  exact absurd (List.cons.inj hblock).1 (by decide)

/-- A segment that holds one plaintext twice. -/
theorem nonce_unique_sample :
    ∃ s, exec step sampleDevice (sampleRun (fillBlock 0) (fillBlock 0)) = some s ∧
      NonceUnique s.calls := by
  obtain ⟨s, hrun, -⟩ := sampleRun_calls (fillBlock 0) (fillBlock 0)
  refine ⟨s, hrun, nonce_unique ?_ ?_ hrun⟩
  · intro hkey
    exact absurd (List.cons.inj hkey).1 (by decide)
  · refine along_cons_of trivial rfl (along_cons_of trivial rfl (along_cons_of ?_ rfl trivial))
    intro p hp q hq
    have hblocks : ∀ r ∈ [Plaintext.block (fillBlock 0), .block (fillBlock 0)],
        r = (.block (fillBlock 0) : Plaintext Bytes Bytes Bytes) := by simp
    rw [hblocks p hp, hblocks q hq]

end GcmDevice

end JinDisk
