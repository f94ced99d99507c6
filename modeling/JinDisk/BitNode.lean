import Mathlib.Data.UInt
import JinDisk.Lib.Packed
import JinDisk.BitBuilder

/-!
# Nodes of a block index table on disk

`struct bit_node` is packed: a byte for `is_leaf`, then the leaf or the inner node, then the mac.
`bit_node_encode` encrypts what lies in front of the mac, in place, and `bit_node_decode` undoes
this. How long the node is, the reader has to know beforehand.

The places of an inner node that are not in use hold whatever was in the memory. Nothing reads
them; here they are zeroes.
-/

namespace JinDisk

/-! ## The layout -/

/-- `AES_GCM_KEY_SIZE` -/
def aesGcmKeySize : ℕ := 16

/-- A key: `char[AES_GCM_KEY_SIZE]` -/
abbrev GcmKey : Type := Vector UInt8 aesGcmKeySize

theorem GcmKey.ofFn_toList (k : GcmKey) : Vector.ofFn (fun i => k.toList.getD i 0) = k := by
  refine Vector.ext fun i hi => ?_
  simp [List.getD_eq_getElem?_getD]

/-- A key in memory. -/
def GcmKey.layout : Packed GcmKey :=
  (Packed.raw aesGcmKeySize).via Vector.toList (fun bs => Vector.ofFn fun i => bs.getD i 0)
    GcmKey.ofFn_toList

/-- `struct record` in memory -/
def Record.layout : Packed (Record GcmKey) :=
  ((Packed.uint 8).pair ((Packed.raw aesGcmAuthSize).pair GcmKey.layout)).via
    (fun r => (r.pba, r.mac, r.key)) (fun x => ⟨x.1, x.2.1, x.2.2⟩) fun _ => rfl

/-- `struct bit_leaf` in memory -/
def BitLeaf.layout : Packed (BitLeaf GcmKey) :=
  ((Packed.uint 8).pair (((Packed.uint 4).array bitLeafLen).pair
    ((Record.layout.array bitLeafLen).pair (Packed.uint 8)))).via
      (fun l => (l.nrRecord, l.keys, l.records, l.nextPos))
      (fun x => ⟨x.1, x.2.1, x.2.2.1, x.2.2.2⟩) fun _ => rfl

/-- A flag, in the lowest bit of its byte. -/
def flagLayout : Packed Bool :=
  (Packed.uint 1).via Bool.toNat (fun n => n % 2 = 1) (by decide)

/-- `struct bit_child` in memory -/
def BitChild.layout : Packed BitChild :=
  (flagLayout.pair ((Packed.uint 4).pair (Packed.uint 8))).via
    (fun c => (c.isLeaf, c.key, c.pos)) (fun x => ⟨x.1, x.2.1, x.2.2⟩) fun _ => rfl

/-- The places behind the children in use. -/
def fillChildren (children : List BitChild) : List BitChild :=
  children ++ List.replicate (defaultBitDegree - children.length) ⟨false, 0, 0⟩

/-- `struct bit_inner` in memory -/
def bitInnerLayout : Packed (List BitChild) :=
  ((Packed.uint 8).pair (BitChild.layout.array defaultBitDegree)).via
    (fun children => (children.length, fillChildren children)) (fun x => x.2.take x.1)
    fun _ => List.take_left

/-! ## What fits -/

/-- Every value of the C type. -/
def Record.Fits (r : Record GcmKey) : Prop := r.pba < 2 ^ 64 ∧ r.mac.length = aesGcmAuthSize

/-- The same for a leaf. -/
structure BitLeaf.Fits (l : BitLeaf GcmKey) : Prop where
  /-- the counter -/
  nrRecord : l.nrRecord ≤ bitLeafLen
  /-- the keys -/
  keys : l.keys.length = bitLeafLen ∧ ∀ k ∈ l.keys, k < 2 ^ 32
  /-- the records -/
  records : l.records.length = bitLeafLen ∧ ∀ r ∈ l.records, r.Fits
  /-- the position of the next leaf -/
  nextPos : l.nextPos < 2 ^ 64

/-- The same for a child. -/
def BitChild.Fits (c : BitChild) : Prop := c.key < 2 ^ 32 ∧ c.pos < 2 ^ 64

theorem Record.Fits.layout {r : Record GcmKey} (h : r.Fits) : Record.layout.Fits r :=
  ⟨h.1, h.2, Vector.length_toList⟩

theorem BitLeaf.Fits.layout {l : BitLeaf GcmKey} (h : l.Fits) : BitLeaf.layout.Fits l :=
  ⟨Nat.lt_of_le_of_lt h.nrRecord (by decide), h.keys, ⟨h.records.1, fun r hr =>
    (h.records.2 r hr).layout⟩, h.nextPos⟩

theorem BitChild.Fits.layout {c : BitChild} (h : c.Fits) : BitChild.layout.Fits c := by
  refine ⟨?_, h.1, h.2⟩
  show c.isLeaf.toNat < 256 ^ 1
  cases c.isLeaf <;> decide

theorem bitInnerLayout_fits {children : List BitChild} (hlen : children.length ≤ defaultBitDegree)
    (h : ∀ c ∈ children, c.Fits) : bitInnerLayout.Fits children := by
  refine ⟨Nat.lt_of_le_of_lt hlen (by decide), ?_, fun c hc => ?_⟩
  · show (children ++ List.replicate _ _).length = _
    rw [List.length_append, List.length_replicate, Nat.add_sub_cancel' hlen]
  · rcases List.mem_append.mp hc with hc | hc
    · exact (h c hc).layout
    · rw [List.eq_of_mem_replicate hc]
      exact BitChild.Fits.layout ⟨by decide, by decide⟩

/-! ## Encoding -/

/-- A `struct aead_cipher` as the nodes use it: in place, without an IV and with `seq` 0. -/
structure AeadCipher where
  /-- `encrypt`: the data and the mac afterwards -/
  encrypt : GcmKey → Bytes → Bytes × Bytes
  /-- `decrypt`: the data afterwards, or an error -/
  decrypt : GcmKey → Bytes → Bytes → Except Int Bytes

/-- Decryption undoes encryption under the same key. -/
structure AeadCipher.Lawful (c : AeadCipher) : Prop where
  length_encrypt : ∀ key data, (c.encrypt key data).1.length = data.length
  length_mac : ∀ key data, (c.encrypt key data).2.length = aesGcmAuthSize
  decrypt_encrypt : ∀ key data,
    c.decrypt key (c.encrypt key data).1 (c.encrypt key data).2 = .ok data

/-- A cipher that adds the first byte of the key and sums up the bytes for its mac. -/
def addingAead : AeadCipher where
  encrypt key data := (data.map (· + key[0]), List.replicate aesGcmAuthSize (key[1] + data.sum))
  decrypt key data mac :=
    if mac = List.replicate aesGcmAuthSize (key[1] + (data.map (· - key[0])).sum) then
      .ok (data.map (· - key[0]))
    else .error (-74)

theorem map_sub_map_add (x : UInt8) (data : Bytes) : (data.map (· + x)).map (· - x) = data := by
  rw [List.map_map]
  refine (List.map_congr_left fun b _ => ?_).trans (List.map_id data)
  exact UInt8.add_sub_cancel b x

theorem addingAead_lawful : addingAead.Lawful := by
  refine ⟨fun key data => List.length_map .., fun key data => List.length_replicate,
    fun key data => ?_⟩
  simp only [addingAead, map_sub_map_add, if_true]

/-- The node in front of its mac. -/
def BitNode.bytes : BitNode GcmKey → Bytes
  | leaf l => flagLayout.write true ++ BitLeaf.layout.write l
  | inner children => flagLayout.write false ++ bitInnerLayout.write children

/-- The bytes a node takes in the file. -/
def BitNode.nodeSize : BitNode GcmKey → ℕ
  | leaf _ => bitLeafNodeSize
  | inner _ => bitInnerNodeSize

/-- The node can be stored. -/
def BitNode.Fits : BitNode GcmKey → Prop
  | leaf l => l.Fits
  | inner children => children.length ≤ defaultBitDegree ∧ ∀ c ∈ children, c.Fits

/-- `bit_node_encode`: the node afterwards, with its mac -/
def bitNodeEncode (c : AeadCipher) (key : GcmKey) (node : BitNode GcmKey) : Bytes :=
  (c.encrypt key node.bytes).1 ++ (c.encrypt key node.bytes).2

/-- `bit_node_decode` -/
def bitNodeDecode (c : AeadCipher) (data : Bytes) (isLeaf : Bool) (key : GcmKey) : Except Int Bytes :=
  let len := (if isLeaf then bitLeafNodeSize else bitInnerNodeSize) - aesGcmAuthSize
  c.decrypt key (data.take len) ((data.drop len).take aesGcmAuthSize)

/-- A leaf that is read and decoded. -/
def decodeLeaf (c : AeadCipher) (key : GcmKey) (data : Bytes) : Except Int (BitLeaf GcmKey) :=
  (bitNodeDecode c data true key).map fun bs => BitLeaf.layout.read (bs.drop flagLayout.size)

/-- An inner node that is read and decoded. -/
def decodeInner (c : AeadCipher) (key : GcmKey) (data : Bytes) : Except Int (List BitChild) :=
  (bitNodeDecode c data false key).map fun bs => bitInnerLayout.read (bs.drop flagLayout.size)

variable {c : AeadCipher} {key : GcmKey} {node : BitNode GcmKey}

theorem flagLayout_fits (b : Bool) : flagLayout.Fits b := by
  show b.toNat < 256 ^ 1
  cases b <;> decide

theorem length_bytes (h : node.Fits) : node.bytes.length + aesGcmAuthSize = node.nodeSize := by
  cases node with
  | leaf l =>
    rw [BitNode.bytes, List.length_append, flagLayout.length_write _ (flagLayout_fits true),
      BitLeaf.layout.length_write _ (BitLeaf.Fits.layout h)]
    rfl
  | inner children =>
    rw [BitNode.bytes, List.length_append, flagLayout.length_write _ (flagLayout_fits false),
      bitInnerLayout.length_write _ (bitInnerLayout_fits h.1 h.2)]
    rfl

/-- An encoded node has its size. -/
theorem length_bitNodeEncode (hc : c.Lawful) (h : node.Fits) (key : GcmKey) :
    (bitNodeEncode c key node).length = node.nodeSize := by
  rw [bitNodeEncode, List.length_append, hc.length_encrypt, hc.length_mac, length_bytes h]

/-- **Decoding undoes encoding.** -/
theorem bitNodeDecode_encode (hc : c.Lawful) (h : node.Fits) (key : GcmKey) :
    bitNodeDecode c (bitNodeEncode c key node) node.isLeaf key = .ok node.bytes := by
  have hlen : (c.encrypt key node.bytes).1.length =
      (if node.isLeaf then bitLeafNodeSize else bitInnerNodeSize) - aesGcmAuthSize := by
    have hsize := length_bytes h
    rw [hc.length_encrypt]
    cases node <;> exact Nat.eq_sub_of_add_eq hsize
  have hmac := hc.length_mac key node.bytes
  rw [bitNodeDecode, bitNodeEncode, List.take_left' hlen, List.drop_left' hlen, ← hmac,
    List.take_length, hc.decrypt_encrypt]

theorem decodeLeaf_encode (hc : c.Lawful) {l : BitLeaf GcmKey} (h : l.Fits) (key : GcmKey) :
    decodeLeaf c key (bitNodeEncode c key (.leaf l)) = .ok l := by
  have hdec := bitNodeDecode_encode hc (show (BitNode.leaf l).Fits from h) key
  have hread := BitLeaf.layout.read_write l h.layout []
  rw [List.append_nil] at hread
  rw [BitNode.isLeaf] at hdec
  rw [decodeLeaf, hdec, BitNode.bytes, Except.map,
    List.drop_left' (flagLayout.length_write _ (flagLayout_fits true)), hread]

theorem decodeInner_encode (hc : c.Lawful) {children : List BitChild}
    (hlen : children.length ≤ defaultBitDegree) (h : ∀ x ∈ children, x.Fits) (key : GcmKey) :
    decodeInner c key (bitNodeEncode c key (.inner children)) = .ok children := by
  have hdec := bitNodeDecode_encode hc (show (BitNode.inner children).Fits from ⟨hlen, h⟩) key
  have hread := bitInnerLayout.read_write children (bitInnerLayout_fits hlen h) []
  rw [List.append_nil] at hread
  rw [BitNode.isLeaf] at hdec
  rw [decodeInner, hdec, BitNode.bytes, Except.map,
    List.drop_left' (flagLayout.length_write _ (flagLayout_fits false)), hread]

end JinDisk
