import JinDisk.BitWriter

/-!
# The table that is built

A table on disk is a list of groups. A group has up to `DEFAULT_BIT_DEGREE` leaves and the inner
node above them; the root lies above the groups. `Built` says what is on disk and in the buffer
after some entries: full groups, the leaves of a group that is still open, and the entries of a
leaf that is still open. `Finished` says what is there when the root is written.

Every leaf has the position of the next one, which is not yet written at that time. It is where
the buffer ends (`Chained`).
-/

namespace JinDisk

/-! ## Leaves -/

namespace BitLeaf

variable {κ : Type} {l : BitLeaf κ}

/-- The records in use, with their keys. -/
def entries (l : BitLeaf κ) : Leaf κ := (l.keys.zip l.records).take l.nrRecord

/-- The next place is filled. -/
def store (l : BitLeaf κ) (key : ℕ) (val : Record κ) : BitLeaf κ :=
  { l with
    keys := l.keys.set l.nrRecord key
    records := l.records.set l.nrRecord val
    nrRecord := l.nrRecord + 1 }

theorem length_entries (hk : l.keys.length = bitLeafLen) (hr : l.records.length = bitLeafLen)
    (hn : l.nrRecord ≤ bitLeafLen) : l.entries.length = l.nrRecord := by
  rw [entries, List.length_take, List.length_zip, hk, hr, Nat.min_self, Nat.min_eq_left hn]

theorem entries_store (hk : l.keys.length = bitLeafLen) (hr : l.records.length = bitLeafLen)
    (hn : l.nrRecord < bitLeafLen) (key : ℕ) (val : Record κ) :
    (l.store key val).entries = l.entries ++ [(key, val)] := by
  have hzip : (l.keys.set l.nrRecord key).zip (l.records.set l.nrRecord val) =
      (l.keys.zip l.records).set l.nrRecord (key, val) := by
    refine List.ext_getElem (by simp) fun i hi hi' => ?_
    simp only [List.getElem_zip, List.getElem_set]
    split <;> rfl
  have hlen : l.nrRecord < (l.keys.zip l.records).length := by
    rw [List.length_zip, hk, hr, Nat.min_self]
    exact hn
  have htake : ((l.keys.zip l.records).set l.nrRecord (key, val)).take (l.nrRecord + 1) =
      (l.keys.zip l.records).take l.nrRecord ++ [(key, val)] := by
    rw [List.set_eq_take_append_cons_drop, if_pos hlen, List.append_cons]
    refine List.take_left' ?_
    rw [List.length_append, List.length_take, Nat.min_eq_left hlen.le, List.length_singleton]
  rw [entries, entries, ← htake, ← hzip]
  rfl

/-- The last key, as `__bit_inner` reads it. -/
theorem lastKey_leaf (hk : l.keys.length = bitLeafLen) (hr : l.records.length = bitLeafLen)
    (hn : l.nrRecord ≤ bitLeafLen) (hpos : 0 < l.nrRecord) :
    (BitNode.leaf l).lastKey = Leaf.key l.entries := by
  have hlen := length_entries hk hr hn
  have hlt : l.nrRecord - 1 < l.keys.length := by omega
  have hlt' : l.nrRecord - 1 < l.records.length := by omega
  have hlast : l.entries.getLast? = some (l.keys[l.nrRecord - 1], l.records[l.nrRecord - 1]) := by
    rw [List.getLast?_eq_getElem?, hlen, entries, List.getElem?_take, if_pos (by omega)]
    exact List.getElem?_zip_eq_some.mpr ⟨List.getElem?_eq_getElem hlt, List.getElem?_eq_getElem hlt'⟩
  rw [BitNode.lastKey, Leaf.key, hlast, List.getD_eq_getElem?_getD, List.getElem?_eq_getElem hlt]
  rfl

theorem Fits.store {l : BitLeaf GcmKey} (h : l.Fits) (hn : l.nrRecord < bitLeafLen) {key : ℕ}
    (hkey : key < 2 ^ 32) {val : Record GcmKey} (hval : val.Fits) : (l.store key val).Fits := by
  refine ⟨hn, ⟨(List.length_set ..).trans h.keys.1, fun k hk => ?_⟩,
    ⟨(List.length_set ..).trans h.records.1, fun r hr => ?_⟩, h.nextPos⟩
  · rcases List.mem_or_eq_of_mem_set hk with hk | rfl
    · exact h.keys.2 k hk
    · exact hkey
  · rcases List.mem_or_eq_of_mem_set hr with hr | rfl
    · exact h.records.2 r hr
    · exact hval

end BitLeaf

/-! ## Leaves and groups with their positions -/

/-- A leaf and where it lies. -/
abbrev PlacedLeaf : Type := Leaf GcmKey × ℕ

/-- The leaves below an inner node, and where the inner node lies. -/
abbrev Group : Type := List PlacedLeaf × ℕ

/-- The place for a leaf in its inner node. -/
def leafChild (x : PlacedLeaf) : BitChild := ⟨true, x.1.key, x.2⟩

/-- The place for an inner node in the root. -/
def groupChild (g : Group) : BitChild := ⟨false, (g.1.getLast?.map fun x => x.1.key).getD 0, g.2⟩

/-- The place for a node of a context in its parent. -/
def ctxChild (e : BitNode GcmKey × ℕ) : BitChild := ⟨e.1.isLeaf, e.1.lastKey, e.2⟩

theorem bitInner_eq (ctx : BitContext GcmKey) : bitInner ctx = .inner (ctx.map ctxChild) := rfl

/-- An inner node in the context above it. -/
theorem ctxChild_inner (leaves : List PlacedLeaf) (pos : ℕ) :
    ctxChild (.inner (leaves.map leafChild), pos) = groupChild (leaves, pos) := by
  simp only [ctxChild, groupChild, BitNode.isLeaf, BitNode.lastKey, List.getLast?_map,
    Option.map_map]
  rfl

section Chained

variable {P Q : ℕ → BitNode GcmKey → Prop} {x : PlacedLeaf} {next : ℕ}

/-- A leaf lies at its position, and `next` is what it has for the next one. `P` tells which
nodes there are. -/
def LeafAt (P : ℕ → BitNode GcmKey → Prop) (x : PlacedLeaf) (next : ℕ) : Prop :=
  ∃ l : BitLeaf GcmKey, P x.2 (.leaf l) ∧ l.Fits ∧ l.entries = x.1 ∧ l.nextPos = next

/-- The leaves, each with the position of the one behind it; `next` is for the last one. -/
def Chained (P : ℕ → BitNode GcmKey → Prop) : List PlacedLeaf → ℕ → Prop
  | [], _ => True
  | [x], next => LeafAt P x next
  | x :: y :: leaves, next => LeafAt P x y.2 ∧ Chained P (y :: leaves) next

theorem LeafAt.mono (h : ∀ pos node, P pos node → Q pos node) (hx : LeafAt P x next) :
    LeafAt Q x next := by
  obtain ⟨l, hl, hrest⟩ := hx
  exact ⟨l, h _ _ hl, hrest⟩

theorem Chained.mono (h : ∀ pos node, P pos node → Q pos node) {leaves : List PlacedLeaf}
    (hl : Chained P leaves next) : Chained Q leaves next := by
  induction leaves with
  | nil => trivial
  | cons x leaves ih =>
    cases leaves with
    | nil => exact LeafAt.mono h hl
    | cons y leaves => exact ⟨LeafAt.mono h hl.1, ih hl.2⟩

/-- One leaf more. -/
theorem Chained.concat {leaves : List PlacedLeaf} {next' : ℕ} (hl : Chained P leaves next)
    (hx : LeafAt P x next') (hpos : x.2 = next) : Chained P (leaves ++ [x]) next' := by
  induction leaves with
  | nil => exact hx
  | cons y leaves ih =>
    cases leaves with
    | nil => exact ⟨hpos ▸ hl, hx⟩
    | cons z leaves => exact ⟨hl.1, ih hl.2⟩

theorem Chained.leafAt {leaves : List PlacedLeaf} (hl : Chained P leaves next) (hx : x ∈ leaves) :
    ∃ next', LeafAt P x next' := by
  induction leaves with
  | nil => cases hx
  | cons y leaves ih =>
    cases leaves with
    | nil =>
      rw [List.mem_singleton.mp hx]
      exact ⟨_, hl⟩
    | cons z leaves =>
      rcases List.mem_cons.mp hx with rfl | hx
      · exact ⟨_, hl.1⟩
      · exact ih hl.2 hx

end Chained

/-! ## The invariant -/

namespace BitWriter

variable {c : AeadCipher} {start : ℕ} {es : List (ℕ × Record GcmKey)} {groups : List Group}
  {opens : List PlacedLeaf} {w w' : BitWriter}

/-- What is written lies between `start` and `begin`. -/
def WrittenFrom (start : ℕ) (w : BitWriter) : Prop :=
  start ≤ w.builder.begin ∧ ∀ x ∈ w.writes, start ≤ x.1 ∧ x.1 + x.2 ≤ w.builder.begin

/-- The builder has seen these entries. -/
structure Seen (es : List (ℕ × Record GcmKey)) (w : BitWriter) : Prop where
  size : w.builder.size = es.length
  firstKey : w.builder.firstKey = es.head?.map Prod.fst
  lastKey : w.builder.lastKey = (es.getLast?.map Prod.fst).getD 0

/-- The builder after the entries `es`: the full groups, the leaves of the open group, and the
rest of the entries in the open leaf. -/
structure Built (c : AeadCipher) (start : ℕ) (es : List (ℕ × Record GcmKey)) (groups : List Group)
    (opens : List PlacedLeaf) (w : BitWriter) : Prop where
  /-- the contexts -/
  ctx : ∃ c₀ c₁, w.builder.ctx = [c₀, c₁, []] ∧ c₀.map ctxChild = opens.map leafChild ∧
    c₁.map ctxChild = groups.map groupChild
  /-- the entries -/
  entries : ((groups.flatMap Prod.fst ++ opens).map Prod.fst).flatten ++
    w.builder.curLeaf.entries = es
  /-- leaves are full -/
  full : ∀ x ∈ groups.flatMap Prod.fst ++ opens, x.1.length = bitLeafLen
  /-- groups are full -/
  group : ∀ g ∈ groups, g.1.length = defaultBitDegree
  /-- the open group is not -/
  open_lt : opens.length < defaultBitDegree
  /-- and neither is the root -/
  groups_lt : groups.length < defaultBitDegree
  /-- the open leaf -/
  leaf : w.builder.curLeaf.Fits
  /-- it is not full -/
  nrRecord : w.builder.curLeaf.nrRecord < bitLeafLen
  /-- the keys and the counter -/
  seen : w.Seen es
  /-- where the builder is -/
  pos : w.builder.begin + w.builder.cur = start +
    (groups.flatMap Prod.fst ++ opens).length * bitLeafNodeSize + groups.length * bitInnerNodeSize
  /-- the leaves are written -/
  chained : Chained (w.NodeAt c) (groups.flatMap Prod.fst ++ opens) (w.builder.begin + w.builder.cur)
  /-- and so are the inner nodes -/
  inner : ∀ g ∈ groups, w.NodeAt c g.2 (.inner (g.1.map leafChild))
  /-- nothing else is written -/
  written : w.WrittenFrom start

/-- The builder when the root is written, which is the last node. -/
structure Finished (c : AeadCipher) (start : ℕ) (es : List (ℕ × Record GcmKey)) (groups : List Group)
    (w : BitWriter) : Prop where
  /-- the leaves -/
  leaves : (groups.flatMap Prod.fst).map Prod.fst = Chunks.chunks bitLeafLen es
  /-- the groups -/
  group : ∀ g ∈ groups, g.1 ≠ [] ∧ g.1.length ≤ defaultBitDegree
  /-- the root -/
  groups_le : groups.length ≤ defaultBitDegree
  /-- all children have room for key and position -/
  fits : ∀ g ∈ groups, (groupChild g).Fits ∧ ∀ x ∈ g.1, (leafChild x).Fits
  /-- the keys and the counter -/
  seen : w.Seen es
  /-- where the builder is -/
  bound : w.builder.begin + w.builder.cur ≤
    start + calculateBitSize defaultLsmFileCapacity defaultBitDegree
  /-- the leaves are written -/
  chained : ∃ next, Chained (w.NodeAt c) (groups.flatMap Prod.fst) next
  /-- the inner nodes are written -/
  inner : ∀ g ∈ groups, w.NodeAt c g.2 (.inner (g.1.map leafChild))
  /-- the root is written -/
  root : ∃ r, r + bitInnerNodeSize = w.builder.begin + w.builder.cur ∧
    w.NodeAt c r (.inner (groups.map groupChild))
  /-- nothing else is written -/
  written : w.WrittenFrom start

theorem built_create (c : AeadCipher) (file buffer : ℕ → UInt8) (start : ℕ) (key : GcmKey) :
    Built c start [] [] [] (create file buffer start key) := by
  refine ⟨⟨[], [], rfl, rfl, rfl⟩, rfl, fun x hx => ?_, fun g hg => ?_, by decide, by decide, ?_,
    (by decide : 0 < bitLeafLen), ⟨rfl, rfl, rfl⟩, ?_, trivial, fun g hg => ?_, le_rfl, fun x hx => ?_⟩
  · cases hx
  · cases hg
  · refine ⟨Nat.zero_le _, ⟨List.length_replicate, fun k hk => ?_⟩, ⟨List.length_replicate,
      fun r hr => ?_⟩, (by decide : 0 < 2 ^ 64)⟩
    · rw [List.eq_of_mem_replicate hk]
      decide
    · rw [List.eq_of_mem_replicate hr]
      exact ⟨by decide, List.length_replicate⟩
  · rfl
  · cases hg
  · cases hx

/-! ### Bounds -/

theorem length_flatMap_groups (h : ∀ g ∈ groups, g.1.length = defaultBitDegree) :
    (groups.flatMap Prod.fst).length = groups.length * defaultBitDegree := by
  rw [List.length_flatMap, List.map_congr_left h, List.map_const', List.sum_replicate_nat]

/-- There is room for the next leaf and two inner nodes. -/
theorem Built.end_le (h : Built c start es groups opens w) :
    w.builder.begin + w.builder.cur + bitLeafNodeSize + 2 * bitInnerNodeSize ≤
      start + calculateBitSize defaultLsmFileCapacity defaultBitDegree := by
  have hpos := h.pos
  have hopen := h.open_lt
  have hgroups := h.groups_lt
  rw [List.length_append, length_flatMap_groups h.group] at hpos
  rw [calculateBitSize_default]
  simp only [bitLeafNodeSize, bitInnerNodeSize, defaultBitDegree] at *
  omega

theorem leafChild_fits {x : PlacedLeaf} (hne : x.1 ≠ []) (hkeys : ∀ e ∈ x.1, e.1 < 2 ^ 32)
    (hpos : x.2 < 2 ^ 64) : (leafChild x).Fits := by
  obtain ⟨e, he, hkey⟩ := Leaf.exists_key hne
  refine ⟨?_, hpos⟩
  rw [leafChild, ← hkey]
  exact hkeys e he

theorem groupChild_fits {g : Group} (hne : g.1 ≠ []) (h : ∀ x ∈ g.1, (leafChild x).Fits)
    (hpos : g.2 < 2 ^ 64) : (groupChild g).Fits := by
  refine ⟨?_, hpos⟩
  rw [groupChild, List.getLast?_eq_some_getLast hne]
  exact (h _ (List.getLast_mem hne)).1

/-- The leaves that are written can be entered into an inner node. -/
theorem Built.leafChild_fits (h : Built c start es groups opens w) (hes : ∀ e ∈ es, e.1 < 2 ^ 32)
    (hend : start + calculateBitSize defaultLsmFileCapacity defaultBitDegree < 2 ^ 64)
    {x : PlacedLeaf} (hx : x ∈ groups.flatMap Prod.fst ++ opens) : (leafChild x).Fits := by
  have hle := h.end_le
  refine BitWriter.leafChild_fits ?_ (fun e he => hes e ?_) ?_
  · intro hnil
    have hfull := h.full x hx
    rw [hnil] at hfull
    exact absurd hfull (by decide)
  · rw [← h.entries]
    exact List.mem_append_left _ (List.mem_flatten.mpr ⟨x.1, List.mem_map_of_mem hx, he⟩)
  · obtain ⟨_, l, hat, -⟩ := h.chained.leafAt hx
    have hbound := hat.2
    omega

theorem Built.groupChild_fits (h : Built c start es groups opens w) (hes : ∀ e ∈ es, e.1 < 2 ^ 32)
    (hend : start + calculateBitSize defaultLsmFileCapacity defaultBitDegree < 2 ^ 64)
    {g : Group} (hg : g ∈ groups) : (groupChild g).Fits := by
  have hle := h.end_le
  refine BitWriter.groupChild_fits ?_ (fun x hx => h.leafChild_fits hes hend
    (List.mem_append_left _ (List.mem_flatMap.mpr ⟨g, hg, hx⟩))) ?_
  · intro hnil
    have hfull := h.group g hg
    rw [hnil] at hfull
    exact absurd hfull (by decide)
  · have hbound := (h.inner g hg).2
    omega

/-! ## One entry -/

theorem Seen.storeEntry (h : w.Seen es) (e : ℕ × Record GcmKey)
    (hsize : w'.builder.size = (w.builder.storeEntry e.1 e.2).size)
    (hfirst : w'.builder.firstKey = (w.builder.storeEntry e.1 e.2).firstKey)
    (hlast : w'.builder.lastKey = (w.builder.storeEntry e.1 e.2).lastKey) : w'.Seen (es ++ [e]) := by
  refine ⟨?_, ?_, ?_⟩
  · rw [hsize, List.length_append, List.length_singleton, ← h.size]
    rfl
  · rw [hfirst, List.head?_append]
    show some (w.builder.firstKey.getD e.1) = _
    rw [h.firstKey]
    cases es <;> rfl
  · rw [hlast, List.getLast?_concat]
    rfl

/-- **A leaf is closed.** The inner nodes that `promote` makes lie behind it, and it points behind
them. -/
theorem Built.closeLeaf (hc : c.Lawful) (h : Built c start es groups opens w)
    {e : ℕ × Record GcmKey} (hkey : e.1 < 2 ^ 32) (hval : e.2.Fits)
    (hlast : w.builder.curLeaf.nrRecord + 1 = bitLeafLen) {ctx : List (BitContext GcmKey)}
    {inners : List (List BitChild)} (hlen : inners.length ≤ 2)
    (hinner : ∀ children ∈ inners, (BitNode.inner children).Fits)
    (hend : w.builder.begin + w.builder.cur + bitLeafNodeSize + inners.length * bitInnerNodeSize <
      2 ^ 64) {b : BitBuilder GcmKey} (hb : b = w.builder.storeEntry e.1 e.2)
    (hpromote : BitBuilder.promote b.reserveLeaf.begin b.leafContext b.ctx.tail b.reserveLeaf.cur =
      some (ctx, inners.map BitNode.inner,
        b.reserveLeaf.cur + inners.length * bitInnerNodeSize)) :
    ∃ w', w.addEntry c e = some w' ∧ w'.builder.ctx = ctx ∧
      w'.builder.curLeaf = { b.curLeaf with nrRecord := 0 } ∧ w'.Seen (es ++ [e]) ∧ w.Extends w' ∧
      w'.builder.begin + w'.builder.cur =
        w.builder.begin + w.builder.cur + bitLeafNodeSize + inners.length * bitInnerNodeSize ∧
      LeafAt (w'.NodeAt c) (b.curLeaf.entries, w.builder.begin + w.builder.cur)
        (w'.builder.begin + w'.builder.cur) ∧
      (∀ i children, inners[i]? = some children → w'.NodeAt c
        (w.builder.begin + w.builder.cur + bitLeafNodeSize + i * bitInnerNodeSize)
          (.inner children)) ∧ w'.WrittenFrom start := by
  obtain ⟨stored, hstored⟩ : ∃ stored : BitWriter, stored = { w with builder := b } := ⟨_, rfl⟩
  have hextends : w.Extends stored := by
    rw [hstored, hb]
    exact ⟨rfl, le_rfl, fun _ _ => rfl⟩
  obtain ⟨hfb, hfe, hfpos, hroom, hbegin, hwrites⟩ := bufferFlushIfFull_spec stored
  have hsb : stored.builder = b := by rw [hstored]
  have hbpos : b.begin = w.builder.begin ∧ b.cur = w.builder.cur := by
    rw [hb]
    exact ⟨rfl, rfl⟩
  rw [hsb] at hfb hfpos hbegin hwrites
  obtain ⟨flushed, hflushed⟩ : ∃ flushed, flushed = stored.bufferFlushIfFull := ⟨_, rfl⟩
  rw [← hflushed] at hfb hfe hfpos hroom hbegin hwrites
  obtain ⟨r, hr⟩ : ∃ r, r = b.reserveLeaf := ⟨_, rfl⟩
  have hrcur := b.reserveLeaf_cur
  have hrbegin := b.reserveLeaf_begin
  obtain ⟨hkept, hsize, hfirst, hlastKey, hcurLeaf⟩ := b.reserveLeaf_kept
  rw [← hr] at hrcur hrbegin hkept hsize hfirst hlastKey hcurLeaf hpromote
  obtain ⟨b', hb'⟩ : ∃ b', b' = r.leafDone ctx (r.cur + inners.length * bitInnerNodeSize) :=
    ⟨_, rfl⟩
  have hb'cur : b'.cur = flushed.builder.cur + bitLeafNodeSize + inners.length * bitInnerNodeSize := by
    rw [hb', hfb, ← hrcur]
    rfl
  have hb'begin : b'.begin = flushed.builder.begin := by
    rw [hb', hfb, ← hrbegin]
    rfl
  have hb'key : b'.bitKey = flushed.builder.bitKey := by
    rw [hb', hfb, b.bufferFlushIfFull_bitKey, ← hkept]
    rfl
  -- the leaf with the position of the next one
  obtain ⟨l, hl⟩ : ∃ l : BitLeaf GcmKey, l = { b.curLeaf with nextPos := b'.begin + b'.cur } :=
    ⟨_, rfl⟩
  have hclose : b.closeLeaf = some (b', callNodes inners (some l)) := by
    rw [BitBuilder.closeLeaf, ← hr, hpromote, Option.map_some, hl, hb']
    rfl
  have hleaf : b.curLeaf = w.builder.curLeaf.store e.1 e.2 := by
    rw [hb]
    rfl
  have hfits : b.curLeaf.Fits := hleaf ▸ h.leaf.store h.nrRecord hkey hval
  have hlfits : l.Fits := by
    rw [hl]
    exact ⟨hfits.nrRecord, hfits.keys, hfits.records, by show b'.begin + b'.cur < 2 ^ 64; omega⟩
  obtain ⟨w', hw', hwb, hww, hwe, hwleaf, hwinner⟩ := copyNodes_spec hc (b := b')
    (some l) (flushed.builder.cur + bitLeafNodeSize) hroom (by simp) hlen hinner
    (by rintro _ ⟨⟩; exact hlfits) hb'begin hb'key hb'cur
  have hadd : w.addEntry c e = some w' := by
    have hnr : ¬b.curLeaf.nrRecord < bitLeafLen := by
      rw [hleaf]
      exact Nat.not_lt_of_le hlast.ge
    simp only [addEntry, ← hb, ← hstored]
    rw [if_neg hnr, hclose, Option.bind_some, ← hflushed]
    exact hw'
  have hseen : w'.Seen (es ++ [e]) := by
    refine h.seen.storeEntry e ?_ ?_ ?_
    all_goals rw [hwb, hb', ← hb]
    · exact hsize
    · exact hfirst
    · exact hlastKey
  have hpos : w.builder.begin + w.builder.cur = flushed.builder.begin + flushed.builder.cur := by
    omega
  refine ⟨w', hadd, by rw [hwb, hb']; rfl, ?_, hseen, (hextends.trans hfe).trans hwe, ?_, ?_, ?_, ?_⟩
  · rw [hwb, hb', BitBuilder.leafDone, hcurLeaf]
  · rw [hwb]
    omega
  · exact ⟨l, hpos ▸ hwleaf l rfl, hlfits, by rw [hl]; rfl, by rw [hwb, hl]⟩
  · intro i children hi
    have hat := hwinner i children hi
    rwa [← Nat.add_assoc, ← Nat.add_assoc, ← hpos] at hat
  · refine ⟨?_, fun x hx => ?_⟩
    · rw [hwb, hb'begin]
      exact (hbpos.1 ▸ h.written.1).trans hbegin
    · rw [hww] at hx
      rw [hwb, hb'begin]
      rcases hwrites x hx with hx | ⟨hx₁, hx₂⟩
      · rw [hstored] at hx
        obtain ⟨h₁, h₂⟩ := h.written.2 x hx
        exact ⟨h₁, h₂.trans (hbpos.1 ▸ hbegin)⟩
      · rw [hx₂]
        refine ⟨?_, le_rfl⟩
        rw [hx₁, hbpos.1]
        exact h.written.1

/-- An entry that does not fill the leaf. -/
theorem Built.addEntry_room (h : Built c start es groups opens w) {e : ℕ × Record GcmKey}
    (hkey : e.1 < 2 ^ 32) (hval : e.2.Fits)
    (hroom : w.builder.curLeaf.nrRecord + 1 < bitLeafLen) :
    ∃ w', w.addEntry c e = some w' ∧ Built c start (es ++ [e]) groups opens w' := by
  obtain ⟨w', hw'⟩ : ∃ w' : BitWriter, w' = { w with builder := w.builder.storeEntry e.1 e.2 } :=
    ⟨_, rfl⟩
  have hextends : w.Extends w' := by
    rw [hw']
    exact ⟨rfl, le_rfl, fun _ _ => rfl⟩
  have hleaf : w'.builder.curLeaf = w.builder.curLeaf.store e.1 e.2 := by
    rw [hw']
    rfl
  have hbegin : w'.builder.begin = w.builder.begin := by rw [hw']; rfl
  have hcur : w'.builder.cur = w.builder.cur := by rw [hw']; rfl
  have hctx : w'.builder.ctx = w.builder.ctx := by rw [hw']; rfl
  refine ⟨w', ?_, ?_⟩
  · have hlt : (w.builder.storeEntry e.1 e.2).curLeaf.nrRecord < bitLeafLen := hroom
    simp only [addEntry, ← hw']
    exact if_pos hlt
  · refine ⟨by rw [hctx]; exact h.ctx, ?_, h.full, h.group, h.open_lt, h.groups_lt, ?_, ?_,
      h.seen.storeEntry e ?_ ?_ ?_, ?_, ?_, fun g hg => (h.inner g hg).extends hextends, ?_⟩
    · rw [hleaf, BitLeaf.entries_store h.leaf.keys.1 h.leaf.records.1 h.nrRecord,
        ← List.append_assoc, h.entries]
    · exact hleaf ▸ h.leaf.store h.nrRecord hkey hval
    · exact hleaf ▸ hroom
    · rw [hw']
    · rw [hw']
    · rw [hw']
    · rw [hbegin, hcur, h.pos]
    · rw [hbegin, hcur]
      exact h.chained.mono fun _ _ hat => hat.extends hextends
    · rw [WrittenFrom, hbegin, hw']
      exact h.written

/-- The context of the leaves with the leaf that is full. -/
theorem leafContext_storeEntry (h : Built c start es groups opens w) {e : ℕ × Record GcmKey}
    (hkey : e.1 < 2 ^ 32) (hval : e.2.Fits) {b : BitBuilder GcmKey}
    (hb : b = w.builder.storeEntry e.1 e.2) {x : PlacedLeaf}
    (hx : x = (b.curLeaf.entries, w.builder.begin + w.builder.cur)) :
    ∃ c₀ c₁, b.leafContext = c₀ ∧ b.ctx.tail = [c₁, []] ∧
      c₀.map ctxChild = (opens ++ [x]).map leafChild ∧ c₁.map ctxChild = groups.map groupChild := by
  obtain ⟨c₀, c₁, hctx, h₀, h₁⟩ := h.ctx
  have hbctx : b.ctx = [c₀, c₁, []] := by
    rw [hb, ← hctx]
    rfl
  have hleaf : b.curLeaf = w.builder.curLeaf.store e.1 e.2 := by
    rw [hb]
    rfl
  have hfits : b.curLeaf.Fits := hleaf ▸ h.leaf.store h.nrRecord hkey hval
  refine ⟨_, c₁, rfl, by rw [hbctx]; rfl, ?_, h₁⟩
  rw [BitBuilder.leafContext, hbctx, List.map_append, List.map_append, List.headD_cons, h₀, hx]
  have hpos : b.begin + b.cur = w.builder.begin + w.builder.cur := by
    rw [hb]
    rfl
  rw [hpos, List.map_singleton, List.map_singleton, ctxChild, leafChild,
    BitLeaf.lastKey_leaf hfits.keys.1 hfits.records.1 hfits.nrRecord
      (by rw [hleaf]; exact Nat.succ_pos _)]
  rfl

/-- A leaf that is full, as the next leaf of the table. -/
theorem Built.entries_full (h : Built c start es groups opens w) {e : ℕ × Record GcmKey}
    (hlast : w.builder.curLeaf.nrRecord + 1 = bitLeafLen) {l : BitLeaf GcmKey}
    (hl : l = w.builder.curLeaf.store e.1 e.2) :
    l.entries.length = bitLeafLen ∧
      ((groups.flatMap Prod.fst ++ opens).map Prod.fst).flatten ++ l.entries = es ++ [e] := by
  rw [hl, BitLeaf.entries_store h.leaf.keys.1 h.leaf.records.1 h.nrRecord, ← List.append_assoc,
    h.entries, List.length_append, BitLeaf.length_entries h.leaf.keys.1 h.leaf.records.1
      h.leaf.nrRecord]
  exact ⟨hlast, rfl⟩

/-- The builder after a leaf was closed, as far as the leaves go. -/
structure Filled (c : AeadCipher) (start : ℕ) (es : List (ℕ × Record GcmKey)) (groups : List Group)
    (leaves : List PlacedLeaf) (w : BitWriter) : Prop where
  /-- the entries -/
  entries : (leaves.map Prod.fst).flatten = es
  /-- leaves are full -/
  full : ∀ x ∈ leaves, x.1.length = bitLeafLen
  /-- the open leaf -/
  leaf : w.builder.curLeaf.Fits
  /-- it is empty -/
  nrRecord : w.builder.curLeaf.nrRecord = 0
  /-- the keys and the counter -/
  seen : w.Seen es
  /-- the leaves are written -/
  chained : Chained (w.NodeAt c) leaves (w.builder.begin + w.builder.cur)
  /-- and so are the inner nodes of the groups before -/
  inner : ∀ g ∈ groups, w.NodeAt c g.2 (.inner (g.1.map leafChild))
  /-- nothing else is written -/
  written : w.WrittenFrom start

/-- **An entry that fills the leaf**, for any number of inner nodes. -/
theorem Built.fill (hc : c.Lawful) (h : Built c start es groups opens w)
    (hend : start + calculateBitSize defaultLsmFileCapacity defaultBitDegree < 2 ^ 64)
    {e : ℕ × Record GcmKey} (hkey : e.1 < 2 ^ 32) (hval : e.2.Fits)
    (hlast : w.builder.curLeaf.nrRecord + 1 = bitLeafLen) {b : BitBuilder GcmKey}
    (hb : b = w.builder.storeEntry e.1 e.2) {x : PlacedLeaf}
    (hx : x = (b.curLeaf.entries, w.builder.begin + w.builder.cur))
    (ctx : List (BitContext GcmKey)) (inners : List (List BitChild)) (hlen : inners.length ≤ 2)
    (hinner : ∀ children ∈ inners, (BitNode.inner children).Fits)
    (hpromote : BitBuilder.promote b.reserveLeaf.begin b.leafContext b.ctx.tail b.reserveLeaf.cur =
      some (ctx, inners.map BitNode.inner,
        b.reserveLeaf.cur + inners.length * bitInnerNodeSize)) :
    ∃ w', w.addEntry c e = some w' ∧ w'.builder.ctx = ctx ∧
      Filled c start (es ++ [e]) groups (groups.flatMap Prod.fst ++ (opens ++ [x])) w' ∧
      w'.builder.begin + w'.builder.cur =
        w.builder.begin + w.builder.cur + bitLeafNodeSize + inners.length * bitInnerNodeSize ∧
      ∀ i children, inners[i]? = some children → w'.NodeAt c
        (w.builder.begin + w.builder.cur + bitLeafNodeSize + i * bitInnerNodeSize)
          (.inner children) := by
  have hle := h.end_le
  have hmul := Nat.mul_le_mul_right bitInnerNodeSize hlen
  obtain ⟨w', hw', hctx, hcur, hseen, hextends, hpos, hleaf, hat, hwritten⟩ :=
    h.closeLeaf hc hkey hval hlast hlen hinner (by omega) hb hpromote
  rw [← hx] at hleaf
  obtain ⟨hfull, hentries⟩ := h.entries_full (e := e) hlast (l := b.curLeaf) (by rw [hb]; rfl)
  have hfits : b.curLeaf.Fits := by
    rw [hb]
    exact h.leaf.store h.nrRecord hkey hval
  refine ⟨w', hw', hctx, ⟨?_, ?_, ?_, ?_, hseen, ?_, fun g hg => (h.inner g hg).extends hextends,
    hwritten⟩, hpos, hat⟩
  · rw [← hentries, ← List.append_assoc, List.map_append, List.flatten_append, hx]
    simp
  · intro y hy
    rw [← List.append_assoc] at hy
    rcases List.mem_append.mp hy with hy | hy
    · exact h.full y hy
    · rw [List.mem_singleton.mp hy, hx]
      exact hfull
  · rw [hcur]
    exact ⟨Nat.zero_le _, hfits.keys, hfits.records, hfits.nextPos⟩
  · rw [hcur]
  · rw [← List.append_assoc]
    exact (h.chained.mono fun _ _ hold => hold.extends hextends).concat hleaf (by rw [hx])

/-- With its contexts it is a builder again. -/
theorem Filled.built {leaves : List PlacedLeaf} (h : Filled c start es groups leaves w)
    (hleaves : leaves = groups.flatMap Prod.fst ++ opens)
    (hctx : ∃ c₀ c₁, w.builder.ctx = [c₀, c₁, []] ∧ c₀.map ctxChild = opens.map leafChild ∧
      c₁.map ctxChild = groups.map groupChild)
    (hgroup : ∀ g ∈ groups, g.1.length = defaultBitDegree) (hopen : opens.length < defaultBitDegree)
    (hgroups : groups.length < defaultBitDegree)
    (hpos : w.builder.begin + w.builder.cur = start + leaves.length * bitLeafNodeSize +
      groups.length * bitInnerNodeSize) : Built c start es groups opens w := by
  have hempty : w.builder.curLeaf.entries = [] := by
    rw [BitLeaf.entries, h.nrRecord, List.take_zero]
  subst hleaves
  refine ⟨hctx, ?_, h.full, hgroup, hopen, hgroups, h.leaf, ?_, h.seen, hpos, h.chained, h.inner,
    h.written⟩
  · rw [hempty, List.append_nil]
    exact h.entries
  · rw [h.nrRecord]
    decide

/-- A group that is closed when the builder is at `pos` has the leaves that were open, and one at
`pos`, and the inner node lies behind them. -/
def ClosedAt (pos : ℕ) (opens : List PlacedLeaf) (g : Group) : Prop :=
  pos ≤ g.2 ∧ ∀ y ∈ g.1, y ∈ opens ∨ y.2 = pos

/-- An entry that fills the leaf and not the group. -/
theorem Built.addEntry_leaf (hc : c.Lawful) (h : Built c start es groups opens w)
    (hend : start + calculateBitSize defaultLsmFileCapacity defaultBitDegree < 2 ^ 64)
    {e : ℕ × Record GcmKey} (hkey : e.1 < 2 ^ 32) (hval : e.2.Fits)
    (hlast : w.builder.curLeaf.nrRecord + 1 = bitLeafLen)
    (hopen : opens.length + 1 < defaultBitDegree) :
    ∃ x w', x.2 = w.builder.begin + w.builder.cur ∧ w.addEntry c e = some w' ∧
      Built c start (es ++ [e]) groups (opens ++ [x]) w' := by
  obtain ⟨b, hb⟩ : ∃ b, b = w.builder.storeEntry e.1 e.2 := ⟨_, rfl⟩
  obtain ⟨x, hx⟩ : ∃ x : PlacedLeaf, x =
    (b.curLeaf.entries, w.builder.begin + w.builder.cur) := ⟨_, rfl⟩
  obtain ⟨c₀, c₁, hc₀, htail, h₀, h₁⟩ := leafContext_storeEntry h hkey hval hb hx
  have hlen : c₀.length ≠ defaultBitDegree := by
    have hlength := congrArg List.length h₀
    simp only [List.length_map, List.length_append, List.length_singleton] at hlength
    omega
  obtain ⟨w', hw', hctx, hfilled, hpos, -⟩ := h.fill hc hend hkey hval hlast hb hx
    [c₀, c₁, []] [] (Nat.zero_le _) (by simp)
    (by rw [hc₀, htail, BitBuilder.promote, if_neg hlen]; simp)
  refine ⟨x, w', by rw [hx], hw', hfilled.built rfl ⟨c₀, c₁, hctx, h₀, h₁⟩ h.group ?_ h.groups_lt ?_⟩
  · rw [List.length_append, List.length_singleton]
    exact hopen
  · have hone : (groups.flatMap Prod.fst ++ opens ++ [x]).length =
        (groups.flatMap Prod.fst ++ opens).length + 1 := List.length_append
    rw [hpos, h.pos, ← List.append_assoc, hone, Nat.succ_mul, List.length_nil, Nat.zero_mul]
    omega

/-- With a leaf that is full, the open group fits into an inner node. -/
theorem Built.fits_fill (h : Built c start es groups opens w) (hes : ∀ e ∈ es, e.1 < 2 ^ 32)
    (hend : start + calculateBitSize defaultLsmFileCapacity defaultBitDegree < 2 ^ 64)
    {e : ℕ × Record GcmKey} (hkey : e.1 < 2 ^ 32)
    (hlast : w.builder.curLeaf.nrRecord + 1 = bitLeafLen) {l : BitLeaf GcmKey}
    (hl : l = w.builder.curLeaf.store e.1 e.2) {x : PlacedLeaf}
    (hx : x = (l.entries, w.builder.begin + w.builder.cur)) :
    ∀ y ∈ opens ++ [x], (leafChild y).Fits := by
  obtain ⟨hfull, hentries⟩ := h.entries_full hlast hl
  have hle := h.end_le
  intro y hy
  rcases List.mem_append.mp hy with hy | hy
  · exact h.leafChild_fits hes hend (List.mem_append_right _ hy)
  · rw [List.mem_singleton.mp hy, hx]
    refine BitWriter.leafChild_fits (fun hnil => ?_) (fun a ha => ?_) (by show _ + _ < _; omega)
    · have hzero := congrArg List.length hnil
      rw [hfull] at hzero
      exact absurd hzero (by decide)
    · have hmem : a ∈ es ++ [e] := hentries ▸ List.mem_append_right _ ha
      rcases List.mem_append.mp hmem with ha | ha
      · exact hes a ha
      · rw [List.mem_singleton.mp ha]
        exact hkey

/-- The place of an inner node that closes the open group. -/
theorem ctxChild_bitInner {c₀ : BitContext GcmKey} {leaves : List PlacedLeaf}
    (h : c₀.map ctxChild = leaves.map leafChild) (pos : ℕ) :
    ctxChild (bitInner c₀, pos) = groupChild (leaves, pos) := by
  rw [bitInner_eq, h, ctxChild_inner]

/-- **A group is closed**: its inner node goes into the context of the root. -/
theorem Built.closeGroup (h : Built c start es groups opens w) (hes : ∀ e ∈ es, e.1 < 2 ^ 32)
    (hend : start + calculateBitSize defaultLsmFileCapacity defaultBitDegree < 2 ^ 64)
    {leaves : List PlacedLeaf} (hne : leaves ≠ []) (hlen : leaves.length ≤ defaultBitDegree)
    (hfits : ∀ y ∈ leaves, (leafChild y).Fits) {c₀ c₁ d : BitContext GcmKey}
    (h₀ : c₀.map ctxChild = leaves.map leafChild) (h₁ : c₁.map ctxChild = groups.map groupChild)
    {pos : ℕ} (hpos : pos < 2 ^ 64) (hd : d = c₁ ++ [(bitInner c₀, pos)]) :
    d.map ctxChild = (groups ++ [(leaves, pos)]).map groupChild ∧ d.length = groups.length + 1 ∧
      (BitNode.inner (leaves.map leafChild)).Fits ∧
      (BitNode.inner ((groups ++ [(leaves, pos)]).map groupChild)).Fits ∧
      (∀ g ∈ groups ++ [(leaves, pos)], g.1 ≠ [] ∧ g.1.length ≤ defaultBitDegree) ∧
      ∀ g ∈ groups ++ [(leaves, pos)], (groupChild g).Fits ∧ ∀ x ∈ g.1, (leafChild x).Fits := by
  have hchild : d.map ctxChild = (groups ++ [(leaves, pos)]).map groupChild := by
    rw [hd, List.map_append, List.map_append, h₁, List.map_singleton, List.map_singleton,
      ctxChild_bitInner h₀]
  have hall : ∀ g ∈ groups ++ [(leaves, pos)],
      (groupChild g).Fits ∧ ∀ x ∈ g.1, (leafChild x).Fits := by
    intro g hg
    rcases List.mem_append.mp hg with hg | hg
    · exact ⟨h.groupChild_fits hes hend hg, fun x hx => h.leafChild_fits hes hend
        (List.mem_append_left _ (List.mem_flatMap.mpr ⟨g, hg, hx⟩))⟩
    · rw [List.mem_singleton.mp hg]
      exact ⟨BitWriter.groupChild_fits hne hfits hpos, hfits⟩
  refine ⟨hchild, ?_, ⟨by rwa [List.length_map], fun child hc => ?_⟩, ⟨?_, fun child hc => ?_⟩,
    fun g hg => ?_, hall⟩
  · have hlength := congrArg List.length hchild
    simpa only [List.length_map, List.length_append, List.length_singleton] using hlength
  · obtain ⟨y, hy, rfl⟩ := List.mem_map.mp hc
    exact hfits y hy
  · rw [List.length_map, List.length_append, List.length_singleton]
    exact h.groups_lt
  · obtain ⟨g, hg, rfl⟩ := List.mem_map.mp hc
    exact (hall g hg).1
  · rcases List.mem_append.mp hg with hg | hg
    · have hfull := h.group g hg
      refine ⟨fun hnil => ?_, hfull.le⟩
      rw [hnil] at hfull
      exact absurd hfull (by decide)
    · rw [List.mem_singleton.mp hg]
      exact ⟨hne, hlen⟩

/-- The position of the first inner node behind the leaf. -/
theorem reserveLeaf_pos {b : BitBuilder GcmKey} {e : ℕ × Record GcmKey}
    (hb : b = w.builder.storeEntry e.1 e.2) : b.reserveLeaf.begin + b.reserveLeaf.cur =
      w.builder.begin + w.builder.cur + bitLeafNodeSize := by
  have hpos := b.bufferFlushIfFull_pos
  have hsame : b.begin + b.cur = w.builder.begin + w.builder.cur := by
    rw [hb]
    rfl
  rw [b.reserveLeaf_begin, b.reserveLeaf_cur]
  omega

/-- **An entry that fills the leaf and the group**, and the root if there are enough groups. -/
theorem Built.addEntry_group (hc : c.Lawful) (h : Built c start es groups opens w)
    (hes : ∀ e ∈ es, e.1 < 2 ^ 32)
    (hend : start + calculateBitSize defaultLsmFileCapacity defaultBitDegree < 2 ^ 64)
    {e : ℕ × Record GcmKey} (hkey : e.1 < 2 ^ 32) (hval : e.2.Fits)
    (hlast : w.builder.curLeaf.nrRecord + 1 = bitLeafLen)
    (hopen : opens.length + 1 = defaultBitDegree) :
    ∃ w' g, w.addEntry c e = some w' ∧ g.1.length = defaultBitDegree ∧
      ClosedAt (w.builder.begin + w.builder.cur) opens g ∧
      (groups.length + 1 < defaultBitDegree → Built c start (es ++ [e]) (groups ++ [g]) [] w') ∧
      (groups.length + 1 = defaultBitDegree → Finished c start (es ++ [e]) (groups ++ [g]) w' ∧
        w'.builder.ctx.getLast?.any (fun ctx => !ctx.isEmpty) = true) := by
  obtain ⟨b, hb⟩ : ∃ b, b = w.builder.storeEntry e.1 e.2 := ⟨_, rfl⟩
  obtain ⟨x, hx⟩ : ∃ x : PlacedLeaf, x =
    (b.curLeaf.entries, w.builder.begin + w.builder.cur) := ⟨_, rfl⟩
  obtain ⟨c₀, c₁, hc₀, htail, h₀, h₁⟩ := leafContext_storeEntry h hkey hval hb hx
  have hleaves := h.fits_fill hes hend hkey hlast (by rw [hb]; rfl) hx
  have hle := h.end_le
  have hlen : (opens ++ [x]).length = defaultBitDegree := by
    rw [List.length_append, List.length_singleton]
    exact hopen
  have hlen₀ : c₀.length = defaultBitDegree := by
    have hlength := congrArg List.length h₀
    rwa [List.length_map, List.length_map, hlen] at hlength
  obtain ⟨pos, hpos⟩ : ∃ pos, pos = w.builder.begin + w.builder.cur + bitLeafNodeSize := ⟨_, rfl⟩
  obtain ⟨d, hd⟩ : ∃ d, d = c₁ ++ [(bitInner c₀, pos)] := ⟨_, rfl⟩
  obtain ⟨hdchild, hdlen, hinner, hroot, hgroup, hfits⟩ := h.closeGroup hes hend
    (List.append_ne_nil_of_right_ne_nil opens (List.cons_ne_nil x [])) hlen.le hleaves h₀ h₁
    (by omega) hd
  have hpos₁ := (reserveLeaf_pos hb).trans hpos.symm
  have hclosed : ClosedAt (w.builder.begin + w.builder.cur) opens (opens ++ [x], pos) := by
    refine ⟨by show _ ≤ pos; omega, fun y hy => ?_⟩
    rcases List.mem_append.mp hy with hy | hy
    · exact Or.inl hy
    · exact Or.inr (by rw [List.mem_singleton.mp hy, hx])
  have hflat : (groups ++ [(opens ++ [x], pos)]).flatMap Prod.fst =
      groups.flatMap Prod.fst ++ (opens ++ [x]) := by
    rw [List.flatMap_append, List.flatMap_singleton]
  obtain ⟨kids, hkids⟩ : ∃ kids, kids = (opens ++ [x]).map leafChild := ⟨_, rfl⟩
  obtain ⟨roots, hroots⟩ : ∃ roots, roots = (groups ++ [(opens ++ [x], pos)]).map groupChild :=
    ⟨_, rfl⟩
  rw [← hkids] at h₀ hinner
  rw [← hroots] at hdchild hroot
  by_cases hlt : groups.length + 1 < defaultBitDegree
  · have hdne : d.length ≠ defaultBitDegree := by omega
    obtain ⟨w', hw', hctx, hfilled, hpos', hat⟩ := h.fill hc hend hkey hval hlast hb hx
      [[], d, []] [kids] (by simp) (by simpa using hinner) (by
        rw [hc₀, htail, BitBuilder.promote, if_pos hlen₀, hpos₁, ← hd, BitBuilder.promote,
          if_neg hdne, bitInner_eq, h₀]
        simp)
    refine ⟨w', (opens ++ [x], pos), hw', hlen, hclosed, fun _ => ?_, fun heq => absurd heq hlt.ne⟩
    have hall : Filled c start (es ++ [e]) (groups ++ [(opens ++ [x], pos)])
        (groups.flatMap Prod.fst ++ (opens ++ [x])) w' := by
      refine { hfilled with inner := fun g hg => ?_ }
      rcases List.mem_append.mp hg with hg | hg
      · exact hfilled.inner g hg
      · rw [List.mem_singleton.mp hg, hpos, ← hkids]
        exact hat 0 kids rfl
    refine hall.built (by rw [hflat, List.append_nil]) ⟨[], d, hctx, rfl, hroots ▸ hdchild⟩ ?_ (by decide) ?_
      ?_
    · intro g hg
      rcases List.mem_append.mp hg with hg | hg
      · exact h.group g hg
      · rw [List.mem_singleton.mp hg]
        exact hlen
    · rw [List.length_append, List.length_singleton]
      exact hlt
    · rw [hpos', h.pos]
      simp only [List.length_append, List.length_singleton, Nat.add_mul, Nat.one_mul]
      omega
  · have hge := h.groups_lt
    have hdlen' : d.length = defaultBitDegree := by omega
    have hone : ∀ y : BitNode GcmKey × ℕ, ([] ++ [y]).length ≠ defaultBitDegree := by
      simp [defaultBitDegree]
    obtain ⟨w', hw', hctx, hfilled, hpos', hat⟩ := h.fill hc hend hkey hval hlast hb hx
      [[], [], [(bitInner d, pos + bitInnerNodeSize)]] [kids, roots]
      (by simp) (by simpa using ⟨hinner, hroot⟩) (by
        rw [hc₀, htail, BitBuilder.promote, if_pos hlen₀, hpos₁, ← hd, BitBuilder.promote,
          if_pos hdlen', BitBuilder.promote, if_neg (hone _), ← Nat.add_assoc, hpos₁,
          bitInner_eq c₀, h₀, bitInner_eq d, hdchild]
        simp [Nat.two_mul, Nat.add_assoc])
    refine ⟨w', (opens ++ [x], pos), hw', hlen, hclosed, fun hcon => absurd hcon hlt,
      fun _ => ⟨⟨?_, hgroup, ?_, hfits, hfilled.seen, ?_, ⟨_, hflat ▸ hfilled.chained⟩, ?_, ?_,
        hfilled.written⟩, ?_⟩⟩
    · have hchunks := Chunks.chunks_flatten_append (n := bitLeafLen) (by decide)
        ((groups.flatMap Prod.fst ++ (opens ++ [x])).map Prod.fst) (fun l hl => by
          obtain ⟨y, hy, rfl⟩ := List.mem_map.mp hl
          exact hfilled.full y hy) []
      rw [List.append_nil, hfilled.entries, Chunks.chunks_nil, List.append_nil] at hchunks
      rw [hflat, hchunks]
    · rw [List.length_append, List.length_singleton]
      exact hge
    · rw [hpos']
      simp only [List.length_cons, List.length_nil]
      omega
    · intro g hg
      rcases List.mem_append.mp hg with hg | hg
      · exact hfilled.inner g hg
      · rw [List.mem_singleton.mp hg, hpos, ← hkids]
        exact hat 0 kids rfl
    · refine ⟨pos + bitInnerNodeSize, ?_, ?_⟩
      · rw [hpos', hpos]
        simp only [List.length_cons, List.length_nil]
        omega
      · have hlast := hat 1 roots rfl
        rwa [Nat.one_mul, ← hpos, hroots] at hlast
    · rw [hctx]
      rfl

/-! ## All entries -/

theorem Built.length (h : Built c start es groups opens w) :
    es.length = (groups.length * defaultBitDegree + opens.length) * bitLeafLen +
      w.builder.curLeaf.nrRecord := by
  have hsum : (((groups.flatMap Prod.fst ++ opens).map Prod.fst).map List.length).sum =
      (groups.flatMap Prod.fst ++ opens).length * bitLeafLen := by
    have hmap : (groups.flatMap Prod.fst ++ opens).map (List.length ∘ Prod.fst) =
        (groups.flatMap Prod.fst ++ opens).map fun _ => bitLeafLen := List.map_congr_left h.full
    rw [List.map_map, hmap, List.map_const', List.sum_replicate_nat]
  rw [← h.entries, List.length_append, List.length_flatten, hsum, List.length_append,
    length_flatMap_groups h.group,
    BitLeaf.length_entries h.leaf.keys.1 h.leaf.records.1 h.leaf.nrRecord]

/-- After some entries the table is in progress, or full. -/
def InProgress (c : AeadCipher) (start : ℕ) (es : List (ℕ × Record GcmKey)) (w : BitWriter) : Prop :=
  (∃ groups opens, Built c start es groups opens w) ∨
    es.length = defaultLsmFileCapacity ∧ (∃ groups, Finished c start es groups w) ∧
      w.builder.ctx.getLast?.any (fun ctx => !ctx.isEmpty) = true

/-- **One entry**, with room for it. -/
theorem InProgress.addEntry (hc : c.Lawful) (h : InProgress c start es w)
    (hes : ∀ e ∈ es, e.1 < 2 ^ 32)
    (hend : start + calculateBitSize defaultLsmFileCapacity defaultBitDegree < 2 ^ 64)
    {e : ℕ × Record GcmKey} (hkey : e.1 < 2 ^ 32) (hval : e.2.Fits)
    (hroom : es.length < defaultLsmFileCapacity) :
    ∃ w', w.addEntry c e = some w' ∧ InProgress c start (es ++ [e]) w' := by
  obtain ⟨groups, opens, hb⟩ := h.resolve_right fun hfull => hroom.ne hfull.1
  have hnr := hb.nrRecord
  have hopen := hb.open_lt
  have hgroups := hb.groups_lt
  rcases Nat.lt_or_eq_of_le hnr with hlt | hlast
  · obtain ⟨w', hw', hb'⟩ := hb.addEntry_room hkey hval hlt
    exact ⟨w', hw', Or.inl ⟨groups, opens, hb'⟩⟩
  · rcases Nat.lt_or_eq_of_le hopen with hlt | heq
    · obtain ⟨x, w', -, hw', hb'⟩ := hb.addEntry_leaf hc hend hkey hval hlast hlt
      exact ⟨w', hw', Or.inl ⟨groups, opens ++ [x], hb'⟩⟩
    · obtain ⟨w', g, hw', -, -, hmore, hroot⟩ := hb.addEntry_group hc hes hend hkey hval hlast heq
      rcases Nat.lt_or_eq_of_le hgroups with hlt | hfull
      · exact ⟨w', hw', Or.inl ⟨groups ++ [g], [], hmore hlt⟩⟩
      · obtain ⟨hfin, hflag⟩ := hroot hfull
        refine ⟨w', hw', Or.inr ⟨?_, ⟨_, hfin⟩, hflag⟩⟩
        have hlen := hb.length
        rw [List.length_append, List.length_singleton]
        simp only [defaultBitDegree, bitLeafLen, defaultLsmFileCapacity] at *
        omega

/-- **All entries.** -/
theorem inProgress_exec (hc : c.Lawful) (file buffer : ℕ → UInt8) (key : GcmKey)
    (hend : start + calculateBitSize defaultLsmFileCapacity defaultBitDegree < 2 ^ 64)
    (hfits : ∀ e ∈ es, e.1 < 2 ^ 32 ∧ e.2.Fits) (hlen : es.length ≤ defaultLsmFileCapacity) :
    ∃ w, Machine.exec (addEntry c) (create file buffer start key) es = some w ∧
      InProgress c start es w := by
  induction es using List.reverseRecOn with
  | nil => exact ⟨_, rfl, Or.inl ⟨[], [], built_create c file buffer start key⟩⟩
  | append_singleton es e ih =>
    have hold : ∀ a ∈ es, a.1 < 2 ^ 32 ∧ a.2.Fits := fun a ha =>
      hfits a (List.mem_append_left _ ha)
    obtain ⟨hkey, hval⟩ := hfits e (List.mem_append_right _ List.mem_cons_self)
    rw [List.length_append, List.length_singleton] at hlen
    obtain ⟨w, hw, h⟩ := ih hold (Nat.le_of_succ_le hlen)
    obtain ⟨w', hw', h'⟩ := h.addEntry hc (fun a ha => (hold a ha).1) hend hkey hval hlen
    exact ⟨w', Machine.exec_append_of hw (Machine.exec_cons_of hw' rfl), h'⟩

/-! ## The end -/

/-- What `bit_builder_complete` does to a builder without a root. -/
theorem complete_eq {b : BitBuilder GcmKey}
    (hflag : b.ctx.getLast?.any (fun ctx => !ctx.isEmpty) = false) {leaf : Option (BitLeaf GcmKey)}
    (hleaf : leaf = if 0 < b.curLeaf.nrRecord then some b.curLeaf else none)
    {c₀ : BitContext GcmKey} (hc₀ : c₀ = b.ctx.headD [] ++
      (leaf.map fun l => (BitNode.leaf l, b.begin + b.cur)).toList) {size : ℕ}
    (hsize : size = if leaf.isSome then bitLeafNodeSize else 0)
    {ctx : List (BitContext GcmKey)} {nodes : List (BitNode GcmKey)} {cur : ℕ}
    (hr : BitBuilder.promoteAll b.bufferFlushIfFull.begin c₀ b.ctx.tail
      (b.bufferFlushIfFull.cur + size) = (ctx, nodes, cur)) :
    b.complete = ({ b.bufferFlushIfFull with ctx := ctx, cur := cur },
      nodes ++ (leaf.map BitNode.leaf).toList) := by
  by_cases hpos : 0 < b.curLeaf.nrRecord
  · rw [if_pos hpos] at hleaf
    subst hleaf
    rw [Option.isSome_some, if_pos rfl] at hsize
    rw [hsize] at hr
    have hctx : b.leafContext = c₀ := hc₀.symm
    rw [BitBuilder.complete, if_neg (by rw [hflag]; exact Bool.false_ne_true), if_pos hpos,
      BitBuilder.reserveLeaf_begin, BitBuilder.reserveLeaf_cur, hctx, hr]
    exact congrArg (fun b' => (b', _)) (BitBuilder.with_ctx_with_cur b.bufferFlushIfFull _ ctx cur)
  · rw [if_neg hpos] at hleaf
    subst hleaf
    have hctx : b.ctx.headD [] = c₀ := by
      rw [hc₀]
      exact (List.append_nil _).symm
    have hzero : size = 0 := hsize
    rw [hzero, Nat.add_zero] at hr
    rw [BitBuilder.complete, if_neg (by rw [hflag]; exact Bool.false_ne_true), if_neg hpos, hctx]
    simp only [hr, Option.map_none, Option.toList_none, List.append_nil]

/-- A group and the root are open. -/
theorem promoteAll_group {begin cur : ℕ} {c₀ c₁ d : BitContext GcmKey} (hne : c₀ ≠ [])
    (hd : d = c₁ ++ [(bitInner c₀, begin + cur)]) :
    BitBuilder.promoteAll begin c₀ [c₁, []] cur =
      ([[], [], [(bitInner d, begin + (cur + bitInnerNodeSize))]], [bitInner c₀, bitInner d],
        cur + bitInnerNodeSize + bitInnerNodeSize) := by
  have hdne : d ≠ [] := by
    rw [hd]
    exact List.append_ne_nil_of_right_ne_nil c₁ (List.cons_ne_nil _ _)
  rw [BitBuilder.promoteAll, if_neg (by simpa using hne), ← hd, BitBuilder.promoteAll,
    if_neg (by simpa using hdne), BitBuilder.promoteAll]
  rfl

/-- Only the root is open. -/
theorem promoteAll_root {begin cur : ℕ} {c₁ : BitContext GcmKey} (hne : c₁ ≠ []) :
    BitBuilder.promoteAll begin [] [c₁, []] cur =
      ([[], [], [(bitInner c₁, begin + cur)]], [bitInner c₁], cur + bitInnerNodeSize) := by
  have hempty : c₁.isEmpty = false := by simpa using hne
  simp [BitBuilder.promoteAll, hempty]

/-- **The open nodes are closed.** -/
theorem Built.closeAll (hc : c.Lawful) (h : Built c start es groups opens w)
    {leaf : Option (BitLeaf GcmKey)}
    (hleaf : leaf = if 0 < w.builder.curLeaf.nrRecord then some w.builder.curLeaf else none)
    {c₀ : BitContext GcmKey} (hc₀ : c₀ = w.builder.ctx.headD [] ++
      (leaf.map fun l => (BitNode.leaf l, w.builder.begin + w.builder.cur)).toList) {size : ℕ}
    (hsize : size = if leaf.isSome then bitLeafNodeSize else 0)
    (ctx : List (BitContext GcmKey)) (inners : List (List BitChild)) (hlen : inners.length ≤ 2)
    (hinner : ∀ children ∈ inners, (BitNode.inner children).Fits)
    (hr : BitBuilder.promoteAll w.builder.bufferFlushIfFull.begin c₀ w.builder.ctx.tail
      (w.builder.bufferFlushIfFull.cur + size) = (ctx, inners.map BitNode.inner,
        w.builder.bufferFlushIfFull.cur + size + inners.length * bitInnerNodeSize)) :
    ∃ w', w.complete c = some w'.kernelWrite ∧ w'.Seen es ∧ w.Extends w' ∧
      w'.builder.begin + w'.builder.cur =
        w.builder.begin + w.builder.cur + size + inners.length * bitInnerNodeSize ∧
      (∀ l ∈ leaf, w'.NodeAt c (w.builder.begin + w.builder.cur) (.leaf l)) ∧
      (∀ i children, inners[i]? = some children → w'.NodeAt c
        (w.builder.begin + w.builder.cur + size + i * bitInnerNodeSize) (.inner children)) ∧
      w'.WrittenFrom start := by
  have hflag : w.builder.ctx.getLast?.any (fun ctx => !ctx.isEmpty) = false := by
    obtain ⟨a, b, hctx, -⟩ := h.ctx
    rw [hctx]
    rfl
  obtain ⟨b, hb⟩ : ∃ b, b = w.builder.bufferFlushIfFull := ⟨_, rfl⟩
  have hkept := w.builder.bufferFlushIfFull_bitKey
  have hcomplete := complete_eq hflag hleaf hc₀ hsize hr
  obtain ⟨hfb, hfe, hfpos, hroom, hbegin, hwrites⟩ := bufferFlushIfFull_spec w
  obtain ⟨flushed, hflushed⟩ : ∃ flushed, flushed = w.bufferFlushIfFull := ⟨_, rfl⟩
  rw [← hflushed] at hfb hfe hfpos hroom hbegin hwrites
  rw [← hb] at hcomplete hfb hkept
  obtain ⟨b', hb'⟩ : ∃ b', b' = { b with
    ctx := ctx, cur := b.cur + size + inners.length * bitInnerNodeSize } := ⟨_, rfl⟩
  have hcomplete' : w.builder.complete = (b', callNodes inners leaf) := by
    rw [hcomplete, hb']
    rfl
  have hb'begin : b'.begin = flushed.builder.begin := by rw [hb', hfb]
  have hb'cur : b'.cur = flushed.builder.cur + size + inners.length * bitInnerNodeSize := by
    rw [hb', hfb]
  have hfits : ∀ l ∈ leaf, l.Fits := by
    intro l hl
    rw [hleaf] at hl
    split at hl
    · obtain rfl := Option.some.inj hl
      exact h.leaf
    · cases hl
  obtain ⟨w', hw', hwb, hww, hwe, hwleaf, hwinner⟩ := copyNodes_spec hc (b := b')
    leaf (flushed.builder.cur + size) hroom (by rw [hsize]) hlen hinner hfits hb'begin
    (by rw [hb', hfb]) hb'cur
  have hcur : (if 0 < w.builder.curLeaf.nrRecord then flushed.builder.cur + bitLeafNodeSize
      else flushed.builder.cur) = flushed.builder.cur + size := by
    rw [hsize, hleaf]
    by_cases hpos : 0 < w.builder.curLeaf.nrRecord
    · simp [hpos]
    · simp [hpos]
  have hpos : w.builder.begin + w.builder.cur = flushed.builder.begin + flushed.builder.cur :=
    hfpos.symm
  refine ⟨w', ?_, ?_, hfe.trans hwe, ?_, fun l hl => ?_, fun i children hi => ?_, ?_, fun x hx => ?_⟩
  · simp only [BitWriter.complete, hflag, ← hflushed, hcomplete', hcur]
    exact congrArg (Option.map kernelWrite) hw'
  · have hkeep : b.size = w.builder.size ∧ b.firstKey = w.builder.firstKey ∧
        b.lastKey = w.builder.lastKey := by
      rw [hb]
      exact ⟨w.builder.bufferFlushIfFull_size, w.builder.bufferFlushIfFull_keys⟩
    refine ⟨?_, ?_, ?_⟩
    all_goals rw [hwb, hb']
    · exact hkeep.1.trans h.seen.size
    · exact hkeep.2.1.trans h.seen.firstKey
    · exact hkeep.2.2.trans h.seen.lastKey
  · rw [hwb, hb'begin, hb'cur, hpos]
    omega
  · exact hpos ▸ hwleaf l hl
  · have hat := hwinner i children hi
    rwa [← Nat.add_assoc, ← Nat.add_assoc, ← hpos] at hat
  · rw [hwb, hb'begin]
    exact h.written.1.trans hbegin
  · rw [hww] at hx
    rw [hwb, hb'begin]
    rcases hwrites x hx with hx | ⟨hx₁, hx₂⟩
    · obtain ⟨h₁, h₂⟩ := h.written.2 x hx
      exact ⟨h₁, h₂.trans hbegin⟩
    · rw [hx₂]
      refine ⟨?_, le_rfl⟩
      rw [hx₁]
      exact h.written.1

/-- The leaf that is still open, if it has entries, with its place. -/
def lastLeaf (w : BitWriter) : List PlacedLeaf :=
  if 0 < w.builder.curLeaf.nrRecord then
    [(w.builder.curLeaf.entries, w.builder.begin + w.builder.cur)]
  else []

/-- The group that is closed at the end. -/
theorem closedAt_lastLeaf (opens : List PlacedLeaf) {pos : ℕ}
    (hpos : w.builder.begin + w.builder.cur ≤ pos) :
    ClosedAt (w.builder.begin + w.builder.cur) opens (opens ++ w.lastLeaf, pos) := by
  refine ⟨hpos, fun y hy => ?_⟩
  rcases List.mem_append.mp hy with hy | hy
  · exact Or.inl hy
  · rw [lastLeaf] at hy
    split at hy
    · exact Or.inr (by rw [List.mem_singleton.mp hy])
    · cases hy

/-- **The leaves of the table** are the pieces of the list of entries. -/
theorem Built.leaves_eq (h : Built c start es groups opens w) :
    (groups.flatMap Prod.fst ++ (opens ++ w.lastLeaf)).map Prod.fst =
      Chunks.chunks bitLeafLen es := by
  have hchunks := Chunks.chunks_flatten_append (n := bitLeafLen) (by decide)
    ((groups.flatMap Prod.fst ++ opens).map Prod.fst) (fun l hl => by
      obtain ⟨y, hy, rfl⟩ := List.mem_map.mp hl
      exact h.full y hy) w.builder.curLeaf.entries
  have hlen := BitLeaf.length_entries h.leaf.keys.1 h.leaf.records.1 h.leaf.nrRecord
  rw [h.entries] at hchunks
  rw [hchunks, ← List.append_assoc, List.map_append]
  refine congrArg _ ?_
  rw [lastLeaf]
  by_cases hpos : 0 < w.builder.curLeaf.nrRecord
  · rw [if_pos hpos, Chunks.chunks_of_length_le]
    · rfl
    · exact List.ne_nil_of_length_pos (by rw [hlen]; exact hpos)
    · rw [hlen]
      exact h.leaf.nrRecord
  · have hnil : w.builder.curLeaf.entries = [] := by
      rw [← List.length_eq_zero_iff, hlen]
      omega
    rw [if_neg hpos, hnil, Chunks.chunks_nil]
    rfl

/-- The last leaf fits into an inner node. -/
theorem Built.fits_last (h : Built c start es groups opens w) (hes : ∀ e ∈ es, e.1 < 2 ^ 32)
    (hend : start + calculateBitSize defaultLsmFileCapacity defaultBitDegree < 2 ^ 64) :
    ∀ y ∈ opens ++ w.lastLeaf, (leafChild y).Fits := by
  have hle := h.end_le
  have hlen := BitLeaf.length_entries h.leaf.keys.1 h.leaf.records.1 h.leaf.nrRecord
  intro y hy
  rcases List.mem_append.mp hy with hy | hy
  · exact h.leafChild_fits hes hend (List.mem_append_right _ hy)
  · rw [lastLeaf] at hy
    split at hy
    · rename_i hpos
      rw [List.mem_singleton.mp hy]
      refine BitWriter.leafChild_fits ?_ (fun a ha => hes a ?_) (by show _ + _ < _; omega)
      · exact List.ne_nil_of_length_pos (by rw [hlen]; exact hpos)
      · rw [← h.entries]
        exact List.mem_append_right _ ha
    · cases hy

/-- The contexts when the last leaf is entered. -/
theorem Built.lastContext (h : Built c start es groups opens w) {leaf : Option (BitLeaf GcmKey)}
    (hleaf : leaf = if 0 < w.builder.curLeaf.nrRecord then some w.builder.curLeaf else none)
    {c₀ : BitContext GcmKey} (hc₀ : c₀ = w.builder.ctx.headD [] ++
      (leaf.map fun l => (BitNode.leaf l, w.builder.begin + w.builder.cur)).toList) :
    c₀.map ctxChild = (opens ++ w.lastLeaf).map leafChild ∧
      ∃ c₁, w.builder.ctx.tail = [c₁, []] ∧ c₁.map ctxChild = groups.map groupChild := by
  obtain ⟨a, c₁, hctx, h₀, h₁⟩ := h.ctx
  refine ⟨?_, c₁, by rw [hctx]; rfl, h₁⟩
  rw [hc₀, hctx, List.map_append, List.map_append, List.headD_cons, h₀, lastLeaf]
  refine congrArg _ ?_
  by_cases hpos : 0 < w.builder.curLeaf.nrRecord
  · rw [if_pos hpos] at hleaf
    rw [hleaf, if_pos hpos, Option.map_some, Option.toList_some, List.map_singleton,
      List.map_singleton, ctxChild, leafChild,
      BitLeaf.lastKey_leaf h.leaf.keys.1 h.leaf.records.1 h.leaf.nrRecord hpos]
    rfl
  · rw [if_neg hpos] at hleaf
    rw [hleaf, if_neg hpos]
    rfl

/-- The leaves when the last one is written. -/
theorem Built.chained_last (h : Built c start es groups opens w) {leaf : Option (BitLeaf GcmKey)}
    (hleaf : leaf = if 0 < w.builder.curLeaf.nrRecord then some w.builder.curLeaf else none)
    (hextends : w.Extends w')
    (hat : ∀ l ∈ leaf, w'.NodeAt c (w.builder.begin + w.builder.cur) (.leaf l)) :
    ∃ next, Chained (w'.NodeAt c) (groups.flatMap Prod.fst ++ (opens ++ w.lastLeaf)) next := by
  have hold := h.chained.mono fun _ _ hnode => hnode.extends hextends
  rw [← List.append_assoc, lastLeaf]
  by_cases hpos : 0 < w.builder.curLeaf.nrRecord
  · rw [if_pos hpos] at hleaf
    rw [if_pos hpos]
    exact ⟨_, hold.concat ⟨_, hat _ hleaf, h.leaf, rfl, rfl⟩ rfl⟩
  · rw [if_neg hpos, List.append_nil]
    exact ⟨_, hold⟩

/-- **`bit_builder_complete`** with at least one entry. -/
theorem Built.complete (hc : c.Lawful) (h : Built c start es groups opens w) (hne : es ≠ [])
    (hes : ∀ e ∈ es, e.1 < 2 ^ 32)
    (hend : start + calculateBitSize defaultLsmFileCapacity defaultBitDegree < 2 ^ 64) :
    ∃ w' groups', w.complete c = some w'.kernelWrite ∧
      (∀ g ∈ groups', g ∈ groups ∨ ClosedAt (w.builder.begin + w.builder.cur) opens g) ∧
      Finished c start es groups' w' := by
  obtain ⟨leaf, hleaf⟩ : ∃ leaf, leaf =
    if 0 < w.builder.curLeaf.nrRecord then some w.builder.curLeaf else none := ⟨_, rfl⟩
  obtain ⟨c₀, hc₀⟩ : ∃ c₀, c₀ = w.builder.ctx.headD [] ++
    (leaf.map fun l => (BitNode.leaf l, w.builder.begin + w.builder.cur)).toList := ⟨_, rfl⟩
  obtain ⟨size, hsize⟩ : ∃ size, size = if leaf.isSome then bitLeafNodeSize else 0 := ⟨_, rfl⟩
  obtain ⟨h₀, c₁, htail, h₁⟩ := h.lastContext hleaf hc₀
  have hle := h.end_le
  have hsizeLe : size ≤ bitLeafNodeSize := by
    rw [hsize]
    split <;> omega
  have hflush := w.builder.bufferFlushIfFull_pos
  have hleaves := h.leaves_eq
  by_cases hopen : opens ++ w.lastLeaf = []
  · -- only the root is missing
    rw [hopen, List.append_nil] at hleaves
    have hgroups : groups ≠ [] := by
      intro hnil
      rw [hnil, Chunks.chunks_of_ne_nil (by decide) hne] at hleaves
      cases hleaves
    rw [hopen, List.map_nil, List.map_eq_nil_iff] at h₀
    have hne₁ : c₁ ≠ [] := by
      intro hnil
      rw [hnil, List.map_nil, eq_comm, List.map_eq_nil_iff] at h₁
      exact hgroups h₁
    obtain ⟨roots, hroots⟩ : ∃ roots, roots = groups.map groupChild := ⟨_, rfl⟩
    rw [← hroots] at h₁
    have hroot : (BitNode.inner roots).Fits := by
      refine ⟨?_, fun child hchild => ?_⟩
      · rw [hroots, List.length_map]
        exact h.groups_lt.le
      · rw [hroots] at hchild
        obtain ⟨g, hg, rfl⟩ := List.mem_map.mp hchild
        exact h.groupChild_fits hes hend hg
    obtain ⟨w', hw', hseen, hextends, hpos, hlast, hat, hwritten⟩ := h.closeAll hc hleaf hc₀ hsize
      [[], [], [(bitInner c₁, w.builder.bufferFlushIfFull.begin +
        (w.builder.bufferFlushIfFull.cur + size))]] [roots] (by simp) (by simpa using hroot) (by
        rw [h₀, htail, promoteAll_root hne₁, bitInner_eq, h₁]
        simp)
    have hchained := h.chained_last hleaf hextends hlast
    rw [hopen, List.append_nil] at hchained
    rw [List.length_singleton, Nat.one_mul] at hpos
    refine ⟨w', groups, hw', fun g hg => Or.inl hg, ⟨hleaves, fun g hg => ?_, h.groups_lt.le,
      fun g hg => ?_, hseen, ?_, hchained, fun g hg => (h.inner g hg).extends hextends, ?_, hwritten⟩⟩
    · have hfull := h.group g hg
      refine ⟨fun hnil => ?_, hfull.le⟩
      rw [hnil] at hfull
      exact absurd hfull (by decide)
    · exact ⟨h.groupChild_fits hes hend hg, fun x hx => h.leafChild_fits hes hend
        (List.mem_append_left _ (List.mem_flatMap.mpr ⟨g, hg, hx⟩))⟩
    · omega
    · refine ⟨w.builder.begin + w.builder.cur + size, hpos.symm, ?_⟩
      have hnode := hat 0 roots rfl
      rwa [Nat.zero_mul, Nat.add_zero, hroots] at hnode
  · -- the open group is closed, and then the root
    have hlen : (opens ++ w.lastLeaf).length ≤ defaultBitDegree := by
      have hone : w.lastLeaf.length ≤ 1 := by
        rw [lastLeaf]
        split <;> simp
      have hlt := h.open_lt
      rw [List.length_append]
      omega
    obtain ⟨pos, hpos⟩ : ∃ pos, pos = w.builder.begin + w.builder.cur + size := ⟨_, rfl⟩
    have hflushPos : w.builder.bufferFlushIfFull.begin + (w.builder.bufferFlushIfFull.cur + size) =
        pos := by omega
    obtain ⟨d, hd⟩ : ∃ d, d = c₁ ++ [(bitInner c₀, pos)] := ⟨_, rfl⟩
    obtain ⟨hdchild, -, hinner, hroot, hgroup, hfits⟩ := h.closeGroup hes hend hopen hlen
      (h.fits_last hes hend) h₀ h₁ (by omega) hd
    have hne₀ : c₀ ≠ [] := by
      intro hnil
      rw [hnil, List.map_nil, eq_comm, List.map_eq_nil_iff] at h₀
      exact hopen h₀
    obtain ⟨kids, hkids⟩ : ∃ kids, kids = (opens ++ w.lastLeaf).map leafChild := ⟨_, rfl⟩
    obtain ⟨roots, hroots⟩ : ∃ roots, roots =
      (groups ++ [(opens ++ w.lastLeaf, pos)]).map groupChild := ⟨_, rfl⟩
    rw [← hkids] at h₀ hinner
    rw [← hroots] at hdchild hroot
    obtain ⟨w', hw', hseen, hextends, hpos', hlast, hat, hwritten⟩ := h.closeAll hc hleaf hc₀ hsize
      [[], [], [(bitInner d, w.builder.bufferFlushIfFull.begin +
        (w.builder.bufferFlushIfFull.cur + size + bitInnerNodeSize))]] [kids, roots] (by simp) (by simpa using ⟨hinner, hroot⟩) (by
        rw [htail, promoteAll_group (d := d) hne₀ (by rw [hflushPos, hd]), bitInner_eq c₀, h₀,
          bitInner_eq d, hdchild]
        simp [Nat.two_mul, Nat.add_assoc])
    have hflat : (groups ++ [(opens ++ w.lastLeaf, pos)]).flatMap Prod.fst =
        groups.flatMap Prod.fst ++ (opens ++ w.lastLeaf) := by
      rw [List.flatMap_append, List.flatMap_singleton]
    simp only [List.length_cons, List.length_nil] at hpos'
    refine ⟨w', groups ++ [(opens ++ w.lastLeaf, pos)], hw', fun g hg => ?_,
      ⟨by rw [hflat, hleaves], hgroup, ?_, hfits, hseen, ?_,
        by rw [hflat]; exact h.chained_last hleaf hextends hlast, fun g hg => ?_, ?_, hwritten⟩⟩
    · rcases List.mem_append.mp hg with hg | hg
      · exact Or.inl hg
      · rw [List.mem_singleton.mp hg]
        exact Or.inr (closedAt_lastLeaf opens (by omega))
    · rw [List.length_append, List.length_singleton]
      exact h.groups_lt
    · omega
    · rcases List.mem_append.mp hg with hg | hg
      · exact (h.inner g hg).extends hextends
      · have hnode := hat 0 kids rfl
        rw [Nat.zero_mul, Nat.add_zero, ← hpos] at hnode
        rw [List.mem_singleton.mp hg, ← hkids]
        exact hnode
    · refine ⟨pos + bitInnerNodeSize, by omega, ?_⟩
      have hnode := hat 1 roots rfl
      rwa [Nat.one_mul, ← hpos, hroots] at hnode

/-- **The table is written.** All entries are added and the builder is completed. -/
theorem exists_finished (hc : c.Lawful) (file buffer : ℕ → UInt8) (key : GcmKey)
    (hend : start + calculateBitSize defaultLsmFileCapacity defaultBitDegree < 2 ^ 64)
    (hfits : ∀ e ∈ es, e.1 < 2 ^ 32 ∧ e.2.Fits) (hlen : es.length ≤ defaultLsmFileCapacity)
    (hne : es ≠ []) :
    ∃ w w' groups, Machine.exec (addEntry c) (create file buffer start key) es = some w ∧
      w.complete c = some w'.kernelWrite ∧ Finished c start es groups w' := by
  obtain ⟨w, hw, h⟩ := inProgress_exec hc file buffer key hend hfits hlen
  rcases h with ⟨groups, opens, hb⟩ | ⟨-, ⟨groups, hfin⟩, hflag⟩
  · obtain ⟨w', groups', hw', -, hfin⟩ := hb.complete hc hne (fun e he => (hfits e he).1) hend
    exact ⟨w, w', groups', hw, hw', hfin⟩
  · exact ⟨w, w, groups, hw, if_pos hflag, hfin⟩

end BitWriter

end JinDisk
