import JinDisk.BitTable

/-!
# Reading a block index table

The reader knows the root, the key and the range of the keys. The root and the inner nodes are
read once, when the file is opened; the reader takes it that there are exactly two levels of them.
A lookup goes through the two levels to a leaf, which is read from the file unless it is cached.
An iterator follows the leaves from the first one on.

`bit_table_round_trip`: what a builder has written is read back.
-/

namespace JinDisk

/-- `struct cached_inner` of the root, with the children of its child nodes -/
structure CachedRoot where
  /-- `children` -/
  children : List BitChild
  /-- `child_nodes` -/
  childNodes : List (List BitChild)

/-- `struct bit_file` without its cache of leaves -/
structure DiskBitFile where
  /-- where the root lies -/
  root : ℕ
  /-- `root_key` -/
  rootKey : GcmKey
  /-- `first_key` -/
  firstKey : ℕ
  /-- `last_key` -/
  lastKey : ℕ
  /-- `nr_record` -/
  nrRecord : ℕ
  /-- `cached_root`, if it was built -/
  cachedRoot : Option CachedRoot

/-- An inner node is read. -/
def readInner (c : AeadCipher) (file : ℕ → UInt8) (key : GcmKey) (pos : ℕ) :
    Except Int (List BitChild) :=
  decodeInner c key (ByteMap.readOut file pos bitInnerNodeSize)

/-- A leaf is read. -/
def readLeaf (c : AeadCipher) (file : ℕ → UInt8) (key : GcmKey) (pos : ℕ) :
    Except Int (BitLeaf GcmKey) :=
  decodeLeaf c key (ByteMap.readOut file pos bitLeafNodeSize)

/-- The child nodes are read; one that cannot be decoded ends the loop. -/
def readInners (c : AeadCipher) (file : ℕ → UInt8) (key : GcmKey) :
    List BitChild → Option (List (List BitChild))
  | [] => some []
  | child :: children =>
    match readInner c file key child.pos with
    | .error _ => none
    | .ok inner => (readInners c file key children).map fun inners => inner :: inners

/-- `bit_file_build_cached_root` -/
def bitFileBuildCachedRoot (c : AeadCipher) (file : ℕ → UInt8) (key : GcmKey) (root : ℕ) :
    Option CachedRoot :=
  match readInner c file key root with
  | .error _ => none
  | .ok children => (readInners c file key children).map fun inners => ⟨children, inners⟩

/-- `bit_file_create`, as `bit_builder_complete` calls it -/
def BitWriter.bitFile (c : AeadCipher) (w : BitWriter) : DiskBitFile where
  root := w.builder.begin + w.builder.cur - bitInnerNodeSize
  rootKey := w.builder.bitKey
  firstKey := w.builder.firstKey.getD 0
  lastKey := w.builder.lastKey
  nrRecord := w.builder.size
  cachedRoot := bitFileBuildCachedRoot c w.file w.builder.bitKey
    (w.builder.begin + w.builder.cur - bitInnerNodeSize)

namespace DiskBitFile

/-- `bit_file_search_leaf_key_pos`. There is no result if the root was not built or the root has
no child for the key: the code then reads what is not there. -/
def searchLeafKeyPos (f : DiskBitFile) (key : ℕ) : Option (Except Int (ℕ × ℕ)) :=
  if key < f.firstKey ∨ f.lastKey < key then some (.error (-ENODATA))
  else
    f.cachedRoot.bind fun root =>
      (root.childNodes[root.children.findIdx fun child => key ≤ child.key]?).map fun inner =>
        match inner.find? fun child => key ≤ child.key with
        | some child => .ok (child.key, child.pos)
        | none => .error (-ENODATA)

/-- `bit_file_search_leaf` -/
def searchLeaf (c : AeadCipher) (file : ℕ → UInt8) (f : DiskBitFile) (key : ℕ) :
    Option (Except Int (BitLeaf GcmKey)) :=
  (f.searchLeafKeyPos key).map fun
    | .error err => .error err
    | .ok (_, pos) =>
      match readLeaf c file f.rootKey pos with
      | .error err => .error err
      | .ok leaf =>
        if leaf.entries.any fun e => e.1 = key then .ok leaf else .error (-ENODATA)

/-- `bit_file_search_cached_leaf` -/
def searchCachedLeaf (f : DiskBitFile) (cache : LruCache (BitLeaf GcmKey)) (key : ℕ) :
    Option (Option (Record GcmKey) × LruCache (BitLeaf GcmKey)) :=
  (f.searchLeafKeyPos key).map fun
    | .error _ => (none, cache)
    | .ok (leafKey, _) =>
      ((cache.get leafKey).1.bind fun leaf =>
        (leaf.entries.find? fun e => e.1 = key).map Prod.snd, (cache.get leafKey).2)

/-- `bit_file_search`: the error or the record, and the cache afterwards. A leaf without the key
would leave the place for the record as it was. -/
def search (c : AeadCipher) (file : ℕ → UInt8) (f : DiskBitFile) (cache : LruCache (BitLeaf GcmKey))
    (key : ℕ) : Option (Except Int (Option (Record GcmKey)) × LruCache (BitLeaf GcmKey)) :=
  (f.searchCachedLeaf cache key).bind fun
    | (some r, cache) => some (.ok (some r), cache)
    | (none, cache) =>
      (f.searchLeaf c file key).map fun
        | .error err => (.error err, cache)
        | .ok leaf =>
          (.ok ((leaf.entries.find? fun e => e.1 = key).map Prod.snd),
            cache.put (BitNode.leaf leaf).lastKey leaf)

/-- Lookups one after the other, with the cache they leave behind. -/
def searches (c : AeadCipher) (file : ℕ → UInt8) (f : DiskBitFile) :
    LruCache (BitLeaf GcmKey) → List ℕ → Option (List (Except Int (Option (Record GcmKey))))
  | _, [] => some []
  | cache, key :: keys =>
    (f.search c file cache key).bind fun r =>
      (searches c file f r.2 keys).map fun results => r.1 :: results

end DiskBitFile

/-- `struct bit_iterator` -/
structure BitIterator where
  /-- `cur_record` -/
  curRecord : ℕ
  /-- `count` -/
  count : ℕ
  /-- `has_next` -/
  hasNext : Bool
  /-- `leaf` -/
  leaf : BitLeaf GcmKey

namespace BitIterator

/-- `bit_iterator_init` -/
def init (c : AeadCipher) (file : ℕ → UInt8) (f : DiskBitFile) : Option (Except Int BitIterator) :=
  (f.searchLeaf c file f.firstKey).map fun r => r.map fun leaf => ⟨0, 0, true, leaf⟩

/-- `bit_iterator_next`, when there is a next entry. There is no result beyond the end of a leaf
or behind a leaf that cannot be decoded. -/
def next (c : AeadCipher) (file : ℕ → UInt8) (f : DiskBitFile) (it : BitIterator) :
    Option ((ℕ × Record GcmKey) × BitIterator) :=
  (it.leaf.keys[it.curRecord]?).bind fun key =>
    (it.leaf.records[it.curRecord]?).bind fun record =>
      if f.nrRecord ≤ it.count + 1 then
        some ((key, record), { it with count := it.count + 1, hasNext := false })
      else if it.curRecord + 1 = bitLeafLen then
        match readLeaf c file f.rootKey it.leaf.nextPos with
        | .error _ => none
        | .ok leaf => some ((key, record), ⟨0, it.count + 1, it.hasNext, leaf⟩)
      else
        some ((key, record), { it with curRecord := it.curRecord + 1, count := it.count + 1 })

/-- All entries, in at most `fuel` calls. -/
def collect (c : AeadCipher) (file : ℕ → UInt8) (f : DiskBitFile) :
    ℕ → BitIterator → Option (List (ℕ × Record GcmKey))
  | 0, it => if it.hasNext then none else some []
  | fuel + 1, it =>
    if it.hasNext then
      (it.next c file f).bind fun r => (collect c file f fuel r.2).map fun es => r.1 :: es
    else some []

end BitIterator

/-! ## The file of a builder -/

/-- The nodes of a table are in the file, and the two upper levels are read. -/
structure OnDisk (c : AeadCipher) (file : ℕ → UInt8) (es : List (ℕ × Record GcmKey))
    (groups : List Group) (f : DiskBitFile) : Prop where
  /-- the leaves -/
  leaves : (groups.flatMap Prod.fst).map Prod.fst = Chunks.chunks bitLeafLen es
  /-- the groups -/
  group_ne : ∀ g ∈ groups, g.1 ≠ []
  /-- the smallest key -/
  firstKey : f.firstKey = (es.head?.map Prod.fst).getD 0
  /-- the largest key -/
  lastKey : f.lastKey = (es.getLast?.map Prod.fst).getD 0
  /-- the counter -/
  nrRecord : f.nrRecord = es.length
  /-- the leaves are in the file -/
  chained : ∃ next, Chained (fun pos node => ByteMap.readOut file pos node.nodeSize =
    bitNodeEncode c f.rootKey node) (groups.flatMap Prod.fst) next
  /-- the root and the inner nodes are read -/
  cachedRoot : f.cachedRoot =
    some ⟨groups.map groupChild, groups.map fun g => g.1.map leafChild⟩

variable {c : AeadCipher} {file : ℕ → UInt8} {es : List (ℕ × Record GcmKey)} {groups : List Group}
  {f : DiskBitFile}

/-- The inner nodes below the root. -/
theorem readInners_eq {key : GcmKey} (h : ∀ g ∈ groups,
    readInner c file key g.2 = .ok (g.1.map leafChild)) :
    readInners c file key (groups.map groupChild) =
      some (groups.map fun g => g.1.map leafChild) := by
  induction groups with
  | nil => rfl
  | cons g groups ih =>
    have hg : readInner c file key (groupChild g).pos = .ok (g.1.map leafChild) :=
      h g List.mem_cons_self
    rw [List.map_cons, List.map_cons, readInners, hg, ih fun k hk => h k (List.mem_cons_of_mem g hk)]
    rfl

/-- **What the builder leaves behind.** -/
theorem BitWriter.Finished.onDisk (hc : c.Lawful) {start : ℕ} {w : BitWriter}
    (h : w.Finished c start es groups) :
    OnDisk c w.kernelWrite.file es groups (w.kernelWrite.bitFile c) := by
  obtain ⟨r, hr, hroot⟩ := h.root
  have hpos : w.builder.begin + w.builder.cur - bitInnerNodeSize = r := by omega
  have hread : readInner c w.kernelWrite.file w.builder.bitKey r = .ok (groups.map groupChild) := by
    refine Eq.trans (congrArg (decodeInner c _) hroot.readOut_kernelWrite)
      (decodeInner_encode hc ?_ ?_ _)
    · rw [List.length_map]
      exact h.groups_le
    · intro child hchild
      obtain ⟨g, hg, rfl⟩ := List.mem_map.mp hchild
      exact (h.fits g hg).1
  have hinner : ∀ g ∈ groups,
      readInner c w.kernelWrite.file w.builder.bitKey g.2 = .ok (g.1.map leafChild) := by
    intro g hg
    refine Eq.trans (congrArg (decodeInner c _) (h.inner g hg).readOut_kernelWrite)
      (decodeInner_encode hc ?_ ?_ _)
    · rw [List.length_map]
      exact (h.group g hg).2
    · intro child hchild
      obtain ⟨x, hx, rfl⟩ := List.mem_map.mp hchild
      exact (h.fits g hg).2 x hx
  obtain ⟨next, hchained⟩ := h.chained
  refine ⟨h.leaves, fun g hg => (h.group g hg).1, ?_, h.seen.lastKey, h.seen.size,
    ⟨next, hchained.mono fun _ _ hat => hat.readOut_kernelWrite⟩, ?_⟩
  · exact congrArg (Option.getD · 0) h.seen.firstKey
  · show bitFileBuildCachedRoot c w.kernelWrite.file w.builder.bitKey
      (w.builder.begin + w.builder.cur - bitInnerNodeSize) = _
    rw [bitFileBuildCachedRoot, hpos, hread]
    exact congrArg (Option.map _) (readInners_eq hinner)

/-! ## Lookups -/

/-- Two levels of search find what one search over all leaves finds, if the last leaf of a group
stands for the group. -/
theorem find?_flatMap_fst {α : Type} {β : Type} {p : α → Bool} {q : List α × β → Bool}
    {gs : List (List α × β)} (hq : ∀ g ∈ gs, q g = true ↔ ∃ x ∈ g.1, p x = true) :
    (gs.flatMap Prod.fst).find? p = (gs.find? q).bind fun g => g.1.find? p := by
  induction gs with
  | nil => rfl
  | cons g gs ih =>
    have hrest := ih fun k hk => hq k (List.mem_cons_of_mem g hk)
    rw [List.flatMap_cons, List.find?_append]
    by_cases hg : q g = true
    · obtain ⟨x, hx, hpx⟩ := (hq g List.mem_cons_self).mp hg
      obtain ⟨y, hy⟩ := Option.isSome_iff_exists.mp (List.find?_isSome.mpr ⟨x, hx, hpx⟩)
      rw [List.find?_cons_of_pos hg, Option.bind_some, hy, Option.some_or]
    · have hnone : g.1.find? p = none := by
        refine List.find?_eq_none.mpr fun x hx hpx => hg ?_
        exact (hq g List.mem_cons_self).mpr ⟨x, hx, hpx⟩
      rw [List.find?_cons_of_neg hg, hnone, Option.none_or, hrest]

/-- The table as the levels see it. -/
def tableFile (es : List (ℕ × Record GcmKey)) : BitFile GcmKey := ⟨0, 0, 0, es⟩

/-- The keys of the leaves are sorted. -/
theorem OnDisk.pairwise_key (h : OnDisk c file es groups f) (hs : (tableFile es).Sorted) :
    (groups.flatMap Prod.fst).Pairwise fun x y => x.1.key ≤ y.1.key := by
  have hleaves : (tableFile es).leaves.Pairwise fun a b => Leaf.key a ≤ Leaf.key b := by
    rw [BitFile.Sorted, ← (tableFile es).flatten_leaves] at hs
    refine (List.pairwise_flatten.mp hs).2.imp_of_mem fun ha hb hab => ?_
    obtain ⟨e, he, hkey⟩ := BitFile.exists_leaf_key ha
    obtain ⟨e', he', hkey'⟩ := BitFile.exists_leaf_key hb
    rw [← hkey, ← hkey']
    exact hab e he e' he'
  have heq : (tableFile es).leaves = (groups.flatMap Prod.fst).map Prod.fst := h.leaves.symm
  rwa [heq, List.pairwise_map] at hleaves

/-- The key of a group is the largest one of its leaves. -/
theorem OnDisk.le_groupChild_key (h : OnDisk c file es groups f) (hs : (tableFile es).Sorted)
    {g : Group} (hg : g ∈ groups) {x : PlacedLeaf} (hx : x ∈ g.1) :
    x.1.key ≤ (groupChild g).key := by
  have hkeys : g.1.Pairwise fun x y => x.1.key ≤ y.1.key :=
    (List.pairwise_flatMap.mp (h.pairwise_key hs)).1 g hg
  rw [groupChild, List.getLast?_eq_some_getLast (h.group_ne g hg)]
  exact hkeys.rel_getLast_of_rel_getLast_getLast hx le_rfl

/-- **The two levels lead to the leaf** that a search over all leaves finds. -/
theorem OnDisk.searchLeafKeyPos (h : OnDisk c file es groups f) (hs : (tableFile es).Sorted)
    (hne : es ≠ []) {key : ℕ} (hin : ¬(key < f.firstKey ∨ f.lastKey < key)) :
    ∃ x, (groups.flatMap Prod.fst).find? (fun x => key ≤ x.1.key) = some x ∧
      (tableFile es).searchLeafKeyPos key = some x.1 ∧
      f.searchLeafKeyPos key = some (.ok (x.1.key, x.2)) := by
  have hin' : ¬(key < (tableFile es).firstKey ∨ (tableFile es).lastKey < key) := by
    rwa [h.firstKey, h.lastKey] at hin
  obtain ⟨leaf, hleaf⟩ := BitFile.exists_leaf_of_range hs hne hin'
  have hfind : (tableFile es).searchLeafKeyPos key =
      ((groups.flatMap Prod.fst).find? fun x => key ≤ x.1.key).map Prod.fst := by
    rw [BitFile.searchLeafKeyPos, if_neg hin', BitFile.leaves]
    exact (congrArg _ h.leaves.symm).trans List.find?_map
  obtain ⟨x, hx, rfl⟩ := Option.map_eq_some_iff.mp (hfind.symm.trans hleaf)
  refine ⟨x, hx, hleaf, ?_⟩
  have hgroup : ∀ g ∈ groups, decide (key ≤ (groupChild g).key) = true ↔
      ∃ x ∈ g.1, decide (key ≤ x.1.key) = true := by
    intro g hg
    simp only [decide_eq_true_eq]
    constructor
    · intro hkey
      refine ⟨g.1.getLast (h.group_ne g hg), List.getLast_mem _, ?_⟩
      rwa [groupChild, List.getLast?_eq_some_getLast (h.group_ne g hg)] at hkey
    · rintro ⟨x, hx, hkey⟩
      exact hkey.trans (h.le_groupChild_key hs hg hx)
  rw [find?_flatMap_fst hgroup] at hx
  obtain ⟨g, hg, hxg⟩ := Option.bind_eq_some_iff.mp hx
  rw [List.find?_eq_getElem?_findIdx] at hg
  have hidx : groups[groups.findIdx ((fun child => decide (key ≤ child.key)) ∘ groupChild)]? =
      some g := hg
  have hchild : (g.1.map leafChild).find? (fun child => key ≤ child.key) = some (leafChild x) := by
    rw [List.find?_map]
    exact congrArg (Option.map leafChild) hxg
  rw [DiskBitFile.searchLeafKeyPos, if_neg hin, h.cachedRoot, Option.bind_some, List.findIdx_map,
    List.getElem?_map, hidx, Option.map_some, Option.map_some, hchild]
  rfl

/-- Out of the range of the keys nothing is looked for. -/
theorem OnDisk.searchLeafKeyPos_out {key : ℕ} (hout : key < f.firstKey ∨ f.lastKey < key) :
    f.searchLeafKeyPos key = some (.error (-ENODATA)) := if_pos hout

/-- A leaf is read. -/
theorem OnDisk.readLeaf (hc : c.Lawful) (h : OnDisk c file es groups f) {x : PlacedLeaf}
    (hx : x ∈ groups.flatMap Prod.fst) :
    ∃ l, JinDisk.readLeaf c file f.rootKey x.2 = .ok l ∧ l.entries = x.1 ∧
      (BitNode.leaf l).lastKey = x.1.key := by
  obtain ⟨next, hchained⟩ := h.chained
  obtain ⟨next', l, hat, hfits, hentries, -⟩ := hchained.leafAt hx
  refine ⟨l, (congrArg (decodeLeaf c _) hat).trans (decodeLeaf_encode hc hfits _), hentries, ?_⟩
  have hleaf : x.1 ∈ Chunks.chunks bitLeafLen es := by
    rw [← h.leaves]
    exact List.mem_map_of_mem hx
  have hpos : l.entries.length ≠ 0 := by
    rw [hentries]
    exact fun hzero => Chunks.ne_nil_of_mem_chunks hleaf (List.length_eq_zero_iff.mp hzero)
  rw [BitLeaf.length_entries hfits.keys.1 hfits.records.1 hfits.nrRecord] at hpos
  rw [BitLeaf.lastKey_leaf hfits.keys.1 hfits.records.1 hfits.nrRecord (Nat.pos_of_ne_zero hpos),
    hentries]

/-- What a lookup of the table gives: the first record of a key, or an error. -/
def lookupResult (es : List (ℕ × Record GcmKey)) (key : ℕ) : Except Int (Option (Record GcmKey)) :=
  match es.find? fun e => e.1 = key with
  | some e => .ok (some e.2)
  | none => .error (-ENODATA)

/-- The same, from the record. -/
def ofRecord : Option (Record GcmKey) → Except Int (Option (Record GcmKey))
  | some r => .ok (some r)
  | none => .error (-ENODATA)

theorem lookupResult_eq (es : List (ℕ × Record GcmKey)) (key : ℕ) :
    lookupResult es key = ofRecord ((tableFile es).recordsOf key).head? := by
  rw [lookupResult, BitFile.recordsOf, List.head?_map, List.head?_filter]
  show _ = ofRecord ((es.find? fun e => e.1 = key).map Prod.snd)
  cases es.find? fun e => e.1 = key with
  | none => rfl
  | some e => rfl

/-- **One lookup on disk** is one of the table as the levels see it. -/
theorem OnDisk.search (hc : c.Lawful) (h : OnDisk c file es groups f) (hs : (tableFile es).Sorted)
    (hne : es ≠ []) (cache : LruCache (BitLeaf GcmKey)) (key : ℕ) :
    ∃ r cache', f.search c file cache key = some (ofRecord r, cache') ∧
      (tableFile es).searchWith (cache.map BitLeaf.entries) key =
        some (r, cache'.map BitLeaf.entries) := by
  have hempty : ¬(tableFile es).entries.isEmpty = true := by
    simpa [tableFile] using hne
  by_cases hin : key < f.firstKey ∨ f.lastKey < key
  · have hin' : key < (tableFile es).firstKey ∨ (tableFile es).lastKey < key := by
      rwa [h.firstKey, h.lastKey] at hin
    refine ⟨none, cache, ?_, if_pos hin'⟩
    rw [DiskBitFile.search, DiskBitFile.searchCachedLeaf, DiskBitFile.searchLeaf,
      OnDisk.searchLeafKeyPos_out hin]
    rfl
  · obtain ⟨x, hfind, hleaf, hpos⟩ := h.searchLeafKeyPos hs hne hin
    have hin' : ¬(key < (tableFile es).firstKey ∨ (tableFile es).lastKey < key) := by
      rwa [h.firstKey, h.lastKey] at hin
    obtain ⟨l, hread, hentries, hlast⟩ := h.readLeaf hc (List.mem_of_find?_eq_some hfind)
    obtain ⟨res, hres⟩ : ∃ res, res = (cache.get x.1.key).1.bind fun leaf =>
      (leaf.entries.find? fun e => e.1 = key).map Prod.snd := ⟨_, rfl⟩
    have hcached : f.searchCachedLeaf cache key = some (res, (cache.get x.1.key).2) := by
      rw [DiskBitFile.searchCachedLeaf, hpos, hres]
      rfl
    have hcached' : (tableFile es).searchCachedLeaf (cache.map BitLeaf.entries) key =
        (res, (cache.get x.1.key).2.map BitLeaf.entries) := by
      rw [BitFile.searchCachedLeaf, hleaf, hres]
      show (((cache.map BitLeaf.entries).get x.1.key).1.bind _, _) = _
      rw [LruCache.get_map]
      cases (cache.get x.1.key).1 <;> rfl
    have hfind' : f.searchLeaf c file key =
        some (if x.1.any fun e => e.1 = key then .ok l else .error (-ENODATA)) := by
      rw [DiskBitFile.searchLeaf, hpos, Option.map_some, ← hentries]
      simp only [hread]
    rw [BitFile.searchWith, if_neg hin', if_neg hempty, hcached', BitFile.searchLeaf, hleaf,
      DiskBitFile.search, hcached, Option.bind_some, Option.filter_some]
    cases res with
    | some r => exact ⟨some r, _, rfl, rfl⟩
    | none =>
      simp only [hfind', Option.map_some]
      by_cases hany : x.1.any fun e => e.1 = key
      · obtain ⟨e, he, hkey⟩ := List.any_eq_true.mp hany
        have hsome : (x.1.find? fun e => e.1 = key).isSome = true :=
          List.find?_isSome.mpr ⟨e, he, hkey⟩
        obtain ⟨e', he'⟩ := Option.isSome_iff_exists.mp hsome
        rw [if_pos hany, if_pos hany]
        simp only [hentries, he', hlast]
        refine ⟨some e'.2, _, rfl, ?_⟩
        rw [← LruCache.put_map, hentries]
        rfl
      · rw [if_neg hany, if_neg hany]
        exact ⟨none, _, rfl, rfl⟩

theorem BitFile.search_tableFile (hs : (tableFile es).Sorted) (hne : es ≠ []) (key : ℕ) :
    (tableFile es).search key = some ((tableFile es).recordsOf key).head? := by
  rw [BitFile.search]
  split
  · rename_i hout
    suffices hnil : (tableFile es).recordsOf key = [] by rw [hnil]; rfl
    refine List.eq_nil_iff_forall_not_mem.mpr fun r hr => ?_
    have he := BitFile.mem_recordsOf.mp hr
    have h₁ := BitFile.firstKey_le hs he
    have h₂ := BitFile.le_lastKey hs he
    simp only at h₁ h₂
    omega
  · rw [if_neg]
    simpa [tableFile] using hne

/-- **Lookups give the first record of each key**, whatever was looked up before. -/
theorem OnDisk.searches (hc : c.Lawful) (h : OnDisk c file es groups f) (hs : (tableFile es).Sorted)
    (hne : es ≠ []) {cache : LruCache (BitLeaf GcmKey)}
    (hcache : (tableFile es).Cached (cache.map BitLeaf.entries)) (keys : List ℕ) :
    f.searches c file cache keys = some (keys.map (lookupResult es)) := by
  induction keys generalizing cache with
  | nil => rfl
  | cons key keys ih =>
    obtain ⟨r, cache', hsearch, hwith⟩ := h.search hc hs hne cache key
    have hr := hcache.searchWith hs key
    rw [hwith, BitFile.search_tableFile hs hne] at hr
    obtain rfl := Option.some.inj hr
    rw [DiskBitFile.searches, hsearch, Option.bind_some, ih (hcache.of_searchWith hs hwith),
      ← lookupResult_eq]
    rfl

/-! ## The iterator -/

/-- An entry of a leaf. -/
theorem BitLeaf.getElem?_entries {l : BitLeaf GcmKey} {i : ℕ} {e : ℕ × Record GcmKey}
    (h : l.entries[i]? = some e) : l.keys[i]? = some e.1 ∧ l.records[i]? = some e.2 := by
  rw [BitLeaf.entries, List.getElem?_take] at h
  split at h
  · exact List.getElem?_zip_eq_some.mp h
  · cases h

/-- The leaves from here on hold `rest`, and the iterator is at one entry of the first of them. -/
structure BitIterator.At (c : AeadCipher) (file : ℕ → UInt8) (f : DiskBitFile)
    (leaves : List PlacedLeaf) (rest : List (ℕ × Record GcmKey)) (it : BitIterator) : Prop where
  /-- the leaves -/
  chunks : leaves.map Prod.fst = Chunks.chunks bitLeafLen rest
  /-- they are in the file -/
  chained : ∃ next, Chained (fun pos node => ByteMap.readOut file pos node.nodeSize =
    bitNodeEncode c f.rootKey node) leaves next
  /-- the first one was read -/
  leaf : ∃ x, leaves.head? = some x ∧ readLeaf c file f.rootKey x.2 = .ok it.leaf
  /-- there is an entry -/
  curRecord : it.curRecord < rest.length ∧ it.curRecord < bitLeafLen
  /-- the counter -/
  count : it.count + rest.length = f.nrRecord + it.curRecord
  /-- the flag -/
  hasNext : it.hasNext = true

theorem LeafAt.readLeaf (hc : c.Lawful) {key : GcmKey} {x : PlacedLeaf} {next : ℕ}
    (h : LeafAt (fun pos node => ByteMap.readOut file pos node.nodeSize = bitNodeEncode c key node)
      x next) : ∃ l, JinDisk.readLeaf c file key x.2 = .ok l ∧ l.entries = x.1 ∧ l.nextPos = next := by
  obtain ⟨l, hat, hfits, hentries, hnext⟩ := h
  exact ⟨l, (congrArg (decodeLeaf c _) hat).trans (decodeLeaf_encode hc hfits _), hentries, hnext⟩

namespace BitIterator

variable {leaves : List PlacedLeaf} {rest : List (ℕ × Record GcmKey)} {it : BitIterator}

/-- The leaf in hand has the next entries. -/
theorem At.entries (hc : c.Lawful) (h : At c file f leaves rest it) :
    it.leaf.entries = rest.take bitLeafLen := by
  obtain ⟨next, hchained⟩ := h.chained
  obtain ⟨x, hx, hread⟩ := h.leaf
  obtain ⟨leaves', rfl⟩ := List.head?_eq_some_iff.mp hx
  obtain ⟨next', hat⟩ := hchained.leafAt List.mem_cons_self
  obtain ⟨l, hl, hentries, -⟩ := hat.readLeaf hc
  have hne : rest ≠ [] := List.ne_nil_of_length_pos (Nat.zero_lt_of_lt h.curRecord.1)
  have hchunks := h.chunks
  rw [Chunks.chunks_of_ne_nil (by decide) hne, List.map_cons] at hchunks
  obtain rfl := Except.ok.inj (hl.symm.trans hread)
  rw [hentries]
  exact (List.cons.inj hchunks).1

/-- At the end of a leaf there is a next one. -/
theorem At.nextLeaf (hc : c.Lawful) (h : At c file f leaves rest it) (hlen : bitLeafLen < rest.length) :
    ∃ leaf leaves', readLeaf c file f.rootKey it.leaf.nextPos = .ok leaf ∧
      leaves'.map Prod.fst = Chunks.chunks bitLeafLen (rest.drop bitLeafLen) ∧
      (∃ next, Chained (fun pos node => ByteMap.readOut file pos node.nodeSize =
        bitNodeEncode c f.rootKey node) leaves' next) ∧
      ∃ x, leaves'.head? = some x ∧ readLeaf c file f.rootKey x.2 = .ok leaf := by
  obtain ⟨next, hchained⟩ := h.chained
  obtain ⟨x, hx, hread⟩ := h.leaf
  obtain ⟨leaves', rfl⟩ := List.head?_eq_some_iff.mp hx
  have hne : rest ≠ [] := List.ne_nil_of_length_pos (Nat.zero_lt_of_lt h.curRecord.1)
  have hchunks := h.chunks
  rw [Chunks.chunks_of_ne_nil (by decide) hne, List.map_cons] at hchunks
  have htail := (List.cons.inj hchunks).2
  cases leaves' with
  | nil =>
    have hdrop : rest.drop bitLeafLen ≠ [] := by
      rw [Ne, List.drop_eq_nil_iff]
      omega
    rw [Chunks.chunks_of_ne_nil (by decide) hdrop] at htail
    cases htail
  | cons y leaves' =>
    obtain ⟨l, hl, -, hnext⟩ := hchained.1.readLeaf hc
    obtain rfl := Except.ok.inj (hl.symm.trans hread)
    obtain ⟨next', hat⟩ := hchained.2.leafAt List.mem_cons_self
    obtain ⟨leaf, hleaf, -⟩ := hat.readLeaf hc
    exact ⟨leaf, y :: leaves', hnext ▸ hleaf, htail, ⟨next, hchained.2⟩, y, rfl, hleaf⟩

/-- **The iterator goes on to the end.** -/
theorem At.collect (hc : c.Lawful) {fuel : ℕ} (h : At c file f leaves rest it)
    (hfuel : rest.length ≤ it.curRecord + fuel) :
    it.collect c file f fuel = some (rest.drop it.curRecord) := by
  induction fuel generalizing leaves rest it with
  | zero => exact absurd h.curRecord.1 (by omega)
  | succ fuel ih =>
    obtain ⟨hcur, hlt⟩ := h.curRecord
    have hget : it.leaf.entries[it.curRecord]? = some rest[it.curRecord] := by
      rw [h.entries hc, List.getElem?_take, if_pos hlt, List.getElem?_eq_getElem hcur]
    obtain ⟨hkey, hrecord⟩ := BitLeaf.getElem?_entries hget
    have hcount := h.count
    rw [BitIterator.collect, if_pos h.hasNext, BitIterator.next, hkey, hrecord, Option.bind_some,
      Option.bind_some, List.drop_eq_getElem_cons hcur]
    by_cases hend : f.nrRecord ≤ it.count + 1
    · -- the last entry
      have hnil : rest.drop (it.curRecord + 1) = [] := List.drop_of_length_le (by omega)
      rw [if_pos hend, hnil]
      cases fuel <;> rfl
    · rw [if_neg hend]
      by_cases hleaf : it.curRecord + 1 = bitLeafLen
      · -- the last entry of the leaf
        obtain ⟨leaf, leaves', hread, hchunks, hchained, hhead⟩ := h.nextLeaf hc (by omega)
        have hdrop := List.length_drop (i := bitLeafLen) (l := rest)
        have hnext : At c file f leaves' (rest.drop bitLeafLen) ⟨0, it.count + 1, it.hasNext, leaf⟩ :=
          ⟨hchunks, hchained, hhead, ⟨by show 0 < _; omega, (by decide : 0 < bitLeafLen)⟩, by
            show it.count + 1 + _ = f.nrRecord + 0
            omega, h.hasNext⟩
        have htail := ih hnext (by show _ ≤ 0 + fuel; omega)
        rw [if_pos hleaf, hread, hleaf]
        exact congrArg (Option.map _) htail
      · have hnext : At c file f leaves rest
            { it with curRecord := it.curRecord + 1, count := it.count + 1 } :=
          ⟨h.chunks, h.chained, h.leaf, ⟨by show it.curRecord + 1 < _; omega, by
            show it.curRecord + 1 < _
            omega⟩, by
            show it.count + 1 + _ = f.nrRecord + (it.curRecord + 1)
            omega, h.hasNext⟩
        have htail := ih hnext (by show _ ≤ it.curRecord + 1 + fuel; omega)
        rw [if_neg hleaf]
        exact congrArg (Option.map _) htail

end BitIterator

/-- The iterator starts at the first leaf. -/
theorem OnDisk.iteratorInit (hc : c.Lawful) (h : OnDisk c file es groups f)
    (hs : (tableFile es).Sorted) (hne : es ≠ []) :
    ∃ it, BitIterator.init c file f = some (.ok it) ∧ it.curRecord = 0 ∧
      BitIterator.At c file f (groups.flatMap Prod.fst) es it := by
  obtain ⟨e, he, hfirst⟩ := BitFile.exists_firstKey (f := tableFile es) hne
  have hfirst' : f.firstKey = e.1 := h.firstKey.trans hfirst.symm
  have hin : ¬(f.firstKey < f.firstKey ∨ f.lastKey < f.firstKey) := by
    have hle : e.1 ≤ (tableFile es).lastKey := BitFile.le_lastKey hs he
    have hlast : f.lastKey = (tableFile es).lastKey := h.lastKey
    omega
  obtain ⟨x, hfind, hleaf, hpos⟩ := h.searchLeafKeyPos hs hne hin
  obtain ⟨l, hread, hentries, -⟩ := h.readLeaf hc (List.mem_of_find?_eq_some hfind)
  -- the key is in this leaf
  have hany : x.1.any (fun e => e.1 = f.firstKey) = true := by
    have hrecords : (tableFile es).recordsOf f.firstKey ≠ [] := by
      rw [hfirst']
      exact List.ne_nil_of_mem (BitFile.mem_recordsOf.mpr he)
    rw [Ne, ← BitFile.leafRecords_eq_nil hs, BitFile.leafRecords_of_leaf hleaf, List.map_eq_nil_iff,
      List.filter_eq_nil_iff] at hrecords
    rw [List.any_eq_true]
    by_contra hnot
    exact hrecords fun a ha hkey => hnot ⟨a, ha, hkey⟩
  -- which is the first one
  have hhead : (groups.flatMap Prod.fst).head? = some x := by
    cases hgroups : groups.flatMap Prod.fst with
    | nil =>
      rw [hgroups] at hfind
      cases hfind
    | cons y leaves =>
      have hy : y.1 ∈ (tableFile es).leaves := by
        have hleaves := h.leaves
        rw [hgroups] at hleaves
        rw [BitFile.leaves, tableFile, ← hleaves]
        exact List.mem_cons_self
      obtain ⟨e', he', hkey⟩ := BitFile.exists_leaf_key hy
      have hle : f.firstKey ≤ y.1.key := by
        rw [← hkey, h.firstKey]
        exact BitFile.firstKey_le hs (BitFile.mem_entries_of_leaf hy he')
      rw [hgroups, List.find?_cons_of_pos (by simpa using hle)] at hfind
      exact hfind
  refine ⟨⟨0, 0, true, l⟩, ?_, rfl, h.leaves, h.chained, ⟨x, hhead, hread⟩,
    ⟨List.length_pos_iff.mpr hne, (by decide : 0 < bitLeafLen)⟩, ?_, rfl⟩
  · rw [BitIterator.init, DiskBitFile.searchLeaf, hpos]
    simp only [Option.map_some, hread, hentries, hany, if_true]
    rfl
  · rw [h.nrRecord, Nat.zero_add, Nat.add_zero]

/-! ## The round trip -/

/-- **What is built is read back.** Lookups in any order give the first record of a key or the
error for a key that is not there; the iterator gives the entries in order; the keys and the
counter describe them; and nothing is written outside of the place for a table. -/
theorem bit_table_round_trip (hc : c.Lawful) (file buffer : ℕ → UInt8) (start : ℕ) (key : GcmKey)
    (hend : start + calculateBitSize defaultLsmFileCapacity defaultBitDegree < 2 ^ 64)
    (hne : es ≠ []) (hlen : es.length ≤ defaultLsmFileCapacity)
    (hfits : ∀ e ∈ es, e.1 < 2 ^ 32 ∧ e.2.Fits) (hs : es.Pairwise fun a b => a.1 ≤ b.1) :
    ∃ w w', Machine.exec (BitWriter.addEntry c) (.create file buffer start key) es = some w ∧
      w.complete c = some w' ∧
      (∀ keys, (w'.bitFile c).searches c w'.file ⟨maxLeafNodeCached, []⟩ keys =
        some (keys.map (lookupResult es))) ∧
      (∃ it, BitIterator.init c w'.file (w'.bitFile c) = some (.ok it) ∧
        ∀ fuel, es.length ≤ fuel → it.collect c w'.file (w'.bitFile c) fuel = some es) ∧
      (es.head?.map Prod.fst = some (w'.bitFile c).firstKey ∧
        es.getLast?.map Prod.fst = some (w'.bitFile c).lastKey ∧
        (w'.bitFile c).nrRecord = es.length) ∧
      ∀ x ∈ w'.writes, start ≤ x.1 ∧
        x.1 + x.2 ≤ start + calculateBitSize defaultLsmFileCapacity defaultBitDegree := by
  obtain ⟨w, w', groups, hw, hcomplete, hfin⟩ :=
    BitWriter.exists_finished hc file buffer key hend hfits hlen hne
  have hdisk := hfin.onDisk hc
  obtain ⟨it, hinit, hcur, hat⟩ := hdisk.iteratorInit hc hs hne
  refine ⟨w, w'.kernelWrite, hw, hcomplete, hdisk.searches hc hs hne (fun e he => ?_),
    ⟨it, hinit, fun fuel hfuel => ?_⟩, ⟨?_, ?_, hdisk.nrRecord⟩, fun x hx => ?_⟩
  · cases he
  · rw [hat.collect hc (by omega), hcur]
    rfl
  · obtain ⟨a, rest, rfl⟩ := List.exists_cons_of_ne_nil hne
    rw [hdisk.firstKey]
    rfl
  · rw [hdisk.lastKey, List.getLast?_eq_some_getLast hne]
    rfl
  · have hbound := hfin.bound
    obtain ⟨hstart, hwritten⟩ := hfin.written
    rcases List.mem_append.mp hx with hx | hx
    · exact ⟨(hwritten x hx).1, (hwritten x hx).2.trans (by omega)⟩
    · rw [List.mem_singleton.mp hx]
      exact ⟨hstart, hbound⟩

/-- Three entries, two of them of one key. -/
def sampleEntries : List (ℕ × Record GcmKey) :=
  [(3, ⟨70, .replicate 16 1, .replicate 16 2⟩), (3, ⟨71, .replicate 16 3, .replicate 16 4⟩),
    (9, ⟨72, .replicate 16 5, .replicate 16 6⟩)]

theorem bit_table_round_trip_sample :
    addingAead.Lawful ∧ sampleEntries.Pairwise (fun a b => a.1 ≤ b.1) ∧
      ∃ w w', Machine.exec (BitWriter.addEntry addingAead)
          (.create (fun _ => 0) (fun _ => 0) 4096 (.replicate 16 7)) sampleEntries = some w ∧
        w.complete addingAead = some w' ∧
        (w'.bitFile addingAead).searches addingAead w'.file ⟨maxLeafNodeCached, []⟩ [3, 4, 9, 3] =
          some ([3, 4, 9, 3].map (lookupResult sampleEntries)) := by
  have hfits : ∀ e ∈ sampleEntries, e.1 < 2 ^ 32 ∧ e.2.Fits := by
    intro e he
    simp only [sampleEntries, List.mem_cons, List.not_mem_nil, or_false] at he
    rcases he with rfl | rfl | rfl <;> exact ⟨by decide, by decide, by decide⟩
  have hsorted : sampleEntries.Pairwise fun a b => a.1 ≤ b.1 := by decide
  obtain ⟨w, w', hw, hcomplete, hsearch, -⟩ := bit_table_round_trip addingAead_lawful (fun _ => 0)
    (fun _ => 0) 4096 (.replicate 16 7) (by rw [calculateBitSize_default]; decide)
    (by decide : sampleEntries ≠ []) (by decide) hfits hsorted
  exact ⟨addingAead_lawful, hsorted, w, w', hw, hcomplete, hsearch _⟩

end JinDisk
