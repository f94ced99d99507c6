import JinDisk.LeafCache

/-!
# Where a table lies

The builder starts at the place of its descriptor and only moves on from there, so every node of a
table lies in this place (`Behind`), and outside of it the file stays as it is (`Untouched`). A
table is thus as good as on the day it was built as long as its place is (`TableAt`): whatever else
is written to the file, the two upper levels are read again when it is opened, and the iterator
returns the entries.
-/

namespace JinDisk

/-- `file_size` of the catalogue: the room for one table. -/
def bitFileSize : ℕ := calculateBitSize defaultLsmFileCapacity defaultBitDegree

variable {c : AeadCipher} {start : ℕ} {es : List (ℕ × Record GcmKey)} {groups : List Group}

namespace BitWriter

variable {opens : List PlacedLeaf} {w w' : BitWriter}

/-! ## The nodes -/

/-- The leaves and the inner nodes lie at `start` or behind it. -/
def Behind (start : ℕ) (groups : List Group) (opens : List PlacedLeaf) : Prop :=
  (∀ g ∈ groups, start ≤ g.2 ∧ ∀ x ∈ g.1, start ≤ x.2) ∧ ∀ x ∈ opens, start ≤ x.2

theorem Behind.closedAt {pos : ℕ} {g : Group} (h : Behind start groups opens) (hpos : start ≤ pos)
    (hg : ClosedAt pos opens g) : start ≤ g.2 ∧ ∀ x ∈ g.1, start ≤ x.2 := by
  refine ⟨hpos.trans hg.1, fun x hx => ?_⟩
  rcases hg.2 x hx with hopen | heq
  · exact h.2 x hopen
  · exact heq ▸ hpos

theorem Behind.concat {g : Group} (h : Behind start groups opens)
    (hg : start ≤ g.2 ∧ ∀ x ∈ g.1, start ≤ x.2) : Behind start (groups ++ [g]) [] := by
  refine ⟨fun k hk => ?_, fun x hx => by cases hx⟩
  rcases List.mem_append.mp hk with hk | hk
  · exact h.1 k hk
  · exact List.mem_singleton.mp hk ▸ hg

theorem Built.start_le (h : Built c start es groups opens w) :
    start ≤ w.builder.begin + w.builder.cur := h.written.1.trans (Nat.le_add_right _ _)

/-- The table in progress or full, with all nodes behind `start`. -/
def Located (c : AeadCipher) (start : ℕ) (es : List (ℕ × Record GcmKey)) (w : BitWriter) : Prop :=
  (∃ groups opens, Built c start es groups opens w ∧ Behind start groups opens) ∨
    es.length = defaultLsmFileCapacity ∧
      (∃ groups, Finished c start es groups w ∧ Behind start groups []) ∧
      w.builder.ctx.getLast?.any (fun ctx => !ctx.isEmpty) = true

/-- **One entry.** A node that is new lies where the builder is. -/
theorem Located.addEntry (hc : c.Lawful) (h : Located c start es w) (hes : ∀ e ∈ es, e.1 < 2 ^ 32)
    (hend : start + bitFileSize < 2 ^ 64) {e : ℕ × Record GcmKey} (hkey : e.1 < 2 ^ 32)
    (hval : e.2.Fits) (hroom : es.length < defaultLsmFileCapacity) :
    ∃ w', w.addEntry c e = some w' ∧ Located c start (es ++ [e]) w' := by
  obtain ⟨groups, opens, hb, hbehind⟩ := h.resolve_right fun hfull => hroom.ne hfull.1
  have hle := hb.start_le
  rcases Nat.lt_or_eq_of_le hb.nrRecord with hlt | hlast
  · obtain ⟨w', hw', hb'⟩ := hb.addEntry_room hkey hval hlt
    exact ⟨w', hw', Or.inl ⟨groups, opens, hb', hbehind⟩⟩
  · rcases Nat.lt_or_eq_of_le hb.open_lt with hlt | heq
    · obtain ⟨x, w', hx, hw', hb'⟩ := hb.addEntry_leaf hc hend hkey hval hlast hlt
      refine ⟨w', hw', Or.inl ⟨groups, opens ++ [x], hb', hbehind.1, fun y hy => ?_⟩⟩
      rcases List.mem_append.mp hy with hy | hy
      · exact hbehind.2 y hy
      · rw [List.mem_singleton.mp hy, hx]
        exact hle
    · obtain ⟨w', g, hw', -, hg, hmore, hroot⟩ := hb.addEntry_group hc hes hend hkey hval hlast heq
      have hbehind' := hbehind.concat (hbehind.closedAt hle hg)
      rcases Nat.lt_or_eq_of_le hb.groups_lt with hlt | hfull
      · exact ⟨w', hw', Or.inl ⟨groups ++ [g], [], hmore hlt, hbehind'⟩⟩
      · obtain ⟨hfin, hflag⟩ := hroot hfull
        refine ⟨w', hw', Or.inr ⟨?_, ⟨_, hfin, hbehind'⟩, hflag⟩⟩
        have hlen := hb.length
        rw [List.length_append, List.length_singleton]
        simp only [defaultBitDegree, bitLeafLen, defaultLsmFileCapacity] at *
        omega

/-- **The table is written**, with all nodes behind `start`. -/
theorem exists_located (hc : c.Lawful) (file buffer : ℕ → UInt8) (key : GcmKey)
    (hend : start + bitFileSize < 2 ^ 64) (hfits : ∀ e ∈ es, e.1 < 2 ^ 32 ∧ e.2.Fits)
    (hlen : es.length ≤ defaultLsmFileCapacity) (hne : es ≠ []) :
    ∃ w w' groups, Machine.exec (BitWriter.addEntry c) (create file buffer start key) es = some w ∧
      w.complete c = some w'.kernelWrite ∧ Finished c start es groups w' ∧
      Behind start groups [] := by
  have hall : ∃ w, Machine.exec (BitWriter.addEntry c) (create file buffer start key) es = some w ∧
      Located c start es w := by
    clear hne
    induction es using List.reverseRecOn with
    | nil =>
      refine ⟨_, rfl, Or.inl ⟨[], [], built_create c file buffer start key, fun g hg => ?_, fun x hx => ?_⟩⟩
      · cases hg
      · cases hx
    | append_singleton es e ih =>
      obtain ⟨hkey, hval⟩ := hfits e (List.mem_append_right _ List.mem_cons_self)
      rw [List.length_append, List.length_singleton] at hlen
      obtain ⟨w, hw, h⟩ := ih (fun a ha => hfits a (List.mem_append_left _ ha)) (Nat.le_of_succ_le hlen)
      obtain ⟨w', hw', h'⟩ := h.addEntry hc (fun a ha => (hfits a (List.mem_append_left _ ha)).1) hend
        hkey hval hlen
      exact ⟨w', Machine.exec_append_of hw (Machine.exec_cons_of hw' rfl), h'⟩
  obtain ⟨w, hw, ⟨groups, opens, hb, hbehind⟩ | ⟨-, ⟨groups, hfin, hbehind⟩, hflag⟩⟩ := hall
  · obtain ⟨w', groups', hw', hold, hfin⟩ := hb.complete hc hne (fun e he => (hfits e he).1) hend
    refine ⟨w, w', groups', hw, hw', hfin, fun g hg => ?_, fun x hx => by cases hx⟩
    rcases hold g hg with hg | hg
    · exact hbehind.1 g hg
    · exact hbehind.closedAt hb.start_le hg
  · exact ⟨w, w, groups, hw, if_pos hflag, hfin, hbehind⟩

/-! ## The rest of the file -/

/-- Outside of what is written the file is `file`. -/
def Untouched (file : ℕ → UInt8) (w : BitWriter) : Prop :=
  ∀ p, (∀ x ∈ w.writes, p < x.1 ∨ x.1 + x.2 ≤ p) → w.file p = file p

variable {file : ℕ → UInt8}

/-- It is a matter of the memory only. -/
theorem Untouched.with_builder (h : w.Untouched file) (b : BitBuilder GcmKey) :
    { w with builder := b }.Untouched file := h

theorem Untouched.kernelWrite (h : w.Untouched file) : w.kernelWrite.Untouched file := by
  intro p hp
  have hlast := hp (w.builder.begin, w.builder.cur) (List.mem_append_right _ List.mem_cons_self)
  have hcopy : w.kernelWrite.file p = w.file p := by
    rcases hlast with hlt | hle
    · exact ByteMap.copyIn_of_lt hlt
    · refine ByteMap.copyIn_of_le ?_
      rw [ByteMap.length_readOut]
      exact hle
  rw [hcopy]
  exact h p fun x hx => hp x (List.mem_append_left _ hx)

theorem Untouched.bufferFlushIfFull (h : w.Untouched file) : w.bufferFlushIfFull.Untouched file := by
  rw [BitWriter.bufferFlushIfFull]
  split
  · exact h.kernelWrite.with_builder _
  · exact h

/-- The nodes go to the buffer. -/
theorem Untouched.copyNodes (h : w.Untouched file) {nodes : List (ℕ × BitNode GcmKey)}
    (hw : w.copyNodes c nodes = some w') : w'.Untouched file := by
  simp only [BitWriter.copyNodes] at hw
  split at hw
  · obtain rfl := Option.some.inj hw
    exact h
  · cases hw

theorem Untouched.addEntry (h : w.Untouched file) {e : ℕ × Record GcmKey}
    (hw : w.addEntry c e = some w') : w'.Untouched file := by
  obtain ⟨stored, hstored⟩ : ∃ stored : BitWriter,
    stored = { w with builder := w.builder.storeEntry e.1 e.2 } := ⟨_, rfl⟩
  have hs : stored.Untouched file := hstored ▸ h.with_builder _
  rw [BitWriter.addEntry, ← hstored] at hw
  simp only at hw
  split at hw
  · obtain rfl := Option.some.inj hw
    exact hs
  · obtain ⟨r, -, hr⟩ := Option.bind_eq_some_iff.mp hw
    exact (hs.bufferFlushIfFull.with_builder r.1).copyNodes hr

theorem Untouched.complete (h : w.Untouched file) (hw : w.complete c = some w') :
    w'.Untouched file := by
  rw [BitWriter.complete] at hw
  split at hw
  · obtain rfl := Option.some.inj hw
    exact h.kernelWrite
  · obtain ⟨v, hv, rfl⟩ := Option.map_eq_some_iff.mp hw
    exact ((h.bufferFlushIfFull.with_builder w.builder.complete.1).copyNodes hv).kernelWrite

end BitWriter

/-! ## Reading what lies in the place -/

variable {file file' : ℕ → UInt8} {f : DiskBitFile} {cache : LruCache (BitLeaf GcmKey)}

/-- `bit_iterator_create` and `bit_iterator_next` as long as there is a next entry. -/
def DiskBitFile.iterate (c : AeadCipher) (file : ℕ → UInt8) (f : DiskBitFile) :
    Option (List (ℕ × Record GcmKey)) :=
  match BitIterator.init c file f with
  | some (.ok it) => it.collect c file f (f.nrRecord + 1)
  | _ => none

/-- The leaves may be in another file, if they are the same there. -/
theorem Chained.imp_of_mem {P Q : ℕ → BitNode GcmKey → Prop} {leaves : List PlacedLeaf} {next : ℕ}
    (h : ∀ x ∈ leaves, ∀ l, P x.2 (.leaf l) → Q x.2 (.leaf l)) (hl : Chained P leaves next) :
    Chained Q leaves next := by
  have hleaf : ∀ x ∈ leaves, ∀ next, LeafAt P x next → LeafAt Q x next := by
    rintro x hx next ⟨l, hat, hrest⟩
    exact ⟨l, h x hx l hat, hrest⟩
  clear h
  induction leaves with
  | nil => trivial
  | cons x leaves ih =>
    cases leaves with
    | nil => exact hleaf x List.mem_cons_self next hl
    | cons y leaves =>
      exact ⟨hleaf x List.mem_cons_self _ hl.1, ih hl.2 fun z hz => hleaf z (List.mem_cons_of_mem _ hz)⟩

theorem readInners_congr {key : GcmKey} {children : List BitChild}
    (h : ∀ child ∈ children, readInner c file' key child.pos = readInner c file key child.pos) :
    readInners c file' key children = readInners c file key children := by
  induction children with
  | nil => rfl
  | cons child children ih =>
    rw [readInners, readInners, h child List.mem_cons_self,
      ih fun k hk => h k (List.mem_cons_of_mem child hk)]

/-- At the place `start` the file is as the builder left it that made the table `f` of `es`. -/
def TableAt (c : AeadCipher) (start : ℕ) (file : ℕ → UInt8) (es : List (ℕ × Record GcmKey))
    (f : DiskBitFile) : Prop :=
  ∃ w groups, BitWriter.Finished c start es groups w ∧ BitWriter.Behind start groups [] ∧
    f = w.kernelWrite.bitFile c ∧
    ∀ p, start ≤ p → p < start + bitFileSize → file p = w.kernelWrite.file p

namespace TableAt

/-- Only the place matters. -/
theorem congr (h : TableAt c start file es f)
    (hsame : ∀ p, start ≤ p → p < start + bitFileSize → file' p = file p) :
    TableAt c start file' es f := by
  obtain ⟨w, groups, hfin, hbehind, hf, hold⟩ := h
  exact ⟨w, groups, hfin, hbehind, hf, fun p hle hlt => (hsame p hle hlt).trans (hold p hle hlt)⟩

/-- **The leaves are in the place**, and they are what a reader needs. -/
theorem onDisk (hc : c.Lawful) (h : TableAt c start file es f) :
    ∃ groups, OnDisk c file es groups f ∧ ∀ x ∈ groups.flatMap Prod.fst,
      start ≤ x.2 ∧ x.2 + bitLeafNodeSize ≤ start + bitFileSize := by
  obtain ⟨w, groups, hfin, hbehind, rfl, hsame⟩ := h
  obtain ⟨_, hchained⟩ := hfin.chained
  have hplace : ∀ x ∈ groups.flatMap Prod.fst,
      start ≤ x.2 ∧ x.2 + bitLeafNodeSize ≤ start + bitFileSize := by
    intro x hx
    obtain ⟨g, hg, hxg⟩ := List.mem_flatMap.mp hx
    obtain ⟨_, l, hat, -⟩ := hchained.leafAt hx
    exact ⟨(hbehind.1 g hg).2 x hxg, hat.2.trans hfin.bound⟩
  have hdisk := hfin.onDisk hc
  obtain ⟨next, hleaves⟩ := hdisk.chained
  refine ⟨groups, { hdisk with chained := ⟨next, hleaves.imp_of_mem fun x hx l hl => ?_⟩ }, hplace⟩
  obtain ⟨hle, hend⟩ := hplace x hx
  refine Eq.trans (ByteMap.readOut_congr fun p hp hlt => ?_) hl
  exact hsame p (hle.trans hp) (hlt.trans_le hend)

/-- **The two upper levels are read again** as they were. -/
theorem cachedRoot (hc : c.Lawful) (h : TableAt c start file es f) (hne : es ≠ []) :
    bitFileBuildCachedRoot c file f.rootKey f.root = f.cachedRoot := by
  obtain ⟨w, groups, hfin, hbehind, rfl, hsame⟩ := h
  have hread : ∀ pos, start ≤ pos → pos + bitInnerNodeSize ≤ w.builder.begin + w.builder.cur →
      readInner c file w.builder.bitKey pos = readInner c w.kernelWrite.file w.builder.bitKey pos := by
    intro pos hle hend
    refine congrArg (decodeInner c _) (ByteMap.readOut_congr fun p hp hlt => ?_)
    exact hsame p (hle.trans hp) (hlt.trans_le (hend.trans hfin.bound))
  have hgroup : ∀ g ∈ groups, start ≤ g.2 ∧
      g.2 + bitInnerNodeSize ≤ w.builder.begin + w.builder.cur := fun g hg =>
    ⟨(hbehind.1 g hg).1, (hfin.inner g hg).2⟩
  have hroot : start ≤ w.builder.begin + w.builder.cur - bitInnerNodeSize := by
    obtain ⟨g, hg⟩ := List.exists_mem_of_ne_nil groups fun hnil => by
      have hleaves := hfin.leaves
      rw [hnil, Chunks.chunks_of_ne_nil (by decide) hne] at hleaves
      cases hleaves
    have hend := hgroup g hg
    omega
  obtain ⟨r, hr, -⟩ := hfin.root
  have hbuilt := (hfin.onDisk hc).cachedRoot
  rw [hbuilt]
  change bitFileBuildCachedRoot c w.kernelWrite.file w.builder.bitKey
    (w.builder.begin + w.builder.cur - bitInnerNodeSize) = _ at hbuilt
  change bitFileBuildCachedRoot c file w.builder.bitKey
    (w.builder.begin + w.builder.cur - bitInnerNodeSize) = _
  rw [bitFileBuildCachedRoot] at hbuilt
  rw [bitFileBuildCachedRoot, hread _ hroot (by omega)]
  split at hbuilt
  · cases hbuilt
  · rename_i children hchildren
    obtain ⟨inners, hinners, heq⟩ := Option.map_eq_some_iff.mp hbuilt
    obtain ⟨rfl, rfl⟩ := CachedRoot.mk.inj heq
    rw [readInners_congr, hinners]
    · rfl
    · intro child hchild
      obtain ⟨g, hg, rfl⟩ := List.mem_map.mp hchild
      exact hread g.2 (hgroup g hg).1 (hgroup g hg).2

/-- **The iterator** returns the entries. -/
theorem iterate (hc : c.Lawful) (h : TableAt c start file es f) (hs : (tableFile es).Sorted)
    (hne : es ≠ []) : f.iterate c file = some es := by
  obtain ⟨groups, hdisk, -⟩ := h.onDisk hc
  obtain ⟨it, hinit, hcur, hat⟩ := hdisk.iteratorInit hc hs hne
  rw [DiskBitFile.iterate, hinit]
  simp only
  rw [hat.collect hc (by rw [hdisk.nrRecord]; omega), hcur]
  rfl

end TableAt

/-! ## Building a table -/

/-- `get_builder`, `add_entry` for all entries, and `complete`. -/
def writeTable (c : AeadCipher) (file buffer : ℕ → UInt8) (start : ℕ) (key : GcmKey)
    (es : List (ℕ × Record GcmKey)) : Option BitWriter :=
  (Machine.exec (BitWriter.addEntry c) (.create file buffer start key) es).bind fun w => w.complete c

/-- Nothing is written for a table without entries. -/
theorem writeTable_nil (c : AeadCipher) (file buffer : ℕ → UInt8) (start : ℕ) (key : GcmKey) :
    ∃ w, writeTable c file buffer start key [] = some w ∧ w.file = file ∧
      (w.bitFile c).firstKey = 0 ∧ (w.bitFile c).lastKey = 0 ∧ (w.bitFile c).nrRecord = 0 := by
  obtain ⟨w, hw⟩ : ∃ w, w = BitWriter.create file buffer start key := ⟨_, rfl⟩
  have hctx : w.builder.ctx = [[], [], []] := by rw [hw]; rfl
  have hzero : w.builder.curLeaf.nrRecord = 0 := by rw [hw]; rfl
  have hcur : w.builder.cur = 0 := by rw [hw]; rfl
  have hroom : ¬builderBufferSize < w.builder.cur + bitHeight * bitLeafNodeSize := by
    rw [hcur]
    decide
  have hflush : w.bufferFlushIfFull = w := if_neg hroom
  have hsame : w.builder.bufferFlushIfFull = w.builder := if_neg hroom
  have hbuilder : w.builder.complete = (w.builder, []) := by
    rw [BitBuilder.complete_of_empty hctx hzero, hsame, ← hctx]
  have hcomplete : w.complete c = some w.kernelWrite := by
    rw [BitWriter.complete, hctx, if_neg (by decide), hflush, hbuilder]
    rfl
  refine ⟨w.kernelWrite, ?_, ?_, ?_⟩
  · rw [writeTable, Machine.exec_nil, ← hw]
    exact hcomplete
  · -- the buffer is empty
    rw [BitWriter.kernelWrite, hcur, hw]
    exact ByteMap.copyIn_nil file start
  · rw [hw]
    exact ⟨rfl, rfl, rfl⟩

/-- **A table is built** in its place. -/
theorem writeTable_spec (hc : c.Lawful) (file buffer : ℕ → UInt8) (key : GcmKey)
    (hend : start + bitFileSize < 2 ^ 64) (hfits : ∀ e ∈ es, e.1 < 2 ^ 32 ∧ e.2.Fits)
    (hlen : es.length ≤ defaultLsmFileCapacity) :
    ∃ w, writeTable c file buffer start key es = some w ∧
      (∀ p, (p < start ∨ start + bitFileSize ≤ p) → w.file p = file p) ∧
      (w.bitFile c).firstKey = (es.head?.map Prod.fst).getD 0 ∧
      (w.bitFile c).lastKey = (es.getLast?.map Prod.fst).getD 0 ∧
      (w.bitFile c).nrRecord = es.length ∧
      (es ≠ [] → TableAt c start w.file es (w.bitFile c)) := by
  by_cases hne : es = []
  · subst hne
    obtain ⟨w, hw, hfile, hfirst, hlast, hnr⟩ := writeTable_nil c file buffer start key
    exact ⟨w, hw, fun p _ => congrFun hfile p, hfirst, hlast, hnr, fun hcon => absurd rfl hcon⟩
  · obtain ⟨w, w', groups, hw, hcomplete, hfin, hbehind⟩ :=
      BitWriter.exists_located hc file buffer key hend hfits hlen hne
    have hwrite : writeTable c file buffer start key es = some w'.kernelWrite := by
      rw [writeTable, hw]
      exact hcomplete
    have hdisk := hfin.onDisk hc
    have huntouched : w'.kernelWrite.Untouched file := by
      refine BitWriter.Untouched.complete ?_ hcomplete
      exact Machine.invariant_of_all (fun _ _ _ (h : BitWriter.Untouched file _) hs => h.addEntry hs)
        (fun p _ => rfl) hw
    refine ⟨w'.kernelWrite, hwrite, fun p hp => huntouched p fun x hx => ?_, hdisk.firstKey,
      hdisk.lastKey, hdisk.nrRecord, fun _ => ⟨w', groups, hfin, hbehind, rfl, fun p _ _ => rfl⟩⟩
    -- what is written lies in the place
    have hbound := hfin.bound
    have hplace : start ≤ x.1 ∧ x.1 + x.2 ≤ start + bitFileSize := by
      rcases List.mem_append.mp hx with hx | hx
      · obtain ⟨hle, hend⟩ := hfin.written.2 x hx
        exact ⟨hle, hend.trans ((Nat.le_add_right _ _).trans hbound)⟩
      · rw [List.mem_singleton.mp hx]
        exact ⟨hfin.written.1, hbound⟩
    omega

end JinDisk
