import JinDisk.Content

/-!
# Moving the blocks of a victim

`gc_one_segment` looks at the valid blocks of a victim one after the other. If the newest record of the
lba that the reverse index names has the address of the block, a negative record is put over it, and
the block is pushed into the segment buffer unless the pool has the lba. Then the segment is free.

No content changes, if what the pool has of these lbas is still to be flushed (`Held`), if the ring
does not come to a queued buffer, if a rotation finds no work in the queue, and if `old`, which is not
assigned where nothing is found, does not happen to have the address of a block.
-/

namespace JinDisk

open FlushState Layers

variable {κ D : Type}

/-- With `INF_ADDR` for the old lba the entry is always reset. -/
theorem ReverseIndexTable.reset_infAddr {t : ReverseIndexTable} {pba : ℕ} (h : pba < t.nrBlock)
    (newLba : ℕ) : t.reset pba infAddr newLba =
      ({ t with lba := Function.update t.lba pba infAddr }, t.lba pba) := by
  rw [reset, if_pos h, if_neg fun hne => hne.1 rfl]

theorem Victim.nodup_lookedAt (v : Victim) : v.lookedAt.Nodup := by
  rw [lookedAt]
  split
  · exact List.nodup_nil
  · exact (List.nodup_finRange _).filter _

namespace Device

/-- The device after the entry of a block in the reverse index is reset. -/
abbrev forget (d : Device κ D) (pba : ℕ) : Device κ D :=
  { d with rit := { d.rit with lba := Function.update d.rit.lba pba infAddr } }

variable (ch : Chance κ) {c : DataCipher κ D} {d : Device κ D} {lba : ℕ} {val : Option (Record κ)}

theorem put_kept : (d.put ch lba val).segBuffer = d.segBuffer ∧
    (d.put ch lba val).bufferioWq = d.bufferioWq ∧ (d.put ch lba val).rawDev = d.rawDev := by
  simp only [put]
  split <;> exact ⟨rfl, rfl, rfl⟩

variable [Inhabited κ]

variable (c) in
/-- What a read of the lba finds on the device. -/
def content (d : Device κ D) (lba : ℕ) : Option D := d.segBuffer.content lba (d.stored c)

/-- The segment buffer has no part in it. -/
theorem Safe.withBuffers (h : d.Safe c) (sb : SegBuf κ D) (wq : List PoolIndex) :
    ({ d with segBuffer := sb, bufferioWq := wq } : Device κ D).Safe c where
  tree := ⟨h.tree.ok, h.tree.compacted⟩
  works := h.works
  tables := ⟨h.tables.agree, h.tables.counted, h.tables.nrBlock, h.tables.bound⟩
  scattered := h.scattered
  keys := h.keys
  owned key r hr := ⟨(h.owned key r hr).lt, (h.owned key r hr).valid, (h.owned key r hr).lba⟩
  intact := h.intact

/-- A block that nobody uses is forgotten. -/
theorem Safe.forget (h : d.Safe c) {pba : ℕ}
    (hfree : ∀ key r, d.lsmTree.mapping key = some r → r.pba ≠ pba) : (d.forget pba).Safe c where
  tree := ⟨h.tree.ok, h.tree.compacted⟩
  works := h.works
  tables := ⟨h.tables.agree, h.tables.counted, h.tables.nrBlock, h.tables.bound⟩
  scattered := h.scattered
  keys := h.keys
  owned key r hr := by
    refine ⟨(h.owned key r hr).lt, (h.owned key r hr).valid, ?_⟩
    simp only [Function.update_of_ne (hfree key r hr)]
    exact (h.owned key r hr).lba
  intact := h.intact

/-- Two lbas do not share a block. -/
theorem Safe.eq_of_pba_eq (h : d.Safe c) {key key' : ℕ} {r r' : Record κ}
    (hr : d.lsmTree.mapping key = some r) (hr' : d.lsmTree.mapping key' = some r')
    (hpba : r.pba = r'.pba) : key = key' := by
  rw [← (h.owned key r hr).lba, hpba]
  exact (h.owned key' r' hr').lba

/-- A negative record for a block that was forgotten: the block is not returned. -/
theorem Safe.delete (h : d.Safe c) {r : Record κ} (hr : d.lsmTree.mapping lba = some r)
    (hquiet : d.lsmTree.rotates lba none = true → d.compactionWq = 0) :
    ((d.forget r.pba).put ch lba none).Safe c ∧
      ((d.forget r.pba).put ch lba none).lsmTree.mapping = Function.update d.lsmTree.mapping lba none ∧
      ((d.forget r.pba).put ch lba none).tables = d.tables := by
  have hlba := h.key_ne hr
  have htree : (d.forget r.pba).TreeOk := ⟨h.tree.ok, h.tree.compacted⟩
  have htables : (d.forget r.pba).TablesOk :=
    ⟨h.tables.agree, h.tables.counted, h.tables.nrBlock, h.tables.bound⟩
  have hmapping : ((d.forget r.pba).put ch lba none).lsmTree.mapping =
      Function.update d.lsmTree.mapping lba none := htree.mapping_put ch (by simp) hquiet
  have hlayers : ((d.forget r.pba).put ch lba none).layers = (d.put ch lba none).layers :=
    (Device.layers_put ch (d := d.forget r.pba) hquiet).trans (Device.layers_put ch hquiet).symm
  obtain ⟨hscattered, hkeys⟩ : Scattered Record.pba (d.put ch lba none).layers ∧ _ :=
    h.layers_put ch hlba hquiet (by simp)
  refine ⟨⟨htree.put ch (by simp), ?_, htables.put ch, hlayers ▸ hscattered, hlayers ▸ hkeys,
    fun key r' hr' => ?_, fun key r' hr' => ?_⟩, hmapping, ?_⟩
  · rw [put_compactionWq]
    have hworks := h.works_put ch hquiet
    rw [put_compactionWq] at hworks
    exact hworks
  · rw [hmapping, Function.update_apply] at hr'
    split at hr'
    · cases hr'
    · rename_i hkey
      obtain ⟨hlt, hvalid, howns⟩ := h.owned key r' hr'
      have hne : r'.pba ≠ r.pba := fun heq => hkey (h.eq_of_pba_eq hr' hr heq)
      have howns' : (d.forget r.pba).Owns key r'.pba := by
        refine ⟨hlt, hvalid, ?_⟩
        simp only [Function.update_of_ne hne]
        exact howns
      exact howns'.put ch hlba hkey
  · rw [hmapping, Function.update_apply] at hr'
    rw [(put_kept ch).2.2]
    split at hr'
    · cases hr'
    · exact h.intact key r' hr'
  · -- what the put supersedes in the memtable is the record itself
    have hlt := (h.owned lba r hr).lt
    simp only [put]
    split
    · rename_i old hold
      obtain rfl := Option.some.inj (hr.symm.trans (h.tree.put_old hold))
      have hreset : ((d.forget r.pba).rit.reset r.pba lba ch.newLba).2 = infAddr := by
        rw [ReverseIndexTable.reset, if_pos hlt]
        split <;> simp
      simp only [release, hreset, if_neg hlba]
    · rfl

theorem stored_delete {r : Record κ} (hmapping : ((d.forget r.pba).put ch lba none).lsmTree.mapping =
    Function.update d.lsmTree.mapping lba none) :
    ((d.forget r.pba).put ch lba none).stored c = Function.update (d.stored c) lba none := by
  funext a
  rw [stored, hmapping, (put_kept ch).2.2, Function.update_apply, Function.update_apply]
  split
  · rfl
  · rfl

omit [Inhabited κ] in
theorem Room.mono {n : ℕ} (h : d.Room (n + 1)) : d.Room n := by
  rcases h with ⟨hworks, hn⟩ | hlt
  · exact Or.inl ⟨hworks, by omega⟩
  · exact Or.inr (by omega)

/-! ## The loop -/

variable (c) in
/-- What holds while the blocks of a victim are moved: `todo` are the offsets that are left, `d₀` is
the device at the start. -/
structure Moving (d₀ : Device κ D) (segno : ℕ) (todo : List Offset) (st : GcState κ D) : Prop where
  /-- nothing in use is free -/
  safe : st.device.Safe c
  /-- the pool is in order -/
  pool : PoolOk st.device.segBuffer st.device.bufferioWq (st.device.stored c)
  /-- the current buffer is not full -/
  notFull : st.device.segBuffer.cur.size < blocksPerSegment
  /-- the tables are left alone -/
  tables : st.device.tables = d₀.tables
  /-- so is the content -/
  content : ∀ lba, st.device.content c lba = d₀.content c lba
  /-- the segment is one of the device -/
  inside : ∀ o : Offset, blockAddr segno o < st.device.rit.nrBlock
  /-- `old` has the address of a block that is left only if it is the newest record of some lba -/
  old : ∀ o ∈ todo, st.old.pba = blockAddr segno o →
    ∃ lba, st.device.lsmTree.mapping lba = some st.old
  /-- what the pool has of the lbas is pending -/
  held : ∀ o ∈ todo, ∀ lba r, st.device.lsmTree.mapping lba = some r → r.pba = blockAddr segno o →
    Held st.device.segBuffer st.device.bufferioWq lba
  /-- there is room in the memtable -/
  room : st.device.Room todo.length
  /-- and in the buffers -/
  fits : Fits st.device.segBuffer st.device.bufferioWq todo.length

variable {d₀ : Device κ D} {segno : ℕ} {o : Offset} {todo : List Offset} {st st' : GcState κ D}

theorem blockAddr_inj {segno : ℕ} {o o' : Offset} (h : blockAddr segno o = blockAddr segno o') : o = o' := by
  rw [blockAddr, blockAddr] at h
  exact Fin.ext (Nat.add_left_cancel h)

/-- A block that is not moved: it is no block of a newest record. -/
theorem Moving.skip (h : Moving c d₀ segno (o :: todo) st) {found : Option (Record κ)}
    (hfound : found = st.device.lsmTree.newest (st.device.rit.lba (blockAddr segno o)))
    (hne : blockAddr segno o ≠ (found.getD st.old).pba) :
    Moving c d₀ segno todo ⟨st.device.forget (blockAddr segno o), found.getD st.old, st.count⟩ ∧
      ∀ lba r, st.device.lsmTree.mapping lba = some r → r.pba ≠ blockAddr segno o := by
  have hfree : ∀ lba r, st.device.lsmTree.mapping lba = some r → r.pba ≠ blockAddr segno o := by
    intro lba r hr hpba
    have hlba := (h.safe.owned lba r hr).lba
    rw [hpba] at hlba
    rw [hlba, (LsmTree.mapping_eq_some.mp hr).1] at hfound
    rw [hfound] at hne
    exact hne hpba.symm
  refine ⟨⟨h.safe.forget hfree, h.pool, h.notFull, h.tables, h.content, h.inside, fun o' ho' hold => ?_,
    fun o' ho' => h.held o' (List.mem_cons_of_mem _ ho'), h.room.mono, h.fits.mono⟩, hfree⟩
  cases hf : found with
  | none =>
    simp only [hf, Option.getD_none] at hold ⊢
    exact h.old o' (List.mem_cons_of_mem _ ho') hold
  | some r =>
    simp only [hf, Option.getD_some] at hold ⊢
    refine ⟨st.device.rit.lba (blockAddr segno o), LsmTree.mapping_eq_some.mpr ⟨?_, ?_⟩⟩
    · rw [← hf, hfound]
    · have hlt := (h.inside o').trans_le h.safe.tables.bound
      rw [← hold] at hlt
      simpa [Record.isNegative] using hlt.ne

/-- If the address is the one of `old`, then `old` is the newest record of the lba. -/
theorem Moving.mapping_old (h : Moving c d₀ segno (o :: todo) st) {found : Option (Record κ)}
    (hfound : found = st.device.lsmTree.newest (st.device.rit.lba (blockAddr segno o)))
    (heq : (found.getD st.old).pba = blockAddr segno o) :
    st.device.lsmTree.mapping (st.device.rit.lba (blockAddr segno o)) = some (found.getD st.old) := by
  cases hf : found with
  | none =>
    -- an unassigned `old` is the newest record of the lba that the reverse index names
    rw [hf, Option.getD_none] at heq
    obtain ⟨lba, hr⟩ := h.old o List.mem_cons_self heq
    have hlba := (h.safe.owned lba st.old hr).lba
    rw [heq] at hlba
    rw [hlba]
    exact hr
  | some r =>
    rw [hf, Option.getD_some] at heq
    refine LsmTree.mapping_eq_some.mpr ⟨by rw [← hfound, hf, Option.getD_some], ?_⟩
    have hlt := (h.inside o).trans_le h.safe.tables.bound
    rw [← heq] at hlt
    simpa [Record.isNegative] using hlt.ne

/-- The block of a newest record is moved to the pool. -/
theorem Moving.move (h : Moving c d₀ segno (o :: todo) st) {r : Record κ} (ho : o ∉ todo)
    (hr : st.device.lsmTree.mapping lba = some r) (hpba : r.pba = blockAddr segno o) {data : D}
    (hdata : c.decrypt r.key r.mac r.pba (st.device.rawDev r.pba) = .ok data) (count : ℕ) :
    Moving c d₀ segno todo
        ⟨((st.device.forget r.pba).put ch lba none).pushBlock lba data false (ch.key o), r, count⟩ ∧
      ∀ lba' r', (((st.device.forget r.pba).put ch lba none).pushBlock lba data false
          (ch.key o)).lsmTree.mapping lba' = some r' →
        st.device.lsmTree.mapping lba' = some r' ∧ r'.pba ≠ blockAddr segno o := by
  have hquiet : st.device.lsmTree.rotates lba none = true → st.device.compactionWq = 0 :=
    Room.quiet h.room
  obtain ⟨hsafe, hmapping, htables⟩ := h.safe.delete ch hr hquiet
  have hstored := stored_delete (c := c) ch hmapping
  obtain ⟨hbuf, hwq, -⟩ : ((st.device.forget r.pba).put ch lba none).segBuffer = _ ∧ _ := put_kept ch
  have hwas : st.device.stored c lba = some data := by
    rw [stored, hr, Option.bind_some, hdata]
    rfl
  obtain ⟨res, hres⟩ : ∃ res, st.device.segBuffer.pushBlock lba data false (ch.key o) = res := ⟨_, rfl⟩
  obtain ⟨hpool, hsize, hcontent, hheld, hfits⟩ := h.pool.move h.notFull (h.safe.key_ne hr)
    (h.held o List.mem_cons_self lba r hr hpba) h.fits hwas (ch.key o) hres
  have hpush : ((st.device.forget r.pba).put ch lba none).pushBlock lba data false (ch.key o) =
      { (st.device.forget r.pba).put ch lba none with
        segBuffer := res.1, bufferioWq := st.device.bufferioWq ++ res.2.toList } := by
    rw [pushBlock, hbuf, hwq, ← hres]
  have hleft : ∀ lba' r', ((st.device.forget r.pba).put ch lba none).lsmTree.mapping lba' = some r' →
      st.device.lsmTree.mapping lba' = some r' ∧ lba' ≠ lba := by
    intro lba' r' hr'
    rw [hmapping, Function.update_apply] at hr'
    split at hr'
    · cases hr'
    · rename_i hne
      exact ⟨hr', hne⟩
  rw [hpush]
  refine ⟨⟨hsafe.withBuffers _ _, ?_, hsize, htables.trans h.tables, fun a => ?_, fun o' => ?_,
    fun o' ho' hold => ?_, fun o' ho' lba' r' hr' hpba' => ?_, ?_, hfits⟩, fun lba' r' hr' => ?_⟩
  · exact hstored ▸ hpool
  · rw [← h.content a, Device.content, Device.content, ← hcontent a, ← hstored]
    rfl
  · exact (h.inside o').trans_eq (put_nrBlock ch (st.device.forget r.pba) lba none).symm
  · -- no other block of the victim has this address
    exact absurd (blockAddr_inj (hold.symm.trans hpba)) fun heq => ho (heq ▸ ho')
  · exact hheld lba' (h.held o' (List.mem_cons_of_mem _ ho') lba' r' (hleft lba' r' hr').1 hpba')
  · exact Room.put ch (d := st.device.forget r.pba) h.room
  · obtain ⟨hr', hne⟩ := hleft lba' r' hr'
    exact ⟨hr', fun heq => hne (h.safe.eq_of_pba_eq hr' hr (heq.trans hpba.symm))⟩

/-- **An iteration of the loop.** -/
theorem Moving.step (h : Moving c d₀ segno (o :: todo) st) (ho : o ∉ todo)
    (hstep : gcBlock c ch segno st o = some st') : Moving c d₀ segno todo st' ∧
      ∀ lba r, st'.device.lsmTree.mapping lba = some r →
        st.device.lsmTree.mapping lba = some r ∧ r.pba ≠ blockAddr segno o := by
  rw [gcBlock, if_pos (h.inside o), ReverseIndexTable.reset_infAddr (h.inside o)] at hstep
  obtain ⟨found, hsearch, heq⟩ := Option.map_eq_some_iff.mp hstep
  have hfound := h.safe.tree.ok.search_eq hsearch
  simp only at heq
  split at heq
  · rename_i hne
    subst heq
    obtain ⟨hmoving, hfree⟩ := h.skip hfound hne
    exact ⟨hmoving, fun lba r hr => ⟨hr, hfree lba r hr⟩⟩
  · rename_i hpba
    have hpba : (found.getD st.old).pba = blockAddr segno o := (not_not.mp hpba).symm
    have hr := h.mapping_old hfound hpba
    obtain ⟨data, hdata⟩ := h.safe.intact _ _ hr
    have hraw : ((st.device.forget (blockAddr segno o)).put ch
        (st.device.rit.lba (blockAddr segno o)) none).rawDev (blockAddr segno o) =
          st.device.rawDev (found.getD st.old).pba := by
      rw [(put_kept ch).2.2, hpba]
    rw [hraw, hdata] at heq
    subst heq
    have hmove := h.move ch ho hr hpba hdata (st.count + 1)
    rw [hpba] at hmove
    exact hmove

/-- **The loop.** -/
theorem Moving.exec (h : Moving c d₀ segno todo st) (htodo : todo.Nodup)
    (hrun : Machine.exec (gcBlock c ch segno) st todo = some st') : Moving c d₀ segno [] st' ∧
      ∀ lba r, st'.device.lsmTree.mapping lba = some r →
        st.device.lsmTree.mapping lba = some r ∧ ∀ o ∈ todo, r.pba ≠ blockAddr segno o := by
  induction todo generalizing st with
  | nil =>
    obtain rfl := Option.some.inj hrun
    exact ⟨h, fun lba r hr => ⟨hr, fun o ho => absurd ho List.not_mem_nil⟩⟩
  | cons o todo ih =>
    obtain ⟨ho, htodo⟩ := List.nodup_cons.mp htodo
    obtain ⟨st₁, hstep, hrun⟩ := Machine.exec_cons_eq_some hrun
    obtain ⟨hmoving, hfirst⟩ := h.step ch ho hstep
    obtain ⟨hmoving', hrest⟩ := ih hmoving htodo hrun
    refine ⟨hmoving', fun lba r hr => ?_⟩
    obtain ⟨hr₁, hne⟩ := hrest lba r hr
    obtain ⟨hr₀, hne₀⟩ := hfirst lba r hr₁
    refine ⟨hr₀, fun o' ho' => ?_⟩
    rcases List.mem_cons.mp ho' with rfl | ho'
    · exact hne₀
    · exact hne o' ho'

/-! ## The victim -/

/-- The victim that is taken, with the victims that are left. -/
abbrev selected (d : Device κ D) : Option Victim × List Victim :=
  selectVictim d.tables.dst.loggingSegno d.tables.dst.victims

/-- What is needed for the blocks of a victim to be moved safely. -/
structure MovesSafely (d : Device κ D) (v : Victim) : Prop where
  /-- the unassigned `old` has the address of none of them -/
  old : ∀ o ∈ v.lookedAt, ch.old.pba ≠ blockAddr v.segno o
  /-- what the pool has of their lbas is pending -/
  held : ∀ o ∈ v.lookedAt, ∀ lba r, d.lsmTree.mapping lba = some r → r.pba = blockAddr v.segno o →
    Held d.segBuffer d.bufferioWq lba
  /-- there is room in the memtable -/
  room : d.Room v.lookedAt.length
  /-- and in the buffers -/
  fits : Fits d.segBuffer d.bufferioWq v.lookedAt.length

/-- What is needed for a garbage collection to be safe. -/
structure CollectsSafely (d : Device κ D) : Prop where
  /-- the first victim is not one of the logging segment without valid blocks -/
  quiet : d.tables.dst.Quiet
  /-- the blocks can be moved -/
  moves : ∀ v ∈ d.selected.1, d.MovesSafely ch v

/-- The victims that are left. -/
theorem Safe.popVictims (h : d.Safe c) {vs : List Victim} (hvs : vs.Sublist d.tables.dst.victims) :
    ({ d with tables := { d.tables with dst := { d.tables.dst with victims := vs } } } : Device κ D).Safe c :=
  h.withTables ⟨⟨h.tables.agree.nrSegment, h.tables.agree.entry,
    fun v hv => h.tables.agree.victims v (hvs.subset hv), h.tables.agree.logging, h.tables.agree.count,
    h.tables.agree.accurate.sublist hvs⟩, h.tables.counted, h.tables.nrBlock, h.tables.bound⟩ fun _ _ _ => id

omit [Inhabited κ] in
/-- The victim that is taken. -/
theorem TablesOk.selected (h : d.TablesOk) (hquiet : d.tables.dst.Quiet) {v : Victim} {vs : List Victim}
    (hsel : d.selected = (some v, vs)) : v.segno < d.tables.dst.nrSegment ∧
      ∀ o ∈ (d.tables.dst.array v.segno).blockValidityTable, o ∈ v.lookedAt := by
  obtain ⟨t, hgc⟩ : ∃ t, d.tables.gcOneSegment = (some v, t) := by
    unfold SegmentTables.gcOneSegment
    rw [show selectVictim d.tables.dst.loggingSegno d.tables.dst.victims = (some v, vs) from hsel]
    exact ⟨_, rfl⟩
  have hmem := SegmentTables.mem_of_gcOneSegment hgc
  have hentry := h.agree.accurate.entry v hmem
    (SegmentTables.loggingSegno_ne_of_quiet h.agree.accurate hquiet hgc)
  refine ⟨h.agree.nrSegment ▸ (h.agree.victims v hmem).1, fun o ho => ?_⟩
  rw [Victim.lookedAt, hentry]
  split
  · rename_i hzero
    rw [(h.counted v.segno).eq_empty hzero] at ho
    cases ho
  · simpa using ho

/-- **Garbage collection of a segment** changes no content, and the segment that is free afterwards
has no block in use. -/
theorem Safe.gcOneSegment (h : d.Safe c)
    (hpool : PoolOk d.segBuffer d.bufferioWq (d.stored c))
    (hfull : d.segBuffer.cur.size < blocksPerSegment) (hok : d.CollectsSafely ch) {d' : Device κ D}
    {n : Option ℕ} (hgc : d.gcOneSegment c ch = some (d', n)) :
    d'.Safe c ∧ PoolOk d'.segBuffer d'.bufferioWq (d'.stored c) ∧
      d'.segBuffer.cur.size < blocksPerSegment ∧ (∀ lba, d'.content c lba = d.content c lba) ∧
      d'.tables = d.tables.act .gc := by
  rw [Device.gcOneSegment] at hgc
  split at hgc
  · rename_i victims hsel
    obtain ⟨rfl, -⟩ := Prod.mk.inj (Option.some.inj hgc)
    refine ⟨h.popVictims (selectVictim_sublist hsel), hpool, hfull, fun _ => rfl, ?_⟩
    simp only [SegmentTables.act, SegmentTables.backgroundGc, SegmentTables.gcOneSegment, hsel]
  · rename_i v victims hsel
    obtain ⟨st, hrun, heq⟩ := Option.map_eq_some_iff.mp hgc
    obtain ⟨rfl, -⟩ := Prod.mk.inj heq
    obtain ⟨hold, hheld, hroom, hfits⟩ := hok.moves v (by rw [Device.selected, hsel]; rfl)
    obtain ⟨hlt, hlooked⟩ := h.tables.selected hok.quiet hsel
    obtain ⟨d₁, hd₁⟩ : ∃ d₁ : Device κ D, d₁ =
      { d with tables := { d.tables with dst := { d.tables.dst with victims } } } := ⟨_, rfl⟩
    have hsafe : d₁.Safe c := hd₁ ▸ h.popVictims (selectVictim_sublist hsel)
    have hstart : Moving c d₁ v.segno v.lookedAt ⟨d₁, ch.old, 0⟩ := by
      rw [hd₁] at hsafe ⊢
      refine ⟨hsafe, hpool, hfull, rfl, fun _ => rfl, fun o => ?_, fun o ho heq => ?_, hheld, hroom, hfits⟩
      · exact (blockAddr_lt hlt o).trans_eq h.tables.nrBlock.symm
      · exact absurd heq (hold o ho)
    rw [← hd₁] at hrun
    obtain ⟨hmoving, hgone⟩ := hstart.exec ch v.nodup_lookedAt hrun
    obtain ⟨t, ht⟩ : ∃ t : SegmentTables, t = d.tables.act .gc := ⟨_, rfl⟩
    have htables : (⟨st.device.tables.svt.testAndReturn v.segno,
        st.device.tables.dst.returnSegment v.segno,
        if st.device.tables.nrValidSegment = 0 then 2 ^ 64 - 1
        else st.device.tables.nrValidSegment - 1⟩ : SegmentTables) = t := by
      rw [hmoving.tables, hd₁, ht]
      simp only [SegmentTables.act, SegmentTables.backgroundGc, SegmentTables.gcOneSegment, hsel]
    rw [htables]
    have hagree : t.Agree := ht ▸ h.tables.agree.gc hok.quiet
    refine ⟨hmoving.safe.withTables ⟨hagree, ?_, ?_, hmoving.safe.tables.bound⟩ ?_, hmoving.pool,
      hmoving.notFull, fun lba => (hmoving.content lba).trans ?_, ht⟩
    · rw [← htables]
      exact hmoving.safe.tables.counted.returnSegment v.segno
    · rw [← htables]
      refine hmoving.safe.tables.nrBlock.trans ?_
      rcases st.device.tables.dst.returnSegment_cases v.segno with hsame | hzero
      · rw [hsame]
      · rw [hzero]
        rfl
    · -- a block of the segment would have been looked at
      intro key r hr hbit
      rw [← htables]
      rcases st.device.tables.dst.returnSegment_cases v.segno with hsame | hzero
      · rw [hsame]
        exact hbit
      · have hne : blockToSegment r.pba ≠ v.segno := by
          intro hseg
          rw [Dst.validBit, hseg, hmoving.tables, hd₁] at hbit
          refine (hgone key r hr).2 _ (hlooked _ hbit) ?_
          rw [← hseg, blockAddr_blockOffset]
        rw [hzero, Dst.validBit, Dst.destroyVictim_array, Dst.setEntry]
        simp only [Function.update_of_ne hne]
        exact hbit
    · rw [hd₁]
      rfl

end Device

end JinDisk
