import JinDisk.Journal

/-!
# Opening a journal

`journal_region_init` opens a journal in one of three ways. A journal without records gets one. A
journal with several records is gone through by `journal_recover`, which sets `last_sync_record`. A
journal with exactly one record is ready at once, and `last_sync_record` stays what `kmalloc` found
in the memory; the next `journal_synchronize` starts from there.
-/

namespace JinDisk

namespace JournalRegion

variable {γ : Type} {c : JournalCipher γ} {rand : ℕ → Bytes} {j j' : JournalRegion γ}

/-! ## Loading blocks -/

/-- Only the buffer is different. -/
structure SameRing (j j' : JournalRegion γ) : Prop where
  /-- the window -/
  window : j'.recordStart = j.recordStart ∧ j'.recordEnd = j.recordEnd
  /-- `last_sync_record` -/
  lastSyncRecord : j'.lastSyncRecord = j.lastSyncRecord
  /-- history -/
  written : j'.written = j.written

theorem SameRing.refl (j : JournalRegion γ) : SameRing j j := ⟨⟨rfl, rfl⟩, rfl, rfl⟩

theorem SameRing.trans {j'' : JournalRegion γ} (h : SameRing j j') (h' : SameRing j' j'') :
    SameRing j j'' :=
  ⟨⟨h'.window.1.trans h.window.1, h'.window.2.trans h.window.2⟩,
    h'.lastSyncRecord.trans h.lastSyncRecord, h'.written.trans h.written⟩

/-- What an opened journal should be like when it had records: its window is that of the superblock,
all of it is on disk, and the next calls write no block without need. -/
structure Reopened (c : JournalCipher γ) (j : JournalRegion γ) (recordStart recordEnd : ℕ) : Prop where
  /-- the window -/
  window : j.recordStart = recordStart ∧ j.recordEnd = recordEnd
  /-- `last_sync_record` -/
  lastSyncRecord : j.lastSyncRecord = j.recordEnd
  /-- `journal_synchronize` writes nothing -/
  synchronize : ∀ rand, ∃ j', synchronize c rand j = some j' ∧ j'.written = j.written
  /-- after a new record it writes the block of the record -/
  addRecord : ∀ rand record, ∃ j₁ j₂, addRecord c rand j record = some j₁ ∧
    JournalRegion.synchronize c rand j₁ = some j₂ ∧
    j₂.written = j.written ++ [j.recordEnd / recordsPerBlock]

end JournalRegion

end JinDisk
