import JinDisk.Device
import JinDisk.Lib.Layers

/-!
# Blocks in use

The block of the newest record of an lba is in use: its bit in the data segment table is set, and
the reverse index names the lba. So no two lbas share a block, and no block in use is handed out.

What could go wrong is that a record further down in the tree is superseded, and its block released,
when the block has long been reused. The reverse index protects a block that belongs to another lba
by now; it does not if the block has come back to the same lba. The records of an lba in the
different layers of the tree have different addresses as long as no lba gets back a block that an
older record of it still names (`Unused`). Under this condition what the device releases is never
in use.
-/

namespace JinDisk

open Layers

variable {κ D : Type}

/-! ## The layers of the tree -/

section Layers

variable [Inhabited κ]

/-- The positive records that a memtable finds. -/
def Memtable.layer (m : Memtable κ) : Layer ℕ (Record κ) := fun key r =>
  m.get key = some r ∧ r.isNegative = false

/-- The positive records in the files of a level. -/
def BitLevel.layer (l : BitLevel κ) : Layer ℕ (Record κ) := fun key r =>
  r ∈ l.recordsOf key ∧ r.isNegative = false

/-- The layers below the memtable. The immutable one is a layer by itself until it is written to
level 0. -/
def Device.lower (d : Device κ D) : List (Layer ℕ (Record κ)) :=
  (if d.compactionWq = 0 then [] else d.lsmTree.immutable.toList.map Memtable.layer) ++
    [d.lsmTree.levels.level0.layer, d.lsmTree.levels.level1.layer]

/-- All layers. -/
def Device.layers (d : Device κ D) : List (Layer ℕ (Record κ)) := d.lsmTree.memtable.layer :: d.lower

theorem Memtable.layer_create (key : ℕ) (r : Record κ) :
    ¬(Memtable.create : Memtable κ).layer key r := by
  simp [layer, get, create]

theorem Memtable.layer_put {m : Memtable κ} {lba key : ℕ} {val : Option (Record κ)} {r : Record κ}
    (h : (m.put lba val).1.layer key r) : m.layer key r ∨ key = lba ∧ val = some r := by
  obtain ⟨hget, hpos⟩ := h
  rw [Memtable.get_put] at hget
  split at hget
  · rename_i hkey
    cases val with
    | none =>
      obtain rfl := Option.some.inj hget
      rw [Option.getD_none, Record.negative_isNegative] at hpos
      cases hpos
    | some r' => exact Or.inr ⟨hkey.symm, hget⟩
  · exact Or.inl ⟨hget, hpos⟩

/-- The file of a memtable has no positive records but those the memtable finds. -/
theorem Memtable.Ok.layer_file {m : Memtable κ} (h : m.Ok) {l : BitLevel κ} {f : BitFile κ}
    (hl : l.files = [f]) (hf : f.entries = m.getAllEntry) {key : ℕ} {r : Record κ}
    (hr : l.layer key r) : m.layer key r := by
  obtain ⟨hr, hpos⟩ := hr
  rw [BitLevel.recordsOf, hl, List.flatMap_singleton] at hr
  refine ⟨?_, hpos⟩
  rw [← Memtable.head?_recordsOf hf]
  have hslot := h.slot key
  rw [← m.getAllEntry_filter, ← hf] at hslot
  change Slot (f.recordsOf key) at hslot
  generalize f.recordsOf key = rs at hr hslot
  cases hslot with
  | none => cases hr
  | positive r' _ => rw [List.mem_singleton.mp hr]; rfl
  | negative n hn =>
    rw [List.mem_singleton.mp hr, hn] at hpos
    cases hpos
  | both r' n _ hn =>
    rcases List.mem_cons.mp hr with rfl | hr
    · rfl
    · rw [List.mem_singleton.mp hr, hn] at hpos
      cases hpos

/-- The layers above level 1. -/
def Device.above (d : Device κ D) : List (Layer ℕ (Record κ)) :=
  d.lsmTree.memtable.layer :: (if d.compactionWq = 0 then [] else
    d.lsmTree.immutable.toList.map Memtable.layer) ++ [d.lsmTree.levels.level0.layer]

theorem Device.layers_eq_above (d : Device κ D) :
    d.layers = d.above ++ [d.lsmTree.levels.level1.layer] := by
  simp [layers, lower, above]

/-- What the search finds first is in one of the layers, and in level 1 only if level 0 has
nothing. -/
theorem Device.exists_layer {d : Device κ D} (h : d.TreeOk) {key : ℕ} {r : Record κ}
    (hr : d.lsmTree.mapping key = some r) : (∃ A ∈ d.above, A key r) ∨
      d.lsmTree.levels.level0.recordsOf key = [] ∧ d.lsmTree.levels.level1.layer key r := by
  obtain ⟨hnewest, hpos⟩ := LsmTree.mapping_eq_some.mp hr
  have hlevels : d.lsmTree.levels.newest key = some r → (∃ A ∈ d.above, A key r) ∨
      d.lsmTree.levels.level0.recordsOf key = [] ∧ d.lsmTree.levels.level1.layer key r := by
    intro hnewest
    rw [Levels.newest] at hnewest
    cases h₀ : d.lsmTree.levels.level0.recordsOf key with
    | nil =>
      rw [h₀] at hnewest
      exact Or.inr ⟨rfl, List.mem_of_mem_head? hnewest, hpos⟩
    | cons r₀ rs =>
      rw [h₀] at hnewest
      obtain rfl := Option.some.inj hnewest
      refine Or.inl ⟨d.lsmTree.levels.level0.layer, by simp [above], ?_, hpos⟩
      rw [h₀]
      exact List.mem_cons_self
  rw [LsmTree.newest] at hnewest
  cases hmem : d.lsmTree.memtable.get key with
  | some r' =>
    rw [hmem, Option.some_or] at hnewest
    exact Or.inl ⟨d.lsmTree.memtable.layer, List.mem_cons_self, hmem.trans hnewest, hpos⟩
  | none =>
    rw [hmem, Option.none_or] at hnewest
    cases himm : d.lsmTree.immutable.bind fun m => m.get key with
    | none =>
      rw [himm, Option.none_or] at hnewest
      exact hlevels hnewest
    | some r' =>
      rw [himm, Option.some_or] at hnewest
      by_cases hworks : d.compactionWq = 0
      · exact hlevels (((h.compacted hworks).newest_levels himm).trans hnewest)
      · obtain ⟨m, hm, hget⟩ := Option.bind_eq_some_iff.mp himm
        refine Or.inl ⟨m.layer, ?_, hget.trans hnewest, hpos⟩
        simp [above, hworks, hm]

end Layers

/-- Decryption inverts encryption. -/
def DataCipher.Lawful (c : DataCipher κ D) : Prop :=
  ∀ key pba data, c.decrypt key (c.encrypt key pba data).2 pba (c.encrypt key pba data).1 = .ok data

/-! ## What is in use -/

theorem blockAddr_lt {segno n : ℕ} (h : segno < n) (offset : Offset) :
    blockAddr segno offset < n * blocksPerSegment := by
  rw [blockAddr]
  calc segno * blocksPerSegment + offset < segno * blocksPerSegment + blocksPerSegment :=
        Nat.add_lt_add_left offset.isLt _
    _ = (segno + 1) * blocksPerSegment := (Nat.succ_mul ..).symm
    _ ≤ n * blocksPerSegment := Nat.mul_le_mul_right _ h

/-- Segment and offset are the address. -/
theorem blockAddr_blockOffset (pba : ℕ) : blockAddr (blockToSegment pba) (blockOffset pba) = pba := by
  rw [blockAddr, blockToSegment, blockOffset, Nat.mul_comm]
  exact Nat.div_add_mod pba blocksPerSegment

/-- Returning a block clears no other bit. -/
theorem Dst.validBit_returnBlock {d : Dst} {pba a : ℕ} (hne : pba ≠ a) (h : d.validBit a) :
    (d.returnBlock pba).validBit a := by
  rcases d.returnBlock_cases pba with heq | ⟨e, -, -, rfl, heq⟩
  · rw [heq]
    exact h
  · rw [heq, Dst.validBit, Dst.updateVictim_array]
    rw [Dst.setEntry]
    simp only [Function.update_apply]
    split
    · rename_i hseg
      rw [DstEntry.clearBit]
      split
      · refine Finset.mem_erase.mpr ⟨fun hoff => hne ?_, hseg ▸ h⟩
        rw [← blockAddr_blockOffset pba, ← blockAddr_blockOffset a, hoff, hseg]
      · exact hseg ▸ h
    · exact h

namespace SegmentTables

/-- What `sa_alloc` does when it finds a segment. -/
theorem saAlloc_some {t t' : SegmentTables} {segno : ℕ} (h : t.saAlloc = (some segno, t')) :
    segno < t.dst.nrSegment ∧ (t.dst.array segno).nrValidBlock = 0 ∧
      t'.dst = (t.dst.setEntry segno .full).destroyVictim segno := by
  rw [saAlloc] at h
  split at h
  · cases h
  · split at h
    · cases h
    · split at h
      · cases h
      · rename_i d htake
        obtain ⟨hseg, rfl⟩ := Prod.mk.inj h
        obtain rfl := Option.some.inj hseg
        exact Dst.takeSegment_some htake

/-- A failed `sa_alloc` leaves the data segment table alone. -/
theorem saAlloc_none {t t' : SegmentTables} (h : t.saAlloc = (none, t')) : t'.dst = t.dst := by
  rw [saAlloc] at h
  split at h
  · obtain ⟨-, rfl⟩ := Prod.mk.inj h
    rfl
  · split at h
    · obtain ⟨-, rfl⟩ := Prod.mk.inj h
      rfl
    · split at h
      · obtain ⟨-, rfl⟩ := Prod.mk.inj h
        rfl
      · cases h

/-- What `dst_find_logging_block` does when it finds a block. -/
theorem findLoggingBlock_some {t t' : SegmentTables} {pba : ℕ}
    (h : t.findLoggingBlock = (some pba, t')) : pba < t.dst.nrSegment * blocksPerSegment ∧
      ¬t.dst.validBit pba ∧ t'.dst.validBit pba ∧ (∀ a, t.dst.validBit a → t'.dst.validBit a) ∧
      t'.dst.nrSegment = t.dst.nrSegment := by
  rcases (loggingClosed_array t.dst).find ⟨rfl, rfl⟩ h with ⟨hnone, -⟩ |
    ⟨u, segno, offset, ⟨harray, hnr⟩, -, hlt, hclear, hres, rfl⟩
  · cases hnone
  · obtain rfl := Option.some.inj hres
    rw [hnr] at hlt
    rw [harray] at hclear
    refine ⟨?_, ?_, ?_, fun a ha => ?_, hnr⟩
    · exact blockAddr_lt hlt offset
    · simpa [Dst.validBit] using hclear
    · simp [Dst.validBit, handOut, Dst.setEntry, DstEntry.setBit]
    · simp only [Dst.validBit, handOut, Dst.setEntry, Function.update_apply, harray]
      split
      · rename_i hseg
        exact Finset.mem_insert_of_mem (hseg ▸ ha)
      · exact ha

end SegmentTables

namespace Device

/-- The block is in use for the lba. -/
structure Owns (d : Device κ D) (lba pba : ℕ) : Prop where
  /-- it is a block of the device -/
  lt : pba < d.rit.nrBlock
  /-- its bit is set -/
  valid : d.tables.dst.validBit pba
  /-- the reverse index names the lba -/
  lba : d.rit.lba pba = lba

/-- The tables are in order. -/
structure TablesOk (d : Device κ D) : Prop where
  /-- they agree -/
  agree : d.tables.Agree
  /-- the counters are right -/
  counted : d.tables.dst.Counted
  /-- the reverse index has an entry for each block -/
  nrBlock : d.rit.nrBlock = d.tables.dst.nrSegment * blocksPerSegment
  /-- addresses are below `INF_ADDR` -/
  bound : d.rit.nrBlock ≤ infAddr

variable (ch : Chance κ) {c : DataCipher κ D} {d : Device κ D} {lba pba : ℕ}

/-- A release of another block, or under another lba, leaves a block in use. -/
theorem Owns.release (h : d.Owns lba pba) {e : ℕ × Record κ}
    (he : e.2.pba = pba → e.1 ≠ infAddr ∧ e.1 ≠ lba) : (d.release ch e).Owns lba pba := by
  by_cases hpba : e.2.pba = pba
  · -- the reverse index names another lba, so nothing happens
    obtain ⟨hkey, hother⟩ := he hpba
    have hreset : d.rit.reset e.2.pba e.1 ch.newLba = (d.rit, lba) := by
      rw [ReverseIndexTable.reset, hpba, if_pos h.lt, h.lba, if_pos ⟨hkey, hother⟩]
    have heq : d.release ch e = d := by
      simp only [Device.release, hreset, if_neg hother]
    rw [heq]
    exact h
  · refine ⟨?_, ?_, ?_⟩
    · rw [release_nrBlock]
      exact h.lt
    · simp only [Device.release]
      split
      · exact Dst.validBit_returnBlock hpba h.valid
      · exact h.valid
    · simp only [Device.release, ReverseIndexTable.reset]
      split
      · split
        · exact h.lba
        · simp only [Function.update_of_ne (Ne.symm hpba)]
          exact h.lba
      · exact h.lba

theorem TablesOk.release (h : d.TablesOk) (e : ℕ × Record κ) : (d.release ch e).TablesOk := by
  have hseg : (d.tables.dst.returnBlock e.2.pba).nrSegment = d.tables.dst.nrSegment := by
    rcases d.tables.dst.returnBlock_cases e.2.pba with heq | ⟨e', -, -, -, heq⟩
    · rw [heq]
    · rw [heq, Dst.updateVictim_nrSegment]
      rfl
  simp only [Device.release]
  split
  · exact ⟨h.agree.returnBlock e.2.pba, h.counted.returnBlock _,
      (d.rit.nrBlock_reset ..).trans (h.nrBlock.trans (by rw [hseg])),
      (d.rit.nrBlock_reset ..).trans_le h.bound⟩
  · exact ⟨h.agree, h.counted, (d.rit.nrBlock_reset ..).trans h.nrBlock,
      (d.rit.nrBlock_reset ..).trans_le h.bound⟩

/-- The records that a compaction has superseded. -/
theorem Owns.releaseAll {es : List (ℕ × Record κ)} (h : d.Owns lba pba)
    (hes : ∀ e ∈ es, e.2.pba = pba → e.1 ≠ infAddr ∧ e.1 ≠ lba) :
    (d.releaseAll ch es).Owns lba pba := by
  induction es generalizing d with
  | nil => exact h
  | cons e es ih =>
    exact ih (h.release ch (hes e List.mem_cons_self)) fun e' he' => hes e' (List.mem_cons_of_mem _ he')

theorem TablesOk.releaseAll (h : d.TablesOk) (es : List (ℕ × Record κ)) :
    (d.releaseAll ch es).TablesOk := by
  induction es generalizing d with
  | nil => exact h
  | cons e es ih => exact ih (h.release ch e)

variable [Inhabited κ]

variable (c) in
/-- **Nothing in use is free**, and all of it can be read. -/
structure Safe (d : Device κ D) : Prop where
  /-- the tree is in order -/
  tree : d.TreeOk
  /-- a rotation waits for the compaction of the one before -/
  works : d.compactionWq ≤ 1
  /-- the tables are in order -/
  tables : d.TablesOk
  /-- the records of a key in different layers have different addresses -/
  scattered : Scattered Record.pba d.layers
  /-- `INF_ADDR` is no lba -/
  keys : ∀ A ∈ d.layers, ∀ key r, A key r → key ≠ infAddr
  /-- the block of a newest record is in use -/
  owned : ∀ key r, d.lsmTree.mapping key = some r → d.Owns key r.pba
  /-- and can be decrypted -/
  intact : ∀ key r, d.lsmTree.mapping key = some r →
    ∃ data, c.decrypt r.key r.mac r.pba (d.rawDev r.pba) = .ok data

/-- There is nothing in the layers of a device that was just formatted. -/
theorem layers_format (capacity maxFd nrSegment : ℕ) (zeroKey key : κ) (rawDev : ℕ → D) :
    ∀ A ∈ (format capacity maxFd nrSegment zeroKey key rawDev).layers, ∀ a r, ¬A a r := by
  intro A hA a r hr
  have hmem : A = (Memtable.create : Memtable κ).layer ∨
      A = (BitLevel.create 0 BitLevel.defaultLsmLevel0NrFile : BitLevel κ).layer ∨
      A = (BitLevel.create 1 capacity : BitLevel κ).layer := by
    simpa [layers, lower, format, LsmTree.init] using hA
  rcases hmem with rfl | rfl | rfl
  · exact Memtable.layer_create a r hr
  · simp [BitLevel.layer, BitLevel.create, BitLevel.recordsOf] at hr
  · simp [BitLevel.layer, BitLevel.create, BitLevel.recordsOf] at hr

theorem safe_format (capacity maxFd nrSegment : ℕ) (zeroKey key : κ) (rawDev : ℕ → D)
    (hnr : nrSegment * blocksPerSegment ≤ infAddr) :
    (format capacity maxFd nrSegment zeroKey key rawDev).Safe c where
  tree := treeOk_format capacity maxFd nrSegment zeroKey key rawDev
  works := Nat.zero_le 1
  tables := ⟨SegmentTables.agree_format nrSegment, SegmentTables.counted_format nrSegment, rfl, hnr⟩
  scattered := List.pairwise_of_forall_mem_list fun A hA _ _ a r _ hr =>
    absurd hr (layers_format capacity maxFd nrSegment zeroKey key rawDev A hA a r)
  keys A hA a r hr := absurd hr (layers_format capacity maxFd nrSegment zeroKey key rawDev A hA a r)
  owned key r hr := by
    cases (LsmTree.mapping_init capacity maxFd key).symm.trans hr
  intact key r hr := by
    cases (LsmTree.mapping_init capacity maxFd key).symm.trans hr

/-- A mapped lba is not `INF_ADDR`. -/
theorem Safe.key_ne (h : d.Safe c) {key : ℕ} {r : Record κ} (hr : d.lsmTree.mapping key = some r) :
    key ≠ infAddr := by
  have hkeys := h.keys
  simp only [d.layers_eq_above, List.mem_append, List.mem_singleton] at hkeys
  rcases exists_layer h.tree hr with ⟨A, hA, hAr⟩ | ⟨-, hr₁⟩
  · exact hkeys A (Or.inl hA) key r hAr
  · exact hkeys _ (Or.inr rfl) key r hr₁

/-! ## Puts -/

variable {val : Option (Record κ)}

/-- What a put supersedes in the memtable is the newest record. -/
theorem TreeOk.put_old (h : d.TreeOk) {old : Record κ} (hold : (d.lsmTree.put lba val).2 = some old) :
    d.lsmTree.mapping lba = some old := by
  obtain ⟨hget, e, he, hval⟩ := Memtable.put_old (m := d.lsmTree.memtable) hold
  refine LsmTree.mapping_eq_some.mpr ⟨?_, h.ok.memtable.positive lba e old he hval⟩
  rw [LsmTree.newest, hget, Option.some_or]

omit [Inhabited κ] in
/-- A block in use stays so in a put for another lba. -/
theorem Owns.put {key : ℕ} (h : d.Owns key pba) (hlba : lba ≠ infAddr) (hne : key ≠ lba) :
    (d.put ch lba val).Owns key pba := by
  have h' : ∀ tree works, ({ d with lsmTree := tree, compactionWq := works } : Device κ D).Owns key pba :=
    fun _ _ => ⟨h.lt, h.valid, h.lba⟩
  simp only [Device.put]
  split
  · exact (h' _ _).release ch fun _ => ⟨hlba, hne.symm⟩
  · exact h' _ _

omit [Inhabited κ] in
theorem TablesOk.put (h : d.TablesOk) : (d.put ch lba val).TablesOk := by
  have h' : ∀ tree works, ({ d with lsmTree := tree, compactionWq := works } : Device κ D).TablesOk :=
    fun _ _ => ⟨h.agree, h.counted, h.nrBlock, h.bound⟩
  simp only [Device.put]
  split
  · exact (h' _ _).release ch _
  · exact h' _ _

/-- The layers after a put; if it rotates, the queue of compactions was empty. -/
theorem layers_put (hquiet : d.lsmTree.rotates lba val = true → d.compactionWq = 0) :
    (d.put ch lba val).layers = if d.lsmTree.rotates lba val then
        Memtable.create.layer :: (d.lsmTree.memtable.put lba val).1.layer :: d.lower
      else (d.lsmTree.memtable.put lba val).1.layer :: d.lower := by
  rw [layers, lower, put_lsmTree, put_compactionWq, LsmTree.put]
  split
  · rename_i hrot
    rw [lower, if_pos (hquiet hrot)]
    simp
  · rfl

/-- The layers of a put hold nothing for the other lbas that was not there. -/
theorem Unused.put {key a : ℕ} (h : Unused Record.pba d.layers key a) (hne : key ≠ lba)
    (hquiet : d.lsmTree.rotates lba val = true → d.compactionWq = 0) :
    Unused Record.pba (d.put ch lba val).layers key a := by
  have htop : ∀ r, (d.lsmTree.memtable.put lba val).1.layer key r → r.pba ≠ a := fun r hr =>
    h _ List.mem_cons_self r ((Memtable.layer_put hr).resolve_right fun hkey => hne hkey.1)
  have hrest : ∀ A ∈ d.lower, ∀ r, A key r → r.pba ≠ a := fun A hA =>
    h A (List.mem_cons_of_mem _ hA)
  rw [layers_put ch hquiet]
  split
  · intro A hA r hr
    rcases List.mem_cons.mp hA with rfl | hA
    · exact absurd hr (Memtable.layer_create key r)
    · rcases List.mem_cons.mp hA with rfl | hA
      · exact htop r hr
      · exact hrest A hA r hr
  · intro A hA r hr
    rcases List.mem_cons.mp hA with rfl | hA
    · exact htop r hr
    · exact hrest A hA r hr

theorem Safe.layers_put (h : d.Safe c) (hlba : lba ≠ infAddr)
    (hquiet : d.lsmTree.rotates lba val = true → d.compactionWq = 0)
    (hfresh : ∀ r ∈ val, Unused Record.pba d.layers lba r.pba) :
    Scattered Record.pba (d.put ch lba val).layers ∧
      ∀ A ∈ (d.put ch lba val).layers, ∀ key r, A key r → key ≠ infAddr := by
  have hscattered : Scattered Record.pba ((d.lsmTree.memtable.put lba val).1.layer :: d.lower) := by
    cases val with
    | none =>
      refine h.scattered.shrink (.cons (fun key r hr => ?_) (List.forall₂_same.mpr fun _ _ _ _ => id))
      refine (Memtable.layer_put hr).resolve_right ?_
      rintro ⟨-, hval⟩
      cases hval
    | some new =>
      refine h.scattered.insert (fun key r hr => ?_) fun A hA => hfresh new rfl A (List.mem_cons_of_mem _ hA)
      exact (Memtable.layer_put hr).imp_right fun ⟨hkey, hval⟩ => ⟨hkey, (Option.some.inj hval).symm⟩
  have hkeys : ∀ A ∈ (d.lsmTree.memtable.put lba val).1.layer :: d.lower, ∀ key r, A key r →
      key ≠ infAddr := by
    intro A hA key r hr
    rcases List.mem_cons.mp hA with rfl | hA
    · rcases Memtable.layer_put hr with hr | ⟨rfl, -⟩
      · exact h.keys _ List.mem_cons_self key r hr
      · exact hlba
    · exact h.keys A (List.mem_cons_of_mem _ hA) key r hr
  rw [Device.layers_put ch hquiet]
  split
  · refine ⟨hscattered.push Memtable.layer_create, fun A hA key r hr => ?_⟩
    rcases List.mem_cons.mp hA with rfl | hA
    · exact absurd hr (Memtable.layer_create key r)
    · exact hkeys A hA key r hr
  · exact ⟨hscattered, hkeys⟩

/-- A put has no queue to wait for. -/
theorem Safe.works_put (h : d.Safe c)
    (hquiet : d.lsmTree.rotates lba val = true → d.compactionWq = 0) :
    (d.put ch lba val).compactionWq ≤ 1 := by
  rw [put_compactionWq]
  split
  · rename_i hrot
    rw [hquiet hrot]
  · exact h.works

/-- There is room in the memtable for `n` puts, or the queue is empty and a rotation does no harm. -/
def Room (d : Device κ D) (n : ℕ) : Prop :=
  d.compactionWq = 0 ∧ n ≤ defaultMemtableCapacity ∨
    d.lsmTree.memtable.size + n < defaultMemtableCapacity

omit [Inhabited κ] in
theorem Room.quiet {n : ℕ} (h : d.Room (n + 1)) :
    d.lsmTree.rotates lba val = true → d.compactionWq = 0 := by
  intro hrot
  rcases h with ⟨hzero, -⟩ | hlt
  · exact hzero
  · have hle := d.lsmTree.memtable.size_put_le lba val
    rw [LsmTree.rotates, decide_eq_true_eq] at hrot
    omega

omit [Inhabited κ] in
theorem Room.put {n : ℕ} (h : d.Room (n + 1)) : (d.put ch lba val).Room n := by
  have hle := d.lsmTree.memtable.size_put_le lba val
  rw [Room, put_lsmTree, put_compactionWq, LsmTree.put]
  split
  · -- the new memtable is empty
    right
    simp only [Memtable.create]
    rcases h with ⟨-, hn⟩ | hlt <;> omega
  · rcases h with ⟨hzero, hn⟩ | hlt
    · exact Or.inl ⟨hzero, by omega⟩
    · right
      simp only
      omega

/-! ## A block of a flush -/

/-- The block was handed out, and no newest record names it yet. -/
structure HandedOut (d : Device κ D) (pba : ℕ) : Prop where
  /-- it is a block of the device -/
  lt : pba < d.rit.nrBlock
  /-- its bit is set -/
  valid : d.tables.dst.validBit pba
  /-- nobody uses it -/
  unmapped : ∀ key r, d.lsmTree.mapping key = some r → r.pba ≠ pba

/-- It stays handed out when something is put. -/
theorem HandedOut.valid_put (h : d.HandedOut pba) (ht : d.TreeOk) :
    (d.put ch lba val).tables.dst.validBit pba := by
  simp only [Device.put]
  split
  · rename_i old hold
    simp only [release]
    split
    · exact Dst.validBit_returnBlock (h.unmapped lba old (ht.put_old hold)) h.valid
    · exact h.valid
  · exact h.valid

variable {key : κ} {data : D}

variable (c) in
/-- The record of a block that gets the place `pba`. -/
def newRecord (key : κ) (pba : ℕ) (data : D) : Record κ := ⟨pba, (c.encrypt key pba data).2, key⟩

omit [Inhabited κ] in
theorem rawDev_logBlock : (d.logBlock c ch key (lba, data) pba).rawDev =
    Function.update d.rawDev pba (c.encrypt key pba data).1 := by
  simp only [Device.logBlock, Device.put]
  split <;> rfl

/-- A block that gets a place. -/
theorem Safe.logBlock (hc : c.Lawful) (h : d.Safe c) (hout : d.HandedOut pba) (hlba : lba ≠ infAddr)
    (hquiet : d.lsmTree.rotates lba (some (newRecord c key pba data)) = true → d.compactionWq = 0)
    (hfresh : Unused Record.pba d.layers lba pba) :
    (d.logBlock c ch key (lba, data) pba).Safe c ∧
      (d.logBlock c ch key (lba, data) pba).lsmTree.mapping =
        Function.update d.lsmTree.mapping lba (some (newRecord c key pba data)) := by
  have hval : ∀ r ∈ some (newRecord c key pba data), r.isNegative = false := by
    rintro r ⟨rfl⟩
    have hne := (hout.lt.trans_le h.tables.bound).ne
    simpa [Record.isNegative, newRecord] using hne
  have hmapping : (d.logBlock c ch key (lba, data) pba).lsmTree.mapping =
      Function.update d.lsmTree.mapping lba (some (newRecord c key pba data)) :=
    h.tree.mapping_put ch hval hquiet
  obtain ⟨hscattered, hkeys⟩ := h.layers_put ch hlba hquiet fun r hr => by
    obtain rfl := Option.some.inj hr
    exact hfresh
  have htables : (d.put ch lba (some (newRecord c key pba data))).TablesOk := h.tables.put ch
  have htree : (d.put ch lba (some (newRecord c key pba data))).TreeOk := h.tree.put ch hval
  refine ⟨⟨⟨htree.ok, htree.compacted⟩, h.works_put ch hquiet, ?_, hscattered, hkeys, ?_, ?_⟩, hmapping⟩
  · exact ⟨htables.agree, htables.counted, (ReverseIndexTable.nrBlock_set ..).trans htables.nrBlock,
      (ReverseIndexTable.nrBlock_set ..).trans_le htables.bound⟩
  · intro a r hr
    have hnr := put_nrBlock ch d lba (some (newRecord c key pba data))
    have hrit : (d.logBlock c ch key (lba, data) pba).rit.lba =
        Function.update (d.put ch lba (some (newRecord c key pba data))).rit.lba pba lba :=
      congrArg ReverseIndexTable.lba (if_pos (hnr.symm ▸ hout.lt))
    rw [hmapping, Function.update_apply] at hr
    split at hr
    · rename_i ha
      obtain rfl := Option.some.inj hr
      refine ⟨?_, hout.valid_put ch h.tree, ?_⟩
      · exact hout.lt.trans_eq ((ReverseIndexTable.nrBlock_set ..).trans hnr).symm
      · rw [hrit, ha]
        exact Function.update_self ..
    · rename_i ha
      have howns : (d.put ch lba (some (newRecord c key pba data))).Owns a r.pba :=
        (h.owned a r hr).put ch hlba ha
      refine ⟨?_, howns.valid, ?_⟩
      · exact howns.lt.trans_eq (ReverseIndexTable.nrBlock_set ..).symm
      · rw [hrit, Function.update_of_ne (hout.unmapped a r hr)]
        exact howns.lba
  · intro a r hr
    rw [rawDev_logBlock]
    rw [hmapping, Function.update_apply] at hr
    split at hr
    · obtain rfl := Option.some.inj hr
      exact ⟨data, by simp [newRecord, hc key pba data]⟩
    · rw [Function.update_of_ne (hout.unmapped a r hr)]
      exact h.intact a r hr

/-- Other blocks that were handed out stay so. -/
theorem HandedOut.logBlock (h : d.Safe c) {a : ℕ} (hout : d.HandedOut a) (hne : pba ≠ a)
    (hmapping : (d.logBlock c ch key (lba, data) pba).lsmTree.mapping =
      Function.update d.lsmTree.mapping lba (some (newRecord c key pba data))) :
    (d.logBlock c ch key (lba, data) pba).HandedOut a where
  lt := hout.lt.trans_eq ((ReverseIndexTable.nrBlock_set ..).trans (put_nrBlock ch d lba _)).symm
  valid := hout.valid_put ch h.tree
  unmapped a' r hr := by
    rw [hmapping, Function.update_apply] at hr
    split at hr
    · obtain rfl := Option.some.inj hr
      exact hne
    · exact hout.unmapped a' r hr

variable (c) in
/-- What the device has stored for an lba. -/
def stored (d : Device κ D) (lba : ℕ) : Option D :=
  (d.lsmTree.mapping lba).bind fun r => (c.decrypt r.key r.mac r.pba (d.rawDev r.pba)).toOption

theorem stored_logBlock (hc : c.Lawful) (hout : d.HandedOut pba)
    (hmapping : (d.logBlock c ch key (lba, data) pba).lsmTree.mapping =
      Function.update d.lsmTree.mapping lba (some (newRecord c key pba data))) :
    (d.logBlock c ch key (lba, data) pba).stored c =
      Function.update (d.stored c) lba (some data) := by
  funext a
  rw [stored, hmapping, rawDev_logBlock, Function.update_apply, Function.update_apply]
  split
  · simp [newRecord, hc key pba data, Except.toOption]
  · rw [stored]
    refine Option.bind_congr fun r hr => ?_
    rw [Function.update_of_ne (hout.unmapped a r hr)]

/-- The blocks are written over what was stored. -/
structure Overlaid (s s' : ℕ → Option D) (blks : List (ℕ × D)) : Prop where
  /-- the blocks -/
  new : ∀ b ∈ blks, s' b.1 = some b.2
  /-- the other lbas -/
  old : ∀ lba, (∀ b ∈ blks, b.1 ≠ lba) → s' lba = s lba

theorem Overlaid.nil (s : ℕ → Option D) : Overlaid s s [] := ⟨by simp, fun _ _ => rfl⟩

theorem Overlaid.cons {s s' : ℕ → Option D} {b : ℕ × D} {blks : List (ℕ × D)}
    (h : Overlaid (Function.update s b.1 (some b.2)) s' blks) (hb : ∀ b' ∈ blks, b'.1 ≠ b.1) :
    Overlaid s s' (b :: blks) := by
  refine ⟨fun b' hb' => ?_, fun lba hlba => ?_⟩
  · rcases List.mem_cons.mp hb' with rfl | hb'
    · rw [h.old b'.1 hb, Function.update_self]
    · exact h.new b' hb'
  · rw [h.old lba fun b' hb' => hlba b' (List.mem_cons_of_mem _ hb'),
      Function.update_of_ne (hlba b List.mem_cons_self).symm]

/-! ## A flush -/

/-- Blocks get places that were handed out for them. -/
theorem Safe.logBlocks (hc : c.Lawful) {es : List ((ℕ × D) × ℕ)} (h : d.Safe c)
    (hout : ∀ e ∈ es, d.HandedOut e.2) (hlba : ∀ e ∈ es, e.1.1 ≠ infAddr)
    (hfresh : ∀ e ∈ es, Unused Record.pba d.layers e.1.1 e.2)
    (hlbas : es.Pairwise fun e e' => e.1.1 ≠ e'.1.1) (hpbas : es.Pairwise fun e e' => e.2 ≠ e'.2)
    (hroom : d.Room es.length) :
    (es.foldl (fun d e => d.logBlock c ch key e.1 e.2) d).Safe c ∧
      Overlaid (d.stored c) ((es.foldl (fun d e => d.logBlock c ch key e.1 e.2) d).stored c)
        (es.map Prod.fst) := by
  induction es generalizing d with
  | nil => exact ⟨h, .nil _⟩
  | cons e es ih =>
    obtain ⟨⟨lba, data⟩, pba⟩ := e
    obtain ⟨hlba₀, hlbas⟩ := List.pairwise_cons.mp hlbas
    obtain ⟨hpba₀, hpbas⟩ := List.pairwise_cons.mp hpbas
    have hout₀ : d.HandedOut pba := hout _ List.mem_cons_self
    have hquiet : d.lsmTree.rotates lba (some (newRecord c key pba data)) = true →
        d.compactionWq = 0 := Room.quiet hroom
    obtain ⟨hsafe, hmapping⟩ := h.logBlock ch hc hout₀ (hlba _ List.mem_cons_self) hquiet
      (hfresh _ List.mem_cons_self)
    obtain ⟨hsafe', hover⟩ := ih hsafe
      (fun e he => HandedOut.logBlock ch h (hout e (List.mem_cons_of_mem _ he)) (hpba₀ e he) hmapping)
      (fun e he => hlba e (List.mem_cons_of_mem _ he))
      (fun e he => Unused.put ch (hfresh e (List.mem_cons_of_mem _ he)) (hlba₀ e he).symm hquiet)
      hlbas hpbas (Room.put ch hroom)
    refine ⟨hsafe', Overlaid.cons ?_ fun b hb => ?_⟩
    · rw [← stored_logBlock ch hc hout₀ hmapping]
      exact hover
    · obtain ⟨e, he, rfl⟩ := List.mem_map.mp hb
      exact (hlba₀ e he).symm

/-- Other tables, in which what is in use is still valid. -/
theorem Safe.withTables (h : d.Safe c) {t : SegmentTables}
    (ht : ({ d with tables := t } : Device κ D).TablesOk)
    (hvalid : ∀ key r, d.lsmTree.mapping key = some r → d.tables.dst.validBit r.pba →
      t.dst.validBit r.pba) :
    ({ d with tables := t } : Device κ D).Safe c :=
  ⟨⟨h.tree.ok, h.tree.compacted⟩, h.works, ht, h.scattered, h.keys, fun key r hr =>
    ⟨(h.owned key r hr).lt, hvalid key r hr (h.owned key r hr).valid, (h.owned key r hr).lba⟩, h.intact⟩

/-- The blocks of an allocated segment are handed out. -/
theorem Safe.saAlloc (h : d.Safe c) {segno : ℕ} {t : SegmentTables}
    (halloc : d.tables.saAlloc = (some segno, t)) :
    ({ d with tables := t } : Device κ D).Safe c ∧ ∀ i < blocksPerSegment,
      ({ d with tables := t } : Device κ D).HandedOut (segno * blocksPerSegment + i) := by
  obtain ⟨hlt, hzero, hdst⟩ := SegmentTables.saAlloc_some halloc
  have hempty := (h.tables.counted segno).eq_empty hzero
  have hagree := h.tables.agree.alloc
  simp only [SegmentTables.act, halloc] at hagree
  have hvalid : ∀ a, d.tables.dst.validBit a → t.dst.validBit a := by
    intro a ha
    rw [Dst.validBit, hdst, Dst.destroyVictim_array, Dst.setEntry]
    simp only [Function.update_apply]
    split
    · exact Finset.mem_univ _
    · exact ha
  refine ⟨h.withTables ⟨hagree, ?_, ?_, h.tables.bound⟩ fun _ r _ => hvalid r.pba, fun i hi => ?_⟩
  · rw [hdst]
    exact h.tables.counted.setEntry segno DstEntry.counted_full
  · rw [hdst]
    exact h.tables.nrBlock
  · have hseg : blockToSegment (segno * blocksPerSegment + i) = segno :=
      blockToSegment_blockAddr segno ⟨i, hi⟩
    refine ⟨?_, ?_, fun key r hr heq => ?_⟩
    · rw [h.tables.nrBlock]
      exact blockAddr_lt hlt ⟨i, hi⟩
    · simp [Dst.validBit, hdst, hseg, Dst.setEntry, DstEntry.full]
    · -- the segment had no valid block
      have hbit := (h.owned key r hr).valid
      rw [heq, Dst.validBit, hseg, hempty] at hbit
      cases hbit

/-- The block that threaded logging finds is handed out. -/
theorem Safe.findLoggingBlock (h : d.Safe c) {t : SegmentTables}
    (hfind : d.tables.findLoggingBlock = (some pba, t)) :
    ({ d with tables := t } : Device κ D).Safe c ∧ ({ d with tables := t } : Device κ D).HandedOut pba := by
  obtain ⟨hlt, hclear, hset, hvalid, hnr⟩ := SegmentTables.findLoggingBlock_some hfind
  have hagree := h.tables.agree.findLoggingBlock
  have hcounted := SegmentTables.counted_call h.tables.counted .findLoggingBlock
  simp only [SegmentTables.act, SegmentTables.call, hfind] at hagree hcounted
  refine ⟨h.withTables ⟨hagree, hcounted, ?_, h.tables.bound⟩ fun _ r _ => hvalid r.pba, ?_, hset,
    fun key r hr heq => ?_⟩
  · rw [hnr]
    exact h.tables.nrBlock
  · rw [h.tables.nrBlock]
    exact hlt
  · exact hclear (heq ▸ (h.owned key r hr).valid)

/-- Threaded logging finds a block that no older record of the lba names. -/
def FindsFresh (d : Device κ D) (blk : ℕ × D) : Prop :=
  ∃ pba t, d.tables.findLoggingBlock = (some pba, t) ∧ Unused Record.pba d.layers blk.1 pba

variable (c) in
/-- All blocks of a flush find places that no older record of their lbas names. -/
def FlushesFresh (d : Device κ D) (ds : DataSegment κ D) : Prop :=
  match d.tables.saAlloc with
  | (some segno, _) => ∀ e ∈ ds.root.toList.zipIdx,
      Unused Record.pba d.layers e.1.1 (segno * blocksPerSegment + e.2)
  | (none, tables) => Machine.Along (fun d blk => some (Device.threadedLogging c ch ds.segKey d blk)) FindsFresh
      { d with tables } ds.root.toList

/-- Threaded logging of blocks that find such places. -/
theorem Safe.threadedLogging (hc : c.Lawful) {blks : List (ℕ × D)} (h : d.Safe c)
    (hlba : ∀ b ∈ blks, b.1 ≠ infAddr) (hlbas : blks.Pairwise fun b b' => b.1 ≠ b'.1)
    (hroom : d.Room blks.length)
    (hfresh : Machine.Along (fun d blk => some (Device.threadedLogging c ch key d blk)) FindsFresh d blks) :
    (blks.foldl (fun d b => d.threadedLogging c ch key b) d).Safe c ∧
      Overlaid (d.stored c) ((blks.foldl (fun d b => d.threadedLogging c ch key b) d).stored c) blks := by
  induction blks generalizing d with
  | nil => exact ⟨h, .nil _⟩
  | cons b blks ih =>
    obtain ⟨lba, data⟩ := b
    obtain ⟨hlba₀, hlbas⟩ := List.pairwise_cons.mp hlbas
    obtain ⟨⟨pba, t, hfind, hunused⟩, hrest⟩ := hfresh
    obtain ⟨ht, hout⟩ := h.findLoggingBlock hfind
    have hroom' : ({ d with tables := t } : Device κ D).Room (blks.length + 1) := hroom
    obtain ⟨hsafe, hmapping⟩ : (({ d with tables := t } : Device κ D).logBlock c ch key (lba, data)
        pba).Safe c ∧ _ :=
      ht.logBlock ch hc hout (hlba _ List.mem_cons_self) (Room.quiet hroom') hunused
    have hstep : d.threadedLogging c ch key (lba, data) =
        ({ d with tables := t } : Device κ D).logBlock c ch key (lba, data) pba := by
      simp only [Device.threadedLogging, hfind]
    have hrest' := hrest _ rfl
    rw [hstep] at hrest'
    obtain ⟨hsafe', hover⟩ := ih hsafe (fun b hb => hlba b (List.mem_cons_of_mem _ hb)) hlbas
      (Room.put ch hroom') hrest'
    rw [List.foldl_cons, hstep]
    refine ⟨hsafe', Overlaid.cons ?_ fun b hb => (hlba₀ b hb).symm⟩
    rw [stored_logBlock ch hc hout hmapping] at hover
    exact hover

omit [Inhabited κ] in
theorem flushBios_segment {ds : DataSegment κ D} {segno : ℕ} {t : SegmentTables} (hsize : ds.size ≠ 0)
    (halloc : d.tables.saAlloc = (some segno, t)) : d.flushBios c ch ds =
      ds.root.toList.zipIdx.foldl (fun d e =>
        Device.logBlock c ch ds.segKey d e.1 (segno * blocksPerSegment + e.2)) { d with tables := t } := by
  unfold Device.flushBios
  rw [if_neg hsize, halloc]

omit [Inhabited κ] in
theorem flushBios_logging {ds : DataSegment κ D} {t : SegmentTables} (hsize : ds.size ≠ 0)
    (halloc : d.tables.saAlloc = (none, t)) : d.flushBios c ch ds =
      ds.root.toList.foldl (fun d e => Device.threadedLogging c ch ds.segKey d e)
        { d with tables := t } := by
  unfold Device.flushBios
  rw [if_neg hsize, halloc]

/-- **A flush** keeps what is in use apart, and stores the blocks of the buffer. -/
theorem Safe.flushBios (hc : c.Lawful) (h : d.Safe c) {ds : DataSegment κ D}
    (hsize : ds.size ≤ blocksPerSegment) (hlba : ∀ lba x, ds.get lba = some x → lba ≠ infAddr)
    (hroom : d.Room ds.size) (hfresh : d.FlushesFresh ch c ds) :
    (d.flushBios c ch ds).Safe c ∧
      ∀ lba, (d.flushBios c ch ds).stored c lba = (ds.get lba).or (d.stored c lba) := by
  have hlen : ds.root.toList.length = ds.size := Std.ExtTreeMap.length_toList
  have hkeys : ∀ b ∈ ds.root.toList, b.1 ≠ infAddr := fun b hb =>
    hlba b.1 b.2 ((ds.mem_root b.1 b.2).mp hb)
  have hsorted : ds.root.toList.Pairwise fun b b' => b.1 ≠ b'.1 :=
    (RbTree.sorted ds.root).imp fun hlt => Nat.ne_of_lt hlt
  -- what the blocks of the buffer are written over
  have hover : ∀ {d' : Device κ D}, d'.Safe c ∧ Overlaid (d.stored c) (d'.stored c) ds.root.toList →
      d'.Safe c ∧ ∀ lba, d'.stored c lba = (ds.get lba).or (d.stored c lba) := by
    rintro d' ⟨hsafe, hover⟩
    refine ⟨hsafe, fun lba => ?_⟩
    cases hget : ds.get lba with
    | some data => exact hover.new (lba, data) ((ds.mem_root lba data).mpr hget)
    | none =>
      rw [Option.none_or]
      refine hover.old lba fun b hb heq => ?_
      have hsome := (ds.mem_root b.1 b.2).mp hb
      rw [heq, hget] at hsome
      cases hsome
  by_cases hzero : ds.size = 0
  · unfold Device.flushBios
    rw [if_pos hzero]
    refine hover ⟨h, ?_⟩
    rw [List.length_eq_zero_iff.mp (hlen.trans hzero)]
    exact .nil _
  · unfold FlushesFresh at hfresh
    split at hfresh
    · rename_i segno t halloc
      rw [flushBios_segment ch hzero halloc]
      obtain ⟨ht, hout⟩ := h.saAlloc halloc
      obtain ⟨es, hes⟩ : ∃ es : List ((ℕ × D) × ℕ), es = ds.root.toList.zipIdx.map fun e =>
        (e.1, segno * blocksPerSegment + e.2) := ⟨_, rfl⟩
      have hfst : es.map Prod.fst = ds.root.toList := by
        rw [hes, List.map_map]
        exact List.zipIdx_map_fst ..
      have hfold : ds.root.toList.zipIdx.foldl (fun d e =>
          Device.logBlock c ch ds.segKey d e.1 (segno * blocksPerSegment + e.2)) { d with tables := t } =
            es.foldl (fun d e => d.logBlock c ch ds.segKey e.1 e.2) { d with tables := t } := by
        rw [hes, List.foldl_map]
      refine hover ?_
      rw [hfold, ← hfst]
      have hindex : (es.map Prod.snd).Pairwise (· < ·) := by
        have hrange : es.map Prod.snd = List.range' (segno * blocksPerSegment) ds.root.toList.length := by
          calc es.map Prod.snd
              _ = (ds.root.toList.zipIdx.map Prod.snd).map (segno * blocksPerSegment + ·) := by
                rw [hes, List.map_map, List.map_map]
                rfl
              _ = List.range' (segno * blocksPerSegment) ds.root.toList.length := by
                rw [List.zipIdx_map_snd, List.map_add_range', Nat.add_zero]
        rw [hrange]
        exact List.pairwise_lt_range'
      refine ht.logBlocks ch hc ?_ ?_ ?_ ?_ ?_ ?_
      · intro e he
        rw [hes] at he
        obtain ⟨b, hb, rfl⟩ := List.mem_map.mp he
        exact hout b.2 ((List.snd_lt_of_mem_zipIdx hb).trans_le (hlen.trans_le hsize))
      · exact fun e he => hkeys e.1 (hfst ▸ List.mem_map_of_mem he)
      · intro e he
        rw [hes] at he
        obtain ⟨b, hb, rfl⟩ := List.mem_map.mp he
        exact hfresh b hb
      · rw [← hfst, List.pairwise_map] at hsorted
        exact hsorted
      · exact (List.pairwise_map.mp hindex).imp fun hlt => Nat.ne_of_lt hlt
      · rw [← hfst, List.length_map] at hlen
        exact hlen ▸ hroom
    · rename_i t halloc
      rw [flushBios_logging ch hzero halloc]
      refine hover ?_
      have hdst := SegmentTables.saAlloc_none halloc
      have hagree := h.tables.agree.alloc
      simp only [SegmentTables.act, halloc] at hagree
      have ht : ({ d with tables := t } : Device κ D).Safe c :=
        h.withTables ⟨hagree, hdst ▸ h.tables.counted, hdst ▸ h.tables.nrBlock, h.tables.bound⟩
          fun _ _ _ ha => hdst ▸ ha
      exact ht.threadedLogging ch hc hkeys hsorted (hlen ▸ hroom) hfresh

/-! ## A compaction -/

omit [Inhabited κ] in
theorem rawDev_releaseAll (es : List (ℕ × Record κ)) : (d.releaseAll ch es).rawDev = d.rawDev := by
  induction es generalizing d with
  | nil => rfl
  | cons e es ih => exact ih

/-- What a compaction supersedes is no newest record. -/
theorem Safe.superseded_ne (h : d.Safe c) {m : Memtable κ} {order : List ℕ} {comp : Compaction κ}
    (hspec : MinorSpec d.lsmTree.levels m order comp) {e : ℕ × Record κ} (he : e ∈ comp.superseded)
    {r : Record κ} (hr : d.lsmTree.mapping lba = some r) (hpba : e.2.pba = r.pba) :
    e.1 ≠ infAddr ∧ e.1 ≠ lba := by
  have hpos : e.2.isNegative = false := by
    have hne := ((h.owned lba r hr).lt.trans_le h.tables.bound).ne
    simpa [Record.isNegative, hpba] using hne
  obtain ⟨hone, r₀, hr₀, -⟩ := hspec.superseded e he hpos
  have hlayer : d.lsmTree.levels.level1.layer e.1 e.2 := ⟨by simp [hone], hpos⟩
  have hmem : d.lsmTree.levels.level1.layer ∈ d.layers := by simp [layers, lower]
  refine ⟨h.keys _ hmem e.1 e.2 hlayer, fun heq => ?_⟩
  -- over it there is a record in level 0, so the newest one is further up
  rw [heq] at hlayer hr₀
  rcases exists_layer h.tree hr with ⟨A, hA, hAr⟩ | ⟨hnil, -⟩
  · have hscattered := h.scattered
    rw [layers_eq_above, Scattered, List.pairwise_append] at hscattered
    exact hscattered.2.2 A hA _ List.mem_cons_self lba r e.2 hAr hlayer hpba.symm
  · rw [hr₀] at hnil
    cases hnil

/-- **A compaction** releases no block in use. -/
theorem Safe.compact (h : d.Safe c) {m : Memtable κ} {order : List ℕ} {t : LsmTree κ}
    {sup : List (ℕ × Record κ)} {n : ℕ} (hworks : d.compactionWq = n + 1)
    (hm : d.lsmTree.immutable = some m) (hcomp : d.lsmTree.compactMemtable m order = some (t, sup))
    (hres : ¬Resurrecting d.lsmTree.levels order) :
    ({ d with lsmTree := t, compactionWq := n }.releaseAll ch sup).Safe c ∧
      ({ d with lsmTree := t, compactionWq := n }.releaseAll ch sup).stored c = d.stored c := by
  have hmapping := h.tree.ok.mapping_compactMemtable hm hcomp hres
  have htree := h.tree.compact ch hm hcomp n
  obtain ⟨comp, hminor, heq⟩ := Option.map_eq_some_iff.mp hcomp
  obtain ⟨rfl, rfl⟩ := Prod.mk.inj heq
  obtain ⟨hmok, hsize⟩ := h.tree.ok.immutable m hm
  have hspec := minorCompaction_spec h.tree.ok.levels hmok hsize hminor
  have hwas := h.works
  obtain rfl : n = 0 := by omega
  obtain ⟨d', hd'⟩ : ∃ d' : Device κ D, d' = { d with
    lsmTree := { d.lsmTree with
      levels := d.lsmTree.levels.applyAll comp.ops
      catalogue := comp.catalogue }
    compactionWq := 0 } := ⟨_, rfl⟩
  rw [← hd'] at htree ⊢
  obtain ⟨hkept, hzero, -⟩ := releaseAll_kept ch d' comp.superseded
  have hworks' : (d'.releaseAll ch comp.superseded).compactionWq = 0 := by
    rw [hzero, hd']
  have hmapping' : (d'.releaseAll ch comp.superseded).lsmTree.mapping = d.lsmTree.mapping := by
    rw [hkept, hd']
    exact hmapping
  have hraw : (d'.releaseAll ch comp.superseded).rawDev = d.rawDev := by
    rw [rawDev_releaseAll, hd']
  -- the memtable has become level 0, and what was in the levels is level 1
  have hbefore : d.layers = [d.lsmTree.memtable.layer, m.layer] ++
      [d.lsmTree.levels.level0.layer, d.lsmTree.levels.level1.layer] := by
    simp [layers, lower, hworks, hm]
  have hafter : (d'.releaseAll ch comp.superseded).layers = [d.lsmTree.memtable.layer,
      (d.lsmTree.levels.applyAll comp.ops).level0.layer,
      (d.lsmTree.levels.applyAll comp.ops).level1.layer] := by
    rw [layers, lower, hkept, hworks', hd']
    rfl
  obtain ⟨f, hf, hentries⟩ := hspec.file
  have hlevel0 : ∀ key r, (d.lsmTree.levels.applyAll comp.ops).level0.layer key r → m.layer key r :=
    fun key r => hmok.layer_file hf hentries
  have hlevel1 : ∀ key r, (d.lsmTree.levels.applyAll comp.ops).level1.layer key r →
      d.lsmTree.levels.level0.layer key r ∨ d.lsmTree.levels.level1.layer key r := by
    rintro key r ⟨hr, hpos⟩
    obtain ⟨f, hf, hr⟩ := List.mem_flatMap.mp hr
    obtain ⟨g, hg, he⟩ := mem_level1_of_minorCompaction h.tree.ok.levels hminor f hf _
      (BitFile.mem_recordsOf.mp hr)
    refine (Levels.mem_files.mp hg).imp ?_ ?_
    · exact fun hg => ⟨List.mem_flatMap.mpr ⟨g, hg, BitFile.mem_recordsOf.mpr he⟩, hpos⟩
    · exact fun hg => ⟨List.mem_flatMap.mpr ⟨g, hg, BitFile.mem_recordsOf.mpr he⟩, hpos⟩
  have hscattered := h.scattered
  have hkeys := h.keys
  rw [hbefore] at hscattered hkeys
  refine ⟨⟨htree, hworks'.trans_le (Nat.zero_le 1), ?_, ?_, ?_, fun key r hr => ?_, fun key r hr => ?_⟩, ?_⟩
  · have htables : d'.TablesOk := by
      rw [hd']
      exact ⟨h.tables.agree, h.tables.counted, h.tables.nrBlock, h.tables.bound⟩
    exact htables.releaseAll ch _
  · rw [hafter]
    exact (hscattered.merge hlevel1).shrink
      (.cons (fun _ _ => id) (.cons hlevel0 (.cons (fun _ _ => id) .nil)))
  · rw [hafter]
    intro A hA key r hr
    rcases List.mem_cons.mp hA with rfl | hA
    · exact hkeys _ (by simp) key r hr
    · rcases List.mem_cons.mp hA with rfl | hA
      · exact hkeys m.layer (by simp) key r (hlevel0 key r hr)
      · obtain rfl := List.mem_singleton.mp hA
        exact (hlevel1 key r hr).elim (hkeys _ (by simp) key r) (hkeys _ (by simp) key r)
  · rw [hmapping'] at hr
    have howns : d'.Owns key r.pba := by
      obtain ⟨hlt, hvalid, hlba⟩ := h.owned key r hr
      rw [hd']
      exact ⟨hlt, hvalid, hlba⟩
    exact howns.releaseAll ch fun e he hpba => h.superseded_ne hspec he hr hpba
  · rw [hmapping'] at hr
    rw [hraw]
    exact h.intact key r hr
  · funext lba
    rw [stored, stored, hmapping', hraw]

end Device

end JinDisk
