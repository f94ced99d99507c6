import Mathlib.Tactic.IntervalCases
import Mathlib.Tactic.Ring
import JinDisk.Device
import JinDisk.Journal

/-!
# The log of the blocks written

With `ENABLE_JOURNAL`, `jindisk_write_blocks` adds a `DATA_LOG` record to the journal for each block
it has written: the address, the lba from the reverse index table, and key and mac from the record
that the LSM tree has for the lba. Neither lookup's return code is looked at, so where one fails the
record gets what the variable held before.

The address is carried along as `hba += i`, where `i` is the number of the block already. It goes
`pba`, `pba + 1`, `pba + 3`, `pba + 6`: right for the first two blocks and for none after them.
-/

namespace JinDisk

variable {D : Type}

/-- `reverse_index_table_get`; `none` for an error. -/
def ReverseIndexTable.get (t : ReverseIndexTable) (pba : ℕ) : Option ℕ :=
  if pba < t.nrBlock then some (t.lba pba) else none

namespace Device

/-- What is on the stack of `jindisk_write_blocks` when the loop begins. -/
structure LogLocals where
  /-- `ts` -/
  ts : ℕ
  /-- `lba` -/
  lba : ℕ
  /-- `d_record` -/
  dRecord : Record Bytes
  /-- the IV in `j_record`, which nothing sets -/
  iv : Bytes

/-- The loop of `jindisk_write_blocks`: the records it adds, for `n` more blocks. `none` if a search
of the LSM tree faults. -/
def dataLogLoop (d : Device Bytes D) (ts : ℕ) (iv : Bytes) :
    ℕ → ℕ → ℕ → ℕ → Record Bytes → Option (List JournalRecord)
  | 0, _, _, _, _ => some []
  | n + 1, i, hba, lba, dRecord =>
    let hba := (hba + i) % 2 ^ 64
    let lba := (d.rit.get hba).getD lba
    -- `lsm_tree_search` takes a `uint32_t`
    (d.lsmTree.search (lba % 2 ^ 32)).bind fun found =>
      let dRecord := found.getD dRecord
      (dataLogLoop d ts iv n (i + 1) hba lba dRecord).map fun rs =>
        .dataLog ts lba hba dRecord.key dRecord.mac iv :: rs

/-- The records that `jindisk_write_blocks(pba, count)` adds, in order. -/
def dataLog (d : Device Bytes D) (s : LogLocals) (pba count : ℕ) : Option (List JournalRecord) :=
  d.dataLogLoop s.ts s.iv count 0 pba s.lba s.dRecord

/-- The end of `jindisk_write_blocks`: the journal with the records added. -/
def jindiskWriteBlocks {γ : Type} (c : JournalCipher γ) (rand : ℕ → Bytes) (d : Device Bytes D)
    (s : LogLocals) (j : JournalRegion γ) (pba count : ℕ) : Option (JournalRegion γ) :=
  (d.dataLog s pba count).bind fun rs => Machine.exec (JournalRegion.addRecord c rand) j rs

/-- The newest record of an lba. Its keys are of 32 bits, so the tree has none of an lba beyond. -/
def newestRecord (d : Device Bytes D) (lba : ℕ) : Option (Record Bytes) :=
  if lba < 2 ^ 32 then (d.lsmTree.search lba).join else none

/-- The reverse index table has an lba for the block, and the tree a record for the lba. -/
def Indexed (d : Device Bytes D) (pba : ℕ) : Prop :=
  ∃ lba r, d.rit.get pba = some lba ∧ d.newestRecord lba = some r

/-- The records describe the blocks: one for each, with its address, its lba, and key and mac of the
newest record of the lba. -/
def Describes (d : Device Bytes D) (pba count : ℕ) (rs : List JournalRecord) : Prop :=
  rs.length = count ∧ ∀ i < count, ∃ ts lba r iv,
    rs[i]? = some (.dataLog ts lba ((pba + i) % 2 ^ 64) r.key r.mac iv) ∧
      d.rit.get ((pba + i) % 2 ^ 64) = some lba ∧ d.newestRecord lba = some r

variable {d : Device Bytes D} {ts : ℕ} {iv : Bytes}

/-- How far the address has come `k` rounds after round `i`. -/
def advance : ℕ → ℕ → ℕ
  | i, 0 => i
  | i, k + 1 => i + advance (i + 1) k

theorem two_mul_advance (i k : ℕ) : 2 * advance i k = (k + 1) * (2 * i + k) := by
  induction k generalizing i with
  | zero => rw [advance]; ring
  | succ k ih =>
    rw [advance, Nat.mul_add, ih]
    ring

/-- **The addresses in the log.** Record `k` is about block `pba + k * (k + 1) / 2`. -/
theorem dataLogLoop_hba {n i hba lba : ℕ} {dRecord : Record Bytes} {rs : List JournalRecord}
    (h : d.dataLogLoop ts iv n i hba lba dRecord = some rs) :
    rs.length = n ∧ ∀ k < n, ∃ l key mac,
      rs[k]? = some (.dataLog ts l ((hba + advance i k) % 2 ^ 64) key mac iv) := by
  induction n generalizing i hba lba dRecord rs with
  | zero =>
    obtain rfl := Option.some.inj h
    exact ⟨rfl, fun k hk => absurd hk (Nat.not_lt_zero k)⟩
  | succ n ih =>
    rw [dataLogLoop] at h
    obtain ⟨found, -, hrest⟩ := Option.bind_eq_some_iff.mp h
    obtain ⟨rs', hrs', rfl⟩ := Option.map_eq_some_iff.mp hrest
    obtain ⟨hlen, hrec⟩ := ih hrs'
    refine ⟨congrArg Nat.succ hlen, fun k hk => ?_⟩
    cases k with
    | zero => exact ⟨_, _, _, rfl⟩
    | succ k =>
      obtain ⟨l, key, mac, hl⟩ := hrec k (Nat.lt_of_succ_lt_succ hk)
      refine ⟨l, key, mac, hl.trans ?_⟩
      rw [Nat.mod_add_mod, Nat.add_assoc, advance]

/-- The third record is about the wrong block. -/
theorem not_describes {s : LogLocals} {pba count : ℕ} (hcount : 2 < count)
    {rs : List JournalRecord} (h : d.dataLog s pba count = some rs) : ¬d.Describes pba count rs := by
  rintro ⟨-, hdesc⟩
  obtain ⟨l, key, mac, hrec⟩ := (dataLogLoop_hba h).2 2 hcount
  obtain ⟨ts', lba, r, iv', hrec', -⟩ := hdesc 2 hcount
  have hsame := Option.some.inj (hrec.symm.trans hrec')
  simp only [JournalRecord.dataLog.injEq, advance] at hsame
  have hhba := hsame.2.2.1
  omega

/-- A round for a block that is indexed adds the right record. -/
theorem dataLogLoop_succ {n i hba lba : ℕ} {dRecord : Record Bytes} {l : ℕ} {r : Record Bytes}
    (hl : d.rit.get ((hba + i) % 2 ^ 64) = some l) (hr : d.newestRecord l = some r) :
    d.dataLogLoop ts iv (n + 1) i hba lba dRecord =
      (d.dataLogLoop ts iv n (i + 1) ((hba + i) % 2 ^ 64) l r).map fun rs =>
        .dataLog ts l ((hba + i) % 2 ^ 64) r.key r.mac iv :: rs := by
  rw [newestRecord] at hr
  split at hr
  · rename_i hlt
    have hsearch : d.lsmTree.search l = some (some r) := Option.join_eq_some_iff.mp hr
    rw [dataLogLoop]
    simp only [hl, Option.getD_some, Nat.mod_eq_of_lt hlt, hsearch, Option.bind_some]
  · cases hr

/-- **When the log describes the blocks.** There are two of them at most, and both are indexed. -/
theorem data_log_describes_iff (d : Device Bytes D) (s : LogLocals) (pba count : ℕ) :
    (∃ rs, d.dataLog s pba count = some rs ∧ d.Describes pba count rs) ↔
      count ≤ 2 ∧ ∀ i < count, d.Indexed ((pba + i) % 2 ^ 64) := by
  constructor
  · rintro ⟨rs, hrs, hdesc⟩
    refine ⟨?_, fun i hi => ?_⟩
    · by_contra hcount
      exact not_describes (Nat.lt_of_not_le hcount) hrs hdesc
    · obtain ⟨ts, lba, r, iv, -, hlba, hr⟩ := hdesc.2 i hi
      exact ⟨lba, r, hlba, hr⟩
  · rintro ⟨hcount, hindexed⟩
    interval_cases count
    · exact ⟨[], rfl, rfl, fun i hi => absurd hi (Nat.not_lt_zero i)⟩
    · obtain ⟨l, r, hl, hr⟩ := hindexed 0 (by decide)
      refine ⟨[.dataLog s.ts l ((pba + 0) % 2 ^ 64) r.key r.mac s.iv], ?_, rfl, fun i hi => ?_⟩
      · rw [dataLog, dataLogLoop_succ hl hr]
        rfl
      · obtain rfl := Nat.lt_one_iff.mp hi
        exact ⟨_, l, r, _, rfl, hl, hr⟩
    · obtain ⟨l, r, hl, hr⟩ := hindexed 0 (by decide)
      obtain ⟨l', r', hl', hr'⟩ := hindexed 1 (by decide)
      have hnext : ((pba + 0) % 2 ^ 64 + 1) % 2 ^ 64 = (pba + 1) % 2 ^ 64 := by omega
      refine ⟨[.dataLog s.ts l ((pba + 0) % 2 ^ 64) r.key r.mac s.iv,
        .dataLog s.ts l' ((pba + 1) % 2 ^ 64) r'.key r'.mac s.iv], ?_, rfl, fun i hi => ?_⟩
      · rw [dataLog, dataLogLoop_succ hl hr, dataLogLoop_succ (hnext.symm ▸ hl') hr', hnext]
        rfl
      · interval_cases i
        · exact ⟨_, l, r, _, rfl, hl, hr⟩
        · exact ⟨_, l', r', _, rfl, hl', hr'⟩

/-! ## Three blocks -/

/-- A cipher for the sample; the tag is the block's address. -/
def loggedCipher : DataCipher Bytes ℕ :=
  ⟨fun _ pba data => (data, [UInt8.ofNat pba]), fun _ _ _ data => .ok data⟩

/-- A device with four blocks of data, as a flush leaves them. -/
def logged : Device Bytes ℕ :=
  [10, 11, 12, 13].zipIdx.foldl
    (fun d e => d.logBlock loggedCipher ⟨0, ⟨0, [], []⟩, fun _ => []⟩ [7] (e.1, 0) e.2)
    (.format 10 4 1 [] [] fun _ => 0)

/-- The stack of the sample. -/
def loggedLocals : LogLocals := ⟨5, 0, ⟨0, [], []⟩, []⟩

/-- A write of three blocks, all of which are indexed, logs the first two and the fourth. -/
theorem third_block_misdescribed :
    (∀ i < 3, logged.Indexed i) ∧
      logged.dataLog loggedLocals 0 3 =
        some [.dataLog 5 10 0 [7] [0] [], .dataLog 5 11 1 [7] [1] [], .dataLog 5 13 3 [7] [3] []] ∧
      ¬∃ rs, logged.dataLog loggedLocals 0 3 = some rs ∧ logged.Describes 0 3 rs := by
  refine ⟨fun i hi => ?_, by decide +kernel, ?_⟩
  · interval_cases i
    · exact ⟨10, ⟨0, [0], [7]⟩, by decide +kernel, by decide +kernel⟩
    · exact ⟨11, ⟨1, [1], [7]⟩, by decide +kernel, by decide +kernel⟩
    · exact ⟨12, ⟨2, [2], [7]⟩, by decide +kernel, by decide +kernel⟩
  · rintro ⟨rs, hrs, hdesc⟩
    exact not_describes (by decide) hrs hdesc

end Device

end JinDisk
