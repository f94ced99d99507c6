import Mathlib.Data.BitVec
import JinDisk.SegmentAllocator
import JinDisk.TableBlocks

/-!
# The search for a free segment

The segment validity table is a `disk_bitset`: bits in groups of `BITS_PER_LONG`, which are the
entries of a `disk_array`. An access to a bit reads its group, and a change writes the group back.
The search of `seg_validator_next` goes bit by bit from `cur_segment` to the end and once more from
the start; a bit that cannot be read is passed over.

`cur_segment` is moved by the search and by `seg_validator_take`, which adds one whatever segment it
has taken, so it can stand anywhere, past the end too. The search does not mind: it covers the whole
table in any case.
-/

namespace JinDisk

/-! ## Bits in groups -/

/-- `__disk_bitset_group` -/
def diskBitsetGroup (index : ℕ) : ℕ := index / bitsPerLong

/-- `__disk_bitset_offset` -/
def diskBitsetOffset (index : ℕ) : ℕ := index % bitsPerLong

/-- `struct disk_bitset`, with the entries of its array. -/
structure DiskBitset where
  /-- `nr_bit` -/
  nrBit : ℕ
  /-- the groups -/
  group : ℕ → BitVec 64

namespace DiskBitset

variable {t t' : DiskBitset} {index i : ℕ}

/-- The bit at a place. -/
def bit (t : DiskBitset) (index : ℕ) : Bool :=
  (t.group (diskBitsetGroup index)).getLsbD (diskBitsetOffset index)

/-- `disk_array_get` of a group. `fails` are the groups that cannot be read. -/
def arrayGet (t : DiskBitset) (fails : ℕ → Bool) (i : ℕ) : Option (BitVec 64) :=
  if i < diskBitsetNrGroup t.nrBit then if fails i then none else some (t.group i) else none

/-- `set_bit` and `clear_bit` of the kernel, on one `unsigned long`. -/
def changeBit (set : Bool) (offset : ℕ) (g : BitVec 64) : BitVec 64 :=
  if set then g ||| 1#64 <<< offset else g &&& ~~~(1#64 <<< offset)

/-- `__disk_bitset_operate`; `none` for an error. -/
def operate (t : DiskBitset) (fails : ℕ → Bool) (index : ℕ) (set : Bool) : Option DiskBitset :=
  if index < t.nrBit then
    (t.arrayGet fails (diskBitsetGroup index)).map fun g =>
      { t with
        group := Function.update t.group (diskBitsetGroup index)
          (changeBit set (diskBitsetOffset index) g) }
  else none

/-- `disk_bitset_get`; `none` for an error. -/
def get (t : DiskBitset) (fails : ℕ → Bool) (index : ℕ) : Option Bool :=
  (t.arrayGet fails (diskBitsetGroup index)).map fun g => g.getLsbD (diskBitsetOffset index)

theorem offset_lt (index : ℕ) : diskBitsetOffset index < 64 := Nat.mod_lt _ (by decide)

/-- The group of a bit is one of the array. -/
theorem group_lt (h : index < t.nrBit) : diskBitsetGroup index < diskBitsetNrGroup t.nrBit := by
  rw [diskBitsetNrGroup, if_neg (Nat.ne_of_gt (Nat.zero_lt_of_lt h))]
  exact Nat.lt_succ_of_le (Nat.div_le_div_right (Nat.le_sub_one_of_lt h))

theorem get_eq (h : index < t.nrBit) {fails : ℕ → Bool} :
    t.get fails index = if fails (diskBitsetGroup index) then none else some (t.bit index) := by
  rw [get, arrayGet, if_pos (group_lt h)]
  split <;> rfl

/-- A group and a place in it are one bit. -/
theorem eq_of_group_offset (hgroup : diskBitsetGroup i = diskBitsetGroup index)
    (hoffset : diskBitsetOffset i = diskBitsetOffset index) : i = index := by
  rw [← Nat.div_add_mod i bitsPerLong, ← Nat.div_add_mod index bitsPerLong]
  exact congrArg₂ (fun g o => bitsPerLong * g + o) hgroup hoffset

/-- Changing a bit changes that bit of the group. -/
theorem getLsbD_changeBit (set : Bool) (g : BitVec 64) {o p : ℕ} (ho : o < 64) (hp : p < 64) :
    (changeBit set o g).getLsbD p = if p = o then set else g.getLsbD p := by
  have hone : (1#64 <<< o).getLsbD p = decide (p = o) := by
    rw [BitVec.getLsbD_shiftLeft, BitVec.getLsbD_one]
    grind
  rw [changeBit]
  cases set with
  | true =>
    rw [if_pos rfl, BitVec.getLsbD_or, hone]
    split <;> simp [*]
  | false =>
    rw [if_neg (by decide), BitVec.getLsbD_and, BitVec.getLsbD_not, hone]
    split <;> simp [*]

/-- **One bit is changed**, and the others stay as they are. -/
theorem operate_spec {fails : ℕ → Bool} {set : Bool} (h : t.operate fails index set = some t') :
    t'.nrBit = t.nrBit ∧ t'.bit = Function.update t.bit index set := by
  rw [operate] at h
  split at h
  · obtain ⟨g, hg, rfl⟩ := Option.map_eq_some_iff.mp h
    have hgroup : g = t.group (diskBitsetGroup index) := by
      rw [arrayGet, if_pos (group_lt ‹_›)] at hg
      split at hg
      · cases hg
      · exact (Option.some.inj hg).symm
    refine ⟨rfl, funext fun i => ?_⟩
    simp only [bit, Function.update_apply]
    by_cases hsame : diskBitsetGroup i = diskBitsetGroup index
    · rw [if_pos hsame, getLsbD_changeBit set g (offset_lt _) (offset_lt _), hgroup, ← hsame]
      by_cases hi : i = index
      · rw [if_pos hi, if_pos (congrArg diskBitsetOffset hi)]
      · rw [if_neg hi, if_neg fun ho => hi (eq_of_group_offset hsame ho)]
    · rw [if_neg hsame, if_neg fun hi => hsame (congrArg diskBitsetGroup hi)]
  · cases h

/-- A bit of the table whose group can be read can be changed. -/
theorem exists_operate (h : index < t.nrBit) (fails : ℕ → Bool)
    (hread : fails (diskBitsetGroup index) = false) (set : Bool) :
    ∃ t', t.operate fails index set = some t' := by
  rw [operate, if_pos h, arrayGet, if_pos (group_lt h), hread]
  exact ⟨_, rfl⟩

end DiskBitset

/-! ## The validator over its bits -/

/-- `struct seg_validator`. `seg_validator_init` gives the table as many bits as there are
segments. -/
structure BitValidator where
  /-- `nr_segment` -/
  nrSegment : ℕ
  /-- `seg_validity_table` -/
  table : DiskBitset
  /-- `cur_segment` -/
  curSegment : ℕ
  nrBit_eq : table.nrBit = nrSegment

namespace BitValidator

/-- The `while` loop of `seg_validator_next`: where `cur_segment` comes to rest. -/
def scan (v : BitValidator) (fails : ℕ → Bool) (cur : ℕ) : ℕ :=
  if cur < v.nrSegment then
    match v.table.get fails cur with
    | some false => cur
    | _ => v.scan fails (cur + 1)
  else cur
termination_by v.nrSegment - cur

/-- `seg_validator_next`: the return code, `*next_seg` if it is set, and the validator. The groups
that cannot be read may differ between the two passes. -/
def next (v : BitValidator) (fails : Bool → ℕ → Bool) : Int × Option ℕ × BitValidator :=
  let cur := v.scan (fails false) v.curSegment
  if cur < v.nrSegment then (0, some cur, { v with curSegment := cur })
  else
    let cur := v.scan (fails true) 0
    if cur < v.nrSegment then (0, some cur, { v with curSegment := cur })
    else (-ENODATA, none, { v with curSegment := cur })

/-- `seg_validator_take`; `none` for an error, which changes nothing. -/
def take (v : BitValidator) (fails : ℕ → Bool) (seg : ℕ) : Option BitValidator :=
  match h : v.table.operate fails seg true with
  | none => none
  | some t => some ⟨v.nrSegment, t, v.curSegment + 1,
      ((DiskBitset.operate_spec h).1.trans v.nrBit_eq)⟩

/-- `seg_validator_test_and_return`: the old bit. -/
def testAndReturn (v : BitValidator) (fails : ℕ → Bool) (seg : ℕ) :
    Option (Bool × BitValidator) :=
  match v.table.get fails seg with
  | none => none
  | some valid =>
    match h : v.table.operate fails seg false with
    | none => none
    | some t => some (valid, ⟨v.nrSegment, t, v.curSegment,
        (DiskBitset.operate_spec h).1.trans v.nrBit_eq⟩)

/-- The table of bits without its groups. -/
def toValidator (v : BitValidator) : SegValidator := ⟨v.nrSegment, v.table.bit, v.curSegment⟩

variable {v v' : BitValidator}

theorem scan_eq (v : BitValidator) (fails : ℕ → Bool) (cur : ℕ) :
    v.scan fails cur = v.toValidator.scanWith (fun i => fails (diskBitsetGroup i)) cur := by
  fun_induction scan v fails cur with
  | case1 cur hlt hfree =>
    have hlt' : cur < v.toValidator.nrSegment := hlt
    rw [DiskBitset.get_eq (v.nrBit_eq ▸ hlt)] at hfree
    split at hfree
    · cases hfree
    · rename_i hread
      have hbit : v.toValidator.valid cur = false := Option.some.inj hfree
      rw [SegValidator.scanWith, if_pos hlt', hbit, Bool.or_false, if_neg hread]
  | case2 cur hlt hpass ih =>
    have hlt' : cur < v.toValidator.nrSegment := hlt
    rw [ih, eq_comm, SegValidator.scanWith, if_pos hlt', if_pos ?_]
    rw [DiskBitset.get_eq (v.nrBit_eq ▸ hlt)] at hpass
    cases hread : fails (diskBitsetGroup cur) with
    | true => rfl
    | false =>
      rw [hread, if_neg (by decide)] at hpass
      rw [Bool.false_or]
      cases hbit : v.table.bit cur with
      | true => exact hbit
      | false => exact absurd (congrArg some hbit) hpass
  | case3 cur hlt =>
    have hge : ¬cur < v.toValidator.nrSegment := hlt
    rw [SegValidator.scanWith, if_neg hge]

/-- **What the search does**, on bits as on the table without groups: it gives a free segment and
moves `cur_segment` there, or there is no free segment that it can read. -/
theorem next_cases (v : BitValidator) (fails : Bool → ℕ → Bool) :
    (∃ seg < v.nrSegment, v.table.bit seg = false ∧
      v.next fails = (0, some seg, { v with curSegment := seg })) ∨
    ((∀ seg < v.nrSegment, v.table.bit seg = true ∨ fails true (diskBitsetGroup seg) = true) ∧
      ∃ cur, v.next fails = (-ENODATA, none, { v with curSegment := cur })) := by
  simp only [next]
  split
  · rename_i hlt
    have hfree := hlt
    rw [scan_eq] at hfree
    refine Or.inl ⟨_, hlt, ?_, rfl⟩
    rw [scan_eq]
    exact SegValidator.scanWith_free hfree
  · split
    · rename_i hlt
      have hfree := hlt
      rw [scan_eq] at hfree
      refine Or.inl ⟨_, hlt, ?_, rfl⟩
      rw [scan_eq]
      exact SegValidator.scanWith_free hfree
    · rename_i hlast
      rw [scan_eq] at hlast
      refine Or.inr ⟨fun seg hseg => ?_, _, rfl⟩
      cases hbit : v.table.bit seg with
      | true => exact Or.inl rfl
      | false =>
        refine Or.inr ?_
        by_contra hread
        exact hlast (SegValidator.scanWith_lt_iff.mpr
          ⟨seg, Nat.zero_le _, hseg, hbit, by simpa using hread⟩)

theorem take_cases (v : BitValidator) {fails : ℕ → Bool} {seg : ℕ} (h : v.take fails seg = some v') :
    v'.nrSegment = v.nrSegment ∧ v'.table.bit = Function.update v.table.bit seg true ∧
      v'.curSegment = v.curSegment + 1 := by
  rw [take] at h
  split at h
  · cases h
  · rename_i t ht
    obtain rfl := Option.some.inj h
    exact ⟨rfl, (DiskBitset.operate_spec ht).2, rfl⟩

theorem testAndReturn_cases (v : BitValidator) {fails : ℕ → Bool} {seg : ℕ} {old : Bool}
    (h : v.testAndReturn fails seg = some (old, v')) :
    v'.nrSegment = v.nrSegment ∧ v'.table.bit = Function.update v.table.bit seg false ∧
      v'.curSegment = v.curSegment := by
  rw [testAndReturn] at h
  split at h
  · cases h
  · split at h
    · cases h
    · rename_i t ht
      obtain ⟨-, rfl⟩ := Prod.mk.inj (Option.some.inj h)
      exact ⟨rfl, (DiskBitset.operate_spec ht).2, rfl⟩

/-! ## Sequences of calls -/

/-- A call on the validator. -/
inductive SvtCall : Type where
  /-- `seg_validator_next` -/
  | next : SvtCall
  /-- `seg_validator_take` -/
  | take (seg : ℕ) : SvtCall
  /-- `seg_validator_test_and_return` -/
  | testAndReturn (seg : ℕ) : SvtCall

/-- Every group can be read. -/
def readable : ℕ → Bool := fun _ => false

/-- The validator after a call. One that fails leaves it as it is, but for a search. -/
def call (v : BitValidator) : SvtCall → BitValidator
  | .next => (v.next fun _ => readable).2.2
  | .take seg => (v.take readable seg).getD v
  | .testAndReturn seg => ((v.testAndReturn readable seg).map Prod.snd).getD v

/-- The segments that are taken after a call, from those that were before. -/
def taken (held : ℕ → Bool) : SvtCall → ℕ → Bool
  | .next => held
  | .take seg => Function.update held seg true
  | .testAndReturn seg => Function.update held seg false

theorem exists_take {seg : ℕ} (h : seg < v.nrSegment) : ∃ v', v.take readable seg = some v' := by
  obtain ⟨t, ht⟩ := DiskBitset.exists_operate (t := v.table) (v.nrBit_eq.symm ▸ h) readable
    rfl true
  rw [take]
  split
  · rename_i hnone
    cases ht.symm.trans hnone
  · exact ⟨_, rfl⟩

theorem exists_testAndReturn {seg : ℕ} (h : seg < v.nrSegment) :
    ∃ v', v.testAndReturn readable seg = some (v.table.bit seg, v') := by
  have hseg : seg < v.table.nrBit := v.nrBit_eq.symm ▸ h
  obtain ⟨t, ht⟩ := DiskBitset.exists_operate hseg readable rfl false
  rw [testAndReturn, DiskBitset.get_eq hseg, readable, if_neg (by decide)]
  split
  · rename_i hnone
    cases hnone
  · rename_i valid hvalid
    obtain rfl := Option.some.inj hvalid
    split
    · rename_i hnone
      cases ht.symm.trans hnone
    · exact ⟨_, rfl⟩

/-- One call does to the bits what it does to the set of the segments taken. -/
theorem call_spec (v : BitValidator) (c : SvtCall) :
    (v.call c).nrSegment = v.nrSegment ∧
      ∀ held : ℕ → Bool, (∀ seg < v.nrSegment, v.table.bit seg = held seg) →
        ∀ seg < v.nrSegment, (v.call c).table.bit seg = taken held c seg := by
  cases c with
  | next =>
    have hsame : ∃ cur, v.call .next = { v with curSegment := cur } := by
      rw [call]
      rcases v.next_cases fun _ => readable with ⟨seg, -, -, heq⟩ | ⟨-, cur, heq⟩
      · exact ⟨seg, by rw [heq]⟩
      · exact ⟨cur, by rw [heq]⟩
    obtain ⟨cur, hcur⟩ := hsame
    rw [hcur]
    exact ⟨rfl, fun held hheld => hheld⟩
  | take s =>
    rw [call]
    cases htake : v.take readable s with
    | none =>
      refine ⟨rfl, fun held hheld seg hseg => ?_⟩
      have hne : seg ≠ s := by
        rintro rfl
        obtain ⟨v', hv'⟩ := exists_take hseg
        cases htake.symm.trans hv'
      rw [taken, Function.update_of_ne hne]
      exact hheld seg hseg
    | some v' =>
      obtain ⟨hnr, hbit, -⟩ := take_cases v htake
      refine ⟨hnr, fun held hheld seg hseg => ?_⟩
      rw [Option.getD_some, hbit, taken, Function.update_apply, Function.update_apply,
        hheld seg hseg]
  | testAndReturn s =>
    rw [call]
    cases hret : v.testAndReturn readable s with
    | none =>
      refine ⟨rfl, fun held hheld seg hseg => ?_⟩
      have hne : seg ≠ s := by
        rintro rfl
        obtain ⟨v', hv'⟩ := exists_testAndReturn hseg
        cases hret.symm.trans hv'
      rw [taken, Function.update_of_ne hne]
      exact hheld seg hseg
    | some r =>
      obtain ⟨hnr, hbit, -⟩ := testAndReturn_cases v hret
      refine ⟨hnr, fun held hheld seg hseg => ?_⟩
      rw [Option.map_some, Option.getD_some, hbit, taken, Function.update_apply,
        Function.update_apply, hheld seg hseg]

/-- After any calls the bits say which segments are taken. -/
theorem calls_spec (v : BitValidator) (cs : List SvtCall) (held : ℕ → Bool)
    (hheld : ∀ seg < v.nrSegment, v.table.bit seg = held seg) :
    (cs.foldl call v).nrSegment = v.nrSegment ∧
      ∀ seg < v.nrSegment, (cs.foldl call v).table.bit seg = cs.foldl taken held seg := by
  induction cs generalizing v held with
  | nil => exact ⟨rfl, hheld⟩
  | cons c cs ih =>
    obtain ⟨hnr, hbits⟩ := v.call_spec c
    obtain ⟨hnr', hbits'⟩ := ih (v.call c) (taken held c) (hnr.symm ▸ hbits held hheld)
    exact ⟨hnr'.trans hnr, fun seg hseg => hbits' seg (hnr.symm ▸ hseg)⟩

/-- **The search is complete.** From any table, with `cur_segment` anywhere, and after any calls: it
fails exactly if all segments are taken, and gives one that is not taken otherwise. Either way only
`cur_segment` is moved. -/
theorem free_segment_search (v : BitValidator) (cs : List SvtCall) :
    let w := cs.foldl call v
    let held := cs.foldl taken v.table.bit
    let r := w.next fun _ => readable
    (∀ seg < v.nrSegment, w.table.bit seg = held seg) ∧
      (r.1 = -ENODATA ↔ ∀ seg < v.nrSegment, held seg = true) ∧
      (r.1 ≠ -ENODATA → r.1 = 0 ∧ ∃ seg < v.nrSegment, held seg = false ∧ r.2.1 = some seg) ∧
      ∃ cur, r.2.2 = { w with curSegment := cur } := by
  intro w held r
  obtain ⟨hnr, hbits⟩ := v.calls_spec cs v.table.bit fun _ _ => rfl
  refine ⟨hbits, ?_⟩
  rcases w.next_cases fun _ => readable with ⟨seg, hseg, hfree, heq⟩ | ⟨hall, cur, heq⟩
  · have hr : r = (0, some seg, { w with curSegment := seg }) := heq
    have hlt : seg < v.nrSegment := hnr ▸ hseg
    have hheld : held seg = false := (hbits seg hlt).symm.trans hfree
    rw [hr]
    have hcode : (0 : Int) ≠ -ENODATA := by decide
    refine ⟨iff_of_false hcode fun h => ?_, fun _ => ⟨rfl, seg, hlt, hheld, rfl⟩, seg, rfl⟩
    rw [h seg hlt] at hheld
    cases hheld
  · have hr : r = (-ENODATA, none, { w with curSegment := cur }) := heq
    rw [hr]
    refine ⟨iff_of_true rfl fun seg hseg => ?_, fun h => absurd rfl h, cur, rfl⟩
    have hbit := (hall seg (hnr.symm ▸ hseg)).resolve_right (by simp [readable])
    exact (hbits seg hseg).symm.trans hbit

end BitValidator

end JinDisk
