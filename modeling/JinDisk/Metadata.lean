import Mathlib.Logic.Function.Basic
import Mathlib.Data.Nat.Basic

/-!
# Allocation tables

The tables of `metadata.c` that hand out numbers: the segment validator, used for data
segments and again for the slots of index files, and the catalogue of index files. A call
that fails in the source returns `none` here.
-/

namespace JinDisk

/-- `struct seg_validator` -/
structure SegValidator where
  /-- number of places -/
  nrSegment : ℕ
  /-- `seg_validity_table` -/
  valid : ℕ → Bool
  /-- where the search for a free place starts -/
  curSegment : ℕ

namespace SegValidator

/-- `seg_validator_format` -/
def format (nrSegment : ℕ) : SegValidator := ⟨nrSegment, fun _ => false, 0⟩

/-- The `while` loop of `seg_validator_next`: where `cur_segment` comes to rest. -/
def scan (t : SegValidator) (cur : ℕ) : ℕ :=
  if cur < t.nrSegment then
    if t.valid cur then t.scan (cur + 1) else cur
  else cur
termination_by t.nrSegment - cur

/-- `seg_validator_next`: a free place, searched from `cur_segment` and once more from the
start. `cur_segment` stays where the search ended. -/
def next (t : SegValidator) : Option ℕ × SegValidator :=
  if t.scan t.curSegment < t.nrSegment then
    (some (t.scan t.curSegment), { t with curSegment := t.scan t.curSegment })
  else if t.scan 0 < t.nrSegment then (some (t.scan 0), { t with curSegment := t.scan 0 })
  else (none, { t with curSegment := t.scan 0 })

/-- `seg_validator_take` -/
def take (t : SegValidator) (seg : ℕ) : Option SegValidator :=
  if seg < t.nrSegment then
    some { t with valid := Function.update t.valid seg true, curSegment := t.curSegment + 1 }
  else none

/-- `seg_validator_test_and_return`; `false` for a place out of range. -/
def testAndReturn (t : SegValidator) (seg : ℕ) : SegValidator :=
  if seg < t.nrSegment then { t with valid := Function.update t.valid seg false } else t

/-- The loop comes to rest on a free place or at the end. -/
theorem scan_free {t : SegValidator} {cur : ℕ} (h : t.scan cur < t.nrSegment) :
    t.valid (t.scan cur) = false := by
  fun_induction scan t cur with
  | case1 cur hlt hvalid ih => exact ih h
  | case2 cur hlt hvalid => simpa using hvalid
  | case3 cur hlt => exact absurd h hlt

/-- A search from a place at or before a free one stops there at the latest. -/
theorem scan_le {t : SegValidator} {cur fd : ℕ} (hcur : cur ≤ fd)
    (hfree : t.valid fd = false) : t.scan cur ≤ fd := by
  fun_induction scan t cur with
  | case1 cur hlt hvalid ih =>
    refine ih (Nat.lt_of_le_of_ne hcur fun heq => ?_)
    rw [heq, hfree] at hvalid
    cases hvalid
  | case2 cur hlt hvalid => exact hcur
  | case3 cur hlt => exact hcur

theorem next_nrSegment {t t' : SegValidator} {seg : Option ℕ} (h : t.next = (seg, t')) :
    t'.nrSegment = t.nrSegment := by
  have hres : t' = t.next.2 := by rw [h]
  rw [hres, next]
  split
  · rfl
  · split <;> rfl

theorem next_valid {t t' : SegValidator} {seg : Option ℕ} (h : t.next = (seg, t')) :
    t'.valid = t.valid := by
  have hres : t' = t.next.2 := by rw [h]
  rw [hres, next]
  split
  · rfl
  · split <;> rfl

/-- What `next` returns is free; the table is not changed. -/
theorem next_some {t t' : SegValidator} {seg : ℕ} (h : t.next = (some seg, t')) :
    seg < t.nrSegment ∧ t.valid seg = false ∧ t'.nrSegment = t.nrSegment ∧ t'.valid = t.valid := by
  rw [next] at h
  split at h
  · rename_i hlt
    simp only [Prod.mk.injEq, Option.some.injEq] at h
    obtain ⟨rfl, rfl⟩ := h
    exact ⟨hlt, scan_free hlt, rfl, rfl⟩
  · split at h
    · rename_i hlt
      simp only [Prod.mk.injEq, Option.some.injEq] at h
      obtain ⟨rfl, rfl⟩ := h
      exact ⟨hlt, scan_free hlt, rfl, rfl⟩
    · simp only [Prod.mk.injEq, reduceCtorEq, false_and] at h

end SegValidator

/-! ## The catalogue of index files -/

/-- `struct bit_catalogue`, without the table of file descriptions: nothing reads that one
between loading and unloading the device. -/
structure Catalogue where
  /-- `bit_validity_table` -/
  bitValidityTable : SegValidator
  /-- `max_version` -/
  maxVersion : ℕ

namespace Catalogue

/-- `bitc_alloc_file`: next and take. When it fails the callers go on with a descriptor that
was never assigned. -/
def allocFile (c : Catalogue) : Option (ℕ × Catalogue) :=
  match c.bitValidityTable.next with
  | (none, _) => none
  | (some fd, t) => (t.take fd).map fun t' => (fd, { c with bitValidityTable := t' })

/-- `bitc_release_file` -/
def releaseFile (c : Catalogue) (fd : ℕ) : Catalogue :=
  { c with bitValidityTable := c.bitValidityTable.testAndReturn fd }

/-- `bitc_get_next_version`: the version and the catalogue afterwards. -/
def getNextVersion (c : Catalogue) : ℕ × Catalogue :=
  (c.maxVersion, { c with maxVersion := c.maxVersion + 1 })

/-- Descriptor `fd` is in use. -/
def InUse (c : Catalogue) (fd : ℕ) : Prop := c.bitValidityTable.valid fd = true

/-- The number of descriptors. -/
def maxFd (c : Catalogue) : ℕ := c.bitValidityTable.nrSegment

/-- An allocated descriptor was not in use and now is; no other one changes. -/
theorem allocFile_some {c c' : Catalogue} {fd : ℕ} (h : c.allocFile = some (fd, c')) :
    ¬c.InUse fd ∧ (∀ i, c'.InUse i ↔ i = fd ∨ c.InUse i) ∧ c'.maxVersion = c.maxVersion ∧
      fd < c.maxFd ∧ c'.maxFd = c.maxFd := by
  rw [allocFile] at h
  split at h
  · cases h
  · rename_i seg t hnext
    obtain ⟨hlt, hfree, hnr, hvalid⟩ := SegValidator.next_some hnext
    obtain ⟨t', ht', heq⟩ := Option.map_eq_some_iff.mp h
    simp only [Prod.mk.injEq] at heq
    obtain ⟨rfl, rfl⟩ := heq
    rw [SegValidator.take] at ht'
    split at ht'
    · obtain rfl := Option.some.inj ht'
      refine ⟨by simp [InUse, hfree], fun i => ?_, rfl, hlt, hnr⟩
      simp only [InUse, hvalid, Function.update_apply]
      split <;> simp_all
    · cases ht'

/-- Releasing descriptors takes at most these out of use. -/
theorem inUse_releaseFile {c : Catalogue} {fd i : ℕ} (hi : c.InUse i) (hne : i ≠ fd) :
    (c.releaseFile fd).InUse i := by
  rw [InUse, releaseFile, SegValidator.testAndReturn]
  split
  · simp only [Function.update_of_ne hne]
    exact hi
  · exact hi

/-- And it does take them out. -/
theorem not_inUse_releaseFile {c : Catalogue} {fd : ℕ} (hfd : fd < c.maxFd) :
    ¬(c.releaseFile fd).InUse fd := by
  rw [maxFd] at hfd
  simp [InUse, releaseFile, SegValidator.testAndReturn, hfd]

theorem inUse_of_releaseFile {c : Catalogue} {fd i : ℕ} (hi : (c.releaseFile fd).InUse i) :
    c.InUse i := by
  rw [InUse, releaseFile, SegValidator.testAndReturn] at hi
  split at hi
  · simp only [Function.update_apply] at hi
    split at hi
    · cases hi
    · exact hi
  · exact hi

theorem maxFd_releaseFile (c : Catalogue) (fd : ℕ) : (c.releaseFile fd).maxFd = c.maxFd := by
  rw [maxFd, releaseFile, SegValidator.testAndReturn]
  split <;> rfl

end Catalogue

end JinDisk
