import JinDisk.Lib.WordLoop
import JinDisk.RangeSearch

/-!
# The loops of a range lookup

`lsm_tree_range_search`, `bit_level_range_search` and `bit_file_range_search` count through the
range with a `uint32_t` and compare it with `<=`. Each number of a bit in `found` is a difference of
two such words. Here the loops are those of the source, with the numbers of all bits that are
accessed; what happens in an iteration is taken from the range lookup over natural numbers.

In `found` the bit of a key has the number `key - start`. Since the words wrap around alike, the
bitmap can be the set of keys also in a loop that has passed the largest word.
-/

namespace JinDisk

open WordLoop (top)

variable {κ : Type}

/-- The variables of the search, and the numbers of the bits that were accessed. -/
structure RangeTrace (κ : Type) where
  /-- the variables -/
  st : RangeState κ
  /-- arguments of `test_bit` and `set_bit` -/
  bits : List UInt32

namespace RangeTrace

/-- `test_bit` -/
def testBit (s : RangeTrace κ) (bit : UInt32) : RangeTrace κ := { s with bits := s.bits ++ [bit] }

/-- All numbers are in the range of the bitmap. -/
def InRange (start stop : UInt32) (s : RangeTrace κ) : Prop := ∀ bit ∈ s.bits, bit ≤ stop - start

end RangeTrace

namespace Memtable

variable [Inhabited κ]

/-- The body of the loop over the memtable, which has no `test_bit`. -/
def rangeGet (m : Memtable κ) (start : UInt32) (s : RangeTrace κ) (key : UInt32) : RangeTrace κ :=
  match m.get key.toNat with
  | some r => ⟨s.st.put key.toNat r, s.bits ++ [key - start]⟩
  | none => s

/-- The body of the loop over the immutable memtable. -/
def rangeGetMissing (m : Memtable κ) (start : UInt32) (s : RangeTrace κ) (key : UInt32) :
    RangeTrace κ :=
  if key.toNat ∈ s.st.found then s.testBit (key - start)
  else m.rangeGet start (s.testBit (key - start)) key

end Memtable

namespace BitFile

/-- The body of the loop in `bit_file_range_search`. It jumps to the first key of the file; the
`set_bit` of an iteration has the number of its `test_bit`. -/
def rangeBody (f : BitFile κ) (start : UInt32) (s : RangeTrace κ) (key : UInt32) :
    Progress (RangeTrace κ) (RangeTrace κ × UInt32) :=
  let key := if key.toNat < f.firstKey then .ofNat f.firstKey else key
  match f.rangeStep s.st key.toNat with
  | none => .fault (s.testBit (key - start))
  | some st =>
    if st.found = s.st.found then .done (⟨st, s.bits ++ [key - start]⟩, key)
    else .done (⟨st, s.bits ++ [key - start, key - start]⟩, key)

/-- `bit_file_range_search` -/
def rangeLoop (f : BitFile κ) (fuel : ℕ) (start stop : UInt32) (s : RangeTrace κ) :
    Progress (RangeTrace κ) (RangeTrace κ) :=
  if f.lastKey < start.toNat ∨ stop.toNat < f.firstKey then .done s
  else
    WordLoop.run (f.rangeBody start) (if f.lastKey < stop.toNat then .ofNat f.lastKey else stop)
      fuel start s

end BitFile

namespace BitLevel

/-- The body of the loop in `bit_level_range_search`. -/
def rangeBody (l : BitLevel κ) (fuel : ℕ) (start stop : UInt32) (s : RangeTrace κ) (key : UInt32) :
    Progress (RangeTrace κ) (RangeTrace κ × UInt32) :=
  if key.toNat ∈ s.st.found then .done (s.testBit (key - start), key)
  else
    match l.locateFile key.toNat with
    | none => .done (s.testBit (key - start), key)
    | some f => (f.rangeLoop fuel start stop (s.testBit (key - start))).bind fun s => .done (s, key)

/-- `bit_level_range_search` -/
def rangeLoop (l : BitLevel κ) (fuel : ℕ) (start stop : UInt32) (s : RangeTrace κ) :
    Progress (RangeTrace κ) (RangeTrace κ) :=
  match l.level, l.files with
  | 0, f :: _ => f.rangeLoop fuel start stop s
  | _, _ => WordLoop.run (l.rangeBody fuel start stop) stop fuel start s

end BitLevel

namespace LsmTree

/-- The end of `lsm_tree_range_search` when all keys are found; `count` is a `uint32_t`. -/
def unlessAllFound (start stop : UInt32) (s : RangeTrace κ)
    (rest : RangeTrace κ → Progress (RangeTrace κ) (RangeTrace κ)) :
    Progress (RangeTrace κ) (RangeTrace κ) :=
  if s.st.results.size = (stop - start + 1).toNat then .done s else rest s

variable [Inhabited κ]

/-- `lsm_tree_range_search`, with at most `fuel` iterations of each loop. -/
def rangeLoop (t : LsmTree κ) (fuel : ℕ) (caches : ℕ → LruCache (Leaf κ)) (start stop : UInt32) :
    Progress (RangeTrace κ) (RangeTrace κ) :=
  if stop < start then .done ⟨⟨.create, ∅, caches⟩, []⟩
  else
    (WordLoop.run (fun s key => .done (t.memtable.rangeGet start s key, key)) stop fuel start
      ⟨⟨.create, ∅, caches⟩, []⟩).bind fun s =>
    unlessAllFound start stop s fun s =>
    (match t.immutable with
      | some m =>
        WordLoop.run (fun s key => .done (m.rangeGetMissing start s key, key)) stop fuel start s
      | none => .done s).bind fun s =>
    unlessAllFound start stop s fun s =>
    (t.levels.level0.rangeLoop fuel start stop s).bind fun s =>
    unlessAllFound start stop s fun s =>
    t.levels.level1.rangeLoop fuel start stop s

end LsmTree

/-! ## One iteration -/

section Bounds

variable {start stop key : UInt32} {s : RangeTrace κ}

/-- The number of a bit whose key is in the range. -/
theorem sub_start_le (hlo : start ≤ key) (hle : key ≤ stop) : key - start ≤ stop - start := by
  rw [UInt32.le_iff_toNat_le] at hlo hle ⊢
  rw [UInt32.toNat_sub_of_le _ _ (UInt32.le_iff_toNat_le.mpr hlo),
    UInt32.toNat_sub_of_le _ _ (UInt32.le_iff_toNat_le.mpr (hlo.trans hle))]
  exact Nat.sub_le_sub_right hle _

theorem lt_top_of_le (htop : stop ≠ top) (hle : key ≤ stop) : key < top := by
  have hne : stop.toNat ≠ top.toNat := fun h => htop (UInt32.toNat_inj.mp h)
  have hlt := stop.toNat_lt
  rw [UInt32.le_iff_toNat_le] at hle
  rw [UInt32.lt_iff_toNat_lt]
  have htopNat : top.toNat = 2 ^ 32 - 1 := rfl
  omega

/-- Bits in range are added. -/
theorem RangeTrace.InRange.append (h : s.InRange start stop) {st : RangeState κ} {bits : List UInt32}
    (hbits : ∀ bit ∈ bits, bit = key - start) (hlo : start ≤ key) (hle : key ≤ stop) :
    RangeTrace.InRange start stop ⟨st, s.bits ++ bits⟩ := by
  intro bit hbit
  rcases List.mem_append.mp hbit with hbit | hbit
  · exact h bit hbit
  · rw [hbits bit hbit]
    exact sub_start_le hlo hle

theorem RangeTrace.InRange.testBit (h : s.InRange start stop) (hlo : start ≤ key)
    (hle : key ≤ stop) : (s.testBit (key - start)).InRange start stop :=
  h.append (by simp) hlo hle

theorem Memtable.inRange_rangeGet [Inhabited κ] (m : Memtable κ) (h : s.InRange start stop)
    (hlo : start ≤ key) (hle : key ≤ stop) : (m.rangeGet start s key).InRange start stop := by
  rw [rangeGet]
  split
  · exact h.append (by simp) hlo hle
  · exact h

theorem Memtable.inRange_rangeGetMissing [Inhabited κ] (m : Memtable κ) (h : s.InRange start stop)
    (hlo : start ≤ key) (hle : key ≤ stop) : (m.rangeGetMissing start s key).InRange start stop := by
  rw [rangeGetMissing]
  split
  · exact h.testBit hlo hle
  · exact m.inRange_rangeGet (h.testBit hlo hle) hlo hle

/-- Only a file without entries has no root to search in. -/
theorem BitFile.entries_of_rangeStep {f : BitFile κ} {st : RangeState κ} {key : ℕ}
    (h : f.rangeStep st key = none) : f.entries = [] := by
  rw [rangeStep] at h
  split at h
  · cases h
  · split at h
    · rename_i hempty
      exact List.isEmpty_iff.mp hempty
    · split at h
      · cases h
      · split at h <;> cases h

end Bounds

/-! ## The loops end -/

section Ends

variable {start stop : UInt32} {s : RangeTrace κ} {F : RangeTrace κ → Prop} {fuel : ℕ}

/-- The jump to the first key stays in the range that was asked for, even if it leaves that of the
file. -/
theorem BitFile.rangeBody_ends {f : BitFile κ} (htop : stop ≠ top) (hfirst : f.firstKey ≤ stop.toNat)
    (hF : f.entries = [] → ∀ s, s.InRange start stop → F s) {key : UInt32}
    (hs : s.InRange start stop) (hlo : start ≤ key) (hle : key ≤ stop) :
    (f.rangeBody start s key).Ends
      (fun r => r.1.InRange start stop ∧ key ≤ r.2 ∧ r.2 < top) F := by
  obtain ⟨key', hkey', hmono, hle'⟩ : ∃ key', (if key.toNat < f.firstKey then .ofNat f.firstKey
      else key) = key' ∧ key ≤ key' ∧ key' ≤ stop := by
    refine ⟨_, rfl, ?_⟩
    split
    · rename_i hlt
      have hnat : (UInt32.ofNat f.firstKey).toNat = f.firstKey :=
        UInt32.toNat_ofNat_of_lt' (hfirst.trans_lt stop.toNat_lt)
      rw [UInt32.le_iff_toNat_le, UInt32.le_iff_toNat_le, hnat]
      exact ⟨hlt.le, hfirst⟩
    · exact ⟨UInt32.le_refl _, hle⟩
  have hlo' := UInt32.le_trans hlo hmono
  have hlt' := lt_top_of_le htop hle'
  rw [rangeBody]
  simp only [hkey']
  cases hstep : f.rangeStep s.st key'.toNat with
  | none => exact hF (entries_of_rangeStep hstep) _ (hs.testBit hlo' hle')
  | some st =>
    simp only
    split
    · exact ⟨hs.append (by simp) hlo' hle', hmono, hlt'⟩
    · exact ⟨hs.append (by simp) hlo' hle', hmono, hlt'⟩

theorem BitFile.rangeLoop_ends {f : BitFile κ} (htop : stop ≠ top) (hfuel : 2 ^ 32 < fuel)
    (hF : f.entries = [] → ∀ s, s.InRange start stop → F s) (hs : s.InRange start stop) :
    (f.rangeLoop fuel start stop s).Ends (·.InRange start stop) F := by
  rw [rangeLoop]
  split
  · exact hs
  · rename_i hin
    obtain ⟨-, hfirst⟩ := not_or.mp hin
    refine WordLoop.run_ends (fun s key hs hlo hle => ?_) hs (UInt32.le_refl start)
      (by omega)
    refine rangeBody_ends htop (Nat.le_of_not_lt hfirst) hF hs hlo (UInt32.le_trans hle ?_)
    -- the bound is only ever lowered
    split
    · rename_i hlast
      rw [UInt32.le_iff_toNat_le, UInt32.toNat_ofNat_of_lt' (hlast.trans stop.toNat_lt)]
      exact hlast.le
    · exact UInt32.le_refl _

theorem BitLevel.rangeLoop_ends {l : BitLevel κ} (htop : stop ≠ top) (hfuel : 2 ^ 32 < fuel)
    (hF : ∀ f ∈ l.files, f.entries = [] → ∀ s, s.InRange start stop → F s)
    (hs : s.InRange start stop) : (l.rangeLoop fuel start stop s).Ends (·.InRange start stop) F := by
  rw [rangeLoop]
  split
  · rename_i f fs _ hfiles
    refine BitFile.rangeLoop_ends htop hfuel (hF f ?_) hs
    rw [hfiles]
    exact List.mem_cons_self
  · refine WordLoop.run_ends (fun s key hs hlo hle => ?_) hs (UInt32.le_refl start)
      (by omega)
    have hbit := hs.testBit hlo hle
    have hlt := lt_top_of_le htop hle
    rw [rangeBody]
    split
    · exact ⟨hbit, UInt32.le_refl _, hlt⟩
    · split
      · exact ⟨hbit, UInt32.le_refl _, hlt⟩
      · rename_i f hf
        obtain ⟨⟨i, hi⟩, -⟩ := locateFile_eq_some hf
        refine (BitFile.rangeLoop_ends htop hfuel (hF f (List.mem_of_getElem? hi)) hbit).bind
          fun s hs => ?_
        exact ⟨hs, UInt32.le_refl _, hlt⟩

/-- A loop over a memtable. -/
theorem memtableLoop_ends {get : RangeTrace κ → UInt32 → RangeTrace κ} (htop : stop ≠ top)
    (hfuel : 2 ^ 32 < fuel) (hget : ∀ s key, s.InRange start stop → start ≤ key → key ≤ stop →
      (get s key).InRange start stop) (hs : s.InRange start stop) :
    (WordLoop.run (fun s key => .done (get s key, key)) stop fuel start s).Ends
      (·.InRange start stop) F := by
  refine WordLoop.run_ends (fun s key hs hlo hle => ?_) hs (UInt32.le_refl start) (by omega)
  exact ⟨hget s key hs hlo hle, UInt32.le_refl _, lt_top_of_le htop hle⟩

theorem LsmTree.unlessAllFound_ends
    {rest : RangeTrace κ → Progress (RangeTrace κ) (RangeTrace κ)} (hs : s.InRange start stop)
    (hrest : ∀ s, s.InRange start stop → (rest s).Ends (·.InRange start stop) F) :
    (unlessAllFound start stop s rest).Ends (·.InRange start stop) F := by
  rw [unlessAllFound]
  split
  · exact hs
  · exact hrest s hs

variable [Inhabited κ]

/-- **The search ends** below the largest word. -/
theorem LsmTree.rangeLoop_ends (t : LsmTree κ) (caches : ℕ → LruCache (Leaf κ)) (htop : stop ≠ top)
    (hfuel : 2 ^ 32 < fuel)
    (hF : ∀ f ∈ t.levels.files, f.entries = [] → ∀ s, s.InRange start stop → F s) :
    (t.rangeLoop fuel caches start stop).Ends (·.InRange start stop) F := by
  have hnil : RangeTrace.InRange start stop ⟨(⟨.create, ∅, caches⟩ : RangeState κ), []⟩ :=
    fun bit hbit => absurd hbit List.not_mem_nil
  rw [rangeLoop]
  split
  · exact hnil
  · refine (memtableLoop_ends htop hfuel (fun s key hs hlo hle =>
      t.memtable.inRange_rangeGet hs hlo hle) hnil).bind fun s hs => ?_
    refine unlessAllFound_ends hs fun s hs => ?_
    refine Progress.Ends.bind (P := (·.InRange start stop)) ?_ fun s hs => ?_
    · cases t.immutable with
      | none => exact hs
      | some m =>
        exact memtableLoop_ends htop hfuel (fun s key hs hlo hle =>
          m.inRange_rangeGetMissing hs hlo hle) hs
    · refine unlessAllFound_ends hs fun s hs => ?_
      refine (BitLevel.rangeLoop_ends htop hfuel (fun f hf => hF f ?_) hs).bind fun s hs => ?_
      · exact Levels.mem_files.mpr (Or.inl hf)
      · refine unlessAllFound_ends hs fun s hs => ?_
        refine BitLevel.rangeLoop_ends htop hfuel (fun f hf => hF f ?_) hs
        exact Levels.mem_files.mpr (Or.inr hf)

/-- Up to the largest word it does not: the loop over the memtable goes on and on. -/
theorem LsmTree.rangeLoop_more (t : LsmTree κ) (fuel : ℕ) (caches : ℕ → LruCache (Leaf κ))
    (start : UInt32) : t.rangeLoop fuel caches start top = .more := by
  have hle : ¬top < start := by
    rw [UInt32.lt_iff_toNat_lt]
    exact Nat.not_lt.mpr (Nat.le_of_lt_succ start.toNat_lt)
  rw [rangeLoop, if_neg hle, WordLoop.run_more fun s key => ⟨_, rfl⟩]
  rfl

/-- **A range lookup ends**, with all bits in the bitmap, if and only if the range does not reach up
to the largest word. Nothing else than a file without entries makes it fault. -/
theorem range_lookup_ends_iff (t : LsmTree κ) (caches : ℕ → LruCache (Leaf κ)) (start stop : UInt32) :
    (∃ fuel, (t.rangeLoop fuel caches start stop).Ends (·.InRange start stop)
      fun s => s.InRange start stop ∧ ∃ f ∈ t.levels.files, f.entries = []) ↔ stop ≠ 0xffffffff := by
  constructor
  · rintro ⟨fuel, hends⟩ rfl
    rw [show (0xffffffff : UInt32) = top from rfl, t.rangeLoop_more] at hends
    exact hends
  · intro hstop
    obtain ⟨fuel, hfuel⟩ : ∃ fuel : ℕ, 2 ^ 32 < fuel := ⟨_, Nat.lt_succ_self _⟩
    exact ⟨fuel, t.rangeLoop_ends caches hstop hfuel fun f hf hempty s hs => ⟨hs, f, hf, hempty⟩⟩

end Ends

/-- **A lookup of the last block** of a device with as many blocks as there are words never ends,
even if nothing was ever written. -/
theorem last_block_lookup_runs_on :
    ¬∃ fuel, ((LsmTree.init 1 1 : LsmTree Unit).rangeLoop fuel (fun _ => ⟨maxLeafNodeCached, []⟩)
      0xffffffff 0xffffffff).Ends (fun _ => True) fun _ => True := by
  rintro ⟨fuel, hends⟩
  have hmore := (LsmTree.init 1 1 : LsmTree Unit).rangeLoop_more fuel
    (fun _ => ⟨maxLeafNodeCached, []⟩) 0xffffffff
  rw [show (0xffffffff : UInt32) = WordLoop.top from rfl] at hends hmore
  rw [hmore] at hends
  exact hends

end JinDisk
