import JinDisk.Layout
import JinDisk.Lib.Probing

/-!
# The largest target

`calc_avail_sectors` looks for the largest target that fits on a device, by probing: a step of
segments is added as often as the metadata of the sum leaves room for it, and halved otherwise.
`real_sectors - probe_sectors` would wrap around for a probe beyond the device. The metadata of a
probe can be larger than a word can say, since the index is first counted in bytes.

The definitions have two readings (`Arith`). That the arithmetic is exact in an iteration means that
all the values that are computed in it are the same in both readings (`AvailExact`).
-/

namespace JinDisk

open Arith (const Denotes denotes_const)

/-! ## The loop -/

section Loop

variable {α : Type} [Arith α]

/-- `meta_sectors` for a probe -/
def metaSectors (probe : α) : α := calcMetadataBlocks (targetSegments probe) * const sectorsPerBlock

/-- The loop of `calc_avail_sectors`, with at most `fuel` iterations: `avail_sectors` and
`step_segments` at the start of each of them, and what is returned. -/
def availLoop (real : α) : ℕ → α → α → List (α × α) × Option α
  | 0, _, _ => ([], none)
  | fuel + 1, avail, step =>
    if Arith.toNat avail < Arith.toNat real ∧ Arith.toNat step ≠ 0 then
      let probe := avail + step * const sectorsPerSegment
      let rest := if Arith.toNat (metaSectors probe) ≤ Arith.toNat (real - probe)
        then availLoop real fuel probe step else availLoop real fuel avail (step / const 2)
      ((avail, step) :: rest.1, rest.2)
    else ([], some avail)

section

variable {real avail step : α}

theorem availLoop_accept (fuel : ℕ) (hgo : Arith.toNat avail < Arith.toNat real ∧ Arith.toNat step ≠ 0)
    (h : Arith.toNat (metaSectors (avail + step * const sectorsPerSegment)) ≤
      Arith.toNat (real - (avail + step * const sectorsPerSegment))) :
    availLoop real (fuel + 1) avail step = ((avail, step) ::
        (availLoop real fuel (avail + step * const sectorsPerSegment) step).1,
      (availLoop real fuel (avail + step * const sectorsPerSegment) step).2) := by
  rw [availLoop, if_pos hgo]
  dsimp only
  rw [if_pos h]

theorem availLoop_reject (fuel : ℕ) (hgo : Arith.toNat avail < Arith.toNat real ∧ Arith.toNat step ≠ 0)
    (h : ¬Arith.toNat (metaSectors (avail + step * const sectorsPerSegment)) ≤
      Arith.toNat (real - (avail + step * const sectorsPerSegment))) :
    availLoop real (fuel + 1) avail step = ((avail, step) ::
      (availLoop real fuel avail (step / const 2)).1,
      (availLoop real fuel avail (step / const 2)).2) := by
  rw [availLoop, if_pos hgo]
  dsimp only
  rw [if_neg h]

theorem mem_availLoop (fuel : ℕ) (hgo : Arith.toNat avail < Arith.toNat real ∧ Arith.toNat step ≠ 0) :
    (avail, step) ∈ (availLoop real (fuel + 1) avail step).1 := by
  by_cases h : Arith.toNat (metaSectors (avail + step * const sectorsPerSegment)) ≤
    Arith.toNat (real - (avail + step * const sectorsPerSegment))
  · rw [availLoop_accept fuel hgo h]
    exact List.mem_cons_self
  · rw [availLoop_reject fuel hgo h]
    exact List.mem_cons_self

theorem availLoop_end (fuel : ℕ) (hstop : ¬(Arith.toNat avail < Arith.toNat real ∧ Arith.toNat step ≠ 0)) :
    availLoop real (fuel + 1) avail step = ([], some avail) := by
  rw [availLoop, if_neg hstop]

end

/-- The sectors that are kept for garbage collection. -/
def reservedSectors : ℕ := nrGcPreserved * sectorsPerSegment

/-- `calc_avail_sectors` -/
def calcAvailSectors (fuel : ℕ) (real : α) : List (α × α) × Option α :=
  if Arith.toNat real < reservedSectors then ([], some (const 0))
  else
    let real := real - const reservedSectors
    availLoop real fuel (const 0) (real / const 2 / const sectorsPerSegment)

/-- The values that are computed in an iteration, in `calc_avail_sectors`, `calc_metadata_blocks` and
the functions it calls. The terms and the parts of a sum are not larger than the sum: they are words
when it is. -/
def availValues (real avail step : α) : List α :=
  let probe := avail + step * const sectorsPerSegment
  let segments := targetSegments probe
  [step * const sectorsPerSegment, probe, segments, segments * const blocksPerSegment,
    nrBits segments,
    nrBits segments * const (calculateBitSize defaultLsmFileCapacity defaultBitDegree),
    indexBlocks segments, segValidityTableBlocks segments, dataSegTableBlocks segments,
    reverseIndexTableBlocks (segments * const blocksPerSegment),
    segValidityTableBlocks (nrBits segments), bitCatalogueBlocks (nrBits segments),
    calcMetadataBlocks segments, metaSectors probe, real - probe]

end Loop

/-- The words of an iteration are the numbers. -/
def AvailExact (real avail step : UInt64) : Prop :=
  (availValues real avail step).map UInt64.toNat =
    availValues real.toNat avail.toNat step.toNat

/-- All arithmetic of `calc_avail_sectors` is exact. -/
def AllExact (real : UInt64) : Prop :=
  reservedSectors ≤ real.toNat →
    (real - const reservedSectors).toNat = real.toNat - reservedSectors ∧
    ∀ fuel, ∀ st ∈ (calcAvailSectors fuel real).1,
      AvailExact (real - const reservedSectors) st.1 st.2

/-- A target of `len` sectors, the reserve and the metadata are on the device. -/
def AvailFits (real len : ℕ) : Prop :=
  len + reservedSectors + sectorsPerBlock * calcMetadataBlocks (len / sectorsPerSegment + nrGcPreserved)
    ≤ real

instance (real len : ℕ) : Decidable (AvailFits real len) := inferInstanceAs (Decidable (_ ≤ real))

/-- The lengths of the targets that fit on the device. -/
def usableSectors (real : ℕ) : Set ℕ :=
  {len | sectorsPerSegment ∣ len ∧ sectorsPerSegment ≤ len ∧ AvailFits real len}

/-! ## The size of the metadata -/

theorem reservedSectors_eq : reservedSectors = 2621440 := rfl

theorem sectorsPerSegment_eq : sectorsPerSegment = 8192 := rfl

theorem indexBlocks_nat (n : ℕ) : indexBlocks n =
    if nrBits n * 5815513 = 0 then 0 else (nrBits n * 5815513 - 1) / 4096 + 1 := by
  rw [indexBlocks_eq, calculateBitSize_default]
  rfl

theorem calcMetadataBlocks_nat (n : ℕ) : calcMetadataBlocks n = 1 + indexBlocks n + 16384 +
    segValidityTableBlocks n * 2 + (n / 30 + 1) * 2 + (n * 1024 / 512 + 1) * 2 +
    segValidityTableBlocks (nrBits n) * 2 + (nrBits n / 46 + 1) * 2 := rfl

theorem nrBits_mono {n m : ℕ} (h : n ≤ m) : nrBits n ≤ nrBits m := by
  rw [nrBits_nat, nrBits_nat, defaultLsmFileCapacity]
  split <;> split <;> omega

theorem segValidityTableBlocks_mono {n m : ℕ} (h : n ≤ m) :
    segValidityTableBlocks n ≤ segValidityTableBlocks m := by
  rw [segValidityTableBlocks_nat, segValidityTableBlocks_nat]
  split <;> split <;> omega

theorem indexBlocks_mono {n m : ℕ} (h : n ≤ m) : indexBlocks n ≤ indexBlocks m := by
  have hbits := nrBits_mono h
  rw [indexBlocks_nat, indexBlocks_nat]
  split <;> split <;> omega

theorem calcMetadataBlocks_mono {n m : ℕ} (h : n ≤ m) :
    calcMetadataBlocks n ≤ calcMetadataBlocks m := by
  have hbits := nrBits_mono h
  have hindex := indexBlocks_mono h
  have hsvt := segValidityTableBlocks_mono h
  have hindexSvt := segValidityTableBlocks_mono hbits
  rw [calcMetadataBlocks_nat, calcMetadataBlocks_nat]
  omega

/-- The journal, and two reverse index tables with two blocks for each segment. -/
theorem le_calcMetadataBlocks (n : ℕ) : 16384 + 4 * n ≤ calcMetadataBlocks n := by
  rw [calcMetadataBlocks_nat]
  omega

theorem nrBits_le (n : ℕ) : nrBits n ≤ n / 64 + 6 := by
  rw [nrBits_nat, defaultLsmFileCapacity]
  split <;> omega

theorem segValidityTableBlocks_le (n : ℕ) : segValidityTableBlocks n ≤ n / 4096 + 1 := by
  rw [segValidityTableBlocks_nat]
  split <;> omega

theorem indexBlocks_le (n : ℕ) : indexBlocks n ≤ 23 * n + 8521 := by
  have hbits := nrBits_le n
  rw [indexBlocks_nat]
  split <;> omega

theorem calcMetadataBlocks_le (n : ℕ) : calcMetadataBlocks n ≤ 28 * n + 24940 := by
  have hbits := nrBits_le n
  have hindex := indexBlocks_le n
  have hsvt := segValidityTableBlocks_le n
  have hindexSvt := segValidityTableBlocks_le (nrBits n)
  rw [calcMetadataBlocks_nat]
  omega

/-! ## In words -/

section Words

variable {x : UInt64} {n : ℕ}

theorem IndexFits.mono {m : ℕ} (h : IndexFits m) (hle : n ≤ m) : IndexFits n :=
  Nat.lt_of_le_of_lt (Nat.mul_le_mul_right _ (nrBits_mono hle)) h

/-- The largest number of segments for which the size of the index is a word. -/
theorem indexFits_iff : IndexFits n ↔ n ≤ 203007304895744 := by
  rw [IndexFits, nrBits_nat, defaultLsmFileCapacity]
  split <;> omega

theorem denotes_calcMetadataBlocks (hx : Denotes x n) (hfits : IndexFits n) :
    Denotes (calcMetadataBlocks x) (calcMetadataBlocks n) := by
  have hn := indexFits_iff.mp hfits
  have hsmall : n < 2 ^ 50 := by omega
  have hle := calcMetadataBlocks_le n
  have hblk := denotes_blkCount hx hsmall
  have htwo : Denotes (const nrCheckpointPacks) 2 := denotes_const (by decide)
  have hnat : (const nrCheckpointPacks : ℕ) = 2 := rfl
  have heq := calcMetadataBlocks_eq n
  rw [hnat] at heq
  -- two packs of a table behind what was added up so far
  have hstep : ∀ {y : UInt64} {a : ℕ} (t : MetaTable), Denotes y a →
      a + t.blkCount n * 2 ≤ calcMetadataBlocks n →
      Denotes (y + t.blkCount x * const nrCheckpointPacks) (a + t.blkCount n * 2) := by
    intro y a t hy ha
    exact hy.add ((hblk t).mul htwo (by omega)) (by omega)
  have hindex : Denotes (const superblockBlocks + indexBlocks x) (const superblockBlocks + indexBlocks n) :=
    (denotes_const (by decide)).add (denotes_indexBlocks hx hsmall hfits) (by
      have hbound := indexBlocks_le n
      show 1 + indexBlocks n < 2 ^ 64
      omega)
  have hjournal := hindex.add (denotes_const (by decide : nrJournalSegment * blocksPerSegment < 2 ^ 64))
    (by
      have hbound := indexBlocks_le n
      show 1 + indexBlocks n + 16384 < 2 ^ 64
      omega)
  rw [calcMetadataBlocks_eq, heq]
  refine hstep .bitc (hstep .indexSvt (hstep .rit (hstep .dst (hstep .svt hjournal ?_) ?_) ?_) ?_) ?_
  all_goals rw [heq]
  all_goals omega

end Words

/-! ## The probes -/

/-- So many segments and their metadata fit into what is left next to the reserve. -/
def SegmentsFit (real segments : ℕ) : Prop :=
  segments * 8192 + calcMetadataBlocks (segments + 320) * 8 ≤ real

section Probes

variable {R : ℕ}

theorem SegmentsFit.of_le (a b : ℕ) (hle : a ≤ b) (h : SegmentsFit R b) : SegmentsFit R a := by
  have hmono := calcMetadataBlocks_mono (Nat.add_le_add_right hle 320)
  exact (Nat.add_le_add (Nat.mul_le_mul_right _ hle) (Nat.mul_le_mul_right _ hmono)).trans h

theorem SegmentsFit.le_two_mul (a : ℕ) (h : SegmentsFit R a) : a ≤ 2 * (R / 2 / 8192) := by
  have hmeta := le_calcMetadataBlocks (a + 320)
  rw [SegmentsFit] at h
  omega

theorem two_mul_start_le (R : ℕ) : 2 * (R / 2 / 8192) * 8192 ≤ R := by
  omega

theorem halvings_le (k : ℕ) : 8224 * k ≤ 64 * 2 ^ k + 124928 := by
  rcases Nat.lt_or_ge k 15 with hlt | hge
  · omega
  · induction k, hge using Nat.le_induction with
    | base => decide
    | succ k hge ih =>
      have hpow : 2 ^ 15 ≤ 2 ^ k := Nat.pow_le_pow_right (by decide) hge
      rw [Nat.pow_succ]
      omega

/-- The metadata is larger than what the halvings lose. -/
theorem not_segmentsFit (k lost : ℕ) (hk : 2 ^ k ≤ R / 2 / 8192) (hlost : lost ≤ k) :
    ¬SegmentsFit R (2 * (R / 2 / 8192) - lost) := by
  intro h
  have hmeta := le_calcMetadataBlocks (2 * (R / 2 / 8192) - lost + 320)
  have hhalvings := halvings_le k
  rw [SegmentsFit] at h
  omega

end Probes

/-! ## An iteration -/

section Iteration

variable {real avail step : UInt64} {R A s : ℕ}

theorem denotes_probe (havail : Denotes avail (A * 8192)) (hstep : Denotes step s)
    (hlt : (A + s) * 8192 < 2 ^ 64) :
    Denotes (avail + step * const sectorsPerSegment) ((A + s) * 8192) := by
  have hsize : Denotes (const sectorsPerSegment) 8192 := denotes_const (by decide)
  have hmul : s * 8192 ≤ (A + s) * 8192 := Nat.mul_le_mul_right _ (Nat.le_add_left ..)
  rw [Nat.add_mul] at *
  exact havail.add (hstep.mul hsize (hmul.trans_lt hlt)) hlt

theorem targetSegments_nat (P : ℕ) : targetSegments (P * 8192) = P + 320 := by
  show P * 8192 / 8192 + 320 = P + 320
  rw [Nat.mul_div_cancel _ (by decide)]

theorem denotes_targetSegments {probe : UInt64} {P : ℕ} (hprobe : Denotes probe (P * 8192))
    (hlt : P + 320 < 2 ^ 64) : Denotes (targetSegments probe) (P + 320) := by
  have hdiv := hprobe.div (denotes_const (by decide : sectorsPerSegment < 2 ^ 64))
  rw [sectorsPerSegment_eq, Nat.mul_div_cancel _ (by decide)] at hdiv
  exact hdiv.add (denotes_const (by decide)) hlt

theorem denotes_metaSectors {probe : UInt64} {P : ℕ} (hprobe : Denotes probe (P * 8192))
    (hfits : IndexFits (P + 320)) :
    Denotes (metaSectors probe) (calcMetadataBlocks (P + 320) * 8) := by
  have hle := calcMetadataBlocks_le (P + 320)
  have hn := indexFits_iff.mp hfits
  have hsegments := denotes_targetSegments hprobe (by omega)
  exact (denotes_calcMetadataBlocks hsegments hfits).mul (denotes_const (by decide))
    (show calcMetadataBlocks (P + 320) * 8 < 2 ^ 64 by omega)

/-- An iteration is exact if its probe is on the device and the size of the index is a word. -/
theorem availExact_of_indexFits (hreal : Denotes real R) (havail : Denotes avail (A * 8192))
    (hstep : Denotes step s) (hle : (A + s) * 8192 ≤ R) (hfits : IndexFits (A + s + 320)) :
    AvailExact real avail step := by
  have hR : R < 2 ^ 64 := hreal ▸ real.toNat_lt
  have hn := indexFits_iff.mp hfits
  have hsmall : A + s + 320 < 2 ^ 50 := by omega
  have hprobe := denotes_probe havail hstep (hle.trans_lt hR)
  have hsegments := denotes_targetSegments hprobe (by omega)
  have hsteps : s * 8192 ≤ (A + s) * 8192 := Nat.mul_le_mul_right _ (Nat.le_add_left ..)
  have hmul : Denotes (step * const sectorsPerSegment) (s * const sectorsPerSegment) :=
    hstep.mul (denotes_const (by decide)) ((hsteps.trans hle).trans_lt hR)
  have hblocks := denotes_blocks hsegments hsmall
  have hbits := denotes_nrBits hsegments hsmall
  have hsize : calculateBitSize defaultLsmFileCapacity defaultBitDegree < 2 ^ 64 := by
    rw [calculateBitSize_default]
    decide
  have hindex : nrBits (A + s + 320) * calculateBitSize defaultLsmFileCapacity defaultBitDegree <
      2 ^ 64 := by
    rw [calculateBitSize_default]
    exact hfits
  have hsum : A * 8192 + s * const sectorsPerSegment = (A + s) * 8192 := (Nat.add_mul ..).symm
  rw [AvailExact, hreal, havail, hstep]
  simp only [availValues, hsum, targetSegments_nat, List.map_cons, List.map_nil]
  rw [hmul, hprobe, hsegments, hblocks, hbits, hbits.mul (denotes_const hsize) hindex,
    denotes_indexBlocks hsegments hsmall hfits, denotes_segValidityTableBlocks hsegments,
    denotes_dataSegTableBlocks hsegments, denotes_reverseIndexTableBlocks hblocks,
    denotes_segValidityTableBlocks hbits, denotes_bitCatalogueBlocks hbits,
    denotes_calcMetadataBlocks hsegments hfits, denotes_metaSectors hprobe hfits,
    hreal.sub hprobe hle, metaSectors, targetSegments_nat]
  rfl

/-- Where it is exact, the size of the index is a word. -/
theorem AvailExact.indexFits (h : AvailExact real avail step) (havail : Denotes avail (A * 8192))
    (hstep : Denotes step s) : IndexFits (A + s + 320) := by
  have hsum : A * 8192 + s * const sectorsPerSegment = (A + s) * 8192 := (Nat.add_mul ..).symm
  have hindex := congrArg (·[5]?) h
  rw [havail, hstep] at hindex
  simp only [availValues, hsum, targetSegments_nat, List.map_cons, List.getElem?_cons_succ,
    List.getElem?_cons_zero, Option.some.injEq] at hindex
  rw [Arith.const_nat, calculateBitSize_default] at hindex
  exact hindex.symm.trans_lt (UInt64.toNat_lt _)

/-- What an iteration decides. -/
theorem probe_fits_iff (hreal : Denotes real R) (havail : Denotes avail (A * 8192))
    (hstep : Denotes step s) (hle : (A + s) * 8192 ≤ R) (hfits : IndexFits (A + s + 320)) :
    Arith.toNat (metaSectors (avail + step * const sectorsPerSegment)) ≤
        Arith.toNat (real - (avail + step * const sectorsPerSegment)) ↔ SegmentsFit R (A + s) := by
  have hR : R < 2 ^ 64 := hreal ▸ real.toNat_lt
  have hprobe := denotes_probe havail hstep (hle.trans_lt hR)
  rw [Arith.toNat_word, Arith.toNat_word, denotes_metaSectors hprobe hfits, hreal.sub hprobe hle,
    SegmentsFit]
  omega

end Iteration

/-! ## The search -/

section Search

open Probing

variable {real : UInt64} {R : ℕ}

/-- The search from a state that the loop can be in: its iterations are exact, and it ends with the
largest number of segments that fit. -/
theorem availLoop_spec (hreal : Denotes real R) (hindex : IndexFits (2 * (R / 2 / 8192) + 320))
    (fuel : ℕ) : ∀ {avail step : UInt64} {A s : ℕ}, Denotes avail (A * 8192) → Denotes step s →
      Probed (SegmentsFit R) (R / 2 / 8192) A s →
      (∀ st ∈ (availLoop real fuel avail step).1, AvailExact real st.1 st.2) ∧
      (remaining (R / 2 / 8192) A s < fuel → ∃ result A',
        (availLoop real fuel avail step).2 = some result ∧ Denotes result (A' * 8192) ∧
        (A' = 0 ∨ SegmentsFit R A') ∧ ∀ a, SegmentsFit R a → a ≤ A') := by
  induction fuel with
  | zero =>
    intro avail step A s _ _ _
    exact ⟨List.forall_mem_nil _, fun hlt => absurd hlt (Nat.not_lt_zero _)⟩
  | succ fuel ih =>
    intro avail step A s havail hstep h
    by_cases hgo : Arith.toNat avail < Arith.toNat real ∧ Arith.toNat step ≠ 0
    · have hne : s ≠ 0 := fun hzero => hgo.2 (hstep.trans hzero)
      have hprobe := h.probe_le SegmentsFit.of_le
      have hle : (A + s) * 8192 ≤ R := (Nat.mul_le_mul_right _ hprobe).trans (two_mul_start_le R)
      have hfits : IndexFits (A + s + 320) := hindex.mono (Nat.add_le_add_right hprobe 320)
      have hexact := availExact_of_indexFits hreal havail hstep hle hfits
      have hdecision := probe_fits_iff hreal havail hstep hle hfits
      by_cases haccept : SegmentsFit R (A + s)
      · have hlt : (A + s) * 8192 < 2 ^ 64 := hle.trans_lt (hreal ▸ real.toNat_lt)
        obtain ⟨htrace, hresult⟩ := ih (denotes_probe havail hstep hlt) hstep
          (h.accept SegmentsFit.of_le not_segmentsFit hne haccept)
        have hless := h.remaining_accept SegmentsFit.of_le hne
        rw [availLoop_accept fuel hgo (hdecision.mpr haccept)]
        exact ⟨List.forall_mem_cons.mpr ⟨hexact, htrace⟩,
          fun hfuel => hresult (Nat.lt_of_lt_of_le hless (Nat.le_of_lt_succ hfuel))⟩
      · obtain ⟨htrace, hresult⟩ := ih havail (hstep.div (denotes_const (by decide)))
          (h.reject SegmentsFit.of_le hne haccept)
        rw [availLoop_reject fuel hgo (mt hdecision.mp haccept)]
        exact ⟨List.forall_mem_cons.mpr ⟨hexact, htrace⟩, fun hfuel =>
          hresult (Nat.lt_of_lt_of_le (remaining_reject hne) (Nat.le_of_lt_succ hfuel))⟩
    · rw [availLoop_end fuel hgo]
      refine ⟨List.forall_mem_nil _, fun _ => ⟨avail, A, rfl, havail, h.fitting, fun a ha => ?_⟩⟩
      rw [Arith.toNat_word, Arith.toNat_word, Arith.toNat_word, havail, hreal, hstep] at hgo
      -- the device is used up, or the step is
      rcases Nat.lt_or_ge (A * 8192) R with hlt | hge
      · have hzero : s = 0 := not_not.mp fun hne => hgo ⟨hlt, hne⟩
        rw [hzero] at h
        exact h.within a ha
      · have hroom : a * 8192 ≤ R := (Nat.le_add_right ..).trans ha
        exact Nat.le_of_mul_le_mul_right (hroom.trans hge) (by decide)

end Search

/-! ## The whole function -/

section Whole

open Probing

variable {real : UInt64}

theorem calcAvailSectors_small (fuel : ℕ) (h : real.toNat < reservedSectors) :
    calcAvailSectors fuel real = ([], some (const 0)) := if_pos h

theorem calcAvailSectors_large (fuel : ℕ) (h : reservedSectors ≤ real.toNat) :
    calcAvailSectors fuel real = availLoop (real - const reservedSectors) fuel (const 0)
      ((real - const reservedSectors) / const 2 / const sectorsPerSegment) :=
  if_neg (Nat.not_lt.mpr h)

/-- The first step, in segments. -/
def startSegments (real : ℕ) : ℕ := (real - 2621440) / 2 / 8192

theorem denotes_rest (h : reservedSectors ≤ real.toNat) :
    Denotes (real - const reservedSectors) (real.toNat - 2621440) :=
  Denotes.sub rfl (denotes_const (by decide)) h

theorem denotes_start (h : reservedSectors ≤ real.toNat) :
    Denotes ((real - const reservedSectors) / const 2 / const sectorsPerSegment)
      (startSegments real.toNat) :=
  ((denotes_rest h).div (denotes_const (by decide))).div (denotes_const (by decide))

theorem denotes_none : Denotes (const 0) (0 * 8192) := denotes_const (by decide)

/-- The size of the index is a word for all the probes. -/
theorem indexFits_start_iff (h : reservedSectors ≤ real.toNat) :
    IndexFits (2 * startSegments real.toNat + 320) ↔ real.toNat < 1663035841705951232 := by
  rw [indexFits_iff, startSegments]
  rw [reservedSectors_eq] at h
  omega

theorem availFits_mul (real P : ℕ) :
    AvailFits real (P * 8192) ↔ 2621440 ≤ real ∧ SegmentsFit (real - 2621440) P := by
  rw [AvailFits, SegmentsFit, reservedSectors_eq, sectorsPerSegment_eq,
    Nat.mul_div_cancel _ (by decide), sectorsPerBlock, nrGcPreserved]
  omega

/-- Below the bound the search is exact, and it ends with the largest number of segments. -/
theorem calcAvailSectors_spec (hlt : real.toNat < 1663035841705951232) :
    AllExact real ∧ ∃ fuel avail P, (calcAvailSectors fuel real).2 = some avail ∧
      Denotes avail (P * 8192) ∧ (P = 0 ∨ AvailFits real.toNat (P * 8192)) ∧
      ∀ a, AvailFits real.toNat (a * 8192) → a ≤ P := by
  rcases Nat.lt_or_ge real.toNat reservedSectors with hsmall | hlarge
  · refine ⟨fun hge => absurd hge (Nat.not_le.mpr hsmall), 0, const 0, 0, ?_, denotes_none,
      Or.inl rfl, fun a ha => ?_⟩
    · rw [calcAvailSectors_small 0 hsmall]
    · exact absurd ((availFits_mul _ _).mp ha).1 (Nat.not_le.mpr hsmall)
  · have hprobed := probed_start (@SegmentsFit.le_two_mul (real.toNat - 2621440))
    have hindex := (indexFits_start_iff hlarge).mpr hlt
    have hspec := fun fuel => availLoop_spec (denotes_rest hlarge) hindex fuel denotes_none
      (denotes_start hlarge) hprobed
    refine ⟨fun _ => ⟨denotes_rest hlarge, fun fuel => ?_⟩, ?_⟩
    · rw [calcAvailSectors_large fuel hlarge]
      exact (hspec fuel).1
    · obtain ⟨avail, P, hresult, havail, hfits, hgreatest⟩ := (hspec _).2 (Nat.lt_succ_self _)
      rw [← calcAvailSectors_large _ hlarge] at hresult
      refine ⟨_, avail, P, hresult, havail, hfits.imp_right fun h => ?_, fun a ha => ?_⟩
      · exact (availFits_mul _ _).mpr ⟨hlarge, h⟩
      · exact hgreatest a ((availFits_mul _ _).mp ha).2

/-- A target of this length passes the check of the constructor. -/
theorem totalSector_le {avail : UInt64} {P : ℕ} (havail : Denotes avail (P * 8192))
    (h : AvailFits real.toNat (P * 8192)) (hfits : IndexFits (P + 320)) :
    totalSector avail ≤ real := by
  have hreal := real.toNat_lt
  obtain ⟨hlarge, h⟩ := (availFits_mul _ _).mp h
  rw [SegmentsFit] at h
  have hmeta := denotes_metaSectors havail hfits
  have hsum := (hmeta.add havail (by omega)).add
    (denotes_const (by decide : nrGcPreserved * sectorsPerSegment < 2 ^ 64)) (by
      show calcMetadataBlocks (P + 320) * 8 + P * 8192 + 2621440 < 2 ^ 64
      omega)
  rw [UInt64.le_iff_toNat_le]
  refine hsum.trans_le ?_
  show calcMetadataBlocks (P + 320) * 8 + P * 8192 + 2621440 ≤ real.toNat
  omega

/-- **The largest target that fits.** -/
theorem calcAvailSectors_greatest (real : UInt64) (h : real.toNat < 2 ^ 55) :
    AllExact real ∧ ∃ fuel avail, (calcAvailSectors fuel real).2 = some avail ∧
      sectorsPerSegment ∣ avail.toNat ∧
      (avail = 0 ∧ usableSectors real.toNat = ∅ ∨
        IsGreatest (usableSectors real.toNat) avail.toNat ∧ totalSector avail ≤ real) := by
  obtain ⟨hexact, fuel, avail, P, hresult, havail, hfits, hgreatest⟩ :=
    calcAvailSectors_spec (h.trans (by decide))
  refine ⟨hexact, fuel, avail, hresult, ⟨P, havail.trans (Nat.mul_comm ..)⟩, ?_⟩
  have hle : ∀ len ∈ usableSectors real.toNat, len ≤ P * 8192 := by
    rintro len ⟨⟨a, rfl⟩, -, hlen⟩
    rw [sectorsPerSegment_eq, Nat.mul_comm] at hlen ⊢
    exact Nat.mul_le_mul_right _ (hgreatest a hlen)
  rcases Nat.eq_zero_or_pos P with rfl | hpos
  · refine Or.inl ⟨UInt64.toNat_inj.mp havail, Set.eq_empty_of_forall_notMem fun len hlen => ?_⟩
    exact absurd (hlen.2.1.trans (hle len hlen)) (by decide)
  · have hP := hfits.resolve_left hpos.ne'
    have hbound := SegmentsFit.le_two_mul P ((availFits_mul _ _).mp hP).2
    refine Or.inr ⟨?_, totalSector_le havail hP (indexFits_iff.mpr (by omega))⟩
    rw [havail]
    exact ⟨⟨Nat.dvd_mul_left .., Nat.le_mul_of_pos_left _ hpos, hP⟩, hle⟩

/-- A device of 4 GiB. -/
theorem calcAvailSectors_greatest_sample :
    (calcAvailSectors 100 (2 ^ 23 : UInt64)).2 = some 5398528 ∧ AllExact (2 ^ 23) := by
  have hlt : (2 ^ 23 : UInt64).toNat < 2 ^ 55 := by decide
  exact ⟨by decide +kernel, (calcAvailSectors_greatest (2 ^ 23) hlt).1⟩

/-- The first probe fits on a large device, if the arithmetic is exact. -/
theorem segmentsFit_start {R : ℕ} (h : 2 ^ 30 ≤ R) : SegmentsFit R (0 + R / 2 / 8192) := by
  have hmeta := calcMetadataBlocks_le (0 + R / 2 / 8192 + 320)
  rw [SegmentsFit]
  omega

/-- Beyond the bound the second probe is not exact, if the first one is. -/
theorem AllExact.lt_bound (h : AllExact real) : real.toNat < 1663035841705951232 := by
  by_contra hge
  have hlarge : reservedSectors ≤ real.toNat := by
    rw [reservedSectors_eq]
    omega
  have hR := denotes_rest hlarge
  have hs := denotes_start hlarge
  obtain ⟨-, hexact⟩ := h hlarge
  specialize hexact 2
  rw [calcAvailSectors_large 2 hlarge] at hexact
  have hpos : startSegments real.toNat ≠ 0 := by
    rw [startSegments]
    omega
  have hne : Arith.toNat ((real - const reservedSectors) / const 2 / const sectorsPerSegment) ≠ 0 :=
    fun hzero => hpos (hs.symm.trans hzero)
  have hgo : Arith.toNat (const 0 : UInt64) < Arith.toNat (real - const reservedSectors) := by
    rw [Arith.toNat_word, Arith.toNat_word, denotes_none, hR]
    omega
  have hfirst := (hexact _ (mem_availLoop 1 ⟨hgo, hne⟩)).indexFits denotes_none hs
  have hle : (0 + startSegments real.toNat) * 8192 ≤ real.toNat - 2621440 := by
    rw [startSegments]
    omega
  have haccept := (probe_fits_iff hR denotes_none hs hle hfirst).mpr
    (segmentsFit_start (by omega))
  have hprobe := denotes_probe denotes_none hs (hle.trans_lt (hR ▸ UInt64.toNat_lt _))
  rw [availLoop_accept 1 ⟨hgo, hne⟩ haccept] at hexact
  have hgo' : Arith.toNat (const 0 + (real - const reservedSectors) / const 2 / const sectorsPerSegment *
      const sectorsPerSegment) < Arith.toNat (real - const reservedSectors) := by
    rw [Arith.toNat_word, Arith.toNat_word, hprobe, hR, startSegments]
    omega
  have hsecond := (hexact _ (List.mem_cons_of_mem _ (mem_availLoop 0 ⟨hgo', hne⟩))).indexFits
    hprobe hs
  rw [Nat.zero_add, ← Nat.two_mul] at hsecond
  exact hge ((indexFits_start_iff hlarge).mp hsecond)

/-- There is room for the reserve and the metadata of it. -/
theorem availFits_zero_iff (real : ℕ) : AvailFits real 0 ↔ 2853872 ≤ real := by
  have hmeta : calcMetadataBlocks (0 / sectorsPerSegment + nrGcPreserved : ℕ) = 29054 := by
    decide +kernel
  rw [AvailFits, hmeta, reservedSectors_eq, sectorsPerBlock]

/-- **Where the arithmetic is exact**, and the size that is returned fits: the device has room for an
empty target, and the size of the index in bytes is a word for all the probes. -/
theorem capacity_exact_iff (real : UInt64) :
    (AllExact real ↔ real.toNat < 1663035841705951232) ∧
      ((AllExact real ∧ ∃ fuel avail, (calcAvailSectors fuel real).2 = some avail ∧
          AvailFits real.toNat avail.toNat) ↔
        2853872 ≤ real.toNat ∧ real.toNat < 1663035841705951232) := by
  refine ⟨⟨AllExact.lt_bound, fun h => (calcAvailSectors_spec h).1⟩, ?_, ?_⟩
  · rintro ⟨hexact, -, avail, -, hfits⟩
    refine ⟨(availFits_zero_iff _).mp ?_, hexact.lt_bound⟩
    have hmono := calcMetadataBlocks_mono (Nat.add_le_add_right
      (Nat.div_le_div_right (Nat.zero_le avail.toNat) : 0 / sectorsPerSegment ≤ _) nrGcPreserved)
    exact (Nat.add_le_add (Nat.add_le_add_right (Nat.zero_le _) _)
      (Nat.mul_le_mul_left _ hmono)).trans hfits
  · rintro ⟨hroom, hlt⟩
    obtain ⟨hexact, fuel, avail, P, hresult, havail, hfits, -⟩ := calcAvailSectors_spec hlt
    refine ⟨hexact, fuel, avail, hresult, ?_⟩
    rw [havail]
    rcases hfits with rfl | hfits
    · rw [Nat.zero_mul]
      exact (availFits_zero_iff _).mpr hroom
    · exact hfits

/-- The largest device of the unit tests: the arithmetic wraps around, and the size that is returned
is too large. -/
theorem largest_device_wraps : ¬AllExact 0xFFFFFFFFFFFFFFFF ∧
    (calcAvailSectors 100 (0xFFFFFFFFFFFFFFFF : UInt64)).2 = some 18372064450009194496 ∧
    ¬AvailFits 0xFFFFFFFFFFFFFFFF 18372064450009194496 := by
  refine ⟨fun h => absurd h.lt_bound (by decide), ?_, ?_⟩
  · decide +kernel
  · decide +kernel

end Whole

end JinDisk
