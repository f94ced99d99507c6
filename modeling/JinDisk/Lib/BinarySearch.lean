import Mathlib.Data.Nat.Basic

/-!
# Binary search over indices

Three loops that all halve an interval of indices, with what each of them finds. The thing
searched is only seen through a predicate or a three-way comparison of the index, so that
arrays, lists and tables can all be searched with them.

`Descending cmp n` is the order the three-way searches rely on: going up through the
indices below `n`, the wanted key lies first after (`gt`), then in (`eq`), then before (`lt`)
what is compared.
-/

namespace BinarySearch

/-- The comparison goes from `gt` over `eq` to `lt`. -/
structure Descending (cmp : ℕ → Ordering) (n : ℕ) : Prop where
  /-- below an index that lies before the key everything does -/
  gt_of_le : ∀ i j, i ≤ j → j < n → cmp j = .gt → cmp i = .gt
  /-- above an index that lies after the key everything does -/
  lt_of_le : ∀ i j, i ≤ j → j < n → cmp i = .lt → cmp j = .lt

/-! ## The partition point of a predicate -/

/-- `while (low < high) { mid; if (below mid) low = mid + 1; else high = mid; } return low;` -/
def partitionPoint (below : ℕ → Bool) (low high : ℕ) : ℕ :=
  if low < high then
    if below (low + (high - low) / 2) then partitionPoint below (low + (high - low) / 2 + 1) high
    else partitionPoint below low (low + (high - low) / 2)
  else low
termination_by high - low

theorem partitionPoint_le {below : ℕ → Bool} {low high : ℕ} (hle : low ≤ high) :
    partitionPoint below low high ≤ high := by
  fun_induction partitionPoint below low high with
  | case1 low high hlt hmid ih => exact ih (by omega)
  | case2 low high hlt hmid ih => exact Nat.le_trans (ih (by omega)) (by omega)
  | case3 low high hlt => exact hle

/-- The predicate holds of everything in front of the partition point and of nothing from
there on. -/
theorem partitionPoint_spec {below : ℕ → Bool} {n : ℕ}
    (hmono : ∀ i j, i ≤ j → j < n → below j = true → below i = true) {low high : ℕ}
    (hle : low ≤ high) (hn : high ≤ n) :
    low ≤ partitionPoint below low high ∧ partitionPoint below low high ≤ high ∧
      (∀ i, low ≤ i → i < partitionPoint below low high → below i = true) ∧
      ∀ i, partitionPoint below low high ≤ i → i < high → below i = false := by
  fun_induction partitionPoint below low high with
  | case1 low high hlt hmid ih =>
    obtain ⟨h₁, h₂, hbefore, hafter⟩ := ih (by omega) hn
    refine ⟨by omega, h₂, fun i hi hlt' => ?_, hafter⟩
    rcases Nat.lt_or_ge (low + (high - low) / 2) i with h | h
    · exact hbefore i h hlt'
    · exact hmono i _ h (by omega) hmid
  | case2 low high hlt hmid ih =>
    obtain ⟨h₁, h₂, hbefore, hafter⟩ := ih (by omega) (by omega)
    refine ⟨h₁, by omega, hbefore, fun i hi hlt' => ?_⟩
    rcases Nat.lt_or_ge i (low + (high - low) / 2) with h | h
    · exact hafter i hi h
    · -- a hit above the middle would be a hit in the middle
      rw [← Bool.not_eq_true]
      exact fun hb => hmid (hmono _ i h (by omega) hb)
  | case3 low high hlt =>
    exact ⟨le_rfl, hle, fun i h₁ h₂ => absurd h₁ (by omega), fun i h₁ h₂ => absurd h₁ (by omega)⟩

/-! ## Finding an index -/

/-- The C library's `bsearch` over `num` indices from `base`. -/
def bsearch (cmp : ℕ → Ordering) (base num : ℕ) : Option ℕ :=
  if num = 0 then none
  else
    match cmp (base + num / 2) with
    | .eq => some (base + num / 2)
    | .gt => bsearch cmp (base + num / 2 + 1) ((num - 1) / 2)
    | .lt => bsearch cmp base (num / 2)
termination_by num

theorem bsearch_eq_some {cmp : ℕ → Ordering} {base num i : ℕ}
    (h : bsearch cmp base num = some i) : base ≤ i ∧ i < base + num ∧ cmp i = .eq := by
  fun_induction bsearch cmp base num with
  | case1 => cases h
  | case2 base num hnum heq =>
    obtain rfl := Option.some.inj h
    exact ⟨by omega, by omega, heq⟩
  | case3 base num hnum hgt ih =>
    obtain ⟨h₁, h₂, heq⟩ := ih h
    exact ⟨by omega, by omega, heq⟩
  | case4 base num hnum hlt ih =>
    obtain ⟨h₁, h₂, heq⟩ := ih h
    exact ⟨by omega, by omega, heq⟩

theorem bsearch_eq_none {cmp : ℕ → Ordering} {n : ℕ} (hcmp : Descending cmp n) {base num : ℕ}
    (hn : base + num ≤ n) (h : bsearch cmp base num = none) {i : ℕ} (h₁ : base ≤ i)
    (h₂ : i < base + num) : cmp i ≠ .eq := by
  intro heq
  fun_induction bsearch cmp base num with
  | case1 => omega
  | case2 => cases h
  | case3 base num hnum hgt ih =>
    rcases Nat.lt_or_ge (base + num / 2) i with hi | hi
    · exact ih (by omega) h hi (by omega)
    · have := hcmp.gt_of_le i _ hi (by omega) hgt
      rw [heq] at this
      cases this
  | case4 base num hnum hlt ih =>
    rcases Nat.lt_or_ge i (base + num / 2) with hi | hi
    · exact ih (by omega) h h₁ hi
    · have := hcmp.lt_of_le _ i hi (by omega) hlt
      rw [heq] at this
      cases this

/-! ## A lower bound that may stop early -/

/-- `while (low < high)` with an inclusive upper end, returning an index that compares equal
as soon as it meets one. `stop` is `high + 1`, which keeps the `high = mid - 1` of the loop
within the natural numbers. -/
def lowerBound (cmp : ℕ → Ordering) (low stop : ℕ) : ℕ :=
  if low + 1 < stop then
    match cmp (low + (stop - 1 - low) / 2) with
    | .eq => low + (stop - 1 - low) / 2
    | .lt => lowerBound cmp low (low + (stop - 1 - low) / 2)
    | .gt => lowerBound cmp (low + (stop - 1 - low) / 2 + 1) stop
  else low
termination_by stop - low

/-- Either the loop met an equal index, or the key lies after everything in front of the
result. The result may still be one too small. -/
theorem lowerBound_spec {cmp : ℕ → Ordering} {n : ℕ} (hcmp : Descending cmp n) {low stop : ℕ}
    (hle : low ≤ stop) (hn : stop ≤ n) :
    low ≤ lowerBound cmp low stop ∧ lowerBound cmp low stop ≤ stop ∧
      ((lowerBound cmp low stop < n ∧ cmp (lowerBound cmp low stop) = .eq) ∨
        ∀ i, low ≤ i → i < lowerBound cmp low stop → cmp i = .gt) := by
  fun_induction lowerBound cmp low stop with
  | case1 low stop hlt heq => exact ⟨by omega, by omega, Or.inl ⟨by omega, heq⟩⟩
  | case2 low stop hlt hmid ih =>
    obtain ⟨h₁, h₂, h₃⟩ := ih (by omega) (by omega)
    exact ⟨h₁, by omega, h₃⟩
  | case3 low stop hlt hmid ih =>
    obtain ⟨h₁, h₂, h₃⟩ := ih (by omega) hn
    refine ⟨by omega, h₂, h₃.imp_right fun hbefore i hi hlt' => ?_⟩
    rcases Nat.lt_or_ge (low + (stop - 1 - low) / 2) i with h | h
    · exact hbefore i h hlt'
    · exact hcmp.gt_of_le i _ h (by omega) hmid
  | case4 low stop hlt =>
    exact ⟨le_rfl, hle, Or.inr fun i h₁ h₂ => absurd h₁ (by omega)⟩

end BinarySearch
