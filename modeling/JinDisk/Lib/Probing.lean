import Mathlib.Algebra.Order.Ring.Nat
import Mathlib.Data.Nat.Basic

/-!
# Probing for the largest number that fits

`while (step) { if (fits(found + step)) found += step; else step /= 2; }`. Other than in a bisection
the step stays as it is when a probe fits. `Probed start found step` is what holds at the head of the
loop when it was started from 0 with a step of `start`, for a predicate that everything below a
number that fits satisfies, too.

A probe is at most `2 * start`, provided that numbers close to this do not fit: up to the first probe
that does not fit in its turn (`Phase`) the loop comes closer to it by whole steps, and each halving
loses one at most; afterwards there is a number that did not fit and is a step away from it.
-/

namespace Probing

variable {fits : ℕ → Prop}

/-- Where the search stands below `2 * start`. -/
inductive Phase (fits : ℕ → Prop) (start found step : ℕ) : Prop
  /-- every other probe has fitted; there are two steps to go -/
  | fresh (k lost : ℕ) (hstep : step = start / 2 ^ k) (hlost : lost ≤ k)
      (heq : found + 2 * step + lost = 2 * start)
  /-- the last probe has fitted as well; there is one step to go -/
  | near (k lost : ℕ) (hstep : step = start / 2 ^ k) (hlost : lost ≤ k)
      (heq : found + step + lost = 2 * start)
  /-- some number did not fit -/
  | settled (rejected : ℕ) (hpos : 0 < rejected) (hnot : ¬fits rejected)
      (hle : rejected + step ≤ 2 * start)

/-- What holds at the head of the loop. -/
structure Probed (fits : ℕ → Prop) (start found step : ℕ) : Prop where
  /-- what was found fits -/
  fitting : found = 0 ∨ fits found
  /-- nothing that fits is two steps away -/
  within : ∀ a, fits a → a ≤ found + 2 * step
  /-- it is in range -/
  le : found ≤ 2 * start
  /-- where the search stands -/
  phase : Phase fits start found step

theorem probed_start {start : ℕ} (hbound : ∀ a, fits a → a ≤ 2 * start) :
    Probed fits start 0 start where
  fitting := Or.inl rfl
  within a ha := (hbound a ha).trans_eq (Nat.zero_add _).symm
  le := Nat.zero_le _
  phase := .fresh 0 0 (by rw [Nat.pow_zero, Nat.div_one]) le_rfl (by omega)

section Step

variable {start found step : ℕ}

/-- A power of two below the start bounds the halvings. -/
theorem pow_le_start {k : ℕ} (hstep : step = start / 2 ^ k) (hne : step ≠ 0) : 2 ^ k ≤ start := by
  by_contra hlt
  rw [Nat.div_eq_of_lt (Nat.lt_of_not_le hlt)] at hstep
  exact hne hstep

theorem half_step {k : ℕ} (hstep : step = start / 2 ^ k) : step / 2 = start / 2 ^ (k + 1) := by
  rw [hstep, Nat.div_div_eq_div_mul, Nat.pow_succ]

/-- **The next probe is in range.** -/
theorem Probed.probe_le (h : Probed fits start found step)
    (hdown : ∀ a b, a ≤ b → fits b → fits a) : found + step ≤ 2 * start := by
  cases h.phase with
  | fresh k lost hstep hlost heq => omega
  | near k lost hstep hlost heq => omega
  | settled rejected hpos hnot hle =>
    -- what was found is below the number that did not fit
    have hlt : found < rejected := by
      rcases h.fitting with rfl | hfits
      · exact hpos
      · by_contra hge
        exact hnot (hdown _ _ (Nat.le_of_not_lt hge) hfits)
    omega

/-- A bound for the iterations that are left. -/
def remaining (start found step : ℕ) : ℕ := 2 * start - found + step

theorem Probed.remaining_accept (h : Probed fits start found step)
    (hdown : ∀ a b, a ≤ b → fits b → fits a) (hne : step ≠ 0) :
    remaining start (found + step) step < remaining start found step := by
  have hle := h.probe_le hdown
  rw [remaining, remaining]
  omega

theorem remaining_reject (hne : step ≠ 0) :
    remaining start found (step / 2) < remaining start found step := by
  rw [remaining, remaining]
  omega

/-- The probe fits. -/
theorem Probed.accept (h : Probed fits start found step)
    (hdown : ∀ a b, a ≤ b → fits b → fits a)
    (hmargin : ∀ k lost, 2 ^ k ≤ start → lost ≤ k → ¬fits (2 * start - lost)) (hne : step ≠ 0)
    (hfits : fits (found + step)) : Probed fits start (found + step) step := by
  refine ⟨Or.inr hfits, fun a ha => (h.within a ha).trans (by omega), h.probe_le hdown, ?_⟩
  cases h.phase with
  | fresh k lost hstep hlost heq => exact .near k lost hstep hlost (by omega)
  | near k lost hstep hlost heq =>
    refine absurd hfits ?_
    rw [show found + step = 2 * start - lost by omega]
    exact hmargin k lost (pow_le_start hstep hne) hlost
  | settled rejected hpos hnot hle => exact .settled rejected hpos hnot hle

/-- The probe does not fit. -/
theorem Probed.reject (h : Probed fits start found step)
    (hdown : ∀ a b, a ≤ b → fits b → fits a) (hne : step ≠ 0) (hnot : ¬fits (found + step)) :
    Probed fits start found (step / 2) := by
  refine ⟨h.fitting, fun a ha => ?_, h.le, ?_⟩
  · have hlt : a < found + step := by
      by_contra hge
      exact hnot (hdown _ _ (Nat.le_of_not_lt hge) ha)
    omega
  · cases h.phase with
    | fresh k lost hstep hlost heq => exact .settled (found + step) (by omega) hnot (by omega)
    | near k lost hstep hlost heq =>
      exact .fresh (k + 1) (lost + step % 2) (half_step hstep) (by omega) (by omega)
    | settled rejected hpos hnot' hle => exact .settled rejected hpos hnot' (by omega)

end Step

end Probing
