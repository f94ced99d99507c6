import Mathlib.Data.UInt

/-!
# Loops over a machine word

`for (key = start; key <= stop; ++key)` with a 32-bit `key`. Such a loop need not come to an end:
when `stop` is the largest word the condition always holds. `Progress` is what is known after some
number of iterations, `run_ends` the rule for a loop that ends and `run_more` the one for a loop
that does not. The body may move `key` forward.
-/

/-- What a computation has come to: a result, a fault in some state, or it is still going on. -/
inductive Progress (σ ρ : Type) where
  /-- it has ended -/
  | done (r : ρ)
  /-- it has faulted -/
  | fault (s : σ)
  /-- it goes on -/
  | more

namespace Progress

variable {σ ρ τ : Type}

/-- Go on with the result. -/
def bind (x : Progress σ ρ) (f : ρ → Progress σ τ) : Progress σ τ :=
  match x with
  | done r => f r
  | fault s => fault s
  | more => more

/-- It has ended with a `P`, or faulted with an `F`. -/
def Ends (P : ρ → Prop) (F : σ → Prop) : Progress σ ρ → Prop
  | done r => P r
  | fault s => F s
  | more => False

theorem Ends.bind {x : Progress σ ρ} {f : ρ → Progress σ τ} {P : ρ → Prop} {Q : τ → Prop}
    {F : σ → Prop} (h : x.Ends P F) (hf : ∀ r, P r → (f r).Ends Q F) : (x.bind f).Ends Q F := by
  cases x with
  | done r => exact hf r h
  | fault s => exact h
  | more => exact h

end Progress

namespace WordLoop

/-- The largest word. -/
def top : UInt32 := 0xffffffff

variable {σ : Type}

/-- At most `fuel` iterations of the loop. The body returns the state and the word that is
incremented. -/
def run (body : σ → UInt32 → Progress σ (σ × UInt32)) (stop : UInt32) :
    ℕ → UInt32 → σ → Progress σ σ
  | 0, _, _ => .more
  | fuel + 1, key, s =>
    if key ≤ stop then (body s key).bind fun r => run body stop fuel (r.2 + 1) r.1 else .done s

variable {body : σ → UInt32 → Progress σ (σ × UInt32)} {stop lo : UInt32} {P F : σ → Prop}

theorem toNat_add_one {key : UInt32} (h : key < top) : (key + 1).toNat = key.toNat + 1 := by
  have hlt : key.toNat < 2 ^ 32 - 1 := h
  rw [UInt32.toNat_add]
  exact Nat.mod_eq_of_lt (by show key.toNat + 1 < 2 ^ 32; omega)

/-- **A loop that ends.** The body never moves the word back, nor on to the largest one. -/
theorem run_ends
    (hbody : ∀ s key, P s → lo ≤ key → key ≤ stop →
      (body s key).Ends (fun r => P r.1 ∧ key ≤ r.2 ∧ r.2 < top) F)
    {fuel : ℕ} {key : UInt32} {s : σ} (hs : P s) (hlo : lo ≤ key)
    (hfuel : 2 ^ 32 < key.toNat + fuel) : (run body stop fuel key s).Ends P F := by
  induction fuel generalizing key s with
  | zero =>
    have hlt := key.toNat_lt
    omega
  | succ fuel ih =>
    rw [run]
    split
    · rename_i hle
      refine (hbody s key hs hlo hle).bind fun r hr => ?_
      obtain ⟨hr, hmono, hlt⟩ := hr
      have hnext := toNat_add_one hlt
      have hkey : key.toNat ≤ r.2.toNat := hmono
      refine ih hr ?_ (by omega)
      refine UInt32.le_trans hlo (UInt32.le_iff_toNat_le.mpr ?_)
      omega
    · exact hs

/-- **A loop that does not end.** -/
theorem run_more (hbody : ∀ s key, ∃ r, body s key = .done r) (fuel : ℕ) (key : UInt32) (s : σ) :
    run body top fuel key s = .more := by
  induction fuel generalizing key s with
  | zero => rfl
  | succ fuel ih =>
    have hle : key ≤ top := UInt32.le_iff_toNat_le.mpr (Nat.le_of_lt_succ key.toNat_lt)
    obtain ⟨r, hr⟩ := hbody s key
    rw [run, if_pos hle, hr]
    exact ih _ _

end WordLoop
