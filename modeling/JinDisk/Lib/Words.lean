import Mathlib.Data.UInt
import Mathlib.Algebra.Order.Ring.Nat
import Mathlib.Data.Nat.Basic

/-!
# Sizes in machine words

Sizes are computed from sizes with the four operations and constants. The same computation can be
read in two ways: in 64-bit words, where it wraps around, and in natural numbers, where it does
not. A definition over `Arith` has both readings; the rules below say that the words give the
numbers as long as these are small enough.
-/

/-- The operations that sizes are computed with. -/
class Arith (α : Type) extends Add α, Sub α, Mul α, Div α where
  /-- a constant -/
  const : ℕ → α
  /-- the number -/
  toNat : α → ℕ

namespace Arith

/-- Numbers without a bound. -/
instance : Arith ℕ where
  const := id
  toNat := id

/-- 64-bit words. -/
instance : Arith UInt64 where
  const := UInt64.ofNat
  toNat := UInt64.toNat

theorem const_nat (c : ℕ) : (const c : ℕ) = c := rfl

theorem toNat_nat (n : ℕ) : toNat n = n := rfl

theorem toNat_word (x : UInt64) : toNat x = x.toNat := rfl

variable {x y : UInt64} {a b : ℕ}

/-- The word has this value. -/
def Denotes (x : UInt64) (a : ℕ) : Prop := x.toNat = a

theorem denotes_const (h : a < 2 ^ 64) : Denotes (const a) a := UInt64.toNat_ofNat_of_lt' h

theorem Denotes.add (hx : Denotes x a) (hy : Denotes y b) (h : a + b < 2 ^ 64) : Denotes (x + y) (a + b) := by
  rw [Denotes, UInt64.toNat_add, hx, hy]
  exact Nat.mod_eq_of_lt h

theorem Denotes.mul (hx : Denotes x a) (hy : Denotes y b) (h : a * b < 2 ^ 64) : Denotes (x * y) (a * b) := by
  rw [Denotes, UInt64.toNat_mul, hx, hy]
  exact Nat.mod_eq_of_lt h

theorem Denotes.sub (hx : Denotes x a) (hy : Denotes y b) (h : b ≤ a) : Denotes (x - y) (a - b) := by
  have hle : y ≤ x := by
    rw [UInt64.le_iff_toNat_le, hx, hy]
    exact h
  rw [Denotes, UInt64.toNat_sub_of_le _ _ hle, hx, hy]

theorem Denotes.div (hx : Denotes x a) (hy : Denotes y b) : Denotes (x / y) (a / b) := by
  rw [Denotes, UInt64.toNat_div, hx, hy]

end Arith
