import Mathlib.Algebra.Order.Ring.Nat
import Mathlib.Data.List.Basic

/-!
# Packed structures

A packed C structure is a fixed number of bytes, field behind field without gaps. Reading never
fails, for all bytes mean something; what was written is read back as long as it fits its field.
-/

/-- A packed representation of `α`. -/
structure Packed (α : Type) where
  /-- `sizeof` -/
  size : ℕ
  /-- the values that can be stored -/
  Fits : α → Prop
  /-- the bytes of a value -/
  write : α → List UInt8
  /-- the value at the start of the bytes -/
  read : List UInt8 → α
  length_write : ∀ a, Fits a → (write a).length = size
  read_write : ∀ a, Fits a → ∀ rest, read (write a ++ rest) = a

namespace Packed

variable {α β : Type}

/-! ## Unsigned integers -/

/-- The `w` low bytes of a number, the least significant one first. -/
def leBytes : ℕ → ℕ → List UInt8
  | 0, _ => []
  | w + 1, n => UInt8.ofNat n :: leBytes w (n / 256)

/-- The number that little-endian bytes stand for. -/
def leNat : List UInt8 → ℕ
  | [] => 0
  | b :: bs => b.toNat + 256 * leNat bs

theorem length_leBytes (w n : ℕ) : (leBytes w n).length = w := by
  induction w generalizing n with
  | zero => rfl
  | succ w ih => rw [leBytes, List.length_cons, ih]

theorem leNat_leBytes {w n : ℕ} (h : n < 256 ^ w) : leNat (leBytes w n) = n := by
  induction w generalizing n with
  | zero =>
    rw [Nat.pow_zero] at h
    exact (Nat.lt_one_iff.mp h).symm
  | succ w ih =>
    have hdiv : n / 256 < 256 ^ w := by
      rw [Nat.pow_succ] at h
      exact Nat.div_lt_of_lt_mul (by rwa [Nat.mul_comm] at h)
    rw [leBytes, leNat, ih hdiv, UInt8.toNat_ofNat']
    exact Nat.mod_add_div n 256

/-- An unsigned integer of `w` bytes. -/
def uint (w : ℕ) : Packed ℕ where
  size := w
  Fits n := n < 256 ^ w
  write := leBytes w
  read bs := leNat (bs.take w)
  length_write n _ := length_leBytes w n
  read_write n hn rest := by
    rw [List.take_left' (length_leBytes w n), leNat_leBytes hn]

theorem uint_fits {w n : ℕ} : (uint w).Fits n ↔ n < 256 ^ w := Iff.rfl

/-- `n` bytes as they are. -/
def raw (n : ℕ) : Packed (List UInt8) where
  size := n
  Fits bs := bs.length = n
  write := id
  read bs := bs.take n
  length_write _ h := h
  read_write _ h _ := List.take_left' h

/-! ## Structures and arrays -/

/-- One field behind the other. -/
def pair (p : Packed α) (q : Packed β) : Packed (α × β) where
  size := p.size + q.size
  Fits x := p.Fits x.1 ∧ q.Fits x.2
  write x := p.write x.1 ++ q.write x.2
  read bs := (p.read bs, q.read (bs.drop p.size))
  length_write x h := by
    rw [List.length_append, p.length_write _ h.1, q.length_write _ h.2]
  read_write x h rest := by
    rw [List.append_assoc, p.read_write _ h.1, List.drop_left' (p.length_write _ h.1),
      q.read_write _ h.2]

/-- The elements of an array at the start of the bytes. -/
def readArray (p : Packed α) : ℕ → List UInt8 → List α
  | 0, _ => []
  | n + 1, bs => p.read bs :: readArray p n (bs.drop p.size)

theorem length_flatMap_write (p : Packed α) {l : List α} (h : ∀ a ∈ l, p.Fits a) :
    (l.flatMap p.write).length = l.length * p.size := by
  rw [List.length_flatMap, List.map_congr_left fun a ha => p.length_write a (h a ha),
    List.map_const', List.sum_replicate_nat]

theorem readArray_write (p : Packed α) {l : List α} (h : ∀ a ∈ l, p.Fits a) (rest : List UInt8) :
    p.readArray l.length (l.flatMap p.write ++ rest) = l := by
  induction l with
  | nil => rfl
  | cons a l ih =>
    have ha := h a List.mem_cons_self
    rw [List.length_cons, readArray, List.flatMap_cons, List.append_assoc, p.read_write a ha,
      List.drop_left' (p.length_write a ha), ih fun b hb => h b (List.mem_cons_of_mem a hb)]

/-- An array of `n` elements. -/
def array (n : ℕ) (p : Packed α) : Packed (List α) where
  size := n * p.size
  Fits l := l.length = n ∧ ∀ a ∈ l, p.Fits a
  write l := l.flatMap p.write
  read := p.readArray n
  length_write l h := by rw [p.length_flatMap_write h.2, h.1]
  read_write l h rest := by rw [← h.1, p.readArray_write h.2]

/-- A type that is represented by another one. -/
def via (p : Packed β) (f : α → β) (g : β → α) (hg : ∀ a, g (f a) = a) : Packed α where
  size := p.size
  Fits a := p.Fits (f a)
  write a := p.write (f a)
  read bs := g (p.read bs)
  length_write a h := p.length_write (f a) h
  read_write a h rest := by rw [p.read_write _ h, hg]

end Packed
