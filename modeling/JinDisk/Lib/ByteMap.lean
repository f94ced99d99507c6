import Mathlib.Data.List.Basic

/-!
# Maps of bytes

The contents of a file or of a buffer, as a map from positions. Writing replaces a piece of it
and reading takes a piece out. The last part is about a file with a write buffer behind its end:
the two are looked at as one file, and flushing the buffer does not change what one sees.
-/

namespace ByteMap

variable {α : Type}

/-- The list `l` is written at `pos`. -/
def copyIn (f : ℕ → α) (pos : ℕ) (l : List α) : ℕ → α := fun p =>
  if pos ≤ p then l[p - pos]?.getD (f p) else f p

/-- `len` bytes are read at `pos`. -/
def readOut (f : ℕ → α) (pos len : ℕ) : List α := (List.range len).map fun i => f (pos + i)

variable {f g : ℕ → α} {pos p : ℕ} {l : List α}

@[simp] theorem length_readOut (f : ℕ → α) (pos len : ℕ) : (readOut f pos len).length = len := by
  rw [readOut, List.length_map, List.length_range]

@[simp] theorem getElem_readOut (f : ℕ → α) (pos len : ℕ) {i : ℕ} (h : i < (readOut f pos len).length) :
    (readOut f pos len)[i] = f (pos + i) := by
  simp only [readOut, List.getElem_map, List.getElem_range]

theorem copyIn_of_lt (h : p < pos) : copyIn f pos l p = f p := if_neg (by omega)

theorem copyIn_of_le (h : pos + l.length ≤ p) : copyIn f pos l p = f p := by
  rw [copyIn, if_pos (by omega), List.getElem?_eq_none (by omega), Option.getD_none]

/-- Writing nothing. -/
theorem copyIn_nil (f : ℕ → α) (pos : ℕ) : copyIn f pos [] = f := by
  funext p
  rcases Nat.lt_or_ge p pos with hlt | hge
  · exact copyIn_of_lt hlt
  · exact copyIn_of_le hge

/-- Between its ends the list is there. -/
theorem copyIn_add {i : ℕ} (h : i < l.length) : copyIn f pos l (pos + i) = l[i] := by
  rw [copyIn, if_pos (Nat.le_add_right pos i), Nat.add_sub_cancel_left, List.getElem?_eq_getElem h,
    Option.getD_some]

theorem readOut_congr {len : ℕ} (h : ∀ p, pos ≤ p → p < pos + len → f p = g p) :
    readOut f pos len = readOut g pos len := by
  refine List.map_congr_left fun i hi => h (pos + i) (Nat.le_add_right pos i) ?_
  exact Nat.add_lt_add_left (List.mem_range.mp hi) pos

/-- What was written is read back. -/
theorem readOut_copyIn (f : ℕ → α) (pos : ℕ) (l : List α) :
    readOut (copyIn f pos l) pos l.length = l := by
  refine List.ext_getElem (length_readOut _ _ _) fun i hi hl => ?_
  rw [getElem_readOut, copyIn_add hl]

/-- Several lists are written, one after the other. -/
def copyAll (f : ℕ → α) (pieces : List (ℕ × List α)) : ℕ → α :=
  pieces.foldl (fun f x => copyIn f x.1 x.2) f

/-- Two pieces do not overlap. -/
def Apart (x y : ℕ × List α) : Prop := x.1 + x.2.length ≤ y.1 ∨ y.1 + y.2.length ≤ x.1

/-- Outside of the pieces nothing changes. -/
theorem copyAll_of_outside {pieces : List (ℕ × List α)}
    (h : ∀ x ∈ pieces, p < x.1 ∨ x.1 + x.2.length ≤ p) : copyAll f pieces p = f p := by
  induction pieces generalizing f with
  | nil => rfl
  | cons x pieces ih =>
    rw [copyAll, List.foldl_cons, ← copyAll, ih fun y hy => h y (List.mem_cons_of_mem x hy)]
    rcases h x List.mem_cons_self with hlt | hle
    · exact copyIn_of_lt hlt
    · exact copyIn_of_le hle

/-- **Pieces that do not overlap** are all read back. -/
theorem readOut_copyAll {pieces : List (ℕ × List α)} (h : pieces.Pairwise Apart)
    {x : ℕ × List α} (hx : x ∈ pieces) : readOut (copyAll f pieces) x.1 x.2.length = x.2 := by
  induction pieces generalizing f with
  | nil => cases hx
  | cons y pieces ih =>
    obtain ⟨hy, hrest⟩ := List.pairwise_cons.mp h
    rcases List.mem_cons.mp hx with rfl | hx
    · -- the later ones do not touch it
      have hkept : ∀ p, x.1 ≤ p → p < x.1 + x.2.length →
          copyAll (copyIn f x.1 x.2) pieces p = copyIn f x.1 x.2 p := by
        intro p hle hlt
        refine copyAll_of_outside fun z hz => ?_
        rcases hy z hz with hz | hz
        · exact Or.inl (by omega)
        · exact Or.inr (by omega)
      rw [copyAll, List.foldl_cons, ← copyAll, readOut_congr hkept, readOut_copyIn]
    · exact ih hrest hx

/-! ## A file with a write buffer -/

/-- The file up to `begin` and the buffer from there on. -/
def view (file buffer : ℕ → α) (begin : ℕ) : ℕ → α := fun p =>
  if p < begin then file p else buffer (p - begin)

variable {file buffer : ℕ → α} {begin cur off : ℕ}

/-- **Flushing** the buffer. -/
theorem view_flush (file buffer : ℕ → UInt8) (h : p < begin + cur) :
    view (copyIn file begin (readOut buffer 0 cur)) buffer (begin + cur) p =
      view file buffer begin p := by
  rw [view, if_pos h, view]
  split
  · rename_i hlt
    rw [copyIn_of_lt hlt]
  · rename_i hge
    obtain ⟨i, rfl⟩ := Nat.exists_eq_add_of_le (Nat.le_of_not_lt hge)
    have hi : i < (readOut buffer 0 cur).length := by
      rw [length_readOut]
      omega
    rw [copyIn_add hi, Nat.add_sub_cancel_left, getElem_readOut, Nat.zero_add]

/-- From `begin` on it is the buffer. -/
theorem readOut_view (file buffer : ℕ → α) (begin off len : ℕ) :
    readOut (view file buffer begin) (begin + off) len = readOut buffer off len := by
  refine List.ext_getElem (by simp only [length_readOut]) fun i hi hl => ?_
  have hsub : begin + off + i - begin = off + i := by omega
  rw [getElem_readOut, getElem_readOut, view, if_neg (by omega), hsub]

end ByteMap
