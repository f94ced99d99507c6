import Mathlib.Data.List.Basic

/-!
# Arrays with a filled front

An array of slots of which the first ones hold a list, and the rest holds anything. The list grows
and shrinks in the middle by moving what lies behind to make room, or to close the gap. `memmove` moves
slots, also when the ranges overlap.
-/

namespace FilledArray

variable {α : Type}

/-- `memmove(slots + dst, slots + src, n)`; `none` if it goes beyond the end. -/
def memmove (slots : List α) (dst src n : ℕ) : Option (List α) :=
  if dst + n ≤ slots.length ∧ src + n ≤ slots.length then
    some (slots.take dst ++ (slots.drop src).take n ++ slots.drop (dst + n))
  else none

theorem getElem?_memmove {slots slots' : List α} {dst src n : ℕ}
    (h : memmove slots dst src n = some slots') (i : ℕ) :
    slots'[i]? = if dst ≤ i ∧ i < dst + n then slots[src + (i - dst)]? else slots[i]? := by
  rw [memmove] at h
  split at h
  · rename_i hroom
    obtain rfl := Option.some.inj h
    have htake : (slots.take dst).length = dst := by rw [List.length_take]; omega
    have hmoved : ((slots.drop src).take n).length = n := by
      rw [List.length_take, List.length_drop]
      omega
    rw [List.append_assoc]
    by_cases hfront : i < dst
    · rw [if_neg (by omega), List.getElem?_append_left (by omega), List.getElem?_take_of_lt hfront]
    · rw [List.getElem?_append_right (by omega), htake]
      by_cases hin : i < dst + n
      · rw [if_pos (by omega), List.getElem?_append_left (by omega),
          List.getElem?_take_of_lt (by omega), List.getElem?_drop]
      · rw [if_neg (by omega), List.getElem?_append_right (by omega), hmoved, List.getElem?_drop]
        congr 1
        omega
  · cases h

theorem length_memmove {slots slots' : List α} {dst src n : ℕ}
    (h : memmove slots dst src n = some slots') : slots'.length = slots.length := by
  rw [memmove] at h
  split at h
  · obtain rfl := Option.some.inj h
    simp only [List.length_append, List.length_take, List.length_drop]
    omega
  · cases h

/-- The first slots hold the list. -/
def Filled (slots : List (Option α)) (xs : List α) : Prop :=
  ∀ i, i < xs.length → slots[i]? = some xs[i]?

variable {slots slots' : List (Option α)} {xs : List α} {pos : ℕ}

theorem Filled.length_le (h : Filled slots xs) : xs.length ≤ slots.length := by
  by_contra hlt
  have hend := h slots.length (by omega)
  rw [List.getElem?_eq_none (Nat.le_refl _)] at hend
  cases hend

/-- **Room is made** at a position, and filled. -/
theorem Filled.insert (h : Filled slots xs) (hpos : pos ≤ xs.length) (hroom : xs.length < slots.length)
    (hmove : memmove slots (pos + 1) pos (xs.length - pos) = some slots') (x : α) :
    Filled (slots'.set pos (some x)) (xs.take pos ++ x :: xs.drop pos) := by
  intro i hi
  have htake : (xs.take pos).length = pos := by rw [List.length_take]; omega
  rw [List.length_append, htake, List.length_cons, List.length_drop] at hi
  have hlen := length_memmove hmove
  rw [List.getElem?_set]
  by_cases heq : pos = i
  · subst heq
    rw [if_pos rfl, if_pos (by omega), List.getElem?_append_right (by omega), htake, Nat.sub_self]
    rfl
  · rw [if_neg heq, getElem?_memmove hmove]
    by_cases hfront : i < pos
    · rw [if_neg (by omega), h i (by omega), List.getElem?_append_left (by omega),
        List.getElem?_take_of_lt hfront]
    · -- what lies behind has moved up by one
      obtain ⟨j, rfl⟩ : ∃ j, i = pos + j + 1 := ⟨i - pos - 1, by omega⟩
      rw [if_pos (by omega), List.getElem?_append_right (by omega), htake,
        show pos + (pos + j + 1 - (pos + 1)) = pos + j by omega, h _ (by omega),
        show pos + j + 1 - pos = j + 1 by omega, List.getElem?_cons_succ, List.getElem?_drop]

/-- At the end of the list nothing has to be moved. -/
theorem Filled.append (h : Filled slots xs) (hroom : xs.length < slots.length) (x : α) :
    Filled (slots.set xs.length (some x)) (xs ++ [x]) := by
  have hmove : memmove slots (xs.length + 1) xs.length (xs.length - xs.length) = some slots := by
    rw [memmove, if_pos (by omega), Nat.sub_self, List.take_zero, Nat.add_zero, List.append_nil,
      List.take_append_drop]
  have hinsert := h.insert (Nat.le_refl _) hroom hmove x
  rwa [List.take_length, List.drop_length] at hinsert

/-- **The gap is closed.** -/
theorem Filled.erase (h : Filled slots xs) (hpos : pos < xs.length)
    (hmove : memmove slots pos (pos + 1) (xs.length - pos - 1) = some slots') :
    Filled slots' (xs.eraseIdx pos) := by
  intro i hi
  rw [List.length_eraseIdx_of_lt hpos] at hi
  rw [getElem?_memmove hmove, List.getElem?_eraseIdx]
  by_cases hfront : i < pos
  · rw [if_neg (by omega), if_pos hfront, h i (by omega)]
  · rw [if_pos (by omega), if_neg hfront, show pos + 1 + (i - pos) = i + 1 by omega, h _ (by omega)]

end FilledArray
