import Mathlib.Data.List.Basic

/-!
# Chunks

A list cut into pieces of a fixed length, of which only the last may be shorter.
-/

namespace Chunks

variable {α : Type}

/-- Pieces of length `n`. -/
def chunks (n : ℕ) (l : List α) : List (List α) :=
  if 0 < n ∧ l ≠ [] then l.take n :: chunks n (l.drop n) else []
termination_by l.length
decreasing_by
  rename_i h
  rw [List.length_drop]
  have := List.length_pos_iff.mpr h.2
  omega

theorem chunks_nil (n : ℕ) : chunks n ([] : List α) = [] := by
  rw [chunks]
  simp

theorem chunks_of_ne_nil {n : ℕ} (hn : 0 < n) {l : List α} (h : l ≠ []) :
    chunks n l = l.take n :: chunks n (l.drop n) := by
  rw [chunks, if_pos ⟨hn, h⟩]

/-- Together they are the list. -/
theorem flatten_chunks {n : ℕ} (hn : 0 < n) (l : List α) : (chunks n l).flatten = l := by
  fun_induction chunks n l with
  | case1 l h ih => rw [List.flatten_cons, ih, List.take_append_drop]
  | case2 l h =>
    have hl : l = [] := by
      by_contra hne
      exact h ⟨hn, hne⟩
    rw [hl]
    rfl

theorem ne_nil_of_mem_chunks {n : ℕ} {l c : List α} (hc : c ∈ chunks n l) : c ≠ [] := by
  fun_induction chunks n l with
  | case1 l h ih =>
    rcases List.mem_cons.mp hc with rfl | hc
    · intro hnil
      rcases List.take_eq_nil_iff.mp hnil with hn | hl
      · omega
      · exact h.2 hl
    · exact ih hc
  | case2 l h => cases hc

/-- A piece of full length in front. -/
theorem chunks_append {n : ℕ} (hn : 0 < n) {c : List α} (hc : c.length = n) (l : List α) :
    chunks n (c ++ l) = c :: chunks n l := by
  have hne : c ++ l ≠ [] := by
    intro hnil
    rw [(List.append_eq_nil_iff.mp hnil).1] at hc
    exact absurd hn (hc ▸ Nat.lt_irrefl 0)
  rw [chunks_of_ne_nil hn hne, List.take_left' hc, List.drop_left' hc]

theorem chunks_flatten_append {n : ℕ} (hn : 0 < n) (cs : List (List α))
    (hcs : ∀ c ∈ cs, c.length = n) (l : List α) : chunks n (cs.flatten ++ l) = cs ++ chunks n l := by
  induction cs with
  | nil => rfl
  | cons c cs ih =>
    rw [List.flatten_cons, List.append_assoc, chunks_append hn (hcs c List.mem_cons_self),
      ih fun d hd => hcs d (List.mem_cons_of_mem c hd), List.cons_append]

/-- A list that is one piece. -/
theorem chunks_of_length_le {n : ℕ} {l : List α} (hne : l ≠ []) (hl : l.length ≤ n) :
    chunks n l = [l] := by
  have hn : 0 < n := Nat.lt_of_lt_of_le (List.length_pos_iff.mpr hne) hl
  rw [chunks_of_ne_nil hn hne, List.take_of_length_le hl, List.drop_of_length_le hl, chunks_nil]

end Chunks
