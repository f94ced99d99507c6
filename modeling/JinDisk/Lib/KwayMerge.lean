import Mathlib.Algebra.Order.Ring.Nat
import Mathlib.Data.List.Basic
import Mathlib.Data.List.Pairwise

/-!
# Merging sorted sources through a heap

A k-way merge keeps the head of every source in a min-heap. It takes the root, refills the
heap from the source the root came from and goes on until the heap is empty. Which of
several equal heads is at the root depends on the history of the heap, so a merge is
described by the sources it takes from, one index per pop (`pops`); a pop is possible when
no other head is smaller.

Two facts are all that the users of a merge need: the result is sorted when the sources are
(`pops_sorted`), and what lies in one source comes out in the order of that source
(`pops_filter`). Where two sources hold elements of interest, the result is one of their
interleavings (`Interleaved`).
-/

namespace KwayMerge

variable {α : Type}

/-- No head of a source is smaller than `x`. -/
def IsRoot (key : α → ℕ) (srcs : List (List α)) (x : α) : Prop :=
  ∀ s ∈ srcs, ∀ y ∈ s.head?, key x ≤ key y

instance (key : α → ℕ) (srcs : List (List α)) (x : α) : Decidable (IsRoot key srcs x) :=
  inferInstanceAs (Decidable (∀ s ∈ srcs, ∀ y ∈ s.head?, key x ≤ key y))

/-- The elements in the order of the pops, when the `n`-th pop takes the head of source
`order[n]`. -/
def pops (key : α → ℕ) : List (List α) → List ℕ → Option (List α)
  | srcs, [] => if srcs.all List.isEmpty then some [] else none
  | srcs, i :: order =>
    match srcs[i]? with
    | some (x :: rest) =>
      if IsRoot key srcs x then (pops key (srcs.set i rest) order).map (x :: ·) else none
    | _ => none

/-- Inversion: the first pop and the merge of what is left. -/
theorem pops_cons_eq_some {key : α → ℕ} {srcs : List (List α)} {i : ℕ} {order : List ℕ}
    {out : List α} (h : pops key srcs (i :: order) = some out) :
    ∃ x rest out', srcs[i]? = some (x :: rest) ∧ IsRoot key srcs x ∧
      pops key (srcs.set i rest) order = some out' ∧ out = x :: out' := by
  simp only [pops] at h
  split at h
  · rename_i x rest hsrc
    split at h
    · rename_i hroot
      obtain ⟨out', hout, rfl⟩ := Option.map_eq_some_iff.mp h
      exact ⟨x, rest, out', hsrc, hroot, hout, rfl⟩
    · cases h
  · cases h

theorem pops_nil_eq_some {key : α → ℕ} {srcs : List (List α)} {out : List α}
    (h : pops key srcs [] = some out) : out = [] ∧ ∀ s ∈ srcs, s = [] := by
  simp only [pops] at h
  split at h
  · rename_i hall
    refine ⟨(Option.some.inj h).symm, fun s hs => ?_⟩
    exact List.isEmpty_iff.mp (List.all_eq_true.mp hall s hs)
  · cases h

/-- What is in the result was in a source. -/
theorem mem_of_mem_pops {key : α → ℕ} {srcs : List (List α)} {order : List ℕ} {out : List α}
    (h : pops key srcs order = some out) {x : α} (hx : x ∈ out) : ∃ s ∈ srcs, x ∈ s := by
  induction order generalizing srcs out with
  | nil =>
    obtain ⟨rfl, -⟩ := pops_nil_eq_some h
    cases hx
  | cons i order ih =>
    obtain ⟨y, rest, out', hsrc, -, hout, rfl⟩ := pops_cons_eq_some h
    have hmem : y :: rest ∈ srcs := List.mem_of_getElem? hsrc
    rcases List.mem_cons.mp hx with rfl | hx'
    · exact ⟨_, hmem, List.mem_cons_self⟩
    · obtain ⟨s, hs, hxs⟩ := ih hout hx'
      rcases List.mem_or_eq_of_mem_set hs with hs' | rfl
      · exact ⟨s, hs', hxs⟩
      · exact ⟨_, hmem, List.mem_cons_of_mem _ hxs⟩

/-- And what is in a source gets into the result. -/
theorem mem_pops {key : α → ℕ} {srcs : List (List α)} {order : List ℕ} {out : List α}
    (h : pops key srcs order = some out) {j : ℕ} {s : List α} (hs : srcs[j]? = some s) {x : α}
    (hx : x ∈ s) : x ∈ out := by
  induction order generalizing srcs out s with
  | nil =>
    rw [(pops_nil_eq_some h).2 s (List.mem_of_getElem? hs)] at hx
    cases hx
  | cons i order ih =>
    obtain ⟨y, rest, out', hsrc, -, hout, rfl⟩ := pops_cons_eq_some h
    by_cases hij : i = j
    · subst hij
      obtain rfl := Option.some.inj (hs.symm.trans hsrc)
      rcases List.mem_cons.mp hx with rfl | hx
      · exact List.mem_cons_self
      · refine List.mem_cons_of_mem _ (ih hout ?_ hx)
        rw [List.getElem?_set_self (List.getElem?_eq_some_iff.mp hsrc).1]
    · refine List.mem_cons_of_mem _ (ih hout ?_ hx)
      rwa [List.getElem?_set_ne hij]

/-- Sorted sources merge to a sorted list. -/
theorem pops_sorted {key : α → ℕ} {srcs : List (List α)} {order : List ℕ} {out : List α}
    (h : pops key srcs order = some out)
    (hsorted : ∀ s ∈ srcs, s.Pairwise fun a b => key a ≤ key b) :
    out.Pairwise fun a b => key a ≤ key b := by
  induction order generalizing srcs out with
  | nil =>
    obtain ⟨rfl, -⟩ := pops_nil_eq_some h
    exact List.Pairwise.nil
  | cons i order ih =>
    obtain ⟨x, rest, out', hsrc, hroot, hout, rfl⟩ := pops_cons_eq_some h
    have hx : x :: rest ∈ srcs := List.mem_of_getElem? hsrc
    have hsorted' : ∀ s ∈ srcs.set i rest, s.Pairwise fun a b => key a ≤ key b := by
      intro s hs
      rcases List.mem_or_eq_of_mem_set hs with hs' | rfl
      · exact hsorted s hs'
      · exact (hsorted _ hx).of_cons
    refine List.pairwise_cons.mpr ⟨fun y hy => ?_, ih hout hsorted'⟩
    -- every source is sorted and the root is below each head
    obtain ⟨s, hs, hys⟩ := mem_of_mem_pops hout hy
    rcases List.mem_or_eq_of_mem_set hs with hs' | rfl
    · cases s with
      | nil => cases hys
      | cons z s =>
        have hxz : key x ≤ key z := hroot _ hs' z rfl
        rcases List.mem_cons.mp hys with rfl | hys'
        · exact hxz
        · exact Nat.le_trans hxz (List.rel_of_pairwise_cons (hsorted _ hs') hys')
    · exact List.rel_of_pairwise_cons (hsorted _ hx) hys

/-- A property that only elements of source `i` can have: those elements come out in the
order of the source. -/
theorem pops_filter {key : α → ℕ} {srcs : List (List α)} {order : List ℕ} {out : List α}
    (h : pops key srcs order = some out) (p : α → Bool) {i : ℕ} {src : List α}
    (hi : srcs[i]? = some src)
    (hothers : ∀ j s, srcs[j]? = some s → j ≠ i → ∀ x ∈ s, p x = false) :
    out.filter p = src.filter p := by
  induction order generalizing srcs out src with
  | nil =>
    obtain ⟨rfl, hempty⟩ := pops_nil_eq_some h
    rw [hempty src (List.mem_of_getElem? hi)]
  | cons j order ih =>
    obtain ⟨x, rest, out', hsrc, -, hout, rfl⟩ := pops_cons_eq_some h
    have hj : j < srcs.length := (List.getElem?_eq_some_iff.mp hsrc).1
    -- a source other than `i` is one of before, or what is left of one
    have hothers' : ∀ k s, (srcs.set j rest)[k]? = some s → k ≠ i → ∀ y ∈ s, p y = false := by
      intro k s hk hki y hy
      rw [List.getElem?_set] at hk
      split at hk
      · rename_i hjk
        subst hjk
        obtain rfl := Option.some.inj hk
        exact hothers j _ hsrc hki y (List.mem_cons_of_mem _ hy)
      · exact hothers k s hk hki y hy
    by_cases hji : j = i
    · subst hji
      obtain rfl := Option.some.inj (hi.symm.trans hsrc)
      have hrest : (srcs.set j rest)[j]? = some rest := List.getElem?_set_self hj
      rw [List.filter_cons, List.filter_cons, ih hout hrest hothers']
    · have hkeep : (srcs.set j rest)[i]? = some src := by
        rw [List.getElem?_set_ne hji]
        exact hi
      rw [List.filter_cons_of_neg (by simp [hothers j _ hsrc hji x List.mem_cons_self])]
      exact ih hout hkeep hothers'

/-- In a sorted list the elements of one key stand together. -/
theorem exists_split_of_sorted {key : α → ℕ} {l : List α}
    (h : l.Pairwise fun a b => key a ≤ key b) (k : ℕ) :
    ∃ p q, l = p ++ (l.filter fun x => key x = k) ++ q ∧ ∀ x ∈ p, key x < k := by
  induction l with
  | nil => exact ⟨[], [], rfl, fun x hx => absurd hx List.not_mem_nil⟩
  | cons a l ih =>
    obtain ⟨p, q, hl, hp⟩ := ih h.of_cons
    rcases Nat.lt_trichotomy (key a) k with hlt | heq | hgt
    · refine ⟨a :: p, q, ?_, fun x hx => ?_⟩
      · rw [List.filter_cons_of_neg (by simpa using Nat.ne_of_lt hlt), List.cons_append,
          List.cons_append, ← hl]
      · rcases List.mem_cons.mp hx with rfl | hx
        · exact hlt
        · exact hp x hx
    · -- nothing smaller can follow
      have hnil : p = [] := by
        refine List.eq_nil_iff_forall_not_mem.mpr fun x hx => ?_
        have hmem : x ∈ l := by
          rw [hl]
          exact List.mem_append_left _ (List.mem_append_left _ hx)
        have hle : key a ≤ key x := List.rel_of_pairwise_cons h hmem
        have := hp x hx
        omega
      refine ⟨[], q, ?_, fun x hx => absurd hx List.not_mem_nil⟩
      rw [hnil] at hl
      rw [List.filter_cons_of_pos (by simpa using heq), List.nil_append, List.cons_append, ← List.nil_append
        (l.filter _), ← hl]
    · refine ⟨[], a :: l, ?_, fun x hx => absurd hx List.not_mem_nil⟩
      rw [List.filter_eq_nil_iff.mpr fun x hx => ?_]
      · rfl
      · rcases List.mem_cons.mp hx with rfl | hx
        · simpa using Nat.ne_of_gt hgt
        · have hle : key a ≤ key x := List.rel_of_pairwise_cons h hx
          simpa using Nat.ne_of_gt (Nat.lt_of_lt_of_le hgt hle)

theorem sum_length_set {srcs : List (List α)} {i : ℕ} {x : α} {rest : List α}
    (h : srcs[i]? = some (x :: rest)) :
    ((srcs.set i rest).map List.length).sum + 1 = (srcs.map List.length).sum := by
  induction srcs generalizing i with
  | nil => cases h
  | cons s srcs ih =>
    cases i with
    | zero =>
      obtain rfl := Option.some.inj h
      simp only [List.set_cons_zero, List.map_cons, List.sum_cons, List.length_cons]
      omega
    | succ i =>
      have := ih h
      simp only [List.set_cons_succ, List.map_cons, List.sum_cons]
      omega

/-- The merge takes every element once. -/
theorem length_pops {key : α → ℕ} {srcs : List (List α)} {order : List ℕ} {out : List α}
    (h : pops key srcs order = some out) : out.length = (srcs.map List.length).sum := by
  induction order generalizing srcs out with
  | nil =>
    obtain ⟨rfl, hempty⟩ := pops_nil_eq_some h
    have : srcs.map List.length = List.replicate srcs.length 0 :=
      List.map_eq_replicate_iff.mpr fun s hs => by rw [hempty s hs]; rfl
    simp [this]
  | cons i order ih =>
    obtain ⟨x, rest, out', hsrc, -, hout, rfl⟩ := pops_cons_eq_some h
    rw [List.length_cons, ih hout, sum_length_set hsrc]

/-! ## Interleavings -/

/-- `c` is an interleaving of `a` and `b`. -/
inductive Interleaved : List α → List α → List α → Prop
  /-- both exhausted -/
  | nil : Interleaved [] [] []
  /-- the next element is from the left list -/
  | left {a b c : List α} (x : α) : Interleaved a b c → Interleaved (x :: a) b (x :: c)
  /-- the next element is from the right list -/
  | right {a b c : List α} (x : α) : Interleaved a b c → Interleaved a (x :: b) (x :: c)

/-- A list is an interleaving of what satisfies `p` and what does not. -/
theorem interleaved_filter (p : α → Bool) (l : List α) :
    Interleaved (l.filter p) (l.filter fun x => !p x) l := by
  induction l with
  | nil => exact .nil
  | cons x l ih =>
    cases hx : p x with
    | true =>
      rw [List.filter_cons_of_pos hx, List.filter_cons_of_neg (by simp [hx])]
      exact .left x ih
    | false =>
      rw [List.filter_cons_of_neg (by simp [hx]), List.filter_cons_of_pos (by simp [hx])]
      exact .right x ih

end KwayMerge
