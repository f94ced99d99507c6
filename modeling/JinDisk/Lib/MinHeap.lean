import JinDisk.Lib.KwayMerge

/-!
# The heap of a k-way merge

`MinHeap` is a min-heap as its user sees it: a root that is minimal, `push`, `pop`, and the
elements up to order. Its last law settles what happens to equal elements: a pushed element
that is not smaller than the root does not become the root.

`MinHeap.order` is the order of the pops of a merge that refills the heap from the source of
the root. It is a possible order (`order_pops`), and with the last law a source is taken from
twice in a row only if its second element is smaller than whatever the other sources hold
(`order_strict`).
-/

namespace KwayMerge

variable {α : Type}

/-- A min-heap of elements ordered by `key`. -/
structure MinHeap (α : Type) (key : α → ℕ) where
  /-- the states of the heap -/
  Heap : Type
  /-- the heap without elements -/
  empty : Heap
  /-- the first element of the array, if there is one -/
  root : Heap → Option α
  /-- add an element -/
  push : Heap → α → Heap
  /-- remove the root -/
  pop : Heap → Heap
  /-- the elements -/
  elems : Heap → List α
  elems_empty : elems empty = []
  elems_push : ∀ h x, (elems (push h x)).Perm (x :: elems h)
  elems_pop : ∀ h x, root h = some x → (elems h).Perm (x :: elems (pop h))
  elems_of_root_none : ∀ h, root h = none → elems h = []
  root_le : ∀ h x, root h = some x → ∀ y ∈ elems h, key x ≤ key y
  /-- the tie rule -/
  root_push : ∀ h x y, root h = some x → key x ≤ key y → root (push h y) = some x

namespace MinHeap

/-- The key of an element that is tagged with its source. -/
def taggedKey (key : α → ℕ) (x : ℕ × α) : ℕ := key x.2

variable {key : α → ℕ} (H : MinHeap (ℕ × α) (taggedKey key))

/-- Push the head of source `i`, unless the source is exhausted. -/
def refill (h : H.Heap) (srcs : List (List α)) (i : ℕ) : H.Heap :=
  match srcs[i]?.bind List.head? with
  | some x => H.push h (i, x)
  | none => h

/-- The heap with the heads of all sources, the last source first. -/
def load (srcs : List (List α)) : H.Heap :=
  (List.range srcs.length).reverse.foldl (fun h i => H.refill h srcs i) H.empty

/-- The loop: take the root and refill the heap from its source. `srcs` holds what the sources
still have, the heads that are in the heap included. -/
def drain : ℕ → H.Heap → List (List α) → List ℕ
  | 0, _, _ => []
  | n + 1, h, srcs =>
    match H.root h with
    | none => []
    | some (i, _) =>
      let rest := srcs.set i (srcs[i]?.getD []).tail
      i :: drain n (H.refill (H.pop h) rest i) rest

/-- The order of the pops; every element is taken once. -/
def order (srcs : List (List α)) : List ℕ :=
  H.drain (srcs.map List.length).sum (H.load srcs) srcs

/-! ## The heap holds the heads -/

/-- The heap holds the heads of the sources in `I`. -/
structure Holds (h : H.Heap) (srcs : List (List α)) (I : ℕ → Prop) : Prop where
  /-- each of them once -/
  nodup : (H.elems h).Nodup
  /-- and nothing else -/
  mem : ∀ i x, (i, x) ∈ H.elems h ↔ I i ∧ srcs[i]?.bind List.head? = some x

variable {H} {h : H.Heap} {srcs : List (List α)} {I : ℕ → Prop}

/-- Refilling the heap with one more source. -/
theorem Holds.refill (hh : H.Holds h srcs I) {i : ℕ} (hi : ¬I i) :
    H.Holds (H.refill h srcs i) srcs fun j => I j ∨ j = i := by
  rw [MinHeap.refill]
  split
  · rename_i x hx
    have hperm := H.elems_push h (i, x)
    have hnot : (i, x) ∉ H.elems h := fun hmem => hi ((hh.mem i x).mp hmem).1
    refine ⟨hperm.nodup_iff.mpr (List.nodup_cons.mpr ⟨hnot, hh.nodup⟩), fun j y => ?_⟩
    rw [hperm.mem_iff, List.mem_cons, hh.mem, Prod.mk.injEq]
    constructor
    · rintro (⟨rfl, rfl⟩ | ⟨hj, hy⟩)
      · exact ⟨Or.inr rfl, hx⟩
      · exact ⟨Or.inl hj, hy⟩
    · rintro ⟨hj | rfl, hy⟩
      · exact Or.inr ⟨hj, hy⟩
      · exact Or.inl ⟨rfl, Option.some.inj (hy.symm.trans hx)⟩
  · rename_i hnone
    refine ⟨hh.nodup, fun j y => (hh.mem j y).trans ⟨fun ⟨hj, hy⟩ => ⟨Or.inl hj, hy⟩, ?_⟩⟩
    rintro ⟨hj | rfl, hy⟩
    · exact ⟨hj, hy⟩
    · rw [hnone] at hy
      cases hy

theorem Holds.congr {I' : ℕ → Prop} {srcs' : List (List α)} (hh : H.Holds h srcs I)
    (hsame : ∀ i x, I i ∧ srcs[i]?.bind List.head? = some x ↔
      I' i ∧ srcs'[i]?.bind List.head? = some x) : H.Holds h srcs' I' :=
  ⟨hh.nodup, fun i x => (hh.mem i x).trans (hsame i x)⟩

/-- The first heap. -/
theorem holds_load (srcs : List (List α)) : H.Holds (H.load srcs) srcs fun _ => True := by
  have hfold : ∀ (is : List ℕ) (h : H.Heap) (I : ℕ → Prop), H.Holds h srcs I → is.Nodup →
      (∀ i ∈ is, ¬I i) →
      H.Holds (is.foldl (fun h i => H.refill h srcs i) h) srcs fun j => I j ∨ j ∈ is := by
    intro is
    induction is with
    | nil =>
      intro h I hh _ _
      exact hh.congr fun i x => by simp
    | cons i is ih =>
      intro h I hh hnodup hnot
      rw [List.nodup_cons] at hnodup
      rw [List.foldl_cons]
      refine (ih _ _ (hh.refill (hnot i List.mem_cons_self)) hnodup.2 ?_).congr fun j x => ?_
      · rintro j hj (hI | rfl)
        · exact hnot j (List.mem_cons_of_mem _ hj) hI
        · exact hnodup.1 hj
      · rw [List.mem_cons, or_assoc]
  have hempty : H.Holds H.empty srcs fun _ => False := by
    refine ⟨?_, fun i x => ?_⟩
    · rw [H.elems_empty]
      exact List.nodup_nil
    · rw [H.elems_empty]
      simp
  refine (hfold _ _ _ hempty ((List.reverse_perm _).nodup_iff.mpr List.nodup_range) fun _ _ => id).congr
    fun i x => ?_
  simp only [false_or, List.mem_reverse, List.mem_range, true_and, and_iff_right_iff_imp]
  intro hx
  obtain ⟨s, hs, -⟩ := Option.bind_eq_some_iff.mp hx
  exact (List.getElem?_eq_some_iff.mp hs).1

/-- The root is the head of a source. -/
theorem Holds.root (hh : H.Holds h srcs fun _ => True) {i : ℕ} {x : α}
    (hroot : H.root h = some (i, x)) :
    ∃ rest, srcs[i]? = some (x :: rest) ∧ IsRoot key srcs x := by
  have hmem := (hh.mem i x).mp ((H.elems_pop h _ hroot).mem_iff.mpr List.mem_cons_self)
  obtain ⟨s, hs, hhead⟩ := Option.bind_eq_some_iff.mp hmem.2
  obtain ⟨rest, rfl⟩ := List.head?_eq_some_iff.mp hhead
  refine ⟨rest, hs, fun t ht y hy => ?_⟩
  obtain ⟨j, hj, rfl⟩ := List.getElem_of_mem ht
  refine H.root_le h (i, x) hroot (j, y) ((hh.mem j y).mpr ⟨trivial, ?_⟩)
  rw [List.getElem?_eq_getElem hj]
  exact hy

/-- Without its root the heap holds the heads of the other sources. -/
theorem Holds.pop (hh : H.Holds h srcs fun _ => True) {i : ℕ} {x : α}
    (hroot : H.root h = some (i, x)) : H.Holds (H.pop h) srcs fun j => j ≠ i := by
  have hperm := H.elems_pop h _ hroot
  have hnodup := hperm.nodup_iff.mp hh.nodup
  rw [List.nodup_cons] at hnodup
  have hx := (hh.mem i x).mp (hperm.mem_iff.mpr List.mem_cons_self)
  refine ⟨hnodup.2, fun j y => ⟨fun hmem => ?_, fun ⟨hne, hy⟩ => ?_⟩⟩
  · have hy := ((hh.mem j y).mp (hperm.mem_iff.mpr (List.mem_cons_of_mem _ hmem))).2
    refine ⟨?_, hy⟩
    -- the only head of the source is the root
    rintro rfl
    obtain rfl := Option.some.inj (hy.symm.trans hx.2)
    exact hnodup.1 hmem
  · have hmem := hperm.mem_iff.mp ((hh.mem j y).mpr ⟨trivial, hy⟩)
    rcases List.mem_cons.mp hmem with heq | hmem
    · exact absurd (Prod.mk.inj heq).1 hne
    · exact hmem

/-- After taking from source `i` the other heads are the same. -/
theorem Holds.set (hh : H.Holds h srcs fun j => j ≠ i) (rest : List α) :
    H.Holds h (srcs.set i rest) fun j => j ≠ i := by
  refine hh.congr fun j x => and_congr_right fun hne => ?_
  rw [List.getElem?_set_ne (Ne.symm hne)]

/-- The next round of the loop. -/
theorem Holds.next (hh : H.Holds h srcs fun _ => True) {i : ℕ} {x : α}
    (hroot : H.root h = some (i, x)) (rest : List α) :
    H.Holds (H.refill (H.pop h) (srcs.set i rest) i) (srcs.set i rest) fun _ => True := by
  refine (((hh.pop hroot).set rest).refill (fun hne => hne rfl)).congr fun j y => ?_
  refine and_congr_left fun _ => ⟨fun _ => trivial, fun _ => ?_⟩
  exact (Decidable.em (j = i)).symm.imp_right id

/-- With no root the sources are exhausted. -/
theorem Holds.exhausted (hh : H.Holds h srcs fun _ => True) (hroot : H.root h = none) :
    ∀ s ∈ srcs, s = [] := by
  intro s hs
  obtain ⟨i, hi, rfl⟩ := List.getElem_of_mem hs
  cases hsrc : srcs[i] with
  | nil => rfl
  | cons x rest =>
    have hmem : (i, x) ∈ H.elems h := by
      refine (hh.mem i x).mpr ⟨trivial, ?_⟩
      rw [List.getElem?_eq_getElem hi, hsrc]
      rfl
    rw [H.elems_of_root_none h hroot] at hmem
    cases hmem

/-- One round of the loop. -/
theorem drain_succ {n : ℕ} {i : ℕ} {x : α} {rest : List α} (hroot : H.root h = some (i, x))
    (hsrc : srcs[i]? = some (x :: rest)) :
    H.drain (n + 1) h srcs =
      i :: H.drain n (H.refill (H.pop h) (srcs.set i rest) i) (srcs.set i rest) := by
  rw [drain, hroot]
  simp only [hsrc, Option.getD_some, List.tail_cons]

/-- **The loop takes everything.** -/
theorem drain_pops {n : ℕ} (hh : H.Holds h srcs fun _ => True)
    (hn : (srcs.map List.length).sum = n) : ∃ out, pops key srcs (H.drain n h srcs) = some out := by
  induction n generalizing h srcs with
  | zero =>
    refine ⟨[], ?_⟩
    have hall : srcs.all List.isEmpty := by
      refine List.all_eq_true.mpr fun s hs => List.isEmpty_iff.mpr (List.length_eq_zero_iff.mp ?_)
      exact List.sum_eq_zero_iff_forall_eq_nat.mp hn _ (List.mem_map_of_mem hs)
    simp [drain, pops, hall]
  | succ n ih =>
    cases hroot : H.root h with
    | none =>
      have hempty := hh.exhausted hroot
      have hzero : (srcs.map List.length).sum = 0 := by
        refine List.sum_eq_zero_iff_forall_eq_nat.mpr fun k hk => ?_
        obtain ⟨s, hs, rfl⟩ := List.mem_map.mp hk
        rw [hempty s hs]
        rfl
      omega
    | some e =>
      obtain ⟨i, x⟩ := e
      obtain ⟨rest, hsrc, hisroot⟩ := hh.root hroot
      have hsum := sum_length_set hsrc
      obtain ⟨out, hout⟩ := ih (hh.next hroot rest) (by omega)
      refine ⟨x :: out, ?_⟩
      rw [drain_succ hroot hsrc]
      simp only [pops, hsrc, if_pos hisroot, hout, Option.map_some]

/-- The order of the heap is a possible one. -/
theorem order_pops (H : MinHeap (ℕ × α) (taggedKey key)) (srcs : List (List α)) :
    ∃ out, pops key srcs (H.order srcs) = some out :=
  drain_pops (holds_load srcs) rfl

/-! ## The tie rule -/

/-- What is left of the sources after a pop. -/
theorem suffix_of_set {i j : ℕ} {x : α} {rest s : List α} (hi : srcs[i]? = some (x :: rest))
    (hj : (srcs.set i rest)[j]? = some s) : ∃ s', srcs[j]? = some s' ∧ s <:+ s' := by
  rw [List.getElem?_set] at hj
  split at hj
  · rename_i hij
    split at hj
    · obtain rfl := Option.some.inj hj
      exact ⟨x :: rest, hij ▸ hi, List.suffix_cons x rest⟩
    · cases hj
  · exact ⟨s, hj, List.suffix_refl s⟩

/-- The sources are sorted and each has a tag of its own. -/
structure Sources (key : α → ℕ) (tag : α → ℕ) (t : ℕ → ℕ) (srcs : List (List α)) : Prop where
  /-- the order of a source -/
  sorted : ∀ (i : ℕ) (s : List α), srcs[i]? = some s → s.Pairwise fun a b => key a ≤ key b
  /-- its tag -/
  tag : ∀ (i : ℕ) (s : List α), srcs[i]? = some s → ∀ x ∈ s, tag x = t i
  /-- no two sources have the same -/
  inj : ∀ i j, i < srcs.length → j < srcs.length → t i = t j → i = j

theorem Sources.set {tag : α → ℕ} {t : ℕ → ℕ} (hs : Sources key tag t srcs) {i : ℕ} {x : α}
    {rest : List α} (hi : srcs[i]? = some (x :: rest)) : Sources key tag t (srcs.set i rest) := by
  refine ⟨fun j s hj => ?_, fun j s hj y hy => ?_, ?_⟩
  · obtain ⟨s', hs', hsuf⟩ := suffix_of_set hi hj
    exact (hs.sorted j s' hs').sublist hsuf.sublist
  · obtain ⟨s', hs', hsuf⟩ := suffix_of_set hi hj
    exact hs.tag j s' hs' y (hsuf.subset hy)
  · rw [List.length_set]
    exact hs.inj

/-- The second of two elements taken in a row from source `i` is below all other sources. -/
theorem Holds.lt_of_again (hh : H.Holds h srcs fun _ => True)
    (hsorted : ∀ (i : ℕ) (s : List α), srcs[i]? = some s → s.Pairwise fun a b => key a ≤ key b) {i : ℕ} {x y : α}
    {rest : List α} (hroot : H.root h = some (i, x))
    (hnext : H.root (H.refill (H.pop h) (srcs.set i rest) i) = some (i, y)) {k : ℕ} {s : List α}
    (hk : k ≠ i) (hs : srcs[k]? = some s) {z : α} (hz : z ∈ s) : key y < key z := by
  have hpop := hh.pop hroot
  obtain ⟨rest', hsrc, -⟩ := (hh.next hroot rest).root hnext
  have hpush : H.refill (H.pop h) (srcs.set i rest) i = H.push (H.pop h) (i, y) := by
    rw [MinHeap.refill, hsrc]
    rfl
  -- the head of the other source is in the heap when `y` is pushed
  obtain ⟨w, s', rfl⟩ := List.exists_cons_of_ne_nil (List.ne_nil_of_mem hz)
  have hw : (k, w) ∈ H.elems (H.pop h) := (hpop.mem k w).mpr ⟨hk, by rw [hs]; rfl⟩
  cases hroot' : H.root (H.pop h) with
  | none =>
    rw [H.elems_of_root_none _ hroot'] at hw
    cases hw
  | some e =>
    obtain ⟨k₀, w₀⟩ := e
    have hle : key w₀ ≤ key w := H.root_le _ _ hroot' _ hw
    have hwz : key w ≤ key z := by
      rcases List.mem_cons.mp hz with rfl | hz
      · exact Nat.le_refl _
      · exact List.rel_of_pairwise_cons (hsorted k _ hs) hz
    refine Nat.lt_of_not_le fun hge => ?_
    -- otherwise `y` would not have become the root
    have hkeep := H.root_push _ _ (i, y) hroot' (Nat.le_trans (Nat.le_trans hle hwz) hge)
    rw [hpush, hkeep] at hnext
    have hk₀ := ((hpop.mem k₀ w₀).mp ((H.elems_pop _ _ hroot').mem_iff.mpr List.mem_cons_self)).1
    exact hk₀ (Prod.mk.inj (Option.some.inj hnext)).1

/-- Inversion of one round: what is taken and what is left. -/
theorem drain_pops_cons {n : ℕ} {x : α} {out : List α} (hh : H.Holds h srcs fun _ => True)
    (hout : pops key srcs (H.drain n h srcs) = some (x :: out)) :
    ∃ m i rest, n = m + 1 ∧ H.root h = some (i, x) ∧ srcs[i]? = some (x :: rest) ∧
      pops key (srcs.set i rest)
        (H.drain m (H.refill (H.pop h) (srcs.set i rest) i) (srcs.set i rest)) = some out := by
  cases n with
  | zero => cases (pops_nil_eq_some hout).1
  | succ m =>
    cases hroot : H.root h with
    | none =>
      rw [drain, hroot] at hout
      cases (pops_nil_eq_some hout).1
    | some e =>
      obtain ⟨i, x'⟩ := e
      obtain ⟨rest, hsrc, -⟩ := hh.root hroot
      rw [drain_succ hroot hsrc] at hout
      obtain ⟨x₁, rest₁, out₁, hsrc₁, -, hout₁, heq⟩ := pops_cons_eq_some hout
      obtain ⟨rfl, rfl⟩ := List.cons.inj heq
      obtain ⟨rfl, rfl⟩ := List.cons.inj (Option.some.inj (hsrc.symm.trans hsrc₁))
      exact ⟨m, i, rest, rfl, rfl, hsrc, hout₁⟩

/-- **The tie rule in a merge.** The second of two elements taken in a row from one source is
smaller than all elements taken later from other sources. -/
theorem drain_strict {n : ℕ} {tag : α → ℕ} {t : ℕ → ℕ} (hh : H.Holds h srcs fun _ => True)
    (hs : Sources key tag t srcs) {p q : List α} {x y : α}
    (hout : pops key srcs (H.drain n h srcs) = some (p ++ x :: y :: q)) (hxy : tag x = tag y) :
    ∀ z ∈ q, tag z ≠ tag y → key y < key z := by
  induction p generalizing n h srcs with
  | nil =>
    intro z hz hne
    obtain ⟨m, i, rest, rfl, hroot, hsrc, hout'⟩ := drain_pops_cons hh hout
    obtain ⟨m', j, rest', rfl, hroot', hsrc', hout''⟩ := drain_pops_cons (hh.next hroot rest) hout'
    have hs' := hs.set hsrc
    have htagx : tag x = t i := hs.tag i _ hsrc x List.mem_cons_self
    have htagy : tag y = t j := hs'.tag j _ hsrc' y List.mem_cons_self
    obtain rfl : i = j := by
      refine hs.inj i j (List.getElem?_eq_some_iff.mp hsrc).1 ?_ (htagx.symm.trans (hxy.trans htagy))
      rw [← List.length_set]
      exact (List.getElem?_eq_some_iff.mp hsrc').1
    obtain ⟨s, hmem, hzs⟩ := mem_of_mem_pops hout'' hz
    obtain ⟨k, hk, rfl⟩ := List.getElem_of_mem hmem
    have hget := List.getElem?_eq_getElem hk
    obtain ⟨s₁, hs₁, hsuf₁⟩ := suffix_of_set hsrc' hget
    obtain ⟨s₂, hs₂, hsuf₂⟩ := suffix_of_set hsrc hs₁
    have hzs₂ : z ∈ s₂ := hsuf₂.subset (hsuf₁.subset hzs)
    refine hh.lt_of_again hs.sorted hroot hroot' (fun hki => hne ?_) hs₂ hzs₂
    rw [hs.tag k s₂ hs₂ z hzs₂, hki, htagy]
  | cons a p ih =>
    obtain ⟨m, i, rest, rfl, hroot, hsrc, hout'⟩ := drain_pops_cons hh hout
    exact ih (hh.next hroot rest) (hs.set hsrc) hout'

theorem order_strict (H : MinHeap (ℕ × α) (taggedKey key)) {tag : α → ℕ} {t : ℕ → ℕ}
    (hs : Sources key tag t srcs) {p q : List α} {x y : α}
    (hout : pops key srcs (H.order srcs) = some (p ++ x :: y :: q)) (hxy : tag x = tag y) :
    ∀ z ∈ q, tag z ≠ tag y → key y < key z :=
  drain_strict (holds_load srcs) hs hout hxy

/-! ## A heap -/

/-- Insert `x` behind everything that is not larger. -/
def insertBehind {β : Type} (key : β → ℕ) (x : β) : List β → List β
  | [] => [x]
  | y :: ys => if key x < key y then x :: y :: ys else y :: insertBehind key x ys

theorem insertBehind_perm {β : Type} (key : β → ℕ) (x : β) (l : List β) :
    (insertBehind key x l).Perm (x :: l) := by
  induction l with
  | nil => exact List.Perm.refl _
  | cons y ys ih =>
    rw [insertBehind]
    split
    · exact List.Perm.refl _
    · exact (ih.cons y).trans (List.Perm.swap x y ys)

theorem insertBehind_sorted {β : Type} {key : β → ℕ} {l : List β}
    (h : l.Pairwise fun a b => key a ≤ key b) (x : β) :
    (insertBehind key x l).Pairwise fun a b => key a ≤ key b := by
  induction l with
  | nil => exact List.pairwise_singleton _ x
  | cons y ys ih =>
    rw [insertBehind]
    split
    · rename_i hlt
      refine List.pairwise_cons.mpr ⟨fun z hz => ?_, h⟩
      rcases List.mem_cons.mp hz with rfl | hz
      · exact Nat.le_of_lt hlt
      · exact Nat.le_trans (Nat.le_of_lt hlt) (List.rel_of_pairwise_cons h hz)
    · rename_i hge
      refine List.pairwise_cons.mpr ⟨fun z hz => ?_, ih h.of_cons⟩
      rcases List.mem_cons.mp ((insertBehind_perm key x ys).mem_iff.mp hz) with rfl | hz
      · exact Nat.le_of_not_lt hge
      · exact List.rel_of_pairwise_cons h hz

/-- The simplest heap: a sorted list. -/
def sortedList {β : Type} (key : β → ℕ) : MinHeap β key where
  Heap := { l : List β // l.Pairwise fun a b => key a ≤ key b }
  empty := ⟨[], List.Pairwise.nil⟩
  root h := h.1.head?
  push h x := ⟨insertBehind key x h.1, insertBehind_sorted h.2 x⟩
  pop h := ⟨h.1.tail, h.2.tail⟩
  elems h := h.1
  elems_empty := rfl
  elems_push h x := insertBehind_perm key x h.1
  elems_pop := by
    rintro ⟨l, hl⟩ x hx
    obtain ⟨l, rfl⟩ := List.head?_eq_some_iff.mp hx
    exact List.Perm.refl _
  elems_of_root_none h hnone := List.head?_eq_none_iff.mp hnone
  root_le := by
    rintro ⟨l, hl⟩ x hx y hy
    obtain ⟨l, rfl⟩ := List.head?_eq_some_iff.mp hx
    rcases List.mem_cons.mp hy with rfl | hy
    · exact Nat.le_refl _
    · exact List.rel_of_pairwise_cons hl hy
  root_push := by
    rintro ⟨l, hl⟩ x y hx hle
    obtain ⟨l, rfl⟩ := List.head?_eq_some_iff.mp hx
    simp [insertBehind, Nat.not_lt.mpr hle]

end MinHeap

end KwayMerge
