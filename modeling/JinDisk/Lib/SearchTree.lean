import Mathlib.Algebra.Order.Ring.Nat
import Mathlib.Data.List.Basic
import Mathlib.Order.Compare
import JinDisk.Lib.RbTree

/-!
# Binary search trees driven by a callback

A search tree of the kernel knows nothing about keys. Every operation is given a callback that
says whether the sought element lies left of a node, right of it, or at it, and the operation
follows these answers down from the root. Whether the elements come out sorted, and whether an
element that is there is found, depends on the callbacks alone.

Rotations change the shape of a tree and keep the sequence of its elements from left to right;
`Rebalanced` allows all of them.
-/

/-- A binary tree with its elements at the inner nodes. -/
inductive SearchTree (α : Type) where
  | nil : SearchTree α
  | node (left : SearchTree α) (a : α) (right : SearchTree α) : SearchTree α

namespace SearchTree

variable {α ι : Type}

/-- The elements from left to right, as `rb_first` and `rb_next` visit them. -/
def inorder : SearchTree α → List α
  | nil => []
  | node l a r => l.inorder ++ a :: r.inorder

/-- `rb_find`: follow the callback until it answers that this is the element. -/
def find (cmp : α → Ordering) : SearchTree α → Option α
  | nil => none
  | node l a r =>
    match cmp a with
    | .lt => l.find cmp
    | .gt => r.find cmp
    | .eq => some a

/-- `rb_find_add`, with what its caller does to an element that is already there: `new` becomes a
leaf where the descent ends, or the element found is updated in place. -/
def findAdd (cmp : α → Ordering) (new : α) (update : α → α) : SearchTree α → SearchTree α
  | nil => node nil new nil
  | node l a r =>
    match cmp a with
    | .lt => node (l.findAdd cmp new update) a r
    | .gt => node l a (r.findAdd cmp new update)
    | .eq => node l (update a) r

/-- Two trees side by side. -/
def join : SearchTree α → SearchTree α → SearchTree α
  | nil, t => t
  | node l a r, t => node l a (r.join t)

/-- `rb_find` and `rb_erase` of the node found. -/
def findErase (cmp : α → Ordering) : SearchTree α → SearchTree α
  | nil => nil
  | node l a r =>
    match cmp a with
    | .lt => node (l.findErase cmp) a r
    | .gt => node l a (r.findErase cmp)
    | .eq => l.join r

/-- The second tree is the first one after some rotations. -/
def Rebalanced (t t' : SearchTree α) : Prop := t'.inorder = t.inorder

theorem inorder_join (t t' : SearchTree α) : (t.join t').inorder = t.inorder ++ t'.inorder := by
  induction t with
  | nil => rfl
  | node l a r _ ih =>
    rw [join, inorder, inorder, ih, List.append_assoc, List.cons_append]

/-! ## Callbacks that follow an order -/

section Order

variable [LinearOrder ι] {key : α → ι} {k : ι} {cmp : α → Ordering}

/-- The elements have increasing keys. -/
def Sorted (key : α → ι) (t : SearchTree α) : Prop :=
  t.inorder.Pairwise fun a b => key a < key b

/-- The callback seeks `k` among the elements: it answers by the order of the keys. -/
def Seeks (key : α → ι) (k : ι) (cmp : α → Ordering) (t : SearchTree α) : Prop :=
  ∀ a ∈ t.inorder, cmp a = compare k (key a)

theorem Sorted.node_iff {l r : SearchTree α} {a : α} :
    Sorted key (node l a r) ↔ Sorted key l ∧ Sorted key r ∧ (∀ b ∈ l.inorder, key b < key a) ∧
      ∀ b ∈ r.inorder, key a < key b := by
  rw [Sorted, inorder, List.pairwise_append, List.pairwise_cons]
  constructor
  · rintro ⟨hl, ⟨har, hr⟩, hcross⟩
    exact ⟨hl, hr, fun b hb => hcross b hb a List.mem_cons_self, har⟩
  · rintro ⟨hl, hr, hla, har⟩
    refine ⟨hl, ⟨har, hr⟩, fun b hb c hc => ?_⟩
    rcases List.mem_cons.mp hc with rfl | hc
    · exact hla b hb
    · exact (hla b hb).trans (har c hc)

theorem Seeks.node_iff {l r : SearchTree α} {a : α} :
    Seeks key k cmp (node l a r) ↔
      Seeks key k cmp l ∧ cmp a = compare k (key a) ∧ Seeks key k cmp r := by
  simp only [Seeks, inorder, List.mem_append, List.mem_cons, or_imp, forall_and, forall_eq]

/-- The elements cut at a key: those left of it, the one that `rb_find` returns if there is one,
and those right of it; and the elements that the other two operations leave. -/
structure Cut (key : α → ι) (k : ι) (cmp : α → Ordering) (t : SearchTree α) (as bs : List α) :
    Prop where
  lt : ∀ a ∈ as, key a < k
  gt : ∀ b ∈ bs, k < key b
  found : ∀ a ∈ t.find cmp, key a = k
  inorder_eq : t.inorder = as ++ ((t.find cmp).toList ++ bs)
  inorder_findAdd : ∀ new update, (t.findAdd cmp new update).inorder =
    as ++ (t.find cmp).elim new update :: bs
  inorder_findErase : (t.findErase cmp).inorder = as ++ bs

/-- A sorted tree is cut by a callback that seeks a key. -/
theorem Sorted.exists_cut {t : SearchTree α} (hsorted : Sorted key t) (hseeks : Seeks key k cmp t) :
    ∃ as bs, Cut key k cmp t as bs := by
  induction t with
  | nil =>
    refine ⟨[], [], ?_, ?_, ?_, rfl, fun _ _ => rfl, rfl⟩ <;> intro a ha <;> cases ha
  | node l a r ihl ihr =>
    obtain ⟨hl, hr, hla, har⟩ := Sorted.node_iff.mp hsorted
    obtain ⟨hsl, hsa, hsr⟩ := Seeks.node_iff.mp hseeks
    cases hcmp : compare k (key a) with
    | lt =>
      -- the node and all that lies right of it lie right of `k`
      have hka : k < key a := compare_lt_iff_lt.mp hcmp
      obtain ⟨as, bs, hcut⟩ := ihl hl hsl
      have hfind : (node l a r).find cmp = l.find cmp := by rw [find, hsa, hcmp]
      refine ⟨as, bs ++ a :: r.inorder, hcut.lt, ?_, ?_, ?_, ?_, ?_⟩
      · intro b hb
        rcases List.mem_append.mp hb with hb | hb
        · exact hcut.gt b hb
        · rcases List.mem_cons.mp hb with rfl | hb
          · exact hka
          · exact hka.trans (har b hb)
      · rw [hfind]
        exact hcut.found
      · rw [hfind, inorder, hcut.inorder_eq]
        simp only [List.append_assoc]
      · intro new update
        rw [hfind, findAdd, hsa, hcmp]
        simp only [inorder, hcut.inorder_findAdd, List.append_assoc, List.cons_append]
      · rw [findErase, hsa, hcmp]
        simp only [inorder, hcut.inorder_findErase, List.append_assoc]
    | gt =>
      have hak : key a < k := compare_gt_iff_gt.mp hcmp
      obtain ⟨as, bs, hcut⟩ := ihr hr hsr
      have hfind : (node l a r).find cmp = r.find cmp := by rw [find, hsa, hcmp]
      refine ⟨l.inorder ++ a :: as, bs, ?_, hcut.gt, ?_, ?_, ?_, ?_⟩
      · intro b hb
        rcases List.mem_append.mp hb with hb | hb
        · exact (hla b hb).trans hak
        · rcases List.mem_cons.mp hb with rfl | hb
          · exact hak
          · exact hcut.lt b hb
      · rw [hfind]
        exact hcut.found
      · rw [hfind, inorder, hcut.inorder_eq]
        simp only [List.append_assoc, List.cons_append]
      · intro new update
        rw [hfind, findAdd, hsa, hcmp]
        simp only [inorder, hcut.inorder_findAdd, List.append_assoc, List.cons_append]
      · rw [findErase, hsa, hcmp]
        simp only [inorder, hcut.inorder_findErase, List.append_assoc, List.cons_append]
    | eq =>
      obtain rfl : k = key a := compare_eq_iff_eq.mp hcmp
      have hfind : (node l a r).find cmp = some a := by rw [find, hsa, hcmp]
      refine ⟨l.inorder, r.inorder, hla, har, ?_, ?_, ?_, ?_⟩
      · rw [hfind]
        intro b hb
        cases hb
        rfl
      · rw [hfind]
        rfl
      · intro new update
        rw [hfind, findAdd, hsa, hcmp]
        rfl
      · rw [findErase, hsa, hcmp]
        exact inorder_join l r

namespace Cut

variable {t : SearchTree α} {as bs : List α}

/-- What stands between the two parts keeps the elements sorted if it has the key. -/
theorem sorted_insert (hcut : Cut key k cmp t as bs) (hsorted : Sorted key t) {a : α}
    (ha : key a = k) : (as ++ a :: bs).Pairwise fun a b => key a < key b := by
  rw [Sorted, hcut.inorder_eq, List.pairwise_append, List.pairwise_append] at hsorted
  obtain ⟨has, ⟨-, hbs, -⟩, hcross⟩ := hsorted
  refine List.pairwise_append.mpr ⟨has, List.pairwise_cons.mpr ⟨?_, hbs⟩, fun b hb c hc => ?_⟩
  · rw [ha]
    exact hcut.gt
  · rcases List.mem_cons.mp hc with rfl | hc
    · rw [ha]
      exact hcut.lt b hb
    · exact hcross b hb c (List.mem_append_right _ hc)

/-- The element found is the one with the key. -/
theorem find_eq (hcut : Cut key k cmp t as bs) :
    t.find cmp = t.inorder.find? fun a => key a = k := by
  have has : (as.find? fun a => key a = k) = none :=
    List.find?_eq_none.mpr fun a ha => by simpa using (hcut.lt a ha).ne
  have hbs : (bs.find? fun a => key a = k) = none :=
    List.find?_eq_none.mpr fun b hb => by simpa using (hcut.gt b hb).ne'
  rw [hcut.inorder_eq, List.find?_append, has, List.find?_append, hbs]
  cases hfind : t.find cmp with
  | none => rfl
  | some a => simp [hcut.found a hfind]

/-- What is left without the element found is what has other keys. -/
theorem filter_eq (hcut : Cut key k cmp t as bs) :
    (t.inorder.filter fun a => key a ≠ k) = as ++ bs := by
  have hmid : ((t.find cmp).toList.filter fun a => key a ≠ k) = [] := by
    refine List.filter_eq_nil_iff.mpr fun a ha => ?_
    simp [hcut.found a (Option.mem_toList.mp ha)]
  rw [hcut.inorder_eq, List.filter_append, List.filter_append, hmid, List.nil_append,
    List.filter_eq_self.mpr fun a ha => by simpa using (hcut.lt a ha).ne,
    List.filter_eq_self.mpr fun b hb => by simpa using (hcut.gt b hb).ne']

/-- What is there after the element was added or updated. -/
theorem mem_insert (hcut : Cut key k cmp t as bs) {a b : α} (hb : b ∈ as ++ a :: bs) :
    b = a ∨ b ∈ t.inorder := by
  rw [hcut.inorder_eq]
  rcases List.mem_append.mp hb with hb | hb
  · exact Or.inr (List.mem_append_left _ hb)
  · refine (List.mem_cons.mp hb).imp_right fun hb => ?_
    exact List.mem_append_right _ (List.mem_append_right _ hb)

/-- A lookup after the element was added or updated. -/
theorem find?_insert (hcut : Cut key k cmp t as bs) {a : α} (ha : key a = k) (k' : ι) :
    ((as ++ a :: bs).find? fun b => key b = k') =
      if k = k' then some a else t.inorder.find? fun b => key b = k' := by
  split
  next heq =>
    subst heq
    rw [List.find?_append, List.find?_eq_none.mpr fun b hb => by simpa using (hcut.lt b hb).ne]
    simp [ha]
  next hne =>
    have hmid : ((t.find cmp).toList.find? fun b => key b = k') = none := by
      refine List.find?_eq_none.mpr fun b hb => ?_
      simpa [hcut.found b (Option.mem_toList.mp hb)] using hne
    rw [hcut.inorder_eq, List.find?_append, List.find?_append, List.find?_append, hmid,
      List.find?_cons_of_neg (by simpa [ha] using hne), Option.none_or]

end Cut

end Order

/-! ## Callbacks that never find anything -/

section Missing

variable {cmp : α → Ordering} {t : SearchTree α}

theorem find_eq_none (h : ∀ a ∈ t.inorder, cmp a ≠ .eq) : t.find cmp = none := by
  induction t with
  | nil => rfl
  | node l a r ihl ihr =>
    simp only [inorder, List.mem_append, List.mem_cons, or_imp, forall_and, forall_eq] at h
    obtain ⟨hl, ha, hr⟩ := h
    rw [find]
    cases hcmp : cmp a with
    | lt => exact ihl hl
    | gt => exact ihr hr
    | eq => exact absurd hcmp ha

end Missing

/-! ## Search trees as ordered maps -/

section Map

variable {β : Type} {num : ι → ℕ} {t : SearchTree (ι × β)} {m : RbTree β} {k : ι}
  {cmp : ι × β → Ordering}

/-- The tree holds the entries of the map, under keys that stand for numbers. -/
def Represents (num : ι → ℕ) (t : SearchTree (ι × β)) (m : RbTree β) : Prop :=
  (t.inorder.map fun e => (num e.1, e.2)) = m.toList

theorem Represents.sorted (h : Represents num t m) : Sorted (fun e => num e.1) t := by
  have hsorted := RbTree.sorted m
  rw [← h, List.pairwise_map] at hsorted
  exact hsorted

/-- A descent that seeks a key finds its entry. -/
theorem Represents.find (h : Represents num t m) (hseeks : Seeks (fun e => num e.1) (num k) cmp t) :
    (t.find cmp).map Prod.snd = m[num k]? := by
  obtain ⟨as, bs, hcut⟩ := h.sorted.exists_cut hseeks
  cases hfind : t.find cmp with
  | none =>
    refine (Option.eq_none_iff_forall_ne_some.mpr fun v hv => ?_).symm
    have hmem := (RbTree.mem_toList m (num k) v).mpr hv
    rw [← h] at hmem
    obtain ⟨e, he, heq⟩ := List.mem_map.mp hmem
    rw [hcut.find_eq] at hfind
    exact List.find?_eq_none.mp hfind e he (decide_eq_true (congrArg Prod.fst heq))
  | some e =>
    refine ((RbTree.mem_toList m (num k) e.2).mp ?_).symm
    have hkey : num e.1 = num k := hcut.found e hfind
    rw [← h, ← hkey]
    refine List.mem_map_of_mem ?_
    rw [hcut.inorder_eq, hfind]
    exact List.mem_append_right _ List.mem_cons_self

/-- **Adding or updating an entry** is an insertion into the map. -/
theorem Represents.findAdd (h : Represents num t m)
    (hseeks : Seeks (fun e => num e.1) (num k) cmp t) (new : β) (update : β → β) :
    Represents num (t.findAdd cmp (k, new) fun e => (e.1, update e.2))
      (m.insert (num k) (m[num k]?.elim new update)) := by
  obtain ⟨as, bs, hcut⟩ := h.sorted.exists_cut hseeks
  obtain ⟨e, he⟩ : ∃ e, e = (t.find cmp).elim (k, new) (fun e => (e.1, update e.2)) := ⟨_, rfl⟩
  have hkey : num e.1 = num k := by
    rw [he]
    cases hfind : t.find cmp with
    | none => rfl
    | some e' => exact hcut.found e' hfind
  have hval : e.2 = m[num k]?.elim new update := by
    rw [he, ← h.find hseeks]
    cases t.find cmp <;> rfl
  rw [Represents, hcut.inorder_findAdd, ← he]
  -- both sides have the same entries up to order, and both are sorted
  refine List.Perm.eq_of_pairwise (fun x y _ _ hxy hyx => absurd hxy hyx.asymm) ?_
    (RbTree.sorted _) ?_
  · exact List.pairwise_map.mpr (hcut.sorted_insert h.sorted hkey)
  · refine ((List.perm_middle.map _).trans ?_).trans (RbTree.toList_insert_perm _ _ _).symm
    rw [List.map_cons, ← hcut.filter_eq, ← h, List.filter_map, ← hval, ← hkey]
    exact List.Perm.refl _

end Map

end SearchTree
