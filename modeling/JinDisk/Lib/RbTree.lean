import Mathlib.Algebra.Order.Ring.Nat
import Mathlib.Data.List.Basic
import Mathlib.Data.List.Nodup
import Mathlib.Data.Nat.Basic

/-!
# Red-black trees as ordered maps

The kernel's `rb_root` with `rb_find`, `rb_find_add`, `rb_erase`, `rb_first` and
`rb_next` is used for one purpose only: a finite map from integer keys that can be
walked in key order. `RbTree β` is that map, taken from the standard library's
extensional tree maps; the balancing is not observable and is not modelled.
-/

/-- A finite map with natural-number keys, walked in key order. -/
abbrev RbTree (β : Type) : Type := Std.ExtTreeMap ℕ β compare

namespace RbTree

variable {β : Type}

theorem getElem?_insert (t : RbTree β) (k a : ℕ) (v : β) :
    (t.insert k v)[a]? = if k = a then some v else t[a]? := by
  simp [Std.ExtTreeMap.getElem?_insert]

theorem getElem?_erase (t : RbTree β) (k a : ℕ) :
    (t.erase k)[a]? = if k = a then none else t[a]? := by
  simp [Std.ExtTreeMap.getElem?_erase]

/-- The walk in key order visits strictly increasing keys. -/
theorem sorted (t : RbTree β) : t.toList.Pairwise fun a b => a.1 < b.1 := by
  have h := Std.ExtTreeMap.ordered_keys_toList (t := t)
  simpa only [Nat.compare_eq_lt] using h

theorem nodup_toList (t : RbTree β) : t.toList.Nodup := by
  refine List.Pairwise.imp (fun {a b} hlt heq => ?_) (sorted t)
  rw [heq] at hlt
  exact Nat.lt_irrefl _ hlt

theorem mem_toList (t : RbTree β) (k : ℕ) (v : β) : (k, v) ∈ t.toList ↔ t[k]? = some v :=
  Std.ExtTreeMap.mem_toList_iff_getElem?_eq_some

@[simp] theorem toList_empty : (∅ : RbTree β).toList = [] := by
  refine List.eq_nil_iff_forall_not_mem.mpr fun ⟨k, v⟩ hmem => ?_
  have := (mem_toList ∅ k v).mp hmem
  simp at this

/-- The entries in front of and after the one of a key. -/
theorem exists_split {t : RbTree β} {k : ℕ} {v : β} (h : t[k]? = some v) :
    ∃ as bs, t.toList = as ++ (k, v) :: bs ∧ (∀ a ∈ as, a.1 < k) ∧ ∀ b ∈ bs, k < b.1 := by
  obtain ⟨as, bs, hsplit⟩ := List.append_of_mem ((mem_toList t k v).mpr h)
  have hsorted := sorted t
  rw [hsplit] at hsorted
  obtain ⟨-, hright, hcross⟩ := List.pairwise_append.mp hsorted
  exact ⟨as, bs, hsplit, fun a ha => hcross a ha _ List.mem_cons_self, fun b hb =>
    List.rel_of_pairwise_cons hright hb⟩

/-- The entries after an insertion, up to order. -/
theorem toList_insert_perm (t : RbTree β) (k : ℕ) (v : β) :
    (t.insert k v).toList.Perm ((k, v) :: t.toList.filter fun e => e.1 ≠ k) := by
  refine (List.perm_ext_iff_of_nodup (nodup_toList _) (List.nodup_cons.mpr ⟨by simp, ?_⟩)).mpr ?_
  · exact (nodup_toList t).filter _
  · rintro ⟨a, b⟩
    rw [mem_toList, getElem?_insert, List.mem_cons, List.mem_filter, mem_toList]
    by_cases hk : k = a
    · subst hk
      simp [eq_comm]
    · simp [hk, Ne.symm hk]

/-- The entries after a removal, up to order. -/
theorem toList_erase_perm (t : RbTree β) (k : ℕ) :
    (t.erase k).toList.Perm (t.toList.filter fun e => e.1 ≠ k) := by
  refine (List.perm_ext_iff_of_nodup (nodup_toList _) ((nodup_toList t).filter _)).mpr ?_
  rintro ⟨a, b⟩
  rw [mem_toList, List.mem_filter, mem_toList, getElem?_erase]
  by_cases hk : k = a
  · simp [hk]
  · simp [hk, Ne.symm hk]

/-- Removing all keys leaves nothing. -/
theorem foldl_erase_keys (t : RbTree β) :
    (t.toList.map Prod.fst).foldl (fun u k => u.erase k) t = ∅ := by
  have hgone : ∀ (ks : List ℕ) (u : RbTree β) (a : ℕ),
      (ks.foldl (fun u k => u.erase k) u)[a]? = if a ∈ ks then none else u[a]? := by
    intro ks
    induction ks with
    | nil =>
      intro u a
      simp
    | cons k ks ih =>
      intro u a
      rw [List.foldl_cons, ih, getElem?_erase]
      by_cases hk : k = a
      · simp [hk]
      · simp [hk, Ne.symm hk]
  refine Std.ExtTreeMap.ext_getElem? fun a => ?_
  rw [hgone, Std.ExtTreeMap.getElem?_empty]
  split
  · rfl
  · rename_i hmem
    cases ha : t[a]? with
    | none => rfl
    | some v => exact absurd (List.mem_map.mpr ⟨(a, v), (mem_toList t a v).mpr ha, rfl⟩) hmem

/-! ## Walking a tree that may change -/

/-- Key `k` has been visited by a walk whose last stop was `last`. -/
def Visited (last : Option ℕ) (k : ℕ) : Prop := ∃ l, last = some l ∧ k ≤ l

instance (last : Option ℕ) (k : ℕ) : Decidable (Visited last k) :=
  match last with
  | none => isFalse fun ⟨_, h, _⟩ => by cases h
  | some l => decidable_of_iff (k ≤ l) ⟨fun h => ⟨l, rfl, h⟩, fun ⟨_, h, hk⟩ => by cases h; exact hk⟩

/-- `rb_first`, or `rb_next` of the node with key `last`: the first entry not visited. -/
def after (t : RbTree β) (last : Option ℕ) : Option (ℕ × β) :=
  t.toList.find? fun e => ¬Visited last e.1

/-- The next stop of a walk is in the tree, and whatever lies before it was visited. -/
theorem after_eq_some {t : RbTree β} {last : Option ℕ} {k : ℕ} {v : β}
    (h : t.after last = some (k, v)) :
    t[k]? = some v ∧ ∀ k', k' ∈ t → k' ≤ k → k' = k ∨ Visited last k' := by
  obtain ⟨-, as, bs, hlist, hbefore⟩ := List.find?_eq_some_iff_append.mp h
  have hmem : (k, v) ∈ t.toList := by
    rw [hlist]
    exact List.mem_append_right _ List.mem_cons_self
  refine ⟨(mem_toList t k v).mp hmem, fun k' hk' hle => ?_⟩
  obtain ⟨v', hv'⟩ := Option.isSome_iff_exists.mp (Std.ExtTreeMap.mem_iff_isSome_getElem?.mp hk')
  have hmem' : (k', v') ∈ t.toList := (mem_toList t k' v').mpr hv'
  have hsorted := sorted t
  rw [hlist] at hmem' hsorted
  rcases List.mem_append.mp hmem' with has | hrest
  · right
    simpa using hbefore _ has
  · rcases List.mem_cons.mp hrest with heq | hbs
    · exact Or.inl (Prod.mk.inj heq).1
    · -- an entry after the stop has a larger key
      have hlt := List.rel_of_pairwise_cons (List.pairwise_append.mp hsorted).2.1 hbs
      exact absurd hle (Nat.not_le_of_lt hlt)

/-- A walk that finds no next stop has visited everything. -/
theorem after_eq_none {t : RbTree β} {last : Option ℕ} (h : t.after last = none) {k : ℕ} {v : β}
    (hk : t[k]? = some v) : Visited last k := by
  have hall := List.find?_eq_none.mp h (k, v) ((mem_toList t k v).mpr hk)
  simpa using hall

end RbTree
