import Mathlib.Data.List.Forall2
import Mathlib.Data.List.Pairwise
import Mathlib.Order.Basic

/-!
# Layers of addressed entries

A store keeps the entries of its keys in layers, the newest layer first, and an entry names an
address. Two layers are apart if they have no two entries of one key with the same address. What
such a store does to its layers keeps them apart: an entry comes into the uppermost layer with an
address that its key has nowhere below, an empty layer is put on top, the two lowest layers are
merged into one that has no other entries, and entries disappear.
-/

namespace Layers

variable {κ ε α : Type*}

/-- The entries of the keys in a layer. -/
abbrev Layer (κ ε : Type*) : Type _ := κ → ε → Prop

variable (addr : ε → α)

/-- No key has entries with one address in both layers. -/
def Apart (A B : Layer κ ε) : Prop := ∀ k x y, A k x → B k y → addr x ≠ addr y

/-- Any two layers are apart. -/
def Scattered (ls : List (Layer κ ε)) : Prop := ls.Pairwise (Apart addr)

/-- No entry of `k` has the address. -/
def Unused (ls : List (Layer κ ε)) (k : κ) (a : α) : Prop := ∀ A ∈ ls, ∀ x, A k x → addr x ≠ a

variable {addr} {A B C : Layer κ ε} {ls : List (Layer κ ε)}

theorem Apart.of_imp {A' B' : Layer κ ε} (h : Apart addr A B) (hA : ∀ k x, A' k x → A k x)
    (hB : ∀ k x, B' k x → B k x) : Apart addr A' B' :=
  fun k x y hx hy => h k x y (hA k x hx) (hB k y hy)

/-- A new layer without entries. -/
theorem Scattered.push (h : Scattered addr ls) (hA : ∀ k x, ¬A k x) : Scattered addr (A :: ls) :=
  List.pairwise_cons.mpr ⟨fun _ _ k x _ hx _ => absurd hx (hA k x), h⟩

/-- An entry comes into the uppermost layer. -/
theorem Scattered.insert (h : Scattered addr (A :: ls)) {key : κ} {new : ε}
    (hB : ∀ k x, B k x → A k x ∨ k = key ∧ x = new) (hnew : Unused addr ls key (addr new)) :
    Scattered addr (B :: ls) := by
  obtain ⟨htop, hrest⟩ := List.pairwise_cons.mp h
  refine List.pairwise_cons.mpr ⟨fun C hC k x y hx hy => ?_, hrest⟩
  rcases hB k x hx with hx | ⟨rfl, rfl⟩
  · exact htop C hC k x y hx hy
  · exact (hnew C hC y hy).symm

/-- A layer of one list has a counterpart in the other. -/
theorem exists_of_forall₂ {R : Layer κ ε → Layer κ ε → Prop} {ls' : List (Layer κ ε)}
    (h : List.Forall₂ R ls' ls) (hA : A ∈ ls') : ∃ B ∈ ls, R A B := by
  induction h with
  | nil => cases hA
  | @cons A' B' _ _ hR _ ih =>
    rcases List.mem_cons.mp hA with rfl | hA
    · exact ⟨B', List.mem_cons_self, hR⟩
    · obtain ⟨B, hB, hR⟩ := ih hA
      exact ⟨B, List.mem_cons_of_mem _ hB, hR⟩

/-- Entries disappear from any of the layers. -/
theorem Scattered.shrink {ls' : List (Layer κ ε)} (h : Scattered addr ls)
    (hls : List.Forall₂ (fun A B => ∀ k x, A k x → B k x) ls' ls) : Scattered addr ls' := by
  induction hls with
  | nil => exact h
  | @cons A B ls' ls hA hls ih =>
    obtain ⟨htop, hrest⟩ := List.pairwise_cons.mp h
    refine List.pairwise_cons.mpr ⟨fun C hC => ?_, ih hrest⟩
    obtain ⟨C', hC', hle⟩ := exists_of_forall₂ hls hC
    exact (htop C' hC').of_imp hA hle

/-- The two lowest layers are merged. -/
theorem Scattered.merge (h : Scattered addr (ls ++ [A, B])) (hC : ∀ k x, C k x → A k x ∨ B k x) :
    Scattered addr (ls ++ [C]) := by
  obtain ⟨hls, -, hcross⟩ := List.pairwise_append.mp h
  refine List.pairwise_append.mpr ⟨hls, List.pairwise_singleton _ C, fun D hD E hE => ?_⟩
  rw [List.mem_singleton.mp hE]
  intro k x y hx hy
  rcases hC k y hy with hy | hy
  · exact hcross D hD A List.mem_cons_self k x y hx hy
  · exact hcross D hD B (List.mem_cons_of_mem _ List.mem_cons_self) k x y hx hy

/-- A layer above another one. -/
theorem Scattered.apart (h : Scattered addr ls) {i j : ℕ} (hij : i < j) (hA : ls[i]? = some A)
    (hB : ls[j]? = some B) : Apart addr A B := by
  obtain ⟨hi, rfl⟩ := List.getElem?_eq_some_iff.mp hA
  obtain ⟨hj, rfl⟩ := List.getElem?_eq_some_iff.mp hB
  exact List.pairwise_iff_getElem.mp h i j hi hj hij

end Layers
