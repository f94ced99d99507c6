import Mathlib.Data.List.Basic
import Mathlib.Data.Nat.Basic

/-!
# Logs of stamped puts

A store that only ever takes puts is described by the log of its puts, newest first: the
value of a key is the first entry for it. The values carry the time at which they entered
the system, which may be long before they are put. `PutLog.Ordered` says that for no key an
older value was put over a newer one; in such a log the value of a key is the newest one
ever put (`Ordered.newest_max`).
-/

/-- A value and the time it was stamped with. -/
structure Stamped (D : Type) where
  /-- the value -/
  data : D
  /-- the time -/
  stamp : ℕ

/-- Puts of stamped values, newest first. -/
abbrev PutLog (D : Type) : Type := List (ℕ × Stamped D)

namespace PutLog

variable {D : Type}

/-- The value of `key`: the one put last. -/
def newest (l : PutLog D) (key : ℕ) : Option (Stamped D) :=
  (l.find? fun p => p.1 = key).map Prod.snd

/-- No value was put over a newer one. -/
def Ordered (l : PutLog D) : Prop :=
  l.Pairwise fun later earlier => later.1 = earlier.1 → earlier.2.stamp ≤ later.2.stamp

/-- The entries `es` are put one after the other. -/
def putAll (l : PutLog D) (es : List (ℕ × Stamped D)) : PutLog D := es.reverse ++ l

theorem mem_putAll {l : PutLog D} {es : List (ℕ × Stamped D)} {p : ℕ × Stamped D} :
    p ∈ l.putAll es ↔ p ∈ es ∨ p ∈ l := by
  rw [putAll, List.mem_append, List.mem_reverse]

/-- Puts for different keys, none of them older than what the log has for its key. -/
theorem Ordered.putAll {l : PutLog D} {es : List (ℕ × Stamped D)} (h : l.Ordered)
    (hkeys : es.Pairwise fun a b => a.1 ≠ b.1)
    (hnew : ∀ e ∈ es, ∀ p ∈ l, p.1 = e.1 → p.2.stamp ≤ e.2.stamp) : (l.putAll es).Ordered := by
  refine List.pairwise_append.mpr ⟨?_, h, ?_⟩
  · rw [List.pairwise_reverse]
    exact hkeys.imp fun hne heq => absurd heq.symm hne
  · intro e he p hp heq
    exact hnew e (List.mem_reverse.mp he) p hp heq.symm

/-- In an ordered log the value of a key is the newest one ever put. -/
theorem Ordered.newest_max {l : PutLog D} (h : l.Ordered) {key : ℕ} {v : Stamped D}
    (hv : (key, v) ∈ l) :
    ∃ b, l.newest key = some b ∧ (key, b) ∈ l ∧ v.stamp ≤ b.stamp := by
  induction l with
  | nil => cases hv
  | cons p l ih =>
    obtain ⟨hhead, htail⟩ := List.pairwise_cons.mp h
    by_cases hp : p.1 = key
    · refine ⟨p.2, by simp [newest, hp], ?_, ?_⟩
      · rw [← hp]
        exact List.mem_cons_self
      · rcases List.mem_cons.mp hv with rfl | hold
        · exact le_rfl
        · exact hhead _ hold hp
    · have hold : (key, v) ∈ l := by
        rcases List.mem_cons.mp hv with rfl | hold
        · exact absurd rfl hp
        · exact hold
      obtain ⟨b, hb, hmem, hle⟩ := ih htail hold
      refine ⟨b, ?_, List.mem_cons_of_mem _ hmem, hle⟩
      rw [newest, List.find?_cons_of_neg (by simpa using hp)]
      exact hb

end PutLog
