import Mathlib.Data.List.Basic
import Mathlib.Logic.Function.Basic

/-!
# Keys, their owners, and what is sealed under them

A cipher whose nonce is fixed is safe only as long as every key seals one message. This
module is the bookkeeping behind that: owners draw keys, a fresh draw replaces the key an
owner had, and an owner seals messages under the key it holds. The log keeps every
(key, message) pair of the past, whoever sealed it.

`KeyLog.Sound` is what makes the log free of collisions: a key that is held belongs to one
owner, and everything ever sealed under it was sealed by that owner since it drew the key.
`Sound.draw` and `Sound.seal` are the two ways to go on.
-/

universe u v w

/-- Owners `ω` holding keys `κ`, under which messages `π` are sealed. -/
structure KeyLog (ω : Type u) (κ : Type v) (π : Type w) where
  /-- the key an owner holds -/
  key : ω → Option κ
  /-- what the owner sealed since it drew that key -/
  sealed : ω → List π
  /-- the keys drawn so far -/
  drawn : List κ
  /-- everything sealed so far -/
  log : List (κ × π)

namespace KeyLog

variable {ω : Type u} {κ : Type v} {π : Type w} [DecidableEq ω]

/-- Owner `o` draws the key `k`. -/
def draw (s : KeyLog ω κ π) (o : ω) (k : κ) : KeyLog ω κ π :=
  { s with
    key := Function.update s.key o (some k)
    sealed := Function.update s.sealed o []
    drawn := k :: s.drawn }

/-- Owner `o` seals the messages `ps` under the key `k`. -/
def sealAll (s : KeyLog ω κ π) (o : ω) (k : κ) (ps : List π) : KeyLog ω κ π :=
  { s with
    sealed := Function.update s.sealed o (s.sealed o ++ ps)
    log := s.log ++ ps.map fun p => (k, p) }

theorem draw_key_self (s : KeyLog ω κ π) (o : ω) (k : κ) : (s.draw o k).key o = some k :=
  Function.update_self ..

theorem draw_key_of_ne (s : KeyLog ω κ π) {o o' : ω} (k : κ) (h : o' ≠ o) :
    (s.draw o k).key o' = s.key o' :=
  Function.update_of_ne h ..

theorem draw_sealed_of_ne (s : KeyLog ω κ π) {o o' : ω} (k : κ) (h : o' ≠ o) :
    (s.draw o k).sealed o' = s.sealed o' :=
  Function.update_of_ne h ..

theorem sealAll_sealed_self (s : KeyLog ω κ π) (o : ω) (k : κ) (ps : List π) :
    (s.sealAll o k ps).sealed o = s.sealed o ++ ps :=
  Function.update_self ..

theorem sealAll_sealed_of_ne (s : KeyLog ω κ π) {o o' : ω} (k : κ) (ps : List π) (h : o' ≠ o) :
    (s.sealAll o k ps).sealed o' = s.sealed o' :=
  Function.update_of_ne h ..

/-- Every key that is held has one owner, who sealed all that was sealed under it; and
what was sealed under one key is one message. -/
structure Sound (s : KeyLog ω κ π) : Prop where
  /-- a held key was drawn -/
  drawn_of_key : ∀ {o k}, s.key o = some k → k ∈ s.drawn
  /-- a held key has one owner -/
  owner_unique : ∀ {o o' k}, s.key o = some k → s.key o' = some k → o = o'
  /-- only drawn keys were used -/
  drawn_of_log : ∀ {k p}, (k, p) ∈ s.log → k ∈ s.drawn
  /-- what was sealed under a held key was sealed by its owner -/
  sealed_of_log : ∀ {o k p}, s.key o = some k → (k, p) ∈ s.log → p ∈ s.sealed o
  /-- no key sealed two messages -/
  unique : ∀ {k p q}, (k, p) ∈ s.log → (k, q) ∈ s.log → p = q

variable {s : KeyLog ω κ π} {o : ω} {k : κ}

/-- A fresh draw keeps the log sound. -/
theorem Sound.draw (h : s.Sound) (hk : k ∉ s.drawn) : (s.draw o k).Sound := by
  have hkey : ∀ {o' k'}, (s.draw o k).key o' = some k' →
      (o' = o ∧ k' = k) ∨ (o' ≠ o ∧ s.key o' = some k') := by
    intro o' k' hk'
    by_cases ho : o' = o
    · subst ho
      refine Or.inl ⟨rfl, ?_⟩
      rw [draw_key_self] at hk'
      exact (Option.some.inj hk').symm
    · refine Or.inr ⟨ho, ?_⟩
      rwa [draw_key_of_ne _ _ ho] at hk'
  constructor
  case drawn_of_key =>
    intro o' k' hk'
    rcases hkey hk' with ⟨rfl, rfl⟩ | ⟨-, hold⟩
    · exact List.mem_cons_self
    · exact List.mem_cons_of_mem _ (h.drawn_of_key hold)
  case owner_unique =>
    intro o₁ o₂ k' h₁ h₂
    -- the new key is fresh, so no old owner can hold it
    rcases hkey h₁ with ⟨rfl, rfl⟩ | ⟨-, hold₁⟩ <;> rcases hkey h₂ with ⟨rfl, heq⟩ | ⟨-, hold₂⟩
    · rfl
    · exact absurd (h.drawn_of_key hold₂) hk
    · exact absurd (heq ▸ h.drawn_of_key hold₁) hk
    · exact h.owner_unique hold₁ hold₂
  case drawn_of_log =>
    intro k' p hp
    exact List.mem_cons_of_mem _ (h.drawn_of_log hp)
  case sealed_of_log =>
    intro o' k' p hk' hp
    rcases hkey hk' with ⟨rfl, rfl⟩ | ⟨ho, hold⟩
    · exact absurd (h.drawn_of_log hp) hk
    · rw [draw_sealed_of_ne _ _ ho]
      exact h.sealed_of_log hold hp
  case unique =>
    intro k' p q hp hq
    exact h.unique hp hq

/-- Sealing what the owner has sealed before (or one first message) keeps the log sound. -/
theorem Sound.sealAll {ps : List π} (h : s.Sound) (hkey : s.key o = some k)
    (hone : ∀ p ∈ ps, ∀ q ∈ s.sealed o ++ ps, p = q) : (s.sealAll o k ps).Sound := by
  have hlog : ∀ {k' p}, (k', p) ∈ (s.sealAll o k ps).log →
      (k', p) ∈ s.log ∨ (k' = k ∧ p ∈ ps) := by
    intro k' p hp
    rcases List.mem_append.mp hp with hold | hnew
    · exact Or.inl hold
    · obtain ⟨q, hq, heq⟩ := List.mem_map.mp hnew
      obtain ⟨rfl, rfl⟩ := Prod.mk.inj heq
      exact Or.inr ⟨rfl, hq⟩
  constructor
  case drawn_of_key => exact h.drawn_of_key
  case owner_unique => exact h.owner_unique
  case drawn_of_log =>
    intro k' p hp
    rcases hlog hp with hold | ⟨rfl, -⟩
    · exact h.drawn_of_log hold
    · exact h.drawn_of_key hkey
  case sealed_of_log =>
    intro o' k' p hk' hp
    rcases hlog hp with hold | ⟨rfl, hnew⟩
    · by_cases ho : o' = o
      · subst ho
        rw [sealAll_sealed_self]
        exact List.mem_append_left _ (h.sealed_of_log hk' hold)
      · rw [sealAll_sealed_of_ne _ _ _ ho]
        exact h.sealed_of_log hk' hold
    · obtain rfl := h.owner_unique hkey hk'
      rw [sealAll_sealed_self]
      exact List.mem_append_right _ hnew
  case unique =>
    intro k' p q hp hq
    rcases hlog hp with hold | ⟨rfl, hnew⟩ <;> rcases hlog hq with hold' | ⟨hk', hnew'⟩
    · exact h.unique hold hold'
    · subst hk'
      exact (hone q hnew' p (List.mem_append_left _ (h.sealed_of_log hkey hold))).symm
    · exact hone p hnew q (List.mem_append_left _ (h.sealed_of_log hkey hold'))
    · exact hone p hnew q (List.mem_append_right _ hnew')

end KeyLog
