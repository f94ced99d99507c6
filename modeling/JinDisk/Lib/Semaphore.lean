import Mathlib.Data.List.Basic

/-!
# Counting semaphores

A semaphore has free permits and a list of those who wait for one. `down` takes a free permit or
joins the list. `up` hands a permit to who has waited longest, and only if nobody waits the permit
becomes a free one. Who has waited long enough may leave without a permit.

Nothing of this looks at who calls `up`. That permits are conserved is up to the callers: each
`up` has to give back what a `down` took.
-/

universe u

/-- The free permits, and who waits for one, the longest first. -/
structure Semaphore (ι : Type u) where
  /-- the free permits -/
  count : ℕ
  /-- who waits -/
  waitList : List ι

namespace Semaphore

variable {ι : Type u}

/-- A semaphore that nobody waits for. -/
def init (val : ℕ) : Semaphore ι := ⟨val, []⟩

/-- Take a permit; `false` if there is none, and `i` waits. -/
def down (s : Semaphore ι) (i : ι) : Bool × Semaphore ι :=
  if 0 < s.count then (true, { s with count := s.count - 1 })
  else (false, { s with waitList := s.waitList ++ [i] })

/-- Give a permit; who gets it, if somebody waits. -/
def up (s : Semaphore ι) : Option ι × Semaphore ι :=
  match s.waitList with
  | [] => (none, { s with count := s.count + 1 })
  | i :: waiters => (some i, { s with waitList := waiters })

/-- The time of `i` is over. -/
def expire [DecidableEq ι] (s : Semaphore ι) (i : ι) : Semaphore ι :=
  { s with waitList := s.waitList.erase i }

theorem down_of_pos {s : Semaphore ι} (h : 0 < s.count) (i : ι) :
    s.down i = (true, { s with count := s.count - 1 }) := if_pos h

theorem down_of_zero {s : Semaphore ι} (h : s.count = 0) (i : ι) :
    s.down i = (false, { s with waitList := s.waitList ++ [i] }) :=
  if_neg (Nat.not_lt.mpr (Nat.le_of_eq h))

theorem up_of_nil {s : Semaphore ι} (h : s.waitList = []) :
    s.up = (none, { s with count := s.count + 1 }) := by
  rw [up, h]

theorem up_of_cons {s : Semaphore ι} {i : ι} {waiters : List ι} (h : s.waitList = i :: waiters) :
    s.up = (some i, { s with waitList := waiters }) := by
  rw [up, h]

/-! ## Nobody waits for a free permit -/

/-- If somebody waits, no permit is free. -/
def Settled (s : Semaphore ι) : Prop := s.waitList = [] ∨ s.count = 0

theorem settled_init (val : ℕ) : (init val : Semaphore ι).Settled := Or.inl rfl

theorem Settled.down {s : Semaphore ι} (h : s.Settled) (i : ι) : (s.down i).2.Settled := by
  rcases Nat.eq_zero_or_pos s.count with hzero | hpos
  · rw [down_of_zero hzero]
    exact Or.inr hzero
  · rw [down_of_pos hpos]
    exact Or.inl (h.resolve_right (Nat.ne_of_gt hpos))

theorem Settled.up {s : Semaphore ι} (h : s.Settled) : s.up.2.Settled := by
  cases hwait : s.waitList with
  | nil =>
    rw [up_of_nil hwait]
    exact Or.inl hwait
  | cons i waiters =>
    rw [up_of_cons hwait]
    exact Or.inr (h.resolve_left (by rw [hwait]; exact List.cons_ne_nil _ _))

theorem Settled.expire [DecidableEq ι] {s : Semaphore ι} (h : s.Settled) (i : ι) :
    (s.expire i).Settled := by
  refine h.imp_left fun hnil => ?_
  rw [Semaphore.expire, hnil, List.erase_nil]

end Semaphore
