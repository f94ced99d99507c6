import JinDisk.Lib.Run
import JinDisk.Lib.Semaphore
import JinDisk.Targets

/-!
# The limit of readers

`process_deferred_bios` waits for a permit of `max_reader`, up to 300 ms, and then starts an
`async_read`, which gives a permit back when it is over. What `down_timeout` returns is kept in
`timeout`, and nobody looks at it: a read that got no permit is started all the same, and it gives
back a permit that it never had.

So permits are conserved until the first such read is over (`permits_conserved_iff`), and there
is no limit to what `max_reader` can grow to (`exists_count_eq`).
-/

namespace JinDisk

open Machine

/-- A read that `down_timeout` has returned for. -/
structure DeferredRead (D : Type) where
  /-- the bio -/
  bio : Request D
  /-- `timeout` -/
  timeout : Bool

/-- Where `process_deferred_bios` is. -/
inductive DeferredWorker (D : Type) where
  /-- it does not run -/
  | idle
  /-- at the head of its loop -/
  | loop (bios : List (Request D))
  /-- asleep in `down_timeout` -/
  | downTimeout (bio : Request D) (bios : List (Request D))
  /-- at `go` -/
  | go (read : DeferredRead D) (bios : List (Request D))

/-- The deferred bios, their worker and the reads. -/
structure ReaderState (D : Type) where
  /-- `max_reader`, which only the worker waits for -/
  maxReader : Semaphore Unit
  /-- `deferred_bios` -/
  deferredBios : List (Request D)
  /-- `deferred_bio_worker` is queued -/
  scheduled : Bool
  /-- the worker -/
  worker : DeferredWorker D
  /-- the reads whose `async_read` is queued or runs -/
  reads : List (DeferredRead D)
  /-- the reads that `go` had no memory for; their bios never end -/
  dropped : List (DeferredRead D)

/-- The steps. -/
inductive ReaderAction (D : Type) where
  /-- `defer_bio` -/
  | defer (bio : Request D)
  /-- the worker starts: `bio_list_take_safe` -/
  | takeBios
  /-- `bio_list_pop`, and what is done with the bio up to `go`, if `down_timeout` does not sleep -/
  | popBio
  /-- the 300 ms of `down_timeout` are over -/
  | timeout
  /-- `go`, with memory for the closure or without -/
  | go (memory : Bool)
  /-- an `async_read` ends: `jindisk_do_read` has returned, `up` -/
  | asyncRead (n : ℕ)

variable {D : Type}

namespace DeferredWorker

/-- Who waits for `max_reader`. -/
def waitList : DeferredWorker D → List Unit
  | downTimeout .. => [()]
  | _ => []

/-- The read that is just being started. -/
def reads : DeferredWorker D → List (DeferredRead D)
  | go read _ => [read]
  | _ => []

/-- Who waits is the worker. -/
theorem of_waitList_eq_cons {w : DeferredWorker D} {i : Unit} {waiters : List Unit}
    (h : w.waitList = i :: waiters) : waiters = [] ∧ ∃ bio bios, w = .downTimeout bio bios := by
  cases w with
  | downTimeout bio bios => exact ⟨(List.cons.inj h).2.symm, bio, bios, rfl⟩
  | _ => cases h

/-- `down_timeout` returns with a permit. -/
def wake : DeferredWorker D → DeferredWorker D
  | downTimeout bio bios => go ⟨bio, false⟩ bios
  | w => w

end DeferredWorker

namespace ReaderState

/-- After `dm_jindisk_target_ctr`. -/
def init : ReaderState D := ⟨.init maxReaders, [], false, .idle, [], []⟩

/-- One step; `none` if there is nothing to do. -/
def step (s : ReaderState D) : ReaderAction D → Option (ReaderState D)
  | .defer bio => some { s with deferredBios := s.deferredBios ++ [bio], scheduled := true }
  | .takeBios =>
    match s.worker with
    | .idle =>
      if s.scheduled then
        some { s with deferredBios := [], scheduled := false, worker := .loop s.deferredBios }
      else none
    | _ => none
  | .popBio =>
    match s.worker with
    | .loop [] => some { s with worker := .idle }
    | .loop (.read start count :: bios) =>
      match s.maxReader.down () with
      | (true, sem) =>
        some { s with maxReader := sem, worker := .go ⟨.read start count, false⟩ bios }
      | (false, sem) =>
        some { s with maxReader := sem, worker := .downTimeout (.read start count) bios }
    | .loop (.write .. :: bios) => some { s with worker := .loop bios }
    | _ => none
  | .timeout =>
    match s.worker with
    | .downTimeout bio bios =>
      some { s with maxReader := s.maxReader.expire (), worker := .go ⟨bio, true⟩ bios }
    | _ => none
  | .go memory =>
    match s.worker with
    | .go read bios =>
      -- `timeout` is not looked at
      if memory then some { s with worker := .loop bios, reads := s.reads ++ [read] }
      else some { s with worker := .loop bios, dropped := s.dropped ++ [read] }
    | _ => none
  | .asyncRead n =>
    (s.reads[n]?).map fun _ =>
      match s.maxReader.up with
      | (none, sem) => { s with maxReader := sem, reads := s.reads.eraseIdx n }
      | (some _, sem) =>
        { s with maxReader := sem, reads := s.reads.eraseIdx n, worker := s.worker.wake }

/-- The reads that `down_timeout` has returned for and that have not ended. -/
def uncompleted (s : ReaderState D) : List (DeferredRead D) :=
  s.worker.reads ++ s.reads ++ s.dropped

/-- How many of them `down_timeout` has returned 0 for. -/
def permits (s : ReaderState D) : ℕ := s.uncompleted.countP fun r => !r.timeout

/-- Every permit is free or belongs to a read that has not ended. -/
def PermitsConserved (s : ReaderState D) : Prop := s.maxReader.count + s.permits = maxReaders

instance (s : ReaderState D) : Decidable s.PermitsConserved := inferInstanceAs (Decidable (_ = _))

/-- The read that ends with the step. -/
def ending (s : ReaderState D) : ReaderAction D → Option (DeferredRead D)
  | .asyncRead n => s.reads[n]?
  | _ => none

/-- A read that ends had got a permit. -/
def EndsWithPermit (s : ReaderState D) (a : ReaderAction D) : Prop :=
  ∀ r ∈ s.ending a, r.timeout = false

/-! ## One step -/

/-- The worker waits for `max_reader` if it sleeps in `down_timeout`, and then no permit is free. -/
structure Inv (s : ReaderState D) : Prop where
  /-- who waits -/
  waitList : s.maxReader.waitList = s.worker.waitList
  /-- nobody waits for a free permit -/
  settled : s.maxReader.Settled

theorem inv_init : (init : ReaderState D).Inv := ⟨rfl, Semaphore.settled_init maxReaders⟩

/-- The permits that are there: the free ones and those of reads. -/
def total (s : ReaderState D) : ℕ := s.maxReader.count + s.permits

/-- How many permits the step gives back that no read had. -/
def overdraft (s : ReaderState D) (a : ReaderAction D) : ℕ :=
  (s.ending a).toList.countP DeferredRead.timeout

variable {s t : ReaderState D} {a : ReaderAction D}

theorem permits_eq (s : ReaderState D) :
    s.permits = (s.worker.reads.countP fun r => !r.timeout) +
      (s.reads.countP fun r => !r.timeout) + s.dropped.countP fun r => !r.timeout := by
  rw [permits, uncompleted, List.countP_append, List.countP_append]

theorem endsWithPermit_iff : s.EndsWithPermit a ↔ s.overdraft a = 0 := by
  rw [EndsWithPermit, overdraft, List.countP_eq_zero]
  simp only [Option.mem_toList, Option.mem_def, Bool.not_eq_true]

/-- The worker goes on, and neither waits nor starts a read more or less than before. -/
theorem Inv.goOn (h : s.Inv) {deferredBios : List (Request D)} {scheduled : Bool}
    {worker : DeferredWorker D} (hwait : worker.waitList = s.worker.waitList)
    (hreads : worker.reads = s.worker.reads) :
    ({ s with deferredBios, scheduled, worker } : ReaderState D).Inv ∧
      ({ s with deferredBios, scheduled, worker } : ReaderState D).total = s.total := by
  refine ⟨⟨h.waitList.trans hwait.symm, h.settled⟩, ?_⟩
  simp only [total, permits_eq, hreads]

/-- The worker comes to a read. -/
theorem Inv.popRead (h : s.Inv) {bio : Request D} {start count : ℕ} {bios : List (Request D)}
    (hbio : bio = .read start count) (hw : s.worker = .loop (bio :: bios))
    (hs : s.step .popBio = some t) : t.Inv ∧ t.total = s.total := by
  subst hbio
  have hwait : s.maxReader.waitList = [] := by
    rw [h.waitList, hw]
    rfl
  have hsettled := h.settled.down ()
  simp only [step, hw] at hs
  rcases Nat.eq_zero_or_pos s.maxReader.count with hzero | hpos
  · rw [Semaphore.down_of_zero hzero] at hs hsettled
    obtain rfl := Option.some.inj hs
    refine ⟨⟨?_, hsettled⟩, ?_⟩
    · simp only [hwait]
      rfl
    · simp only [total, permits_eq, hw, DeferredWorker.reads]
  · rw [Semaphore.down_of_pos hpos] at hs hsettled
    obtain rfl := Option.some.inj hs
    refine ⟨⟨hwait, hsettled⟩, ?_⟩
    simp only [total, permits_eq, hw, DeferredWorker.reads, List.countP_nil, List.countP_singleton]
    simp only [Bool.not_false, if_true]
    omega

/-- **A read ends.** Its permit goes to the worker, if it waits, or becomes a free one; and if the
read had none, there is a permit more. -/
theorem Inv.asyncRead (h : s.Inv) {n : ℕ} (hs : s.step (.asyncRead n) = some t) :
    t.Inv ∧ t.total = s.total + s.overdraft (.asyncRead n) := by
  obtain ⟨r, hr, rfl⟩ := Option.map_eq_some_iff.mp hs
  obtain ⟨hn, rfl⟩ := List.getElem?_eq_some_iff.mp hr
  have hoverdraft : s.overdraft (.asyncRead n) = if s.reads[n].timeout then 1 else 0 := by
    rw [overdraft, ending, hr, Option.toList_some, List.countP_singleton]
  have hreads : (s.reads.countP fun r => !r.timeout) =
      ((s.reads.eraseIdx n).countP fun r => !r.timeout) +
        if s.reads[n].timeout then 0 else 1 := by
    rw [(List.getElem_cons_eraseIdx_perm hn).symm.countP_eq, List.countP_cons]
    cases s.reads[n].timeout <;> rfl
  have hsettled := h.settled.up
  cases hwait : s.maxReader.waitList with
  | nil =>
    rw [Semaphore.up_of_nil hwait] at hsettled ⊢
    refine ⟨⟨h.waitList, hsettled⟩, ?_⟩
    simp only [total, permits_eq, hreads, hoverdraft]
    split <;> omega
  | cons i waiters =>
    obtain ⟨rfl, bio, bios, hw⟩ := DeferredWorker.of_waitList_eq_cons (h.waitList.symm.trans hwait)
    rw [Semaphore.up_of_cons hwait] at hsettled ⊢
    refine ⟨⟨?_, hsettled⟩, ?_⟩
    · rw [hw]
      rfl
    · simp only [total, permits_eq, hw, DeferredWorker.wake, DeferredWorker.reads, hreads,
        hoverdraft, List.countP_nil, List.countP_singleton, Bool.not_false, if_true]
      split <;> omega

/-- **One step.** -/
theorem Inv.step (h : s.Inv) (hs : s.step a = some t) :
    t.Inv ∧ t.total = s.total + s.overdraft a := by
  cases a with
  | defer bio =>
    obtain rfl := Option.some.inj hs
    exact h.goOn rfl rfl
  | takeBios =>
    simp only [ReaderState.step] at hs
    split at hs
    · rename_i hw
      split at hs
      · obtain rfl := Option.some.inj hs
        exact h.goOn (by rw [hw]; rfl) (by rw [hw]; rfl)
      · cases hs
    · cases hs
  | popBio =>
    have hs' := hs
    simp only [ReaderState.step] at hs
    split at hs
    · rename_i hw
      obtain rfl := Option.some.inj hs
      exact h.goOn (by rw [hw]; rfl) (by rw [hw]; rfl)
    · rename_i hw
      exact h.popRead rfl hw hs'
    · rename_i hw
      obtain rfl := Option.some.inj hs
      exact h.goOn (by rw [hw]; rfl) (by rw [hw]; rfl)
    · cases hs
  | timeout =>
    simp only [ReaderState.step] at hs
    split at hs
    · rename_i bio bios hw
      obtain rfl := Option.some.inj hs
      refine ⟨⟨?_, h.settled.expire ()⟩, ?_⟩
      · rw [Semaphore.expire, h.waitList, hw]
        rfl
      · simp only [total, permits_eq, hw, DeferredWorker.reads, List.countP_nil,
          List.countP_singleton, Bool.not_true, Bool.false_eq_true, if_false]
        rfl
    · cases hs
  | go memory =>
    simp only [ReaderState.step] at hs
    split at hs
    · rename_i read bios hw
      have hwait : s.maxReader.waitList = [] := by
        rw [h.waitList, hw]
        rfl
      split at hs
      all_goals
        obtain rfl := Option.some.inj hs
        refine ⟨⟨hwait, h.settled⟩, ?_⟩
        simp only [total, permits_eq, hw, DeferredWorker.reads, List.countP_nil,
          List.countP_append, List.countP_singleton, overdraft, ending, Option.toList_none]
        omega
    · cases hs
  | asyncRead n => exact h.asyncRead hs

/-! ## Runs -/

/-- The number of permits stays what it is as long as no read ends that had none. -/
theorem total_eq_iff_along (run : List (ReaderAction D)) :
    (∀ as s, as <+: run → exec step init as = some s → s.total = maxReaders) ↔
      Along step EndsWithPermit init run := by
  have hstart : (init : ReaderState D).total = maxReaders := rfl
  refine always_iff_along (fun s a t h hs => (h.step hs).1) (fun s a t h hbefore hs => ?_)
    (fun s a hs => ?_) inv_init hstart run
  · have htotal := (h.step hs).2
    rw [endsWithPermit_iff]
    omega
  · -- the end of a read is possible whenever there is one
    intro r hr
    cases a with
    | asyncRead n =>
      have hnone := Option.map_eq_none_iff.mp hs
      cases hnone.symm.trans hr
    | _ => cases hr

/-- **The permits of `max_reader`** are conserved all along a run, and their number does not rise
above `MAX_READER`, exactly if no read ends that got no permit. -/
theorem permits_conserved_iff (run : List (ReaderAction D)) :
    (∀ as s, as <+: run → exec step init as = some s →
      s.PermitsConserved ∧ s.maxReader.count ≤ maxReaders) ↔
      Along step EndsWithPermit init run := by
  rw [← total_eq_iff_along]
  have hiff : ∀ s : ReaderState D,
      s.PermitsConserved ∧ s.maxReader.count ≤ maxReaders ↔ s.total = maxReaders :=
    fun s => and_iff_left_of_imp fun h => Nat.le.intro h
  simp only [hiff]

/-- What the limit is for: in such a run a wait times out only while `MAX_READER` reads with a
permit have not ended. -/
theorem permits_of_timeout {run : List (ReaderAction D)} (hrun : exec step init run = some s)
    (hpaid : Along step EndsWithPermit init run) (hs : s.step .timeout = some t) :
    s.permits = maxReaders := by
  have hinv : s.Inv := invariant_of_all (fun _ _ _ h hstep => (h.step hstep).1) inv_init hrun
  have htotal := (total_eq_iff_along run).mpr hpaid run s (List.prefix_refl run) hrun
  simp only [ReaderState.step] at hs
  split at hs
  · rename_i bio bios hw
    have hwait : s.maxReader.waitList ≠ [] := by
      rw [hinv.waitList, hw]
      exact List.cons_ne_nil _ _
    rw [total, hinv.settled.resolve_left hwait, Nat.zero_add] at htotal
    exact htotal
  · cases hs

/-! ## The limit is lost -/

/-- The worker is idle, and these reads have not ended. -/
def quiet (count : ℕ) (reads : List (DeferredRead D)) : ReaderState D :=
  ⟨⟨count, []⟩, [], false, .idle, reads, []⟩

/-- A read comes and gets a permit. -/
def startRead : List (ReaderAction D) :=
  [.defer (.read 0 1), .takeBios, .popBio, .go true, .popBio]

/-- A read comes and gets none. -/
def startLate : List (ReaderAction D) :=
  [.defer (.read 0 1), .takeBios, .popBio, .timeout, .go true, .popBio]

theorem exec_startRead (count : ℕ) (reads : List (DeferredRead D)) :
    exec step (quiet (count + 1) reads) startRead =
      some (quiet count (reads ++ [⟨.read 0 1, false⟩])) := rfl

theorem exec_startLate (reads : List (DeferredRead D)) :
    exec step (quiet 0 reads) startLate =
      some (quiet 0 (reads ++ [⟨.read 0 1, true⟩])) := rfl

/-- Reads come until no permit is free. -/
theorem exec_startReads (count : ℕ) (reads : List (DeferredRead D)) :
    ∃ more : List (DeferredRead D), more.length = count ∧
      exec step (quiet count reads) (List.replicate count startRead).flatten =
        some (quiet 0 (reads ++ more)) := by
  induction count generalizing reads with
  | zero => exact ⟨[], rfl, by rw [List.append_nil]; rfl⟩
  | succ count ih =>
    obtain ⟨more, hlength, hmore⟩ := ih (reads ++ [⟨.read 0 1, false⟩])
    refine ⟨⟨.read 0 1, false⟩ :: more, congrArg Nat.succ hlength, ?_⟩
    rw [List.replicate_succ, List.flatten_cons]
    refine exec_append_of (exec_startRead count reads) (hmore.trans ?_)
    rw [List.append_assoc, List.singleton_append]

/-- All reads end. -/
theorem exec_endReads (count : ℕ) (reads : List (DeferredRead D)) :
    exec step (quiet count reads) (List.replicate reads.length (.asyncRead 0)) =
      some (quiet (count + reads.length) []) := by
  induction reads generalizing count with
  | nil => rfl
  | cons r reads ih =>
    rw [List.length_cons, List.replicate_succ]
    have hend : step (quiet count (r :: reads)) (.asyncRead 0) = some (quiet (count + 1) reads) := rfl
    refine exec_cons_of hend ((ih (count + 1)).trans ?_)
    rw [Nat.add_right_comm, Nat.add_assoc]

/-- Five reads come. Four get the permits, the fifth is started when its 300 ms are over, and then
all of them end. -/
def fiveReads : List (ReaderAction Unit) :=
  startRead ++ (startRead ++ (startRead ++ (startRead ++
    (startLate ++ List.replicate 5 (.asyncRead 0)))))

/-- **A permit too many.** -/
theorem fifth_permit_free :
    ∃ s, exec step init fiveReads = some s ∧ s.uncompleted = [] ∧
      s.maxReader.count = maxReaders + 1 ∧ ¬s.PermitsConserved := by
  refine ⟨quiet (maxReaders + 1) [], ?_, rfl, rfl, by decide⟩
  refine exec_append_of (exec_startRead 3 []) ?_
  refine exec_append_of (exec_startRead 2 _) ?_
  refine exec_append_of (exec_startRead 1 _) ?_
  refine exec_append_of (exec_startRead 0 _) ?_
  exact exec_append_of (exec_startLate _) (exec_endReads 0 _)

/-- One read too many, and there is a permit more. -/
theorem exists_exec_quiet (count : ℕ) :
    ∃ run : List (ReaderAction D),
      exec step (quiet count []) run = some (quiet (count + 1) []) := by
  obtain ⟨more, hlength, hmore⟩ := exec_startReads (D := D) count []
  have hend := exec_endReads 0 ([] ++ more ++ [⟨.read 0 1, true⟩])
  rw [List.length_append, List.nil_append, hlength, Nat.zero_add] at hend
  exact ⟨_, exec_append_of hmore (exec_append_of (exec_startLate _) hend)⟩

/-- **No limit is left.** Whatever number of permits, some run ends with that many of them free. -/
theorem exists_count_eq (n : ℕ) :
    ∃ (run : List (ReaderAction D)) (s : ReaderState D), exec step init run = some s ∧
      s.uncompleted = [] ∧ s.maxReader.count = maxReaders + n := by
  suffices h : ∃ run : List (ReaderAction D),
      exec step init run = some (quiet (maxReaders + n) []) by
    obtain ⟨run, hrun⟩ := h
    exact ⟨run, _, hrun, rfl, rfl⟩
  induction n with
  | zero => exact ⟨[], rfl⟩
  | succ n ih =>
    obtain ⟨run, hrun⟩ := ih
    obtain ⟨run', hrun'⟩ := exists_exec_quiet (maxReaders + n)
    exact ⟨run ++ run', exec_append_of hrun hrun'⟩

end ReaderState

end JinDisk
