import Mathlib.Data.List.Chain
import JinDisk.Lib.Run

/-!
# The end of a read

`jindisk_do_read` collects the blocks that have to be read from the disk, cuts them into ranges
of consecutive physical blocks, issues the ranges one by one and waits for `decrypt_work` of all
of them. What it waits with is a counter, incremented for each range and decremented by each
`decrypt_work`, and a completion, signalled by a `decrypt_work` that finds the counter at zero.

The counter starts at zero. If the first ranges are done before the next one is issued, it comes
back to zero and the completion is signalled; the reader then does not wait for the ranges that
follow.
-/

namespace JinDisk

open Machine

/-- `range_start` and `range_end` of a call of `merge_read_io` -/
abbrev BlockRange : Type := ℕ × ℕ

/-- The loop of `jindisk_do_read` that merges blocks, given the physical blocks from `range_end`
on. -/
def mergeFrom : ℕ → ℕ → List ℕ → List BlockRange
  | _, _, [] => []
  | start, stop, [_] => [(start, stop)]
  | start, stop, p :: q :: pbas =>
    if p + 1 = q then mergeFrom start (stop + 1) (q :: pbas)
    else (start, stop) :: mergeFrom (stop + 1) (stop + 1) (q :: pbas)

/-- The ranges of a read. -/
def mergedRanges (pbas : List ℕ) : List BlockRange := mergeFrom 0 0 pbas

/-- How far a range is after it was issued. -/
inductive RangeWork where
  /-- the disk is being read -/
  | issued
  /-- `read_iocb` got an error, and that is the end of it -/
  | failed
  /-- the loop of `decrypt_work` is done: the data is there -/
  | decrypted
  /-- `atomic_dec_and_test` has returned -/
  | counted (zero : Bool)
  /-- `complete` was called if it had to be -/
  | finished
  deriving DecidableEq

/-- What `jindisk_do_read` does next. -/
inductive ReaderPc where
  /-- the loop, with the ranges that are left -/
  | issue (rest : List BlockRange)
  /-- `merge_read_io` has incremented the counter -/
  | submit (range : BlockRange) (rest : List BlockRange)
  /-- `wait_for_completion_io` -/
  | wait
  /-- `bio_endio` was called -/
  | ended
  deriving DecidableEq

/-- The reader and the ranges it has issued. -/
structure ReadState where
  /-- the reader -/
  pc : ReaderPc
  /-- `wait_cnt` -/
  waitCnt : ℤ
  /-- `done` of the completion -/
  done : ℕ
  /-- the ranges issued so far -/
  works : List (BlockRange × RangeWork)
  deriving DecidableEq

/-- The steps of the reader and of the ranges. -/
inductive ReadAction where
  /-- `atomic_inc` in `merge_read_io` -/
  | inc
  /-- `merge_read_io` gets no memory -/
  | noMemory
  /-- `jindisk_read_blocks` in `merge_read_io` -/
  | submit
  /-- `atomic_read` behind the loop -/
  | check
  /-- the reader wakes up -/
  | wake
  /-- `read_iocb` of a range, with an error -/
  | ioError (i : ℕ)
  /-- the loop of `decrypt_work` of a range -/
  | decrypt (i : ℕ)
  /-- `atomic_dec_and_test` in `decrypt_work` -/
  | dec (i : ℕ)
  /-- `complete` in `decrypt_work`, if it has to be called -/
  | complete (i : ℕ)

namespace ReadState

/-- The read of these physical blocks, before its first range is issued. -/
def init (pbas : List ℕ) : ReadState := ⟨.issue (mergedRanges pbas), 0, 0, []⟩

/-- The range `i` was at `old` and is now at `new`. -/
def advance (s : ReadState) (i : ℕ) (old new : RangeWork) : Option ReadState :=
  (s.works[i]?).bind fun w =>
    if w.2 = old then some { s with works := s.works.set i (w.1, new) } else none

/-- One step; `none` if it is not its turn. -/
def step (s : ReadState) : ReadAction → Option ReadState
  | .inc =>
    match s.pc with
    | .issue (range :: rest) => some { s with pc := .submit range rest, waitCnt := s.waitCnt + 1 }
    | _ => none
  | .noMemory =>
    match s.pc with
    | .issue (_ :: rest) => some { s with pc := .issue rest }
    | _ => none
  | .submit =>
    match s.pc with
    | .submit range rest => some { s with pc := .issue rest, works := s.works ++ [(range, .issued)] }
    | _ => none
  | .check =>
    match s.pc with
    | .issue [] => some { s with pc := if s.waitCnt = 0 then .ended else .wait }
    | _ => none
  | .wake =>
    match s.pc, s.done with
    | .wait, done + 1 => some { s with pc := .ended, done := done }
    | _, _ => none
  | .ioError i => s.advance i .issued .failed
  | .decrypt i => s.advance i .issued .decrypted
  | .dec i =>
    (s.advance i .decrypted (.counted (s.waitCnt - 1 = 0))).map fun s =>
      { s with waitCnt := s.waitCnt - 1 }
  | .complete i =>
    match s.advance i (.counted true) .finished with
    | some s => some { s with done := s.done + 1 }
    | none => s.advance i (.counted false) .finished

/-- The data of every range that was issued is there when the bio is ended. -/
def DataThere (s : ReadState) : Prop :=
  s.pc = .ended → ∀ w ∈ s.works, w.2 ≠ .issued ∧ w.2 ≠ .failed

/-- And `decrypt_work` of every range is over by then. -/
def WorksOver (s : ReadState) : Prop := s.pc = .ended → ∀ w ∈ s.works, w.2 = .finished

theorem WorksOver.dataThere {s : ReadState} (h : s.WorksOver) : s.DataThere := by
  intro hended w hw
  rw [h hended w hw]
  exact ⟨nofun, nofun⟩

variable {s t : ReadState}

theorem advance_eq_some {i : ℕ} {old new : RangeWork} (h : s.advance i old new = some t) :
    ∃ r, s.works[i]? = some (r, old) ∧ t = { s with works := s.works.set i (r, new) } := by
  obtain ⟨w, hw, ht⟩ := Option.bind_eq_some_iff.mp h
  split at ht
  · rename_i hold
    obtain rfl := Option.some.inj ht
    exact ⟨w.1, hold ▸ hw, rfl⟩
  · cases ht

/-- The ranges the reader has not handed over yet. -/
def left : ReaderPc → ℕ
  | .issue rest => rest.length
  | .submit _ rest => rest.length + 1
  | .wait => 0
  | .ended => 0

theorem length_advance {i : ℕ} {old new : RangeWork} (h : s.advance i old new = some t) :
    left t.pc + t.works.length = left s.pc + s.works.length := by
  obtain ⟨r, -, rfl⟩ := advance_eq_some h
  rw [List.length_set]

/-- No range is issued that was not there at the start. -/
theorem length_step {a : ReadAction} (h : s.step a = some t) :
    left t.pc + t.works.length ≤ left s.pc + s.works.length := by
  cases a with
  | inc | noMemory | submit =>
    simp only [step] at h
    split at h
    · rename_i hpc
      obtain rfl := Option.some.inj h
      rw [hpc]
      simp only [left, List.length_cons, List.length_append, List.length_nil]
      omega
    · cases h
  | check =>
    simp only [step] at h
    split at h
    · rename_i hpc
      obtain rfl := Option.some.inj h
      rw [hpc]
      split <;> exact le_rfl
    · cases h
  | wake =>
    simp only [step] at h
    split at h
    · rename_i hpc _
      obtain rfl := Option.some.inj h
      rw [hpc]
      exact le_rfl
    · cases h
  | ioError i | decrypt i => exact (length_advance h).le
  | dec i =>
    obtain ⟨t', ht', rfl⟩ := Option.map_eq_some_iff.mp h
    exact (length_advance ht').le
  | complete i =>
    simp only [step] at h
    split at h
    · rename_i t' ht'
      obtain rfl := Option.some.inj h
      exact (length_advance ht').le
    · exact (length_advance h).le

/-! ## At most one range -/

/-- The work still has to decrement the counter. -/
def pending (w : BlockRange × RangeWork) : Bool :=
  w.2 = .issued || w.2 = .failed || w.2 = .decrypted

/-- The range that is counted and not handed over yet. -/
def submitting : ReaderPc → ℕ
  | .submit _ _ => 1
  | _ => 0

/-- A read of one range: what is left of it, and what the counter and the completion tell about
the range. -/
structure Single (s : ReadState) : Prop where
  /-- there is one range -/
  one : left s.pc + s.works.length ≤ 1
  /-- the counter -/
  waitCnt : s.waitCnt = s.works.countP pending + submitting s.pc
  /-- the completion was signalled by the range -/
  done : 0 < s.done → s.works ≠ [] ∧ s.works.countP pending = 0
  /-- the reader has waited for it -/
  ended : s.pc = .ended → s.works.countP pending = 0

theorem single_init {pbas : List ℕ} (h : (mergedRanges pbas).length ≤ 1) : (init pbas).Single :=
  ⟨h, rfl, nofun, nofun⟩

/-- There is no other range than the one that advances. -/
theorem Single.works_eq (h : s.Single) {i : ℕ} {w : BlockRange × RangeWork}
    (hw : s.works[i]? = some w) : i = 0 ∧ s.works = [w] := by
  have hone := h.one
  match hs : s.works with
  | [] =>
    rw [hs] at hw
    cases hw
  | [x] =>
    rw [hs] at hw
    cases i with
    | zero => exact ⟨rfl, congrArg (· :: []) (Option.some.inj hw)⟩
    | succ i => cases hw
  | x :: y :: works =>
    rw [hs] at hone
    simp only [List.length_cons] at hone
    omega

/-- The range goes on. -/
theorem Single.works_advance (h : s.Single) {i : ℕ} {old new : RangeWork}
    (ht : s.advance i old new = some t) :
    ∃ r, s.works = [(r, old)] ∧ t = { s with works := [(r, new)] } := by
  obtain ⟨r, hr, rfl⟩ := advance_eq_some ht
  obtain ⟨rfl, hworks⟩ := h.works_eq hr
  refine ⟨r, hworks, ?_⟩
  rw [hworks]
  rfl

/-- It goes on without a look at the counter. -/
theorem Single.advance (h : s.Single) {i : ℕ} {old new : RangeWork}
    (ht : s.advance i old new = some t) (hp : ∀ r, pending (r, new) = pending (r, old)) :
    t.Single := by
  obtain ⟨r, hworks, rfl⟩ := h.works_advance ht
  have hcount : [(r, new)].countP pending = s.works.countP pending := by
    rw [hworks, List.countP_singleton, List.countP_singleton, hp]
  refine ⟨?_, ?_, fun hdone => ⟨List.cons_ne_nil _ _, ?_⟩, fun hended => ?_⟩
  · have hone := h.one
    rwa [hworks] at hone
  · rw [hcount]
    exact h.waitCnt
  · rw [hcount]
    exact (h.done hdone).2
  · rw [hcount]
    exact h.ended hended

theorem Single.step {a : ReadAction} (h : s.Single) (ht : s.step a = some t) : t.Single := by
  have hle := (length_step ht).trans h.one
  obtain ⟨hone, hcnt, hdone, hended⟩ := h
  cases a with
  | inc =>
    simp only [ReadState.step] at ht
    split at ht
    · rename_i range rest hpc
      obtain rfl := Option.some.inj ht
      rw [hpc] at hcnt
      refine ⟨hle, ?_, hdone, nofun⟩
      simp only [submitting] at hcnt ⊢
      omega
    · cases ht
  | noMemory =>
    simp only [ReadState.step] at ht
    split at ht
    · rename_i range rest hpc
      obtain rfl := Option.some.inj ht
      rw [hpc] at hcnt
      exact ⟨hle, hcnt, hdone, nofun⟩
    · cases ht
  | submit =>
    simp only [ReadState.step] at ht
    split at ht
    · rename_i range rest hpc
      obtain rfl := Option.some.inj ht
      rw [hpc] at hone hcnt
      have hnil : s.works = [] := by
        simp only [left] at hone
        exact List.length_eq_zero_iff.mp (by omega)
      refine ⟨hle, ?_, fun hd => absurd hnil (hdone hd).1, nofun⟩
      rw [hnil] at hcnt ⊢
      exact hcnt
    · cases ht
  | check =>
    simp only [ReadState.step] at ht
    split at ht
    · rename_i hpc
      obtain rfl := Option.some.inj ht
      rw [hpc] at hcnt
      have hsubmitting : submitting (.issue []) = 0 := rfl
      by_cases hzero : s.waitCnt = 0
      · rw [if_pos hzero] at hle ⊢
        refine ⟨hle, hcnt, hdone, fun _ => ?_⟩
        show s.works.countP pending = 0
        omega
      · rw [if_neg hzero] at hle ⊢
        exact ⟨hle, hcnt, hdone, nofun⟩
    · cases ht
  | wake =>
    simp only [ReadState.step] at ht
    split at ht
    · rename_i done hpc hd
      obtain rfl := Option.some.inj ht
      rw [hpc] at hcnt
      have hpos : 0 < s.done := by omega
      exact ⟨hle, hcnt, fun _ => hdone hpos, fun _ => (hdone hpos).2⟩
    · cases ht
  | ioError i => exact Single.advance ⟨hone, hcnt, hdone, hended⟩ ht fun _ => rfl
  | decrypt i => exact Single.advance ⟨hone, hcnt, hdone, hended⟩ ht fun _ => rfl
  | dec i =>
    obtain ⟨t', ht', rfl⟩ := Option.map_eq_some_iff.mp ht
    obtain ⟨r, hworks, rfl⟩ := Single.works_advance ⟨hone, hcnt, hdone, hended⟩ ht'
    rw [hworks] at hone hcnt hdone
    have hsubmitting : submitting s.pc = 0 := by
      cases hpc : s.pc with
      | submit range rest =>
        rw [hpc] at hone
        simp only [left, List.length_singleton] at hone
        omega
      | _ => rfl
    refine ⟨hle, ?_, fun hd => absurd (hdone hd).2 Nat.one_ne_zero, fun _ => rfl⟩
    show s.waitCnt - 1 = ((0 : ℕ) : ℤ) + submitting s.pc
    rw [hcnt, hsubmitting]
    rfl
  | complete i =>
    simp only [ReadState.step] at ht
    split at ht
    · rename_i t' ht'
      obtain rfl := Option.some.inj ht
      have h' := Single.advance ⟨hone, hcnt, hdone, hended⟩ ht' fun _ => rfl
      obtain ⟨r, hworks, rfl⟩ := Single.works_advance ⟨hone, hcnt, hdone, hended⟩ ht'
      exact ⟨h'.one, h'.waitCnt, fun _ => ⟨List.cons_ne_nil _ _, rfl⟩, h'.ended⟩
    · exact Single.advance ⟨hone, hcnt, hdone, hended⟩ ht fun _ => rfl

/-- A read of one range has its data when it ends. -/
theorem Single.dataThere (h : s.Single) : s.DataThere := by
  intro hended w hw
  have hnot := List.countP_eq_zero.mp (h.ended hended) w hw
  simp only [pending, Bool.or_eq_true, decide_eq_true_eq, not_or] at hnot
  exact hnot.1

/-! ## More ranges -/

/-- The ranges that are left are issued while nothing else happens. -/
theorem exec_issue {rest : List BlockRange} (hpc : s.pc = .issue rest) :
    exec step s (rest.flatMap fun _ => [.inc, .submit]) =
      some { s with
        pc := .issue []
        waitCnt := s.waitCnt + rest.length
        works := s.works ++ rest.map fun r => (r, .issued) } := by
  induction rest generalizing s with
  | nil =>
    obtain ⟨pc, waitCnt, done, works⟩ := s
    obtain rfl : pc = .issue [] := hpc
    simp
  | cons r rest ih =>
    obtain ⟨pc, waitCnt, done, works⟩ := s
    obtain rfl : pc = .issue (r :: rest) := hpc
    rw [List.flatMap_cons]
    refine (exec_append_of (t := ⟨.issue rest, waitCnt + 1, done, works ++ [(r, .issued)]⟩) rfl
      (ih rfl)).trans ?_
    simp only [List.length_cons, List.map_cons, List.append_assoc, List.singleton_append,
      Int.natCast_add, Int.natCast_one]
    rw [Int.add_assoc, Int.add_comm 1]

/-- The first range is done before the second one is issued. -/
def earlyRun (rest : List BlockRange) : List ReadAction :=
  [.inc, .submit, .decrypt 0, .dec 0, .complete 0] ++ (rest.flatMap fun _ => [.inc, .submit]) ++
    [.check, .wake]

/-- **The reader does not wait for the other ranges.** -/
theorem exec_earlyRun {pbas : List ℕ} {r₁ r₂ : BlockRange} {rest : List BlockRange}
    (h : mergedRanges pbas = r₁ :: r₂ :: rest) :
    exec step (init pbas) (earlyRun (r₂ :: rest)) =
      some ⟨.ended, (r₂ :: rest).length, 0,
        (r₁, .finished) :: (r₂ :: rest).map fun r => (r, .issued)⟩ := by
  have hfirst : exec step (init pbas) [.inc, .submit, .decrypt 0, .dec 0, .complete 0] =
      some ⟨.issue (r₂ :: rest), 0, 1, [(r₁, .finished)]⟩ := by
    rw [init, h]
    rfl
  have hissue := exec_issue (s := ⟨.issue (r₂ :: rest), 0, 1, [(r₁, .finished)]⟩) rfl
  refine exec_append_of (exec_append_of hfirst hissue) ?_
  have hne : ¬(0 : ℤ) + (r₂ :: rest).length = 0 := by
    rw [List.length_cons]
    omega
  simp only [exec, step, if_neg hne, Option.bind_some]
  rw [Int.zero_add]
  rfl

end ReadState

/-! ## The ranges -/

theorem mergeFrom_ne_nil (start stop p : ℕ) (pbas : List ℕ) :
    mergeFrom start stop (p :: pbas) ≠ [] := by
  induction pbas generalizing start stop p with
  | nil => exact List.cons_ne_nil _ _
  | cons q pbas ih =>
    rw [mergeFrom]
    split
    · exact ih _ _ _
    · exact List.cons_ne_nil _ _

/-- There is one range if the blocks are consecutive. -/
theorem length_mergeFrom_le_one (start stop : ℕ) (pbas : List ℕ) :
    (mergeFrom start stop pbas).length ≤ 1 ↔ pbas.IsChain fun p q => p + 1 = q := by
  induction pbas generalizing start stop with
  | nil => exact iff_of_true (Nat.zero_le 1) .nil
  | cons p pbas ih =>
    cases pbas with
    | nil => exact iff_of_true le_rfl (.singleton p)
    | cons q pbas =>
      rw [mergeFrom, List.isChain_cons_cons]
      split
      · rename_i hpq
        rw [ih, and_iff_right hpq]
      · rename_i hpq
        refine iff_of_false ?_ fun h => hpq h.1
        have hpos := List.length_pos_iff.mpr (mergeFrom_ne_nil (stop + 1) (stop + 1) q pbas)
        rw [List.length_cons]
        omega

theorem mergedRanges_eq_nil {pbas : List ℕ} : mergedRanges pbas = [] ↔ pbas = [] := by
  cases pbas with
  | nil => exact iff_of_true rfl rfl
  | cons p pbas => exact iff_of_false (mergeFrom_ne_nil 0 0 p pbas) (List.cons_ne_nil p pbas)

/-! ## When a read may be ended -/

/-- **A read is ended with all its data** in every interleaving if and only if its blocks are
consecutive on disk. That `decrypt_work` is over by then as well is the case only if there is
nothing to read: the reader may see the counter at zero before the completion is signalled. -/
theorem read_complete_iff (pbas : List ℕ) :
    ((∀ as s, exec ReadState.step (.init pbas) as = some s → s.DataThere) ↔
        pbas.IsChain fun p q => p + 1 = q) ∧
      ((∀ as s, exec ReadState.step (.init pbas) as = some s → s.WorksOver) ↔ pbas = []) := by
  have hdata : (∀ as s, exec ReadState.step (.init pbas) as = some s → s.DataThere) ↔
      pbas.IsChain fun p q => p + 1 = q := by
    rw [← length_mergeFrom_le_one 0 0]
    refine ⟨fun h => ?_, fun h as s hrun => ?_⟩
    · match hr : mergeFrom 0 0 pbas with
      | [] => exact Nat.zero_le 1
      | [_] => exact le_rfl
      | r₁ :: r₂ :: rest =>
        have hthere := h _ _ (ReadState.exec_earlyRun hr) rfl (r₂, .issued)
          (List.mem_cons_of_mem _ List.mem_cons_self)
        exact absurd rfl hthere.1
    · exact (invariant_of_all (fun _ _ _ hs ht => hs.step ht) (ReadState.single_init h) hrun).dataThere
  refine ⟨hdata, fun h => ?_, fun h as s hrun => ?_⟩
  · -- the last work has decremented the counter and not yet called `complete`
    by_contra hne
    have hchain := hdata.mp fun as s hrun => (h as s hrun).dataThere
    rw [← length_mergeFrom_le_one 0 0] at hchain
    match hr : mergeFrom 0 0 pbas with
    | [] => exact hne (mergedRanges_eq_nil.mp hr)
    | [r] =>
      have hrun : exec ReadState.step (.init pbas) [.inc, .submit, .decrypt 0, .dec 0, .check] =
          some ⟨.ended, 0, 0, [(r, .counted true)]⟩ := by
        rw [ReadState.init, mergedRanges, hr]
        rfl
      have hover := h _ _ hrun rfl (r, .counted true) List.mem_cons_self
      cases hover
    | r₁ :: r₂ :: rest =>
      rw [hr] at hchain
      simp only [List.length_cons] at hchain
      omega
  · -- there is no work at all
    have hlen : ReadState.left s.pc + s.works.length ≤ 0 := by
      have hinit : ReadState.left (.issue (mergedRanges pbas)) + 0 ≤ 0 := by
        rw [h]
        exact le_rfl
      exact @invariant_of_all _ _ _ (fun s => ReadState.left s.pc + s.works.length ≤ 0)
        (fun _ _ _ hs ht => (ReadState.length_step ht).trans hs) _ _ _ hinit hrun
    intro _ w hw
    have hpos := List.length_pos_of_mem hw
    omega

/-- Two blocks apart, the second one read although the reader does not wait for it. -/
theorem read_ended_early : ∃ as s, exec ReadState.step (.init [7, 9]) as = some s ∧
    s.pc = .ended ∧ s.works = [((0, 0), .finished), ((1, 1), .issued)] :=
  ⟨[.inc, .submit, .decrypt 0, .dec 0, .complete 0, .inc, .submit, .check, .wake],
    ⟨.ended, 1, 0, [((0, 0), .finished), ((1, 1), .issued)]⟩, by decide, rfl, rfl⟩

end JinDisk
