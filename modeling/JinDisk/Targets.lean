import JinDisk.Device

/-!
# Several targets

`dm_jindisk_target_ctr` keeps the new `struct dm_jindisk` in `target->private`, and in the global
variable `jindisk`, which it has overwritten. A bio is put into the list of its own target, and it
is the work of this target that is queued (`defer_bio`). But the works go through the global
variable: `process_deferred_bios` takes the list of the target that was constructed last, a write
goes to the segment buffer of that target and a read to its tree, and the buffer of a target is
flushed with the allocator, the tree, the tables and the raw device of that target.

As long as works run for the target that was constructed last only, the targets are isolated
(`targets_isolated`): leaving out all that concerns the others makes no difference to a target.
-/

namespace JinDisk

/-- What a bio asks for. -/
inductive Request (D : Type) where
  /-- `REQ_OP_READ` -/
  | read (start count : ℕ)
  /-- `REQ_OP_WRITE`, with a block for each lba from `start` on -/
  | write (start : ℕ) (data : List D)

/-- A bio that was deferred. -/
structure Bio (ι D : Type) where
  /-- history: the target it was mapped to -/
  target : ι
  /-- what it asks for -/
  request : Request D

/-- `MAX_READER` -/
def maxReaders : ℕ := 4

/-- A target: its `struct dm_jindisk` and its works. -/
structure Target (ι κ D : Type) where
  /-- the parts of the device -/
  device : Device κ D
  /-- `deferred_bios` -/
  deferredBios : List (Bio ι D)
  /-- `deferred_bio_worker` is queued -/
  scheduled : Bool
  /-- `bios` of `process_deferred_bios`, while the worker runs -/
  worker : Option (List (Bio ι D))
  /-- `max_reader` -/
  maxReader : ℕ
  /-- the bios of this target that an `async_read` is queued for -/
  readers : List (Bio ι D)

/-- History: a bio has ended. -/
structure Completion (ι D : Type) where
  /-- the bio -/
  bio : Bio ι D
  /-- the target whose device was used -/
  servedBy : ι
  /-- what was read -/
  data : List (Option D)

/-- The targets and the global variables. -/
structure Kernel (ι κ D : Type) where
  /-- `target->private` -/
  target : ι → Option (Target ι κ D)
  /-- `jindisk` -/
  jindisk : Option ι
  /-- `target->len`, as it was when `NR_SEGMENT` was computed from it -/
  len : UInt64
  /-- history: the bios that have ended -/
  completed : List (Completion ι D)

/-- What can happen next. -/
inductive KernelAction (ι κ D : Type) where
  /-- `dm_jindisk_target_ctr`, with what the device has after it was opened or formatted -/
  | ctr (i : ι) (len : UInt64) (d : Device κ D)
  /-- `dm_jindisk_target_map` of a read or a write -/
  | map (i : ι) (request : Request D)
  /-- `dm_jindisk_target_map` of a flush -/
  | flush (i : ι) (ch : Chance κ)
  /-- `deferred_bio_worker` of a target starts: `bio_list_take_safe` -/
  | takeBios (i : ι)
  /-- an iteration of its loop -/
  | popBio (i : ι) (ch : Chance κ)
  /-- its loop ends -/
  | endWorker (i : ι)
  /-- one of the queued `async_read` for bios of a target -/
  | asyncRead (i : ι) (n : ℕ) (caches : ℕ → LruCache (Leaf κ))
  /-- `bufferio_handler`, from the queue of a target -/
  | bufferio (i : ι) (ch : Chance κ)
  /-- `minor_compaction_handler`, from the queue of a target -/
  | compaction (i : ι) (order : List ℕ) (ch : Chance κ)
  /-- `sa_background_gc`, when `jindisk` is the target -/
  | gc (i : ι) (fuel : ℕ) (ch : Chance κ)

/-- The target that an action is for. -/
def KernelAction.target {ι κ D : Type} : KernelAction ι κ D → ι
  | ctr i .. | map i _ | flush i _ | takeBios i | popBio i _ | endWorker i | asyncRead i .. |
    bufferio i _ | compaction i .. | gc i .. => i

variable {ι κ D : Type}

/-- A target that was just constructed. -/
def Target.create (d : Device κ D) : Target ι κ D := ⟨d, [], false, none, maxReaders, []⟩

namespace Kernel

/-- Before the first target is constructed. -/
def init : Kernel ι κ D := ⟨fun _ => none, none, 0, []⟩

section Step

variable [DecidableEq ι]

/-- `dm_jindisk_target_ctr` -/
def construct (s : Kernel ι κ D) (i : ι) (len : UInt64) (d : Device κ D) : Kernel ι κ D :=
  { s with target := Function.update s.target i (some (.create d)), jindisk := some i, len }

/-- A target is changed. -/
def modify (s : Kernel ι κ D) (i : ι) (f : Target ι κ D → Target ι κ D) : Kernel ι κ D :=
  { s with target := Function.update s.target i ((s.target i).map f) }

/-- The device of a target is changed. -/
def modifyDevice (s : Kernel ι κ D) (i : ι) (f : Device κ D → Device κ D) : Kernel ι κ D :=
  s.modify i fun t => { t with device := f t.device }

/-- A bio has ended. -/
def complete (s : Kernel ι κ D) (bio : Bio ι D) (g : ι) (data : List (Option D)) : Kernel ι κ D :=
  { s with completed := s.completed ++ [⟨bio, g, data⟩] }

variable (c : DataCipher κ D)

/-- The body of the loop of `process_deferred_bios`; `g` is what `jindisk` is. -/
def processBio (s : Kernel ι κ D) (g : ι) (bio : Bio ι D) (ch : Chance κ) : Kernel ι κ D :=
  match bio.request with
  | .read .. =>
    -- whether `down_timeout` fails makes no difference to what follows
    (s.modify g fun t => { t with maxReader := t.maxReader - 1 }).modify bio.target
      fun t => { t with readers := t.readers ++ [bio] }
  | .write start data => (s.modifyDevice g (·.pushBio ch start data)).complete bio g []

variable [Inhabited κ]

/-- One step; `none` if there is nothing to do. -/
def step (s : Kernel ι κ D) : KernelAction ι κ D → Option (Kernel ι κ D)
  | .ctr i len d =>
    if (s.target i).isSome then none else some (s.construct i len d)
  | .map i request =>
    (s.target i).map fun _ => s.modify i fun t =>
      { t with deferredBios := t.deferredBios ++ [⟨i, request⟩], scheduled := true }
  | .flush i ch =>
    (s.target i).bind fun t => s.jindisk.map fun g =>
      s.modifyDevice g fun d => d.flushPool c ch t.device.segBuffer
  | .takeBios i =>
    (s.target i).bind fun t => s.jindisk.bind fun g => (s.target g).bind fun tg =>
      if t.scheduled && t.worker.isNone then
        some ((s.modify i fun t => { t with scheduled := false, worker := some tg.deferredBios }).modify g
          fun t => { t with deferredBios := [] })
      else none
  | .popBio i ch =>
    (s.target i).bind fun t => s.jindisk.bind fun g =>
      match t.worker with
      | some (bio :: bios) =>
        some ((s.modify i fun t => { t with worker := some bios }).processBio g bio ch)
      | _ => none
  | .endWorker i =>
    (s.target i).bind fun t =>
      match t.worker with
      | some [] => some (s.modify i fun t => { t with worker := none })
      | _ => none
  | .asyncRead i n caches =>
    (s.target i).bind fun t => s.jindisk.bind fun g => (s.target g).bind fun tg =>
      (t.readers[n]?).bind fun bio =>
        match bio.request with
        | .read start count =>
          (tg.device.doRead c caches start count).map fun data =>
            ((s.modify i fun t => { t with readers := t.readers.eraseIdx n }).modify g
              fun t => { t with maxReader := t.maxReader + 1 }).complete bio g data
        | .write .. => none
  | .bufferio i ch =>
    (s.target i).bind fun t => s.jindisk.bind fun g =>
      match t.device.bufferioWq with
      | [] => none
      | index :: rest =>
        some ((s.modifyDevice i fun d => { d with bufferioWq := rest }).modifyDevice g
          fun d => d.flushBios c ch (t.device.segBuffer.buffer index))
  | .compaction i order ch =>
    (s.target i).bind fun t => s.jindisk.bind fun g =>
      match t.device.compactionWq, t.device.lsmTree.immutable with
      | n + 1, some m =>
        (t.device.lsmTree.compactMemtable m order).map fun r =>
          (s.modifyDevice i fun d => { d with lsmTree := r.1, compactionWq := n }).modifyDevice g
            fun d => d.releaseAll ch r.2
      | _, _ => none
  | .gc i fuel ch =>
    (s.target i).bind fun t =>
      if s.jindisk = some i then
        (t.device.backgroundGc c ch s.len fuel).map fun d => s.modifyDevice i fun _ => d
      else none

end Step

/-- A work of a target, or a flush, runs while `jindisk` is this target. For garbage collection that is
always so. -/
def Own (s : Kernel ι κ D) : KernelAction ι κ D → Prop
  | .ctr .. | .map .. | .endWorker _ => True
  | a => s.jindisk = some a.target

end Kernel

/-! ## A target by itself -/

section Alone

variable [Inhabited κ] (c : DataCipher κ D)

/-- What an action does to its target if the target is the only one, and the bios that end. -/
def Target.act (t : Target ι κ D) (len : UInt64) :
    KernelAction ι κ D → Option (Target ι κ D × List (Completion ι D))
  | .ctr .. => none
  | .map i request =>
    some ({ t with deferredBios := t.deferredBios ++ [⟨i, request⟩], scheduled := true }, [])
  | .flush _ ch =>
    some ({ t with device := t.device.flushPool c ch t.device.segBuffer }, [])
  | .takeBios _ =>
    if t.scheduled && t.worker.isNone then
      some ({ t with scheduled := false, worker := some t.deferredBios, deferredBios := [] }, [])
    else none
  | .popBio i ch =>
    match t.worker with
    | some (bio :: bios) =>
      match bio.request with
      | .read .. =>
        some ({ t with
          worker := some bios, maxReader := t.maxReader - 1, readers := t.readers ++ [bio] }, [])
      | .write start data =>
        some ({ t with worker := some bios, device := t.device.pushBio ch start data }, [⟨bio, i, []⟩])
    | _ => none
  | .endWorker _ =>
    match t.worker with
    | some [] => some ({ t with worker := none }, [])
    | _ => none
  | .asyncRead i n caches =>
    (t.readers[n]?).bind fun bio =>
      match bio.request with
      | .read start count =>
        (t.device.doRead c caches start count).map fun data =>
          ({ t with readers := t.readers.eraseIdx n, maxReader := t.maxReader + 1 }, [⟨bio, i, data⟩])
      | .write .. => none
  | .bufferio _ ch =>
    match t.device.bufferioWq with
    | [] => none
    | index :: rest =>
      let d := { t.device with bufferioWq := rest }
      some ({ t with device := d.flushBios c ch (t.device.segBuffer.buffer index) }, [])
  | .compaction _ order ch =>
    match t.device.compactionWq, t.device.lsmTree.immutable with
    | n + 1, some m =>
      (t.device.lsmTree.compactMemtable m order).map fun r =>
        let d := { t.device with lsmTree := r.1, compactionWq := n }
        ({ t with device := d.releaseAll ch r.2 }, [])
    | _, _ => none
  | .gc _ fuel ch => (t.device.backgroundGc c ch len fuel).map fun d => ({ t with device := d }, [])

/-- All its bios were mapped to it. -/
structure Target.Tagged (i : ι) (t : Target ι κ D) : Prop where
  /-- those in the list -/
  deferredBios : ∀ bio ∈ t.deferredBios, bio.target = i
  /-- those of the worker -/
  worker : ∀ bios ∈ t.worker, ∀ bio ∈ bios, bio.target = i
  /-- those that are read -/
  readers : ∀ bio ∈ t.readers, bio.target = i

end Alone

namespace Kernel

section Own

variable [DecidableEq ι]

/-- A target is replaced, and bios have ended. -/
def set (s : Kernel ι κ D) (i : ι) (r : Target ι κ D × List (Completion ι D)) : Kernel ι κ D :=
  { s with target := Function.update s.target i (some r.1), completed := s.completed ++ r.2 }

variable {s : Kernel ι κ D} {i : ι} {t : Target ι κ D}

theorem modify_eq_set (ht : s.target i = some t) (f : Target ι κ D → Target ι κ D) :
    s.modify i f = s.set i (f t, []) := by
  rw [modify, set, ht, List.append_nil]
  rfl

theorem set_target (r : Target ι κ D × List (Completion ι D)) : (s.set i r).target i = some r.1 :=
  Function.update_self ..

theorem set_target_of_ne {j : ι} (h : j ≠ i) (r : Target ι κ D × List (Completion ι D)) :
    (s.set i r).target j = s.target j := Function.update_of_ne h ..

theorem construct_target (len : UInt64) (d : Device κ D) :
    (s.construct i len d).target i = some (.create d) := Function.update_self ..

theorem construct_target_of_ne {j : ι} (h : j ≠ i) (len : UInt64) (d : Device κ D) :
    (s.construct i len d).target j = s.target j := Function.update_of_ne h ..

theorem set_set (r r' : Target ι κ D × List (Completion ι D)) :
    (s.set i r).set i r' = s.set i (r'.1, r.2 ++ r'.2) := by
  simp only [set, Function.update_idem, List.append_assoc]

theorem modify_set (r : Target ι κ D × List (Completion ι D)) (f : Target ι κ D → Target ι κ D) :
    (s.set i r).modify i f = s.set i (f r.1, r.2) := by
  rw [modify_eq_set (set_target r), set_set, List.append_nil]

theorem complete_set (r : Target ι κ D × List (Completion ι D)) (bio : Bio ι D) (g : ι)
    (data : List (Option D)) :
    (s.set i r).complete bio g data = s.set i (r.1, r.2 ++ [⟨bio, g, data⟩]) := by
  simp only [set, complete, List.append_assoc]

variable [Inhabited κ] (c : DataCipher κ D)

/-- **A work of the target constructed last** does what it would do if there were no other. -/
theorem step_eq_act {a : KernelAction ι κ D} (ht : s.target a.target = some t)
    (htag : t.Tagged a.target) (hown : s.Own a) (hctr : ∀ i len d, a ≠ .ctr i len d) :
    s.step c a = (t.act c s.len a).map (s.set a.target) := by
  cases a with
  | ctr i len d => exact absurd rfl (hctr i len d)
  | map i request =>
    have ht : s.target i = some t := ht
    simp only [step, Target.act, ht, Option.map_some, modify_eq_set ht]
    rfl
  | flush i ch =>
    have ht : s.target i = some t := ht
    have hi : s.jindisk = some i := hown
    simp only [step, Target.act, ht, hi, Option.map_some, Option.bind_some, modifyDevice,
      modify_eq_set ht]
    rfl
  | takeBios i =>
    have ht : s.target i = some t := ht
    have hi : s.jindisk = some i := hown
    simp only [step, Target.act, ht, hi, Option.bind_some, modify_eq_set ht, modify_set]
    split
    · rfl
    · rfl
  | popBio i ch =>
    have ht : s.target i = some t := ht
    have hi : s.jindisk = some i := hown
    simp only [step, Target.act, ht, hi, Option.bind_some, modify_eq_set ht]
    rcases hworker : t.worker with - | - | ⟨bio, bios⟩
    · rfl
    · rfl
    · have hbio : bio.target = i := htag.worker _ hworker bio List.mem_cons_self
      simp only [processBio, hbio]
      cases bio.request with
      | read start count =>
        simp only [modify_set]
        rfl
      | write start data =>
        simp only [modifyDevice, modify_set, complete_set]
        rfl
  | endWorker i =>
    have ht : s.target i = some t := ht
    simp only [step, Target.act, ht, Option.bind_some, modify_eq_set ht]
    rcases t.worker with - | - | ⟨bio, bios⟩
    · rfl
    · rfl
    · rfl
  | asyncRead i n caches =>
    have ht : s.target i = some t := ht
    have hi : s.jindisk = some i := hown
    simp only [step, Target.act, ht, hi, Option.bind_some, modify_eq_set ht, modify_set, complete_set]
    cases t.readers[n]? with
    | none => rfl
    | some bio =>
      simp only [Option.bind_some]
      cases bio.request with
      | read start count =>
        simp only [Option.map_map]
        rfl
      | write start data => rfl
  | bufferio i ch =>
    have ht : s.target i = some t := ht
    have hi : s.jindisk = some i := hown
    simp only [step, Target.act, ht, hi, Option.bind_some, modifyDevice, modify_eq_set ht, modify_set]
    cases t.device.bufferioWq with
    | nil => rfl
    | cons index rest => rfl
  | compaction i order ch =>
    have ht : s.target i = some t := ht
    have hi : s.jindisk = some i := hown
    simp only [step, Target.act, ht, hi, Option.bind_some, modifyDevice, modify_eq_set ht, modify_set]
    split
    · simp only [Option.map_map]
      rfl
    · rfl
  | gc i fuel ch =>
    have ht : s.target i = some t := ht
    have hi : s.jindisk = some i := hown
    simp only [step, Target.act, ht, hi, Option.bind_some, modifyDevice, modify_eq_set ht,
      Option.map_map, if_true]
    rfl

theorem step_of_none {a : KernelAction ι κ D} (h : s.target a.target = none)
    (hctr : ∀ i len d, a ≠ .ctr i len d) : s.step c a = none := by
  cases a with
  | ctr i len d => exact absurd rfl (hctr i len d)
  | _ =>
    simp only [KernelAction.target] at h
    simp only [step, h]
    rfl

end Own

end Kernel

/-! ## Isolation -/

section Tagged

theorem Target.tagged_create (i : ι) (d : Device κ D) : (Target.create d : Target ι κ D).Tagged i :=
  ⟨List.forall_mem_nil _, fun _ h => absurd h (by simp [create]), List.forall_mem_nil _⟩

variable [Inhabited κ] {c : DataCipher κ D} {t : Target ι κ D} {i : ι} {len : UInt64}

/-- By itself, a target keeps to the bios that were mapped to it. -/
theorem Target.Tagged.act (h : t.Tagged i) {a : KernelAction ι κ D} (ha : a.target = i)
    {r : Target ι κ D × List (Completion ι D)} (hact : t.act c len a = some r) :
    r.1.Tagged i ∧ ∀ e ∈ r.2, e.bio.target = i ∧ e.servedBy = i := by
  cases a with
  | ctr j len d => cases hact
  | map j request =>
    obtain rfl := Option.some.inj hact
    refine ⟨⟨List.forall_mem_append.mpr ⟨h.deferredBios, ?_⟩, h.worker, h.readers⟩,
      List.forall_mem_nil _⟩
    exact List.forall_mem_singleton.mpr ha
  | flush j ch =>
    obtain rfl := Option.some.inj hact
    exact ⟨⟨h.deferredBios, h.worker, h.readers⟩, List.forall_mem_nil _⟩
  | takeBios j =>
    simp only [Target.act] at hact
    split at hact
    · obtain rfl := Option.some.inj hact
      refine ⟨⟨List.forall_mem_nil _, fun bios hbios => ?_, h.readers⟩, List.forall_mem_nil _⟩
      obtain rfl := Option.some.inj hbios
      exact h.deferredBios
    · cases hact
  | popBio j ch =>
    obtain rfl : j = i := ha
    simp only [Target.act] at hact
    split at hact
    · rename_i bio bios hworker
      have hbios := h.worker _ hworker
      have hbio := hbios bio List.mem_cons_self
      have hrest : ∀ bs ∈ some bios, ∀ b ∈ bs, b.target = j := by
        intro bs hbs b hb
        obtain rfl := Option.some.inj hbs
        exact hbios b (List.mem_cons_of_mem _ hb)
      split at hact
      · obtain rfl := Option.some.inj hact
        refine ⟨⟨h.deferredBios, hrest, List.forall_mem_append.mpr ⟨h.readers, ?_⟩⟩,
          List.forall_mem_nil _⟩
        exact List.forall_mem_singleton.mpr hbio
      · obtain rfl := Option.some.inj hact
        exact ⟨⟨h.deferredBios, hrest, h.readers⟩, List.forall_mem_singleton.mpr ⟨hbio, rfl⟩⟩
    · cases hact
  | endWorker j =>
    simp only [Target.act] at hact
    split at hact
    · obtain rfl := Option.some.inj hact
      exact ⟨⟨h.deferredBios, fun _ hnone => absurd hnone (by simp), h.readers⟩, List.forall_mem_nil _⟩
    · cases hact
  | asyncRead j n caches =>
    obtain rfl : j = i := ha
    obtain ⟨bio, hbio, hact⟩ := Option.bind_eq_some_iff.mp hact
    split at hact
    · obtain ⟨data, -, rfl⟩ := Option.map_eq_some_iff.mp hact
      refine ⟨⟨h.deferredBios, h.worker, fun b hb => h.readers b (List.mem_of_mem_eraseIdx hb)⟩, ?_⟩
      exact List.forall_mem_singleton.mpr ⟨h.readers bio (List.mem_of_getElem? hbio), rfl⟩
    · cases hact
  | bufferio j ch =>
    simp only [Target.act] at hact
    split at hact
    · cases hact
    · obtain rfl := Option.some.inj hact
      exact ⟨⟨h.deferredBios, h.worker, h.readers⟩, List.forall_mem_nil _⟩
  | compaction j order ch =>
    simp only [Target.act] at hact
    split at hact
    · obtain ⟨x, -, rfl⟩ := Option.map_eq_some_iff.mp hact
      exact ⟨⟨h.deferredBios, h.worker, h.readers⟩, List.forall_mem_nil _⟩
    · cases hact
  | gc j fuel ch =>
    obtain ⟨d, -, rfl⟩ := Option.map_eq_some_iff.mp hact
    exact ⟨⟨h.deferredBios, h.worker, h.readers⟩, List.forall_mem_nil _⟩

end Tagged

namespace Kernel

/-- Bios are where they belong. -/
structure Inv (s : Kernel ι κ D) : Prop where
  /-- in their target -/
  tagged : ∀ {i t}, s.target i = some t → t.Tagged i
  /-- and their target has served them -/
  served : ∀ e ∈ s.completed, e.servedBy = e.bio.target

theorem inv_init : (init : Kernel ι κ D).Inv := 
  ⟨fun h => absurd h (by simp [init]), List.forall_mem_nil _⟩

section Isolation

variable [DecidableEq ι] [Inhabited κ] {c : DataCipher κ D} {s s' u : Kernel ι κ D} {a : KernelAction ι κ D}

/-- **What a step can do**: a target is constructed, or a target does something by itself. -/
theorem step_cases (hinv : s.Inv) (hown : s.Own a) (hstep : s.step c a = some u) :
    (∃ i len d, a = .ctr i len d ∧ s.target i = none ∧ u = s.construct i len d) ∨
    (∀ i len d, a ≠ .ctr i len d) ∧ ∃ t r, s.target a.target = some t ∧ t.act c s.len a = some r ∧
      u = s.set a.target r := by
  by_cases hctr : ∃ i len d, a = .ctr i len d
  · obtain ⟨i, len, d, rfl⟩ := hctr
    simp only [step] at hstep
    split at hstep
    · cases hstep
    · rename_i hnone
      exact Or.inl ⟨i, len, d, rfl, by simpa using hnone, (Option.some.inj hstep).symm⟩
  · have hctr : ∀ i len d, a ≠ .ctr i len d := fun i len d h => hctr ⟨i, len, d, h⟩
    cases ht : s.target a.target with
    | none =>
      rw [step_of_none c ht hctr] at hstep
      cases hstep
    | some t =>
      rw [step_eq_act c ht (hinv.tagged ht) hown hctr] at hstep
      obtain ⟨r, hact, rfl⟩ := Option.map_eq_some_iff.mp hstep
      exact Or.inr ⟨hctr, t, r, rfl, hact, rfl⟩

/-- The invariant is kept. -/
theorem Inv.step (hinv : s.Inv) (hown : s.Own a) (hstep : s.step c a = some u) : u.Inv := by
  obtain ⟨i, len, d, rfl, -, rfl⟩ | ⟨-, t, r, ht, hact, rfl⟩ := step_cases hinv hown hstep
  · refine ⟨fun {j t} ht => ?_, hinv.served⟩
    by_cases hj : j = i
    · subst hj
      obtain rfl := Option.some.inj ((construct_target len d).symm.trans ht)
      exact Target.tagged_create j d
    · exact hinv.tagged ((construct_target_of_ne hj len d).symm.trans ht)
  · obtain ⟨htag, hends⟩ := (hinv.tagged ht).act rfl hact
    refine ⟨fun {j t'} ht' => ?_, List.forall_mem_append.mpr ⟨hinv.served, fun e he => ?_⟩⟩
    · by_cases hj : j = a.target
      · subst hj
        obtain rfl := Option.some.inj ((set_target r).symm.trans ht')
        exact htag
      · exact hinv.tagged ((set_target_of_ne hj r).symm.trans ht')
    · exact (hends e he).2.trans (hends e he).1.symm

/-- The two agree on a target. -/
structure SameTarget (i : ι) (s s' : Kernel ι κ D) : Prop where
  /-- bios are where they belong -/
  inv : s.Inv
  /-- the target -/
  target : s'.target i = s.target i
  /-- if it was constructed last in the first one, it was in the second one -/
  global : s.jindisk = some i → s'.jindisk = some i ∧ s'.len = s.len
  /-- its bios that have ended -/
  completed : s'.completed = s.completed.filter fun e => e.bio.target = i

/-- An action of the target can be followed. -/
theorem SameTarget.kept {i : ι} (h : SameTarget i s s') (hown : s.Own a) (ha : a.target = i)
    (hstep : s.step c a = some u) : ∃ u', s'.step c a = some u' ∧ SameTarget i u u' := by
  have hinv' := h.inv.step hown hstep
  obtain ⟨j, len, d, rfl, hnone, rfl⟩ | ⟨hctr, t, r, ht, hact, rfl⟩ := step_cases h.inv hown hstep
  · obtain rfl : j = i := ha
    refine ⟨s'.construct j len d, ?_, hinv', ?_, fun _ => ⟨rfl, rfl⟩, h.completed⟩
    · rw [step, h.target, hnone]
      rfl
    · rw [construct_target, construct_target]
  · subst ha
    have hown' : s'.Own a := by
      cases a with
      | ctr | map | endWorker => trivial
      | _ => exact (h.global hown).1
    have hlen : t.act c s'.len a = t.act c s.len a := by
      cases a with
      | gc i fuel ch => rw [(h.global hown).2]
      | _ => rfl
    obtain ⟨htag, hends⟩ := (h.inv.tagged ht).act rfl hact
    refine ⟨s'.set a.target r, ?_, hinv', ?_, h.global, ?_⟩
    · rw [step_eq_act c (h.target.trans ht) (h.inv.tagged ht) hown' hctr, hlen, hact]
      rfl
    · rw [set_target, set_target]
    · simp only [set, h.completed, List.filter_append]
      rw [List.filter_eq_self.mpr fun e he => decide_eq_true (hends e he).1]

/-- The other actions can be left out. -/
theorem SameTarget.left {i : ι} (h : SameTarget i s s') (hown : s.Own a) (ha : a.target ≠ i)
    (hstep : s.step c a = some u) : SameTarget i u s' := by
  have hinv' := h.inv.step hown hstep
  obtain ⟨j, len, d, rfl, -, rfl⟩ | ⟨-, t, r, ht, hact, rfl⟩ := step_cases h.inv hown hstep
  · refine ⟨hinv', h.target.trans (construct_target_of_ne ha.symm len d).symm, fun hi => ?_, h.completed⟩
    exact absurd (Option.some.inj hi) ha
  · obtain ⟨-, hends⟩ := (h.inv.tagged ht).act rfl hact
    refine ⟨hinv', h.target.trans (set_target_of_ne ha.symm r).symm, h.global, ?_⟩
    have hnil : (r.2.filter fun e => e.bio.target = i) = [] :=
      List.filter_eq_nil_iff.mpr fun e he => by
        rw [(hends e he).1]
        exact fun h => ha (of_decide_eq_true h)
    simp only [set, h.completed, List.filter_append, hnil, List.append_nil]

variable (c) in
/-- **The targets are isolated** in any run whose works run for the target that was constructed last.
Every bio that has ended was served by the target it was mapped to. When the worker of a target
starts, it takes all the bios in the list of the target. And each target is in the state it would be
in without the others, with the same bios ended and the same data read. -/
theorem targets_isolated {run : List (KernelAction ι κ D)} {s : Kernel ι κ D}
    (hown : Machine.Along (step c) Own init run) (hrun : Machine.exec (step c) init run = some s) :
    (∀ e ∈ s.completed, e.servedBy = e.bio.target) ∧
    (∀ i before, run = before ++ [.takeBios i] → ∃ s₁ t₁ t,
      Machine.exec (step c) init before = some s₁ ∧ s₁.target i = some t₁ ∧ s.target i = some t ∧
      t.deferredBios = [] ∧ t.worker = some t₁.deferredBios) ∧
    ∀ i, ∃ s', Machine.exec (step c) init (run.filter fun a => a.target = i) = some s' ∧
      s'.target i = s.target i ∧
      s'.completed = s.completed.filter fun e => e.bio.target = i := by
  have hkeeps : ∀ (s : Kernel ι κ D) a s', s.Inv → s.Own a → s.step c a = some s' → s'.Inv :=
    fun s a s' hinv hown hstep => hinv.step hown hstep
  refine ⟨(Machine.invariant hkeeps inv_init hown hrun).served, fun i before heq => ?_, fun i => ?_⟩
  · subst heq
    obtain ⟨s₁, hbefore, hlast⟩ := Machine.exec_append_eq_some hrun
    obtain ⟨hown₁, hownLast⟩ := Machine.along_append hown
    have hinv := Machine.invariant hkeeps inv_init hown₁ hbefore
    obtain ⟨u, hstep, hu⟩ := Machine.exec_cons_eq_some hlast
    obtain rfl := Option.some.inj hu
    obtain ⟨j, len, d, hctr, -⟩ | ⟨-, t₁, r, ht₁, hact, rfl⟩ :=
      step_cases hinv (hownLast s₁ hbefore).1 hstep
    · cases hctr
    · simp only [Target.act] at hact
      split at hact
      · obtain rfl := Option.some.inj hact
        exact ⟨s₁, t₁, _, hbefore, ht₁, set_target _, rfl, rfl⟩
      · cases hact
  · have hstart : SameTarget i (init : Kernel ι κ D) init :=
      ⟨inv_init, rfl, fun h => ⟨h, rfl⟩, rfl⟩
    have hkept : ∀ s s' (a : KernelAction ι κ D) u, SameTarget i s s' → s.Own a →
        decide (a.target = i) = true → s.step c a = some u →
        ∃ u', s'.step c a = some u' ∧ SameTarget i u u' :=
      fun s s' a u h hown ha hstep => h.kept hown (of_decide_eq_true ha) hstep
    have hleft : ∀ s s' (a : KernelAction ι κ D) u, SameTarget i s s' → s.Own a →
        decide (a.target = i) = false → s.step c a = some u → SameTarget i u s' :=
      fun s s' a u h hown ha hstep => h.left hown (of_decide_eq_false ha) hstep
    obtain ⟨s', hexec, hsame⟩ := Machine.exec_filter hkept hleft hstart hown hrun
    exact ⟨s', hexec, hsame.target, hsame.completed⟩

end Isolation

/-! ## Two targets -/

/-- A cipher that leaves the blocks as they are. -/
def plainCipher : DataCipher Unit ℕ := ⟨fun _ _ data => (data, []), fun _ _ _ data => .ok data⟩

/-- A formatted device with ten segments besides the reserve. -/
def blankDevice : Device Unit ℕ where
  segBuffer := .init () ()
  bufferioWq := []
  lsmTree := .init 6 14
  compactionWq := 0
  tables := .format 330
  rit := ⟨330 * blocksPerSegment, fun _ => infAddr⟩
  rawDev := fun _ => 0

/-- What the state does not determine, for a run that does not ask for it. -/
def noChance : Chance Unit := ⟨0, .negative, fun _ => ()⟩

/-- A write of block 0. -/
def writeZero : Request ℕ := .write 0 [7]

/-- Two targets, and a write to the second one. -/
theorem targets_isolated_sample :
    ∃ s : Kernel ℕ Unit ℕ, Machine.exec (step plainCipher) init
        [.ctr 0 81920 blankDevice, .ctr 1 81920 blankDevice, .map 1 writeZero, .takeBios 1,
          .popBio 1 noChance] = some s ∧
      s.completed = [⟨⟨1, writeZero⟩, 1, []⟩] ∧ ∀ e ∈ s.completed, e.servedBy = e.bio.target := by
  have hrun : Machine.Runs (step plainCipher) Own (init : Kernel ℕ Unit ℕ)
      [.ctr 0 81920 blankDevice, .ctr 1 81920 blankDevice, .map 1 writeZero, .takeBios 1,
        .popBio 1 noChance] _ :=
    .cons trivial rfl (.cons trivial rfl (.cons trivial rfl (.cons rfl rfl (.cons rfl rfl (.nil _)))))
  exact ⟨_, hrun.exec, rfl, (targets_isolated plainCipher hrun.along hrun.exec).1⟩

/-- **Two targets are not isolated.** The worker of the first one leaves the bios in its list. Or, if
the second one is constructed while the worker runs, it writes them to the second one. -/
theorem targets_not_isolated :
    (∃ s : Kernel ℕ Unit ℕ, Machine.exec (step plainCipher) init
        [.ctr 0 81920 blankDevice, .ctr 1 81920 blankDevice, .map 0 writeZero, .takeBios 0,
          .endWorker 0] = some s ∧
      ∃ t, s.target 0 = some t ∧ t.deferredBios = [⟨0, writeZero⟩] ∧ t.scheduled = false) ∧
    ∃ s : Kernel ℕ Unit ℕ, Machine.exec (step plainCipher) init
        [.ctr 0 81920 blankDevice, .map 0 writeZero, .takeBios 0, .ctr 1 81920 blankDevice,
          .popBio 0 noChance] = some s ∧
      s.completed = [⟨⟨0, writeZero⟩, 1, []⟩] ∧
      ∃ t₀ t₁, s.target 0 = some t₀ ∧ t₀.device.segBuffer.queryBlock 0 = none ∧
        s.target 1 = some t₁ ∧ t₁.device.segBuffer.queryBlock 0 = some 7 := by
  refine ⟨⟨_, rfl, _, rfl, rfl, rfl⟩, _, rfl, rfl, _, _, rfl, ?_, rfl, ?_⟩
  · decide +kernel
  · decide +kernel

end Kernel

end JinDisk
