import JinDisk.DeviceRuns

/-!
# The bios of a target

What a target does by itself, in terms of the steps of its device: a write is a push for each of its
blocks, garbage collection is a number of iterations, and the other works are a step each
(`exec_works`). So a run of the target is a run of its device, and if the steps of the device are good,
every read returns for each block what was written last by the writes that have ended
(`reads_return_written`).
-/

namespace JinDisk

variable {ι κ D : Type}

/-! ## The steps of an action -/

namespace Device

variable [Inhabited κ] (c : DataCipher κ D) (ch : Chance κ)

/-- The pushes of `segbuf_push_bio`. -/
def pushWorks (start : ℕ) (data : List D) : List (DeviceWork κ D) :=
  data.zipIdx.map fun e => .push (start + e.2) e.1 (ch.key e.2)

/-- The iterations of the loop of `sa_background_gc`. -/
def gcWorks : ℕ → ℕ → Device κ D → List (DeviceWork κ D)
  | 0, _, _ => []
  | fuel + 1, clean, d =>
    if clean < leastCleanSegmentOnce * blocksPerSegment then
      .gc ch :: match d.gcOneSegment c ch with
        | some (d', some count) => gcWorks fuel (clean + count) d'
        | _ => []
    else []

variable {c} {d d' : Device κ D}

theorem exec_pushWorks (start : ℕ) (data : List D) :
    Machine.exec (Device.step c) d (pushWorks ch start data) = some (d.pushBio ch start data) := by
  rw [pushWorks, pushBio]
  generalize data.zipIdx = es
  induction es generalizing d with
  | nil => rfl
  | cons e es ih => exact ih

theorem exec_gcWorks {fuel clean : ℕ} (h : d.gcLoop c ch fuel clean = some d') :
    Machine.exec (Device.step c) d (gcWorks c ch fuel clean d) = some d' := by
  induction fuel generalizing clean d with
  | zero => cases h
  | succ fuel ih =>
    rw [gcLoop] at h
    rw [gcWorks]
    split at h
    · rename_i hclean
      rw [if_pos hclean]
      obtain ⟨⟨d₁, moved⟩, hgc, hrest⟩ := Option.bind_eq_some_iff.mp h
      rw [Machine.exec_cons, Device.step, hgc]
      cases moved with
      | some count => exact ih hrest
      | none => exact hrest
    · rename_i hclean
      rw [if_neg hclean]
      exact h

end Device

namespace Target

variable [Inhabited κ] (c : DataCipher κ D)

/-- What an action makes the device do. -/
def works (t : Target ι κ D) (len : UInt64) : KernelAction ι κ D → List (DeviceWork κ D)
  | .flush _ ch => [.commit ch]
  | .popBio _ ch =>
    match t.worker with
    | some (bio :: _) =>
      match bio.request with
      | .read .. => []
      | .write start data => Device.pushWorks ch start data
    | _ => []
  | .bufferio _ ch => [.bufferio ch]
  | .compaction _ order ch => [.compaction order ch]
  | .gc _ fuel ch => if t.device.tables.gcRuns len then Device.gcWorks c ch fuel 0 t.device else []
  | _ => []

end Target

/-! ## What is written and read -/

/-- What was written last for each lba, after one more bio has ended. -/
def Completion.record (f : ℕ → Option D) (e : Completion ι D) : ℕ → Option D :=
  match e.bio.request with
  | .read .. => f
  | .write start data => data.zipIdx.foldl (fun f b => Function.update f (start + b.2) (some b.1)) f

/-- What was written last for each lba by the bios that have ended. -/
def writtenBy (completed : List (Completion ι D)) : ℕ → Option D :=
  completed.foldl Completion.record fun _ => none

/-- A read has returned for each block what had been written last. -/
def ReadsWritten (completed : List (Completion ι D)) : Prop :=
  ∀ before e after, completed = before ++ e :: after → ∀ start count,
    e.bio.request = .read start count → e.data = (List.range' start count).map (writtenBy before)

theorem ReadsWritten.append {completed ended : List (Completion ι D)} (h : ReadsWritten completed)
    (hended : ended.length ≤ 1) (hread : ∀ e ∈ ended, ∀ start count, e.bio.request = .read start count →
      e.data = (List.range' start count).map (writtenBy completed)) :
    ReadsWritten (completed ++ ended) := by
  cases ended with
  | nil =>
    rw [List.append_nil]
    exact h
  | cons e rest =>
    obtain rfl : rest = [] := List.length_eq_zero_iff.mp (by simpa using hended)
    intro before e' after heq
    rcases List.eq_nil_or_concat after with rfl | ⟨after, last, rfl⟩
    · obtain ⟨rfl, hlast⟩ := List.append_inj' heq rfl
      obtain rfl := (List.cons.inj hlast).1
      exact hread e List.mem_cons_self
    · have hsplit : before ++ e' :: after.concat last = (before ++ e' :: after) ++ [last] := by simp
      obtain ⟨hcompleted, -⟩ := List.append_inj' (heq.trans hsplit) rfl
      exact h before e' after hcompleted

namespace Device

variable [Inhabited κ] {c : DataCipher κ D} (ch : Chance κ) (f : ℕ → Option D)

omit [Inhabited κ] in
theorem record_pushWorks (start : ℕ) (data : List D) :
    (pushWorks ch start data).foldl DeviceWork.record f =
      data.zipIdx.foldl (fun f b => Function.update f (start + b.2) (some b.1)) f := by
  rw [pushWorks, List.foldl_map]
  rfl

/-- Garbage collection writes nothing. -/
theorem record_gcWorks (fuel clean : ℕ) (d : Device κ D) :
    (gcWorks c ch fuel clean d).foldl DeviceWork.record f = f := by
  induction fuel generalizing clean d with
  | zero => rfl
  | succ fuel ih =>
    rw [gcWorks]
    split
    · rw [List.foldl_cons]
      split
      · exact ih _ _
      · rfl
    · rfl

end Device

namespace Target

variable [Inhabited κ] {c : DataCipher κ D} {t t' : Target ι κ D} {len : UInt64}
  {a : KernelAction ι κ D} {ended : List (Completion ι D)}

/-- What an action does: a run of the device, which pushes what the bios that end have written, and a
read that ends has read the device. -/
structure Acts (c : DataCipher κ D) (len : UInt64) (t : Target ι κ D) (a : KernelAction ι κ D)
    (t' : Target ι κ D) (ended : List (Completion ι D)) : Prop where
  /-- the run of the device -/
  exec : Machine.exec (Device.step c) t.device (t.works c len a) = some t'.device
  /-- what it pushes -/
  record : ∀ f, (t.works c len a).foldl DeviceWork.record f = ended.foldl Completion.record f
  /-- bios end one by one -/
  one : ended.length ≤ 1
  /-- reads -/
  read : ∀ e ∈ ended, ∀ start count, Bio.request (Completion.bio e) = .read start count →
    ∃ i n caches, a = .asyncRead i n caches ∧ t.readers[n]? = some e.bio ∧
      t.device.doRead c caches start count = some e.data

/-- An action in which no bio ends. -/
theorem Acts.of_nil (hexec : Machine.exec (Device.step c) t.device (t.works c len a) = some t'.device)
    (hrecord : ∀ f, (t.works c len a).foldl DeviceWork.record f = f) : Acts c len t a t' [] :=
  ⟨hexec, hrecord, Nat.zero_le 1, fun _ he => absurd he List.not_mem_nil⟩

/-- **An action of a target** is a run of its device. -/
theorem acts_of_act (h : t.act c len a = some (t', ended)) : Acts c len t a t' ended := by
  cases a with
  | ctr i len d => cases h
  | map i request =>
    obtain ⟨rfl, rfl⟩ := Prod.mk.inj (Option.some.inj h)
    exact .of_nil rfl fun _ => rfl
  | flush i ch =>
    obtain ⟨rfl, rfl⟩ := Prod.mk.inj (Option.some.inj h)
    exact .of_nil rfl fun _ => rfl
  | takeBios i =>
    rw [act] at h
    split at h
    · obtain ⟨rfl, rfl⟩ := Prod.mk.inj (Option.some.inj h)
      exact .of_nil rfl fun _ => rfl
    · cases h
  | popBio i ch =>
    simp only [act] at h
    split at h
    · rename_i bio bios hworker
      split at h
      · rename_i start count hrequest
        obtain ⟨rfl, rfl⟩ := Prod.mk.inj (Option.some.inj h)
        have hworks : t.works c len (.popBio i ch) = [] := by
          simp only [works, hworker, hrequest]
        exact .of_nil (by rw [hworks]; rfl) fun _ => by rw [hworks]; rfl
      · rename_i start data hrequest
        obtain ⟨rfl, rfl⟩ := Prod.mk.inj (Option.some.inj h)
        have hworks : t.works c len (.popBio i ch) = Device.pushWorks ch start data := by
          simp only [works, hworker, hrequest]
        refine ⟨?_, fun f => ?_, le_rfl, fun e he start' count heq => ?_⟩
        · rw [hworks]
          exact Device.exec_pushWorks ch start data
        · rw [hworks, Device.record_pushWorks, List.foldl_cons, Completion.record, hrequest,
            List.foldl_nil]
        · obtain rfl := List.mem_singleton.mp he
          cases hrequest.symm.trans heq
    · cases h
  | endWorker i =>
    rw [act] at h
    split at h
    · obtain ⟨rfl, rfl⟩ := Prod.mk.inj (Option.some.inj h)
      exact .of_nil rfl fun _ => rfl
    · cases h
  | asyncRead i n caches =>
    obtain ⟨bio, hbio, h⟩ := Option.bind_eq_some_iff.mp h
    split at h
    · rename_i start count hrequest
      obtain ⟨data, hdata, heq⟩ := Option.map_eq_some_iff.mp h
      obtain ⟨rfl, rfl⟩ := Prod.mk.inj heq
      refine ⟨rfl, fun f => ?_, le_rfl, fun e he start' count' heq' => ?_⟩
      · rw [List.foldl_cons, Completion.record, hrequest, List.foldl_nil]
        rfl
      · obtain rfl := List.mem_singleton.mp he
        obtain ⟨rfl, rfl⟩ := Request.read.inj (hrequest.symm.trans heq')
        exact ⟨i, n, caches, rfl, hbio, hdata⟩
    · cases h
  | bufferio i ch =>
    rw [act] at h
    split at h
    · cases h
    · rename_i index rest hwq
      obtain ⟨rfl, rfl⟩ := Prod.mk.inj (Option.some.inj h)
      refine .of_nil ?_ fun _ => rfl
      simp only [works, Machine.exec_cons, Device.step, hwq]
      rfl
  | compaction i order ch =>
    rw [act] at h
    split at h
    · rename_i n m hworks hm
      obtain ⟨r, hcomp, heq⟩ := Option.map_eq_some_iff.mp h
      obtain ⟨rfl, rfl⟩ := Prod.mk.inj heq
      refine .of_nil ?_ fun _ => rfl
      simp only [works, Machine.exec_cons, Device.step, hworks, hm, hcomp]
      rfl
    · cases h
  | gc i fuel ch =>
    obtain ⟨d, hgc, heq⟩ := Option.map_eq_some_iff.mp h
    obtain ⟨rfl, rfl⟩ := Prod.mk.inj heq
    rw [Device.backgroundGc] at hgc
    split at hgc
    · rename_i hruns
      have hworks : t.works c len (.gc i fuel ch) = Device.gcWorks c ch fuel 0 t.device := if_pos hruns
      refine .of_nil ?_ fun f => ?_
      · rw [hworks]
        exact Device.exec_gcWorks ch hgc
      · rw [hworks]
        exact Device.record_gcWorks ch f fuel 0 t.device
    · rename_i hruns
      have hworks : t.works c len (.gc i fuel ch) = [] := if_neg hruns
      exact .of_nil (by rw [hworks]; exact hgc) fun f => by rw [hworks]; rfl

variable (c len) in
/-- One action, with the bios that have ended. -/
def step (s : Target ι κ D × List (Completion ι D)) (a : KernelAction ι κ D) :
    Option (Target ι κ D × List (Completion ι D)) :=
  (s.1.act c len a).map fun r => (r.1, s.2 ++ r.2)

variable (c len) in
/-- The steps of the device are good, and a read comes upon no torn record and no file without
entries. -/
structure Good (s : Target ι κ D × List (Completion ι D)) (a : KernelAction ι κ D) : Prop where
  /-- the steps of the device -/
  works : Machine.Along (Device.step c) (Device.Good c) s.1.device (s.1.works c len a)
  /-- reads -/
  reads : ∀ i n caches, a = .asyncRead i n caches → ∀ bio ∈ s.1.readers[n]?, ∀ start count,
    bio.request = .read start count → 0 < count ∧ s.1.device.lsmTree.CachesOk caches ∧
      ¬s.1.device.lsmTree.TornKey start (start + count - 1) ∧
      ¬s.1.device.lsmTree.EmptyFileHit start (start + count - 1)

/-- What holds after any number of good actions. -/
structure Sound (c : DataCipher κ D) (s : Target ι κ D × List (Completion ι D)) : Prop where
  /-- the device -/
  device : s.1.device.Sound c
  /-- its content is what was written -/
  content : s.1.device.content c = writtenBy s.2
  /-- and what was read -/
  reads : ReadsWritten s.2

theorem Sound.step (hc : c.Lawful) {s s' : Target ι κ D × List (Completion ι D)} (h : Sound c s)
    (hok : Good c len s a) (hstep : Target.step c len s a = some s') : Sound c s' := by
  obtain ⟨⟨t', ended⟩, hact, rfl⟩ := Option.map_eq_some_iff.mp hstep
  obtain ⟨hexec, hrecord, hone, hread⟩ := acts_of_act hact
  obtain ⟨hsound, hcontent⟩ := Device.sound_exec hc h.device hok.works hexec
  refine ⟨hsound, ?_, h.reads.append hone fun e he start count hrequest => ?_⟩
  · rw [hcontent, hrecord, h.content, writtenBy, writtenBy, List.foldl_append]
  · obtain ⟨i, n, caches, rfl, hbio, hdata⟩ := hread e he start count hrequest
    obtain ⟨hcount, hcaches, htorn, hhit⟩ := hok.reads i n caches rfl e.bio hbio start count hrequest
    have heq := h.device.safe.doRead_eq hcaches hcount htorn hhit
    rw [h.content] at heq
    exact Option.some.inj (hdata.symm.trans heq)

theorem sound_exec (hc : c.Lawful) {s s' : Target ι κ D × List (Completion ι D)} (h : Sound c s)
    {run : List (KernelAction ι κ D)} (hgood : Machine.Along (Target.step c len) (Good c len) s run)
    (hrun : Machine.exec (Target.step c len) s run = some s') : Sound c s' :=
  Machine.invariant (fun _ _ _ (h : Sound c _) hok hs => h.step hc hok hs) h hgood hrun

theorem Good.of_nil {s : Target ι κ D × List (Completion ι D)} (hworks : s.1.works c len a = [])
    (hread : ∀ i n caches, a ≠ .asyncRead i n caches) : Good c len s a :=
  ⟨by rw [hworks]; trivial, fun i n caches ha => absurd ha (hread i n caches)⟩

end Target

end JinDisk
