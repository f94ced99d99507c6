import JinDisk.Levels
import JinDisk.Lib.MinHeap

/-!
# What a merge puts out

`compaction_job_run` merges the file of level 0 with the files of level 1 it overlaps. For
every key the merge sees the records of the newer file and those of one older file, in an
order that the heap decides. This file says what comes out of it: the entries given to the
builders (`kway_merge_correct`), the records passed to `rit->reset` and the files added to
level 1.

The heap matters in one case only: when both records of a key in the older file are taken
before the negative record of the newer one, a deleted key comes back. A heap that leaves its
root in place when an equal element is pushed never does that (`not_resurrects_order`).
-/

namespace JinDisk

open KwayMerge

variable {κ : Type}

/-- The files of a merge: a newer one and older ones whose ranges do not overlap. -/
structure Mergeable (f₀ : BitFile κ) (R : List (BitFile κ)) : Prop where
  /-- keys do not decrease -/
  sorted : ∀ f ∈ f₀ :: R, f.Sorted
  /-- a key has what a memtable entry can have -/
  slot : ∀ f ∈ f₀ :: R, ∀ key, Slot (f.recordsOf key)
  /-- the older files have ranges of their own -/
  apart : R.Pairwise BitFile.Apart
  /-- descriptors are unique -/
  ids : ((f₀ :: R).map BitFile.id).Nodup
  /-- the newer file is younger -/
  younger : ∀ g ∈ R, g.version < f₀.version

/-! ## One key -/

/-- A positive record of a slot is its first one. -/
theorem Slot.mem_iff_head? {E : List (Record κ)} (h : Slot E) {r : Record κ}
    (hr : r.isNegative = false) : r ∈ E ↔ E.head? = some r := by
  cases h with
  | none => simp
  | positive r' h => simp [eq_comm]
  | negative n h =>
    simp only [List.mem_singleton, List.head?_cons, Option.some.injEq]
    exact eq_comm
  | both r' n h hn =>
    simp only [List.mem_cons, List.not_mem_nil, or_false, List.head?_cons, Option.some.injEq]
    constructor
    · rintro (rfl | rfl)
      · rfl
      · rw [hr] at hn
        cases hn
    · rintro rfl
      exact Or.inl rfl

/-- A file with one record of each key. -/
theorem BitFile.slot_of_strict {f : BitFile κ} (h : f.entries.Pairwise fun a b => a.1 < b.1)
    (key : ℕ) : Slot (f.recordsOf key) := by
  have hone : ∀ r : Record κ, Slot [r] := by
    intro r
    cases hr : r.isNegative with
    | false => exact .positive r hr
    | true => exact .negative r hr
  rw [BitFile.recordsOf]
  cases hf : f.entries.filter fun e => e.1 = key with
  | nil => exact .none
  | cons a l =>
    cases l with
    | nil => exact hone a.2
    | cons b l =>
      -- a second entry of the key would be larger
      have hlt : a.1 < b.1 := by
        have hsorted := h.filter fun e => decide (e.1 = key)
        rw [hf] at hsorted
        exact List.rel_of_pairwise_cons hsorted List.mem_cons_self
      have hkey : ∀ e ∈ a :: b :: l, e.1 = key := by
        intro e he
        rw [← hf] at he
        simpa using (List.mem_filter.mp he).2
      rw [hkey a (by simp), hkey b (by simp)] at hlt
      exact absurd hlt (Nat.lt_irrefl key)

/-- The entries of a single file. -/
theorem groupOutput_alone {E : List (Record κ)} (h : Slot E) (v id key : ℕ) :
    groupOutput (nodesOf v id key E) = (Record.positive? E.head?).map fun r => (key, r) := by
  cases h <;>
    simp [groupOutput, nodesOf, Pending.ofGroup, Pending.start, Pending.meet, Pending.output,
      MergeNode.entry, Record.positive?, Option.filter, *]

namespace Mergeable

variable {f₀ : BitFile κ} {R : List (BitFile κ)} {order : List ℕ} {stream : List (MergeNode κ)}

theorem id_ne (h : Mergeable f₀ R) {g : BitFile κ} (hg : g ∈ R) : g.id ≠ f₀.id := by
  have hnodup := h.ids
  rw [List.map_cons, List.nodup_cons] at hnodup
  exact fun heq => hnodup.1 (heq ▸ List.mem_map_of_mem hg)

/-- The records of a key in the older files are those of one file. -/
theorem slot_relatives (h : Mergeable f₀ R) (key : ℕ) :
    Slot (R.flatMap fun f => f.recordsOf key) := by
  by_cases hne : R = []
  · rw [hne]
    exact .none
  · obtain ⟨R₁, g, R₂, rfl, hothers⟩ := exists_split_of_apart h.apart hne key
    rw [flatMap_recordsOf_split hothers]
    exact h.slot g (List.mem_cons_of_mem _ (List.mem_append_right _ List.mem_cons_self)) key

/-- The stream is sorted. -/
theorem sorted_stream (h : Mergeable f₀ R)
    (hpops : pops MergeNode.key ((f₀ :: R).map BitFile.nodes) order = some stream) :
    stream.Pairwise fun a b => a.key ≤ b.key := by
  refine pops_sorted hpops fun src hsrc => ?_
  obtain ⟨f, hf, rfl⟩ := List.mem_map.mp hsrc
  exact List.pairwise_map.mpr (h.sorted f hf)

/-- The entries of a key, when there are older files. -/
theorem interleaved (h : Mergeable f₀ R) (hne : R ≠ [])
    (hpops : pops MergeNode.key ((f₀ :: R).map BitFile.nodes) order = some stream) (key : ℕ) :
    ∃ v₁ id₁, v₁ < f₀.version ∧ f₀.id ≠ id₁ ∧
      Interleaved (nodesOf f₀.version f₀.id key (f₀.recordsOf key))
        (nodesOf v₁ id₁ key (R.flatMap fun f => f.recordsOf key))
        (stream.filter fun n => n.key = key) := by
  obtain ⟨g, hg, hrec, hinter⟩ := stream_interleaved h.apart hne (fun g hg => h.id_ne hg) hpops key
  exact ⟨g.version, g.id, h.younger g hg, (h.id_ne hg).symm, hrec ▸ hinter⟩

/-- The entries of a key, when there are none. -/
theorem filter_alone
    (hpops : pops MergeNode.key ([f₀].map BitFile.nodes) order = some stream) (key : ℕ) :
    (stream.filter fun n => n.key = key) = nodesOf f₀.version f₀.id key (f₀.recordsOf key) := by
  rw [← BitFile.nodes_filter]
  refine pops_filter hpops (fun n => decide (n.key = key)) (i := 0) rfl fun j s hj hne => ?_
  obtain ⟨j, rfl⟩ := Nat.exists_eq_succ_of_ne_zero hne
  cases hj

/-- **One key.** What goes to the builder, unless a deleted key comes back. -/
theorem groupOutput_eq (h : Mergeable f₀ R)
    (hpops : pops MergeNode.key ((f₀ :: R).map BitFile.nodes) order = some stream) {key : ℕ}
    (hres : ¬Resurrects (stream.filter fun n => n.key = key)) :
    groupOutput (stream.filter fun n => n.key = key) =
      (Record.positive? (f₀.recordsOf key ++ R.flatMap fun f => f.recordsOf key).head?).map
        fun r => (key, r) := by
  have hslot := h.slot f₀ List.mem_cons_self key
  by_cases hne : R = []
  · subst hne
    rw [filter_alone hpops, groupOutput_alone hslot]
    simp
  · obtain ⟨v₁, id₁, hv, hid, hinter⟩ := h.interleaved hne hpops key
    exact groupOutput_of_not_resurrects hv hid hslot (h.slot_relatives key) hinter hres

/-- In terms of the records: the key is positive in the newer file, or not there and positive
in an older one. -/
theorem positive?_head?_eq_some (h : Mergeable f₀ R) (key : ℕ) (r : Record κ) :
    Record.positive? (f₀.recordsOf key ++ R.flatMap fun f => f.recordsOf key).head? = some r ↔
      r.isNegative = false ∧
        (r ∈ f₀.recordsOf key ∨ f₀.recordsOf key = [] ∧ ∃ g ∈ R, r ∈ g.recordsOf key) := by
  rw [Record.positive?_eq_some, and_comm]
  refine and_congr_right fun hr => ?_
  have hlower : (∃ g ∈ R, r ∈ g.recordsOf key) ↔
      (R.flatMap fun f => f.recordsOf key).head? = some r := by
    rw [← (h.slot_relatives key).mem_iff_head? hr, List.mem_flatMap]
  rw [(h.slot f₀ List.mem_cons_self key).mem_iff_head? hr, hlower, List.head?_append]
  cases hE : f₀.recordsOf key with
  | nil => simp
  | cons a E => simp

end Mergeable

/-! ## With the heap -/

namespace Mergeable

variable {f₀ : BitFile κ} {R : List (BitFile κ)} {stream : List (MergeNode κ)}

/-- The sources of the merge: every file has its descriptor. -/
theorem sources (h : Mergeable f₀ R) :
    MinHeap.Sources MergeNode.key MergeNode.id (fun i => ((f₀ :: R)[i]?.map BitFile.id).getD 0)
      ((f₀ :: R).map BitFile.nodes) := by
  refine ⟨fun i s hs => ?_, fun i s hs n hn => ?_, fun i j hi hj heq => ?_⟩
  · obtain ⟨f, hf, rfl⟩ := Option.map_eq_some_iff.mp (List.getElem?_map.symm.trans hs)
    exact List.pairwise_map.mpr (h.sorted f (List.mem_of_getElem? hf))
  · obtain ⟨f, hf, rfl⟩ := Option.map_eq_some_iff.mp (List.getElem?_map.symm.trans hs)
    rw [hf]
    exact (BitFile.mem_nodes.mp hn).2.1
  · rw [List.length_map] at hi hj
    refine (List.getElem?_inj (by rwa [List.length_map]) h.ids).mp ?_
    rw [List.getElem?_eq_getElem hi, List.getElem?_eq_getElem hj] at heq
    rw [List.getElem?_map, List.getElem?_map, List.getElem?_eq_getElem hi,
      List.getElem?_eq_getElem hj]
    exact congrArg some heq

/-- **A heap that keeps its root on a tie brings no deleted key back.** -/
theorem not_resurrects_order (h : Mergeable f₀ R)
    (H : MinHeap (ℕ × MergeNode κ) (MinHeap.taggedKey MergeNode.key))
    (hpops : pops MergeNode.key ((f₀ :: R).map BitFile.nodes)
      (H.order ((f₀ :: R).map BitFile.nodes)) = some stream) (key : ℕ) :
    ¬Resurrects (stream.filter fun n => n.key = key) := by
  intro hres
  by_cases hne : R = []
  · -- all entries are of the same file
    subst hne
    rw [filter_alone hpops] at hres
    obtain ⟨a, b, c, heq, hlt, -⟩ := hres
    have hversion : ∀ n ∈ nodesOf f₀.version f₀.id key (f₀.recordsOf key), n.version = f₀.version := by
      intro n hn
      obtain ⟨r, -, rfl⟩ := List.mem_map.mp hn
      rfl
    rw [heq] at hversion
    rw [hversion a (by simp), hversion c (by simp)] at hlt
    exact Nat.lt_irrefl _ hlt
  · obtain ⟨v₁, id₁, hv, hid, hinter⟩ := h.interleaved hne hpops key
    obtain ⟨n, r, n', -, -, -, -, hgroup, -⟩ := groupOutput_of_resurrects hv
      (h.slot f₀ List.mem_cons_self key) (h.slot_relatives key) hinter hres
    obtain ⟨p, q, hsplit, -⟩ := exists_split_of_sorted (h.sorted_stream hpops) key
    rw [hgroup] at hsplit
    rw [hsplit, List.append_assoc] at hpops
    -- two entries of the older file in a row, then one of the newer file with the same key
    have hlt := H.order_strict h.sources hpops rfl ⟨f₀.version, f₀.id, key, n⟩
      List.mem_cons_self hid
    exact Nat.lt_irrefl _ hlt

end Mergeable

/-! ## The merge ends -/

/-- The descriptors that are not in use. -/
def Catalogue.freeFds (c : Catalogue) : List ℕ :=
  (List.range c.maxFd).filter fun fd => !c.bitValidityTable.valid fd

theorem Catalogue.mem_freeFds {c : Catalogue} {fd : ℕ} :
    fd ∈ c.freeFds ↔ fd < c.maxFd ∧ ¬c.InUse fd := by
  simp [Catalogue.freeFds, Catalogue.InUse]

/-- With more free descriptors than files allocated since, one more can be opened. -/
theorem Allocated.exists_openBuilder {c c' : Catalogue} {tags : List (ℕ × ℕ)}
    (h : Allocated c c' tags) (hfree : tags.length < c.freeFds.length) (level : ℕ) :
    ∃ b : BitFile κ × Catalogue, JinDisk.openBuilder c' level = some b := by
  have hex : ∃ fd ∈ c.freeFds, fd ∉ tags.map Prod.fst := by
    by_contra hall
    push Not at hall
    have hnodup : c.freeFds.Nodup := List.nodup_range.filter _
    have hle := (List.subperm_of_subset hnodup hall).length_le
    rw [List.length_map] at hle
    omega
  obtain ⟨fd, hfd, hnot⟩ := hex
  obtain ⟨hlt, huse⟩ := Catalogue.mem_freeFds.mp hfd
  obtain ⟨i, c'', hb, -⟩ := openBuilder_of_free (κ := κ) (h.maxFd ▸ hlt)
    (fun hin => (h.only fd hin).elim huse fun hin => hnot hin.1) level
  exact ⟨_, hb⟩

namespace MergeState

variable {c : Catalogue} {pre : List (MergeNode κ)} {s : MergeState κ}

/-- The files built so far are no more than the entries fill. -/
theorem Settled.length_written (h : Settled c pre s) :
    s.written.length * defaultLsmFileCapacity + s.builder.entries.length ≤ pre.length := by
  have hfull : (s.written.flatMap BitFile.entries).length =
      s.written.length * defaultLsmFileCapacity := by
    rw [List.length_flatMap, List.map_congr_left h.full, List.map_const', List.sum_replicate_nat]
  have hcount := h.count
  rw [MergeState.output, List.length_append, hfull] at hcount
  exact hcount

/-- A step fails only when no descriptor is left. -/
theorem Merging.exists_step (h : Merging c pre s)
    (hfree : pre.length / defaultLsmFileCapacity < c.freeFds.length) (level : ℕ)
    (first : MergeNode κ) :
    ∃ s', s.step level first = some s' := by
  rw [MergeState.step]
  split
  · exact ⟨_, rfl⟩
  · split
    · rename_i hfull
      have hcount := h.settle.length_written
      have hlength : s.settle.files.length ≤ pre.length / defaultLsmFileCapacity := by
        rw [Nat.le_div_iff_mul_le defaultLsmFileCapacity_pos]
        rw [MergeState.files, List.length_append, List.length_singleton, Nat.add_mul, Nat.one_mul]
        omega
      obtain ⟨b, hb⟩ := h.settle.allocated.exists_openBuilder (κ := κ) (by
        rw [List.length_map]
        omega) level
      have hcat : s.settle.catalogue = s.catalogue := rfl
      rw [hcat] at hb
      rw [hb]
      exact ⟨_, rfl⟩
    · exact ⟨_, rfl⟩

theorem Merging.exists_exec (h : Merging c pre s) (level : ℕ) {rest : List (MergeNode κ)}
    (hsorted : (pre ++ rest).Pairwise fun a b => a.key ≤ b.key)
    (hfree : (pre ++ rest).length / defaultLsmFileCapacity < c.freeFds.length) :
    ∃ s', Machine.exec (MergeState.step level) s rest = some s' := by
  induction rest generalizing pre s with
  | nil => exact ⟨s, rfl⟩
  | cons first rest ih =>
    have hle : ∀ n ∈ pre, n.key ≤ first.key := fun n hn =>
      (List.pairwise_append.mp hsorted).2.2 n hn first List.mem_cons_self
    obtain ⟨s₁, hs₁⟩ := h.exists_step (Nat.lt_of_le_of_lt
      (Nat.div_le_div_right (by rw [List.length_append]; omega)) hfree) level first
    rw [List.append_cons] at hsorted hfree
    obtain ⟨s', hs'⟩ := ih (h.step hle hs₁) hsorted hfree
    exact ⟨s', Machine.exec_cons_of hs₁ hs'⟩

end MergeState

/-- **The merge returns** when there are enough free descriptors for what it may put out. -/
theorem exists_kwayMerge {c : Catalogue} {stream : List (MergeNode κ)} (hne : stream ≠ [])
    (hsorted : stream.Pairwise fun a b => a.key ≤ b.key)
    (hfree : stream.length / defaultLsmFileCapacity < c.freeFds.length) (level : ℕ) :
    ∃ s, kwayMerge c level stream = some s := by
  obtain ⟨first, rest, rfl⟩ := List.exists_cons_of_ne_nil hne
  obtain ⟨⟨b, c'⟩, hb⟩ := (Allocated.refl c).exists_openBuilder (κ := κ)
    (Nat.lt_of_le_of_lt (Nat.zero_le _) hfree) level
  obtain ⟨s, hs⟩ := (MergeState.merging_start hb first).exists_exec level hsorted hfree
  refine ⟨s.settle, ?_⟩
  simp only [kwayMerge, hb, Option.bind_some, hs, Option.map_some]

/-- A file of level 0 and the only file of level 1 are merged if they have a key in common. -/
theorem exists_compactionJobRun {l : Levels κ} {c : Catalogue} [Inhabited κ] (hok : l.Ok c)
    {f₀ f₁ : BitFile κ} (hf₀ : l.level0.files = [f₀]) (hf₁ : l.level1.files = [f₁]) (key : ℕ)
    (h₀ : f₀.recordsOf key ≠ []) (h₁ : f₁.recordsOf key ≠ []) {order : List ℕ}
    {stream : List (MergeNode κ)}
    (hpops : pops MergeNode.key ([f₀, f₁].map BitFile.nodes) order = some stream)
    (hfree : stream.length / defaultLsmFileCapacity < c.freeFds.length) :
    l.level1.findRelativeFiles [f₀] = [f₁] ∧
      ∃ comp, compactionJobRun l c order = some comp := by
  obtain ⟨r₀, hr₀⟩ := List.exists_mem_of_ne_nil _ h₀
  obtain ⟨r₁, hr₁⟩ := List.exists_mem_of_ne_nil _ h₁
  rw [BitFile.mem_recordsOf] at hr₀ hr₁
  have hmem₀ : f₀ ∈ l.files := Levels.mem_files.mpr (Or.inl (by simp [hf₀]))
  have hmem₁ : f₁ ∈ l.files := Levels.mem_files.mpr (Or.inr (by simp [hf₁]))
  have hrel : l.level1.findRelativeFiles [f₀] = [f₁] := by
    have hsub := l.level1.findRelativeFiles_sublist [f₀]
    have hsorted₀ : ∀ f ∈ [f₀], f.Sorted := fun f hf =>
      List.mem_singleton.mp hf ▸ (hok.files f₀ hmem₀).sorted
    obtain ⟨before, after, hsplit, hbefore, hafter⟩ :=
      hok.tidy.findRelativeFiles_spec hsorted₀ fun f hf hnil => by
        have hf := hsub.subset hf
        rw [hf₁, List.mem_singleton] at hf
        rw [← hf, hnil] at hr₁
        cases hr₁
    -- the file is neither below nor above
    have hf : f₁ ∈ before ++ l.level1.findRelativeFiles [f₀] ++ after := by
      rw [← hsplit, hf₁]
      exact List.mem_singleton_self f₁
    rcases List.mem_append.mp hf with hf | hf
    · rcases List.mem_append.mp hf with hf | hf
      · exact absurd (hbefore f₁ hf f₀ List.mem_cons_self _ hr₁ _ hr₀) (Nat.lt_irrefl key)
      · rw [hf₁] at hsub
        rcases List.sublist_singleton.mp hsub with hnil | hone
        · rw [hnil] at hf
          cases hf
        · exact hone
    · exact absurd (hafter f₁ hf f₀ List.mem_cons_self _ hr₀ _ hr₁) (Nat.lt_irrefl key)
  refine ⟨hrel, ?_⟩
  have hdemoted : l.level0.pickDemotedFiles = [f₀] := by
    rw [BitLevel.pickDemotedFiles, if_neg (by simp [hok.level0.1]), hf₀]
  have hsorted : stream.Pairwise fun a b => a.key ≤ b.key := by
    refine pops_sorted hpops fun src hsrc => ?_
    obtain ⟨f, hf, rfl⟩ := List.mem_map.mp hsrc
    refine List.pairwise_map.mpr (hok.files f ?_).sorted
    rcases List.mem_cons.mp hf with rfl | hf
    · exact hmem₀
    · exact List.mem_singleton.mp hf ▸ hmem₁
  have hne : stream ≠ [] := by
    rintro rfl
    cases order with
    | nil =>
      have hnil := (pops_nil_eq_some hpops).2 f₀.nodes (by simp)
      rw [List.map_eq_nil_iff.mp hnil] at hr₀
      cases hr₀
    | cons i order =>
      obtain ⟨x, rest, out, -, -, -, heq⟩ := pops_cons_eq_some hpops
      cases heq
  obtain ⟨st, hst⟩ := exists_kwayMerge hne hsorted hfree l.level1.level
  unfold compactionJobRun mergeInputs
  rw [hdemoted, hrel, if_neg (by simp), if_neg (by
    simp only [List.singleton_append, List.any_cons, List.any_nil, Bool.or_false, Bool.or_eq_true,
      List.isEmpty_iff, not_or]
    exact ⟨List.ne_nil_of_mem hr₀, List.ne_nil_of_mem hr₁⟩), List.singleton_append, hpops,
    Option.bind_some, hst]
  exact ⟨_, rfl⟩

/-- **K-way merge.** Whatever the heap does besides keeping its root on a tie, the merge takes
every entry; when it returns, the entries given to the builders are in strictly increasing
order, and they are the positive records of the newer file, and of the older files for keys
that are not in the newer one. It returns if there are enough free descriptors. -/
theorem kway_merge_correct (H : MinHeap (ℕ × MergeNode κ) (MinHeap.taggedKey MergeNode.key))
    {f₀ : BitFile κ} {R : List (BitFile κ)} (h : Mergeable f₀ R) :
    ∃ stream, pops MergeNode.key ((f₀ :: R).map BitFile.nodes)
        (H.order ((f₀ :: R).map BitFile.nodes)) = some stream ∧
      (∀ c level, stream ≠ [] → stream.length / defaultLsmFileCapacity < c.freeFds.length →
        ∃ s, kwayMerge c level stream = some s) ∧
      ∀ c level s, kwayMerge c level stream = some s →
        (s.output.Pairwise fun a b => a.1 < b.1) ∧
        ∀ k r, (k, r) ∈ s.output ↔ r.isNegative = false ∧
          (r ∈ f₀.recordsOf k ∨ f₀.recordsOf k = [] ∧ ∃ g ∈ R, r ∈ g.recordsOf k) := by
  obtain ⟨stream, hpops⟩ := H.order_pops ((f₀ :: R).map BitFile.nodes)
  have hsorted := h.sorted_stream hpops
  refine ⟨stream, hpops, fun c level hne hfree => exists_kwayMerge hne hsorted hfree level,
    fun c level s hs => ?_⟩
  have hsettled := kwayMerge_settled hsorted hs
  refine ⟨hsettled.sorted, fun k r => ?_⟩
  have hmem : (k, r) ∈ s.output ↔ (k, r) ∈ s.output.filter fun e => e.1 = k := by simp
  rw [hmem, hsettled.output, Option.mem_toList,
    h.groupOutput_eq hpops (h.not_resurrects_order H hpops k), Option.map_eq_some_iff,
    ← h.positive?_head?_eq_some]
  constructor
  · rintro ⟨r', hr', heq⟩
    exact (Prod.mk.inj heq).2 ▸ hr'
  · exact fun hr => ⟨r, hr, rfl⟩

/-- A newer file that deletes key 1 and an older one with other keys. -/
theorem kway_merge_correct_sample :
    ∃ stream, pops MergeNode.key
        ([⟨0, 0, 2, [(0, ⟨10, [], ()⟩), (1, .negative)]⟩,
          (⟨1, 1, 1, [(2, ⟨12, [], ()⟩)]⟩ : BitFile Unit)].map BitFile.nodes)
        ((MinHeap.sortedList (MinHeap.taggedKey MergeNode.key)).order
          ([⟨0, 0, 2, [(0, ⟨10, [], ()⟩), (1, .negative)]⟩,
            (⟨1, 1, 1, [(2, ⟨12, [], ()⟩)]⟩ : BitFile Unit)].map BitFile.nodes)) = some stream ∧
      ∀ c level s, kwayMerge c level stream = some s →
        (2, ⟨12, [], ()⟩) ∈ s.output ∧ (1, .negative) ∉ s.output := by
  have hmergeable : Mergeable ⟨0, 0, 2, [(0, ⟨10, [], ()⟩), (1, .negative)]⟩
      [(⟨1, 1, 1, [(2, ⟨12, [], ()⟩)]⟩ : BitFile Unit)] := by
    refine ⟨?_, ?_, List.pairwise_singleton _ _, by decide, by decide⟩
    · simp [BitFile.Sorted]
    · intro f hf
      refine BitFile.slot_of_strict ?_
      simp only [List.mem_cons, List.not_mem_nil, or_false] at hf
      rcases hf with rfl | rfl <;> simp
  obtain ⟨stream, hpops, -, hout⟩ :=
    kway_merge_correct (MinHeap.sortedList (MinHeap.taggedKey MergeNode.key)) hmergeable
  refine ⟨stream, hpops, fun c level s hs => ?_⟩
  obtain ⟨-, hmem⟩ := hout c level s hs
  rw [hmem, hmem]
  decide

end JinDisk
