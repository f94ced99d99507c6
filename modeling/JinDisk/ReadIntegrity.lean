import JinDisk.Device
import JinDisk.ReadCompletion

/-!
# The integrity of reads

The data region is in the hands of the adversary. Blocks are encrypted with an AEAD, and the mac of
a block is in its record, so that a block that is not the right one cannot be decrypted.
`decrypt_work` prints a message when this happens and goes on; nothing sets the status of the bio.

A block is also not filled if the range search has not found its record, or if the bio ends before
the range of the block is decrypted. The reader waits for the first range only
(`first_range_decrypted`), so the condition for a read to be right is that every block is found, that
it lies in the first range and that its ciphertext is on the disk (`read_integrity_iff`).
-/

namespace JinDisk

open Machine

/-! ## The first range -/

namespace ReadState

variable {s t : ReadState} {pbas : List ℕ}

/-- The loop of `decrypt_work` is over for the range of block `k`. -/
def Decrypted (s : ReadState) (k : ℕ) : Prop :=
  ∃ w ∈ s.works, w.2 ≠ .issued ∧ w.2 ≠ .failed ∧ w.1.1 ≤ k ∧ k ≤ w.1.2

/-- The ranges that are not handed over yet. -/
def leftRanges : ReaderPc → List BlockRange
  | .issue rest => rest
  | .submit range rest => range :: rest
  | .wait => []
  | .ended => []

/-- What the counter and the completion tell about the first range. -/
structure Counting (pbas : List ℕ) (s : ReadState) : Prop where
  /-- no range is left out -/
  ranges : s.works.map Prod.fst ++ leftRanges s.pc = mergedRanges pbas
  /-- the counter -/
  waitCnt : s.waitCnt = s.works.countP pending + submitting s.pc
  /-- without works nothing is signalled -/
  idle : s.works = [] → s.done = 0
  /-- once something was signalled, the first range is over -/
  first : 0 < s.done ∨ (∃ w ∈ s.works, w.2 = .counted true) ∨ s.pc = .ended →
    ∀ w ∈ s.works.head?, pending w = false

theorem counting_init (pbas : List ℕ) : Counting pbas (init pbas) := by
  refine ⟨rfl, rfl, fun _ => rfl, fun _ w hw => ?_⟩
  cases hw

theorem advance_split {i : ℕ} {old new : RangeWork} (h : s.advance i old new = some t) :
    ∃ as r bs, s.works = as ++ (r, old) :: bs ∧ t = { s with works := as ++ (r, new) :: bs } := by
  obtain ⟨r, hr, rfl⟩ := advance_eq_some h
  obtain ⟨hlt, heq⟩ := List.getElem?_eq_some_iff.mp hr
  refine ⟨s.works.take i, r, s.works.drop (i + 1), ?_, ?_⟩
  · rw [← heq, ← List.drop_eq_getElem_cons hlt, List.take_append_drop]
  · rw [List.set_eq_take_append_cons_drop, if_pos hlt]

/-- All works are over when none is pending. -/
theorem Counting.first_of_zero {works : List (BlockRange × RangeWork)} (h : works.countP pending = 0) :
    ∀ w ∈ works.head?, pending w = false := by
  intro w hw
  have hnot := List.countP_eq_zero.mp h w (List.mem_of_mem_head? hw)
  exact Bool.eq_false_iff.mpr hnot

/-- What is known of the first range is still known when a work goes on. -/
theorem Counting.first_advance (h : Counting pbas s) {as bs : List (BlockRange × RangeWork)}
    {r : BlockRange} {old new : RangeWork} (hworks : s.works = as ++ (r, old) :: bs)
    (hp : pending (r, old) = false → pending (r, new) = false) (hnew : new ≠ .counted true)
    (hsignal : 0 < s.done ∨ (∃ w ∈ as ++ (r, new) :: bs, w.2 = .counted true) ∨ s.pc = .ended) :
    ∀ w ∈ (as ++ (r, new) :: bs).head?, pending w = false := by
  have hfirst := h.first
  rw [hworks] at hfirst
  have hsignal' : 0 < s.done ∨ (∃ w ∈ as ++ (r, old) :: bs, w.2 = .counted true) ∨ s.pc = .ended := by
    refine hsignal.imp_right (Or.imp_left ?_)
    rintro ⟨x, hx, htrue⟩
    rcases List.mem_append.mp hx with hx | hx
    · exact ⟨x, List.mem_append_left _ hx, htrue⟩
    · rcases List.mem_cons.mp hx with rfl | hx
      · exact absurd htrue hnew
      · exact ⟨x, List.mem_append_right _ (List.mem_cons_of_mem _ hx), htrue⟩
  intro w hw
  cases as with
  | nil =>
    obtain rfl := Option.some.inj hw
    exact hp (hfirst hsignal' _ rfl)
  | cons a as => exact hfirst hsignal' w hw

/-- A work goes on without a look at the counter. -/
theorem Counting.advance (h : Counting pbas s) {i : ℕ} {old new : RangeWork}
    (ht : s.advance i old new = some t) (hp : ∀ r, pending (r, new) = pending (r, old))
    (hnew : new ≠ .counted true) : Counting pbas t := by
  obtain ⟨as, r, bs, hworks, rfl⟩ := advance_split ht
  have hranges := h.ranges
  have hcnt := h.waitCnt
  rw [hworks] at hranges hcnt
  simp only [List.map_append, List.map_cons] at hranges
  refine ⟨?_, ?_, fun hnil => ?_, h.first_advance hworks (fun hold => (hp r).trans hold) hnew⟩
  · simp only [List.map_append, List.map_cons]
    exact hranges
  · simp only [List.countP_append, List.countP_cons, hp] at hcnt ⊢
    exact hcnt
  · exact absurd (congrArg List.length hnil) (by simp)

/-- A work is over for the counter. -/
theorem Counting.dec (h : Counting pbas s) {i : ℕ}
    (ht : s.advance i .decrypted (.counted (s.waitCnt - 1 = 0)) = some t) :
    Counting pbas { t with waitCnt := t.waitCnt - 1 } := by
  obtain ⟨as, r, bs, hworks, rfl⟩ := advance_split ht
  have hranges := h.ranges
  have hcnt := h.waitCnt
  rw [hworks] at hranges hcnt
  simp only [List.map_append, List.map_cons] at hranges
  have hcnt' : s.waitCnt - 1 =
      (as ++ (r, .counted (s.waitCnt - 1 = 0)) :: bs).countP pending + submitting s.pc := by
    have hold : pending (r, .decrypted) = true := rfl
    have hnew : ∀ zero, pending (r, .counted zero) = false := fun _ => rfl
    rw [List.countP_append, List.countP_cons_of_neg (by rw [hnew]; exact Bool.false_ne_true)]
    rw [List.countP_append, List.countP_cons_of_pos hold] at hcnt
    omega
  refine ⟨?_, hcnt', fun hnil => ?_, ?_⟩
  · simp only [List.map_append, List.map_cons]
    exact hranges
  · exact absurd (congrArg List.length hnil) (by simp)
  · by_cases hzero : s.waitCnt - 1 = 0
    · -- the counter is at zero
      refine fun _ => Counting.first_of_zero ?_
      show (as ++ (r, .counted (s.waitCnt - 1 = 0)) :: bs).countP pending = 0
      omega
    · refine h.first_advance hworks (fun _ => rfl) ?_
      rw [decide_eq_false hzero]
      nofun

/-- The completion is signalled. -/
theorem Counting.signal (h : Counting pbas s) {i : ℕ}
    (ht : s.advance i (.counted true) .finished = some t) :
    Counting pbas { t with done := t.done + 1 } := by
  have h' := h.advance ht (fun _ => rfl) nofun
  obtain ⟨as, r, bs, hworks, rfl⟩ := advance_split ht
  refine ⟨h'.ranges, h'.waitCnt, fun hnil => ?_, fun _ w hw => ?_⟩
  · exact absurd (congrArg List.length hnil) (by simp)
  · have hfirst := h.first (Or.inr (Or.inl ⟨(r, .counted true), ?_, rfl⟩))
    · rw [hworks] at hfirst
      cases as with
      | nil =>
        obtain rfl := Option.some.inj hw
        rfl
      | cons a as => exact hfirst w hw
    · rw [hworks]
      exact List.mem_append_right _ List.mem_cons_self

theorem Counting.step {a : ReadAction} (h : Counting pbas s) (ha : a ≠ .noMemory)
    (ht : s.step a = some t) : Counting pbas t := by
  cases a with
  | inc =>
    simp only [ReadState.step] at ht
    split at ht
    · rename_i range rest hpc
      obtain rfl := Option.some.inj ht
      have hranges := h.ranges
      have hcnt := h.waitCnt
      rw [hpc] at hranges hcnt
      refine ⟨hranges, ?_, h.idle, fun hsignal => h.first ?_⟩
      · simp only [submitting] at hcnt ⊢
        omega
      · exact hsignal.imp_right (Or.imp_right fun h => by cases h)
    · cases ht
  | noMemory => exact absurd rfl ha
  | submit =>
    simp only [ReadState.step] at ht
    split at ht
    · rename_i range rest hpc
      obtain rfl := Option.some.inj ht
      have hranges := h.ranges
      have hcnt := h.waitCnt
      rw [hpc] at hranges hcnt
      refine ⟨?_, ?_, fun hnil => ?_, fun hsignal => ?_⟩
      · rw [← hranges]
        simp only [leftRanges, List.map_append, List.map_cons, List.map_nil, List.append_assoc,
          List.singleton_append]
      · have hpending : pending (range, .issued) = true := rfl
        rw [List.countP_append, List.countP_singleton, if_pos hpending, hcnt]
        rfl
      · exact absurd (congrArg List.length hnil) (by simp)
      · have hsignal' : 0 < s.done ∨ (∃ w ∈ s.works, w.2 = .counted true) ∨ s.pc = .ended := by
          rcases hsignal with hdone | ⟨w, hw, htrue⟩ | hended
          · exact Or.inl hdone
          · rcases List.mem_append.mp hw with hw | hw
            · exact Or.inr (Or.inl ⟨w, hw, htrue⟩)
            · rw [List.mem_singleton.mp hw] at htrue
              cases htrue
          · cases hended
        have hfirst := h.first hsignal'
        intro w hw
        cases hworks : s.works with
        | nil =>
          -- nothing was signalled before the first range
          exfalso
          rw [hworks, hpc] at hsignal'
          rcases hsignal' with hdone | ⟨w, hw, -⟩ | hended
          · rw [h.idle hworks] at hdone
            exact absurd hdone (Nat.lt_irrefl 0)
          · cases hw
          · cases hended
        | cons x works =>
          rw [hworks] at hfirst hw
          exact hfirst w hw
    · cases ht
  | check =>
    simp only [ReadState.step] at ht
    split at ht
    · rename_i hpc
      obtain rfl := Option.some.inj ht
      have hranges := h.ranges
      have hcnt := h.waitCnt
      rw [hpc] at hranges hcnt
      by_cases hzero : s.waitCnt = 0
      · rw [if_pos hzero]
        refine ⟨hranges, hcnt, h.idle, fun _ => Counting.first_of_zero ?_⟩
        have hsubmitting : submitting (.issue []) = 0 := rfl
        show s.works.countP pending = 0
        omega
      · rw [if_neg hzero]
        refine ⟨hranges, hcnt, h.idle, fun hsignal => h.first ?_⟩
        exact hsignal.imp_right (Or.imp_right fun h => by cases h)
    · cases ht
  | wake =>
    simp only [ReadState.step] at ht
    split at ht
    · rename_i done hpc hdone
      obtain rfl := Option.some.inj ht
      have hranges := h.ranges
      have hcnt := h.waitCnt
      rw [hpc] at hranges hcnt
      have hpos : 0 < s.done := by omega
      refine ⟨hranges, hcnt, fun hnil => ?_, fun _ => h.first (Or.inl hpos)⟩
      exact absurd (h.idle hnil) hpos.ne'
    · cases ht
  | ioError i => exact h.advance ht (fun _ => rfl) (by decide)
  | decrypt i => exact h.advance ht (fun _ => rfl) (by decide)
  | dec i =>
    obtain ⟨t', ht', rfl⟩ := Option.map_eq_some_iff.mp ht
    exact h.dec ht'
  | complete i =>
    simp only [ReadState.step] at ht
    split at ht
    · rename_i t' ht'
      obtain rfl := Option.some.inj ht
      exact h.signal ht'
    · exact h.advance ht (fun _ => rfl) (by decide)

/-- **The reader waits for the first range.** -/
theorem first_range_decrypted {as : List ReadAction} (hrun : exec step (init pbas) as = some s)
    (hmemory : .noMemory ∉ as) (hended : s.pc = .ended) {r : BlockRange} {rest : List BlockRange}
    (hranges : mergedRanges pbas = r :: rest) {k : ℕ} (hle : r.1 ≤ k) (hk : k ≤ r.2) :
    s.Decrypted k := by
  have hok : Along step (fun _ a => a ≠ .noMemory) (init pbas) as := by
    refine along_of_forall fun a ha _ => ?_
    rintro rfl
    exact hmemory ha
  have h := Machine.invariant (fun s a s' h ha hstep => h.step ha hstep) (counting_init pbas) hok hrun
  have hworks := h.ranges
  rw [hended, hranges] at hworks
  cases hs : s.works with
  | nil =>
    rw [hs] at hworks
    cases hworks
  | cons w works =>
    rw [hs] at hworks
    obtain ⟨rfl, -⟩ := List.cons.inj hworks
    have hfirst := h.first (Or.inr (Or.inr hended))
    rw [hs] at hfirst
    have hnot := hfirst w rfl
    simp only [pending, Bool.or_eq_false_iff, decide_eq_false_iff_not] at hnot
    exact ⟨w, hs ▸ List.mem_cons_self, hnot.1.1, hnot.1.2, hle, hk⟩

/-- A read may end when only the first range is decrypted. -/
theorem exists_first_only (pbas : List ℕ) :
    ∃ as s, exec step (init pbas) as = some s ∧ .noMemory ∉ as ∧ s.pc = .ended ∧
      ∀ k, s.Decrypted k → ∃ r rest, mergedRanges pbas = r :: rest ∧ r.1 ≤ k ∧ k ≤ r.2 := by
  match hranges : mergedRanges pbas with
  | [] =>
    refine ⟨[.check], ⟨.ended, 0, 0, []⟩, ?_, by simp, rfl, ?_⟩
    · rw [init, hranges]
      rfl
    · rintro k ⟨w, hw, -⟩
      cases hw
  | [r] =>
    refine ⟨[.inc, .submit, .decrypt 0, .dec 0, .check], ⟨.ended, 0, 0, [(r, .counted true)]⟩, ?_,
      by simp, rfl, ?_⟩
    · rw [init, hranges]
      rfl
    · rintro k ⟨w, hw, -, -, hle, hk⟩
      obtain rfl := List.mem_singleton.mp hw
      exact ⟨r, [], rfl, hle, hk⟩
  | r₁ :: r₂ :: rest =>
    refine ⟨earlyRun (r₂ :: rest), _, exec_earlyRun hranges, by simp [earlyRun], rfl, ?_⟩
    rintro k ⟨w, hw, hissued, -, hle, hk⟩
    rcases List.mem_cons.mp hw with rfl | hw
    · exact ⟨r₁, r₂ :: rest, rfl, hle, hk⟩
    · obtain ⟨r, -, rfl⟩ := List.mem_map.mp hw
      exact absurd rfl hissued

end ReadState

/-- The blocks of the first range are those up to which the blocks are consecutive. -/
theorem mergeFrom_first (start stop p : ℕ) (pbas : List ℕ) :
    ∃ last rest, mergeFrom start stop (p :: pbas) = (start, last) :: rest ∧ stop ≤ last ∧
      ∀ k, stop + k ≤ last ↔ k ≤ pbas.length ∧
        ((p :: pbas).take (k + 1)).IsChain fun p q => p + 1 = q := by
  induction pbas generalizing stop p with
  | nil =>
    refine ⟨stop, [], rfl, le_rfl, fun k => ?_⟩
    rw [List.take_of_length_le (by simp), and_iff_left (.singleton p), List.length_nil]
    omega
  | cons q pbas ih =>
    rw [mergeFrom]
    split
    · rename_i hnext
      obtain ⟨last, rest, heq, hle, hiff⟩ := ih (stop + 1) q
      refine ⟨last, rest, heq, by omega, fun k => ?_⟩
      cases k with
      | zero => exact iff_of_true (by omega) ⟨Nat.zero_le _, .singleton p⟩
      | succ k =>
        rw [List.take_succ_cons, List.take_succ_cons, List.isChain_cons_cons, and_iff_right hnext,
          ← List.take_succ_cons, List.length_cons, Nat.add_le_add_iff_right, ← hiff]
        omega
    · rename_i hnext
      refine ⟨stop, _, rfl, le_rfl, fun k => ?_⟩
      cases k with
      | zero => exact iff_of_true le_rfl ⟨Nat.zero_le _, .singleton p⟩
      | succ k =>
        rw [List.take_succ_cons, List.take_succ_cons, List.isChain_cons_cons]
        exact iff_of_false (by omega) fun h => hnext h.2.1

theorem mem_first_range_iff {pbas : List ℕ} {k : ℕ} (hk : k < pbas.length) :
    (∃ r rest, mergedRanges pbas = r :: rest ∧ r.1 ≤ k ∧ k ≤ r.2) ↔
      (pbas.take (k + 1)).IsChain fun p q => p + 1 = q := by
  cases pbas with
  | nil => cases hk
  | cons p pbas =>
    obtain ⟨last, rest, heq, -, hiff⟩ := mergeFrom_first 0 0 p pbas
    have hiff := hiff k
    rw [Nat.zero_add, and_iff_right (Nat.le_of_lt_succ hk)] at hiff
    rw [mergedRanges, heq, ← hiff]
    constructor
    · rintro ⟨r, rest', hr, -, hle⟩
      obtain ⟨rfl, -⟩ := List.cons.inj hr
      exact hle
    · exact fun hle => ⟨(0, last), rest, rfl, Nat.zero_le _, hle⟩

/-! ## Reads -/

variable {κ D : Type} [Inhabited κ]

/-- An ideal AEAD: a block can be decrypted with a record if and only if it is the ciphertext that was
produced for the record. `sealed` has the ciphertext and the plaintext of the records. -/
def DataCipher.Ideal (c : DataCipher κ D) (sealed : Record κ → Option (D × D)) : Prop :=
  ∀ r x data, c.decrypt r.key r.mac r.pba x = .ok data ↔ sealed r = some (x, data)

namespace Device

/-- `blks` of `jindisk_do_read`: the lbas that are read from the disk, with their records. -/
def readInfos (d : Device κ D) (results : Option (Memtable κ)) (start count : ℕ) :
    List (ℕ × Record κ) :=
  (List.range' start count).filterMap fun lba =>
    match d.segBuffer.queryBlock lba with
    | some _ => none
    | none => (results.bind fun m => m.get lba).bind fun old =>
      if old.pba = infAddr then none else some (lba, old)

theorem readInfos_congr {d d' : Device κ D} {results : Option (Memtable κ)} {start count : ℕ}
    (h : d.segBuffer = d'.segBuffer) :
    d.readInfos results start count = d'.readInfos results start count := by
  simp only [readInfos, h]

/-- The physical blocks of a read. -/
def readPbas (d : Device κ D) (results : Option (Memtable κ)) (start count : ℕ) : List ℕ :=
  (d.readInfos results start count).map fun e => e.2.pba

/-- The read asks for the block, which is not in the segment buffer and has a positive newest record. -/
def Asks (d : Device κ D) (start count lba : ℕ) (r : Record κ) : Prop :=
  lba ∈ List.range' start count ∧ d.segBuffer.queryBlock lba = none ∧ d.lsmTree.mapping lba = some r

/-- `decrypt_work` has filled the page of the block. -/
def Filled (c : DataCipher κ D) (d : Device κ D) (infos : List (ℕ × Record κ)) (s : ReadState)
    (lba : ℕ) (data : D) : Prop :=
  ∃ k r, infos[k]? = some (lba, r) ∧ s.Decrypted k ∧
    c.decrypt r.key r.mac r.pba (d.rawDev r.pba) = .ok data

/-- **The integrity of a read.** Whatever the disk has, every block is filled with its plaintext in
every interleaving if and only if, for every block, the range search finds its record (or one with
the same plaintext), the blocks up to it are consecutive, and the disk has the ciphertext of that
record. -/
theorem read_integrity_iff (c : DataCipher κ D) (sealed : Record κ → Option (D × D))
    (hideal : c.Ideal sealed) (d : Device κ D) (caches : ℕ → LruCache (Leaf κ)) (start count : ℕ) :
    (∀ results, d.lsmTree.rangeSearch caches start (start + count - 1) = some results →
      ∀ as s, exec ReadState.step (.init (d.readPbas results start count)) as = some s →
        .noMemory ∉ as → s.pc = .ended → ∀ lba r, d.Asks start count lba r →
          ∃ x data, sealed r = some (x, data) ∧
            d.Filled c (d.readInfos results start count) s lba data) ↔
    ∀ results, d.lsmTree.rangeSearch caches start (start + count - 1) = some results →
      ∀ lba r, d.Asks start count lba r →
        ∃ k r' x data, (d.readInfos results start count)[k]? = some (lba, r') ∧
          (((d.readPbas results start count).take (k + 1)).IsChain fun p q => p + 1 = q) ∧
          sealed r = some (x, data) ∧ sealed r' = some (d.rawDev r'.pba, data) := by
  refine forall₂_congr fun results _ => ?_
  have hlt : ∀ {k e}, (d.readInfos results start count)[k]? = some e →
      k < (d.readPbas results start count).length := by
    intro k e he
    rw [readPbas, List.length_map]
    exact (List.getElem?_eq_some_iff.mp he).1
  constructor
  · intro h lba r hasks
    obtain ⟨as, s, hrun, hmemory, hended, honly⟩ :=
      ReadState.exists_first_only (d.readPbas results start count)
    obtain ⟨x, data, hsealed, k, r', hinfo, hdec, hok⟩ := h as s hrun hmemory hended lba r hasks
    exact ⟨k, r', x, data, hinfo, (mem_first_range_iff (hlt hinfo)).mp (honly k hdec), hsealed,
      (hideal _ _ _).mp hok⟩
  · intro h as s hrun hmemory hended lba r hasks
    obtain ⟨k, r', x, data, hinfo, hchain, hsealed, hsealed'⟩ := h lba r hasks
    obtain ⟨range, rest, hranges, hle, hk⟩ := (mem_first_range_iff (hlt hinfo)).mpr hchain
    refine ⟨x, data, hsealed, k, r', hinfo, ?_, (hideal _ _ _).mpr hsealed'⟩
    exact ReadState.first_range_decrypted hrun hmemory hended hranges hle hk

/-! ## A block on disk -/

/-- A cipher whose mac is the data. -/
def tellingCipher : DataCipher Unit UInt8 where
  encrypt _ _ data := (data + 1, [data])
  decrypt _ mac _ x := if mac = [x - 1] then .ok (x - 1) else .error (-74)

/-- What it has encrypted for a record. -/
def tellingSealed (r : Record Unit) : Option (UInt8 × UInt8) :=
  match r.mac with
  | [data] => some (data + 1, data)
  | _ => none

theorem tellingCipher_ideal : tellingCipher.Ideal tellingSealed := by
  rintro ⟨pba, mac, key⟩ x data
  show (if mac = [x - 1] then Except.ok (x - 1) else .error (-74)) = Except.ok data ↔
    tellingSealed ⟨pba, mac, key⟩ = some (x, data)
  constructor
  · intro h
    split at h
    · rename_i hmac
      obtain rfl := Except.ok.inj h
      rw [hmac, tellingSealed]
      simp only [UInt8.sub_add_cancel]
    · cases h
  · intro h
    simp only [tellingSealed] at h
    split at h
    · obtain ⟨rfl, rfl⟩ := Prod.mk.inj (Option.some.inj h)
      rw [UInt8.add_sub_cancel, if_pos rfl]
    · cases h

/-- The record of block 0. -/
def zeroRecord : Record Unit := ⟨5, [7], ()⟩

/-- A tree with the record in its memtable. -/
def zeroTree : LsmTree Unit :=
  ((LsmTree.init 6 14).put 0 (some zeroRecord)).1

/-- A device with block 0 at 5, where the disk has `x`. -/
def zeroAtFive (x : UInt8) : Device Unit UInt8 where
  segBuffer := .init () ()
  bufferioWq := []
  lsmTree := zeroTree
  compactionWq := 0
  tables := .format 330
  rit := ⟨330 * blocksPerSegment, fun _ => infAddr⟩
  rawDev := fun _ => x

/-- No leaf is cached. -/
def noCaches : ℕ → LruCache (Leaf Unit) := fun _ => ⟨0, []⟩

/-- The record is found in the memtable, whatever the disk has. -/
theorem zeroAtFive_results (x : UInt8) :
    ∃ results, (zeroAtFive x).lsmTree.rangeSearch noCaches 0 (0 + 1 - 1) = some results ∧
      (zeroAtFive x).readInfos results 0 1 = [(0, zeroRecord)] := by
  have h : ((zeroTree.rangeSearch noCaches 0 0).map fun results =>
      (zeroAtFive 0).readInfos results 0 1) = some [(0, zeroRecord)] := by
    decide +kernel
  obtain ⟨results, hresults, hinfos⟩ := Option.map_eq_some_iff.mp h
  refine ⟨results, hresults, ?_⟩
  rw [← hinfos]
  exact readInfos_congr rfl

theorem zeroAtFive_asks (x : UInt8) : (zeroAtFive x).Asks 0 1 0 zeroRecord := by
  have hbuffer : (SegBuf.init () () : SegBuf Unit UInt8).queryBlock 0 = none := by
    decide +kernel
  have hmapping : zeroTree.mapping 0 = some zeroRecord := by
    decide +kernel
  exact ⟨by decide, hbuffer, hmapping⟩

/-- The one thing that a read of the block asks for. -/
theorem zeroAtFive_asks_eq {x : UInt8} {lba : ℕ} {r : Record Unit}
    (h : (zeroAtFive x).Asks 0 1 lba r) : lba = 0 ∧ r = zeroRecord := by
  obtain rfl : lba = 0 := by
    have hlt := (List.mem_range'_1.mp h.1).2
    omega
  exact ⟨rfl, Option.some.inj (h.2.2.symm.trans (zeroAtFive_asks x).2.2)⟩

/-- The disk has the ciphertext. -/
theorem read_integrity_iff_sample :
    ∃ results, (zeroAtFive 8).lsmTree.rangeSearch noCaches 0 (0 + 1 - 1) = some results ∧
      ∀ as s, exec ReadState.step (.init ((zeroAtFive 8).readPbas results 0 1)) as = some s →
        .noMemory ∉ as → s.pc = .ended →
          ∃ x data, tellingSealed zeroRecord = some (x, data) ∧
            (zeroAtFive 8).Filled tellingCipher ((zeroAtFive 8).readInfos results 0 1) s 0 data := by
  have h := (read_integrity_iff tellingCipher tellingSealed tellingCipher_ideal (zeroAtFive 8)
    noCaches 0 1).mpr
  obtain ⟨results, hresults, hinfos⟩ := zeroAtFive_results 8
  refine ⟨results, hresults, fun as s hrun hmemory hended => ?_⟩
  refine h (fun results' hresults' lba r hasks => ?_) results hresults as s hrun hmemory hended 0 _
    (zeroAtFive_asks 8)
  obtain rfl := Option.some.inj (hresults.symm.trans hresults')
  obtain ⟨rfl, rfl⟩ := zeroAtFive_asks_eq hasks
  rw [readPbas, hinfos]
  exact ⟨0, zeroRecord, 8, 7, rfl, .singleton _, rfl, rfl⟩

/-- **The adversary has changed the block.** The bio ends, and its status is not set; the page is not
filled. -/
theorem tampered_block_not_reported :
    ∃ results, (zeroAtFive 0).lsmTree.rangeSearch noCaches 0 (0 + 1 - 1) = some results ∧
      ∃ as s, exec ReadState.step (.init ((zeroAtFive 0).readPbas results 0 1)) as = some s ∧
        .noMemory ∉ as ∧ s.pc = .ended ∧ (zeroAtFive 0).Asks 0 1 0 zeroRecord ∧
        tellingSealed zeroRecord = some (8, 7) ∧
        ∀ data, ¬(zeroAtFive 0).Filled tellingCipher ((zeroAtFive 0).readInfos results 0 1) s 0 data := by
  obtain ⟨results, hresults, hinfos⟩ := zeroAtFive_results 0
  obtain ⟨as, s, hrun, hmemory, hended, -⟩ :=
    ReadState.exists_first_only ((zeroAtFive 0).readPbas results 0 1)
  refine ⟨results, hresults, as, s, hrun, hmemory, hended, zeroAtFive_asks 0, rfl, ?_⟩
  rintro data ⟨k, r, hinfo, -, hok⟩
  rw [hinfos] at hinfo
  obtain ⟨-, rfl⟩ := Prod.mk.inj (List.mem_singleton.mp (List.mem_of_getElem? hinfo))
  have hsealed := (tellingCipher_ideal _ _ _).mp hok
  have height : (8 : UInt8) = 0 := congrArg Prod.fst (Option.some.inj hsealed)
  exact absurd height (by decide)

end Device

end JinDisk
