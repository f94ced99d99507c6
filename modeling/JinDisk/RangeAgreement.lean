import JinDisk.RangeSearch
import JinDisk.Reopen

/-!
# Range lookup against point lookup

A range lookup goes through the same layers as a point lookup, and in the levels it comes to the
same file. It returns what the point lookups return unless one of its keys is torn: the leaf has
a positive and a negative record of the key, and the lookup comes to the leaf with this key
first. Then the negative record is returned if the leaf was not cached (`torn_key_returned`).
A file without entries has no root, and neither lookup gets over it. In all other cases the two
agree (`range_agrees_iff`).
-/

namespace JinDisk

variable {κ : Type} {start stop : ℕ}

/-! ## Levels without a file and below level 0 -/

namespace BitLevel

variable {l : BitLevel κ}

/-- A level without files. -/
theorem rangeSearch_nil (hfiles : l.files = []) (st : RangeState κ) :
    l.rangeSearch start stop st = some st := by
  -- no file is located
  have hlocate : ∀ key, l.locateFile key = none := by
    intro key
    rw [locateFile, hfiles]
    cases BinarySearch.bsearch (l.cmpKeyAt key) 0 ([] : List (BitFile κ)).length <;> rfl
  have hloop : ∀ keys, Machine.exec (l.rangeStep start stop) st keys = some st := by
    intro keys
    induction keys with
    | nil => rfl
    | cons key keys ih =>
      refine Machine.exec_cons_of ?_ ih
      rw [rangeStep, hlocate]
      exact ite_self _
  rw [BitLevel.rangeSearch, hfiles]
  split
  · rename_i hcons
    cases hcons
  · exact hloop _

/-- The first file of level 0. -/
theorem rangeSearch_cons (hlevel : l.level = 0) {f : BitFile κ} {rest : List (BitFile κ)}
    (hfiles : l.files = f :: rest) (st : RangeState κ) :
    l.rangeSearch start stop st = f.rangeSearch start stop st := by
  rw [rangeSearch, hlevel, hfiles]
  rfl

/-- Below level 0 there is a loop. -/
theorem rangeSearch_of_ne (hlevel : l.level ≠ 0) (st : RangeState κ) :
    l.rangeSearch start stop st =
      Machine.exec (l.rangeStep start stop) st (List.range' start (stop + 1 - start)) := by
  rw [BitLevel.rangeSearch]
  split
  · rename_i heq _
    exact absurd heq hlevel
  · rfl

theorem exists_file_of_recordsOf {key : ℕ} (h : l.recordsOf key ≠ []) :
    ∃ f ∈ l.files, f.recordsOf key ≠ [] := by
  by_contra hcon
  push Not at hcon
  exact h (List.flatMap_eq_nil_iff.mpr hcon)

end BitLevel

variable [Inhabited κ]

/-! ## The memtables -/

/-- One key of a memtable. -/
theorem Memtable.rangeStep_spec (m : Memtable κ) {st : RangeState κ} (hok : st.Ok start stop)
    {key : ℕ} (hfirst : start ≤ key) (hlast : key ≤ stop) :
    (m.rangeStep st key).Ok start stop ∧ (m.rangeStep st key).caches = st.caches ∧
      ∀ a, (m.rangeStep st key).results.get a =
        if key = a then (st.results.get a).or (m.get a) else st.results.get a := by
  rw [Memtable.rangeStep]
  split
  · rename_i hmem
    refine ⟨hok, rfl, fun a => ?_⟩
    split
    · rename_i heq
      obtain ⟨r, hr⟩ := Option.isSome_iff_exists.mp ((hok.found key).mp hmem)
      rw [← heq, hr]
      rfl
    · rfl
  · rename_i hmem
    have hnone := hok.not_mem_found.mp hmem
    cases hm : m.get key with
    | none =>
      refine ⟨hok, rfl, fun a => ?_⟩
      by_cases heq : key = a
      · rw [if_pos heq, ← heq, hm, Option.or_none]
      · rw [if_neg heq]
    | some r =>
      obtain ⟨hput, hget⟩ := hok.put hfirst hlast r
      refine ⟨hput, rfl, fun a => ?_⟩
      rw [hget]
      split
      · rename_i heq
        rw [← heq, hnone, hm]
        rfl
      · rfl

/-- **A memtable.** -/
theorem Memtable.rangeSearch_spec (m : Memtable κ) {st : RangeState κ} (hok : st.Ok start stop)
    (hle : start ≤ stop) :
    (m.rangeSearch start stop st).Ok start stop ∧
      (m.rangeSearch start stop st).caches = st.caches ∧
      ∀ a, start ≤ a → a ≤ stop →
        (m.rangeSearch start stop st).results.get a = (st.results.get a).or (m.get a) := by
  -- by induction on the number of keys that are left
  have hloop : ∀ n key (st : RangeState κ), start ≤ key → key + n = stop + 1 → st.Ok start stop →
      ((List.range' key n).foldl m.rangeStep st).Ok start stop ∧
        ((List.range' key n).foldl m.rangeStep st).caches = st.caches ∧
        ∀ a, ((List.range' key n).foldl m.rangeStep st).results.get a =
          if key ≤ a ∧ a ≤ stop then (st.results.get a).or (m.get a) else st.results.get a := by
    intro n
    induction n with
    | zero =>
      intro key st _ hend hok
      refine ⟨hok, rfl, fun a => ?_⟩
      rw [if_neg (by omega)]
      rfl
    | succ n ih =>
      intro key st hkey hend hok
      rw [List.range'_succ, List.foldl_cons]
      obtain ⟨hok₁, hcaches₁, hget₁⟩ := m.rangeStep_spec hok hkey (by omega)
      obtain ⟨hok', hcaches, hget⟩ := ih (key + 1) (m.rangeStep st key) (by omega) (by omega) hok₁
      refine ⟨hok', hcaches.trans hcaches₁, fun a => ?_⟩
      rw [hget, hget₁]
      by_cases ha : key = a
      · rw [if_pos ha, if_neg (by omega), if_pos (by omega)]
      · rw [if_neg ha]
        by_cases hin : key + 1 ≤ a ∧ a ≤ stop
        · rw [if_pos hin, if_pos (by omega)]
        · rw [if_neg hin, if_neg (by omega)]
  obtain ⟨hok', hcaches, hget⟩ := hloop (stop + 1 - start) start st le_rfl (by omega) hok
  refine ⟨hok', hcaches, fun a h₁ h₂ => ?_⟩
  have hall := hget a
  rwa [if_pos ⟨h₁, h₂⟩] at hall

/-! ## The levels -/

namespace BitLevel

variable {l : BitLevel κ} {st₀ st st' : RangeState κ}

/-- What a range lookup does on a level. -/
structure RangeSpec (l : BitLevel κ) (start stop : ℕ) (st st' : RangeState κ) : Prop where
  /-- the result set -/
  ok : st'.Ok start stop
  /-- nothing happens to keys that are not in the level or found already -/
  same : ∀ a, ¬(start ≤ a ∧ a ≤ stop ∧ a ∉ st.found ∧ l.recordsOf a ≠ []) →
    st'.results.get a = st.results.get a
  /-- the keys of the level -/
  reads : ∀ f ∈ l.files, ∀ a, start ≤ a → a ≤ stop → a ∉ st.found → f.recordsOf a ≠ [] →
    f.Reads (· ∈ st.found) start (st.caches f.id) a (st'.results.get a)
  /-- the caches of other files are as before -/
  others : ∀ id, id ∉ l.files.map BitFile.id → st'.caches id = st.caches id

/-- Level 0. -/
theorem rangeSearch_upper (hlevel : l.level = 0) (hone : l.files.length ≤ 1)
    (hs : ∀ f ∈ l.files, f.Sorted) (hc : ∀ f ∈ l.files, f.Cached (st.caches f.id))
    (hle : start ≤ stop) (hok : st.Ok start stop) (hst : l.rangeSearch start stop st = some st') :
    l.RangeSpec start stop st st' := by
  cases hfiles : l.files with
  | nil =>
    obtain rfl := Option.some.inj ((rangeSearch_nil hfiles st).symm.trans hst)
    refine ⟨hok, fun _ _ => rfl, fun f hf => ?_, fun _ _ => rfl⟩
    rw [hfiles] at hf
    cases hf
  | cons f rest =>
    have hrest : rest = [] := by
      rw [hfiles, List.length_cons] at hone
      exact List.length_eq_zero_iff.mp (by omega)
    subst hrest
    rw [rangeSearch_cons hlevel hfiles] at hst
    have hf : f ∈ l.files := hfiles ▸ List.mem_cons_self
    have hspec := BitFile.rangeSearch_spec (hs f hf) hle hok (hc f hf) hst
    refine ⟨hspec.ok, fun a ha => hspec.same a ?_, fun g hg => ?_, fun id hid => hspec.others id ?_⟩
    · rw [recordsOf] at ha
      rwa [hfiles, List.flatMap_singleton] at ha
    · rw [hfiles, List.mem_singleton] at hg
      exact hg ▸ hspec.reads
    · rw [hfiles] at hid
      simpa using hid

/-- The loop of `bit_level_range_search`, started in `st₀`, has come to the key `key`. Each file
is searched not at all or as if it were the only one. -/
structure Scan (l : BitLevel κ) (start stop : ℕ) (st₀ : RangeState κ) (key : ℕ)
    (st : RangeState κ) : Prop where
  /-- the result set -/
  ok : st.Ok start stop
  /-- nothing happens to keys that are not in the level or found already -/
  same : ∀ a, ¬(start ≤ a ∧ a ≤ stop ∧ a ∉ st₀.found ∧ l.recordsOf a ≠ []) →
    st.results.get a = st₀.results.get a
  /-- the caches have leaves of the files -/
  cached : ∀ f ∈ l.files, f.Cached (st.caches f.id)
  /-- the files -/
  file : ∀ f ∈ l.files,
    (st.caches f.id = st₀.caches f.id ∧
      ∀ a, f.recordsOf a ≠ [] → st.results.get a = st₀.results.get a) ∨
    ∀ a, start ≤ a → a ≤ stop → a ∉ st₀.found → f.recordsOf a ≠ [] →
      f.Reads (· ∈ st₀.found) start (st₀.caches f.id) a (st.results.get a)
  /-- the keys looked up so far are found -/
  progress : ∀ a, start ≤ a → a < key → a ∉ st₀.found → l.recordsOf a ≠ [] →
    (st.results.get a).isSome = true
  /-- the caches of other files are as before -/
  others : ∀ id, id ∉ l.files.map BitFile.id → st.caches id = st₀.caches id

theorem Scan.init (hok : st₀.Ok start stop) (hc : ∀ f ∈ l.files, f.Cached (st₀.caches f.id)) :
    l.Scan start stop st₀ start st₀ := by
  refine ⟨hok, fun _ _ => rfl, hc, fun f _ => Or.inl ⟨rfl, fun _ _ => rfl⟩, fun a h₁ h₂ => ?_,
    fun _ _ => rfl⟩
  omega

/-- The next key, when nothing is done for it. -/
theorem Scan.pass {key : ℕ} (h : l.Scan start stop st₀ key st)
    (hkey : key ∉ st₀.found → l.recordsOf key ≠ [] → (st.results.get key).isSome = true) :
    l.Scan start stop st₀ (key + 1) st := by
  refine ⟨h.ok, h.same, h.cached, h.file, fun a h₁ h₂ hf hr => ?_, h.others⟩
  rcases Nat.lt_succ_iff_lt_or_eq.mp h₂ with h₂ | rfl
  · exact h.progress a h₁ h₂ hf hr
  · exact hkey hf hr

/-- The next key, when a file is searched for it. -/
theorem Scan.search {key : ℕ} (h : l.Scan start stop st₀ key st) (ht : l.Tidy)
    (hids : (l.files.map BitFile.id).Nodup) (hok₀ : st₀.Ok start stop) {f : BitFile κ}
    (hf : f ∈ l.files) (hspec : f.RangeSpec start stop st st') :
    l.Scan start stop st₀ key st' := by
  -- the found keys of a file that was not searched are those of before
  have hfound : ∀ a, st.results.get a = st₀.results.get a → (a ∈ st.found ↔ a ∈ st₀.found) := by
    intro a ha
    rw [h.ok.found, hok₀.found, ha]
  have hkeep : ∀ a, (st.results.get a).isSome = true → st'.results.get a = st.results.get a :=
    fun a ha => hspec.same a fun hcon => hcon.2.2.1 ((h.ok.found a).mpr ha)
  refine ⟨hspec.ok, fun a ha => ?_, fun g hg => ?_, fun g hg => ?_, fun a h₁ h₂ hnf hr => ?_,
    fun id hid => ?_⟩
  · rw [hspec.same a, h.same a ha]
    rintro ⟨h₁, h₂, hnf, hr⟩
    refine ha ⟨h₁, h₂, mt (hfound a (h.same a ha)).mpr hnf, fun hnil => hr ?_⟩
    exact List.flatMap_eq_nil_iff.mp hnil f hf
  · by_cases heq : g = f
    · exact heq ▸ hspec.cached
    · rw [hspec.others g.id fun hid => heq (List.inj_on_of_nodup_map hids hg hf hid)]
      exact h.cached g hg
  · by_cases heq : g = f
    · subst heq
      right
      intro a h₁ h₂ hnf hr
      rcases h.file g hg with ⟨hcache, hsame⟩ | hdone
      · have hread := hspec.reads a h₁ h₂ (mt (hfound a (hsame a hr)).mp hnf) hr
        rw [hcache] at hread
        exact hread.congr fun j _ _ hj => hfound j (hsame j hj)
      · have hread := hdone a h₁ h₂ hnf hr
        rw [hkeep a hread.isSome]
        exact hread
    · -- the search does not touch another file
      have hsame : ∀ a, g.recordsOf a ≠ [] → st'.results.get a = st.results.get a := fun a ha =>
        hspec.same a fun hcon => hcon.2.2.2 (ht.recordsOf_eq_nil_of_ne hf hg (Ne.symm heq) ha)
      have hcache := hspec.others g.id fun hid => heq (List.inj_on_of_nodup_map hids hg hf hid)
      rcases h.file g hg with ⟨hold, hres⟩ | hdone
      · exact Or.inl ⟨hcache.trans hold, fun a ha => (hsame a ha).trans (hres a ha)⟩
      · right
        intro a h₁ h₂ hnf hr
        rw [hsame a hr]
        exact hdone a h₁ h₂ hnf hr
  · have hsome := h.progress a h₁ h₂ hnf hr
    rw [hkeep a hsome]
    exact hsome
  · rw [hspec.others id fun heq => hid (heq ▸ List.mem_map_of_mem hf)]
    exact h.others id hid

/-- **One key** of a level below level 0. -/
theorem Scan.step {key : ℕ} (h : l.Scan start stop st₀ key st) (ht : l.Tidy)
    (hids : (l.files.map BitFile.id).Nodup) (hok₀ : st₀.Ok start stop) (hstart : start ≤ key)
    (hstop : key ≤ stop) (hst : l.rangeStep start stop st key = some st') :
    l.Scan start stop st₀ (key + 1) st' := by
  rw [BitLevel.rangeStep] at hst
  split at hst
  · rename_i hmem
    obtain rfl := Option.some.inj hst
    exact h.pass fun _ _ => (h.ok.found key).mp hmem
  · rename_i hnot
    cases hlocate : l.locateFile key with
    | none =>
      rw [hlocate] at hst
      obtain rfl := Option.some.inj hst
      exact h.pass fun _ hr => absurd (ht.recordsOf_of_locateFile_none hlocate) hr
    | some f =>
      rw [hlocate] at hst
      obtain ⟨⟨i, hi⟩, hfirst, hlast⟩ := locateFile_eq_some hlocate
      have hf : f ∈ l.files := List.mem_of_getElem? hi
      have hspec := BitFile.rangeSearch_spec (ht.files f hf) (hstart.trans hstop) h.ok
        (h.cached f hf) hst
      refine (h.search ht hids hok₀ hf hspec).pass fun hnf hr => ?_
      -- the file is not empty, or the search would have faulted
      have hne : f.entries ≠ [] := by
        intro hnil
        rw [BitFile.firstKey_of_empty hnil] at hfirst
        rw [BitFile.lastKey_of_empty hnil] at hlast
        have hzero : key = 0 := by omega
        subst hzero
        have hnone : f.rangeSearch start stop st = none :=
          BitFile.rangeSearch_eq_none.mpr ⟨hnil, Nat.le_zero.mp hstart, hnot⟩
        cases hnone.symm.trans hst
      rw [ht.recordsOf_of_locateFile hlocate hne] at hr
      exact (hspec.reads key hstart hstop hnot hr).isSome

theorem Scan.exec {key n : ℕ} (h : l.Scan start stop st₀ key st) (ht : l.Tidy)
    (hids : (l.files.map BitFile.id).Nodup) (hok₀ : st₀.Ok start stop) (hstart : start ≤ key)
    (hstop : key + n ≤ stop + 1)
    (hst : Machine.exec (l.rangeStep start stop) st (List.range' key n) = some st') :
    l.Scan start stop st₀ (key + n) st' := by
  induction n generalizing key st with
  | zero =>
    obtain rfl := Option.some.inj hst
    exact h
  | succ n ih =>
    rw [List.range'_succ] at hst
    obtain ⟨s₁, hs₁, hrest⟩ := Machine.exec_cons_eq_some hst
    have hdone := ih (h.step ht hids hok₀ hstart (by omega) hs₁) (by omega) (by omega) hrest
    rwa [Nat.add_right_comm] at hdone

/-- The loop faults at key 0, when it is led to an empty file. -/
theorem Scan.fault {key n : ℕ} (h : l.Scan start stop st₀ key st) (ht : l.Tidy)
    (hids : (l.files.map BitFile.id).Nodup) (hok₀ : st₀.Ok start stop) (hstart : start ≤ key)
    (hstop : key + n ≤ stop + 1)
    (hst : Machine.exec (l.rangeStep start stop) st (List.range' key n) = none) :
    start = 0 ∧ 0 ∉ st₀.found ∧ ∃ f, l.locateFile 0 = some f ∧ f.entries = [] := by
  induction n generalizing key st with
  | zero => cases hst
  | succ n ih =>
    rw [List.range'_succ] at hst
    rcases Machine.exec_cons_eq_none hst with hnone | ⟨s₁, hs₁, hrest⟩
    · rw [BitLevel.rangeStep] at hnone
      split at hnone
      · cases hnone
      · split at hnone
        · cases hnone
        · rename_i hnot _ f hlocate
          obtain ⟨hnil, hzero, hmiss⟩ := BitFile.rangeSearch_eq_none.mp hnone
          obtain ⟨-, -, hlast⟩ := locateFile_eq_some hlocate
          rw [BitFile.lastKey_of_empty hnil] at hlast
          obtain rfl := Nat.le_zero.mp hlast
          refine ⟨hzero, fun hmem => hmiss ?_, f, hlocate, hnil⟩
          rw [h.ok.found, h.same 0 fun hcon => hcon.2.2.1 hmem, ← hok₀.found]
          exact hmem
    · exact ih (h.step ht hids hok₀ hstart (by omega) hs₁) (by omega) (by omega) hrest

/-- Level 1. -/
theorem rangeSearch_lower (hlevel : l.level ≠ 0) (ht : l.Tidy)
    (hids : (l.files.map BitFile.id).Nodup) (hc : ∀ f ∈ l.files, f.Cached (st.caches f.id))
    (hle : start ≤ stop) (hok : st.Ok start stop) (hst : l.rangeSearch start stop st = some st') :
    l.RangeSpec start stop st st' := by
  rw [rangeSearch_of_ne hlevel] at hst
  have hscan := (Scan.init hok hc).exec ht hids hok le_rfl (by omega) hst
  rw [Nat.add_sub_of_le (by omega)] at hscan
  refine ⟨hscan.ok, hscan.same, fun f hf a h₁ h₂ hnf hr => ?_, hscan.others⟩
  have hsome := hscan.progress a h₁ (by omega) hnf fun hnil =>
    hr (List.flatMap_eq_nil_iff.mp hnil f hf)
  rcases hscan.file f hf with ⟨-, hsame⟩ | hdone
  · rw [hsame a hr, hok.not_mem_found.mp hnf] at hsome
    cases hsome
  · exact hdone a h₁ h₂ hnf hr

end BitLevel

/-! ## The tree -/

/-- A torn key has a positive record and then a negative one. -/
theorem BitFile.Torn.leafRecords_eq {f : BitFile κ} (h : f.Ok) {above : ℕ → Prop} {key : ℕ}
    (ht : f.Torn above start key) : ∃ r n, f.leafRecords key = [r, n] ∧ f.recordsOf key = [r, n] ∧
      r.isNegative = false ∧ n.isNegative = true := by
  obtain ⟨rest, heq, -⟩ := recordsOf_eq_leafRecords h.sorted key
  have htwo := ht.1
  have hslot := h.slot key
  rw [heq] at hslot ⊢
  match hl : f.leafRecords key, htwo with
  | r :: n :: rest', _ =>
    rw [hl, List.cons_append, List.cons_append] at hslot
    obtain ⟨hnil, hr, hn⟩ : rest' ++ rest = [] ∧ r.isNegative = false ∧ n.isNegative = true := by
      generalize rest' ++ rest = tail at hslot
      cases hslot with
      | both _ _ hr hn => exact ⟨rfl, hr, hn⟩
    obtain ⟨rfl, rfl⟩ := List.append_eq_nil_iff.mp hnil
    exact ⟨r, n, rfl, rfl, hr, hn⟩

theorem BitFile.Torn.recordsOf_ne_nil {f : BitFile κ} (h : f.Ok) {above : ℕ → Prop} {key : ℕ}
    (ht : f.Torn above start key) : f.recordsOf key ≠ [] := by
  obtain ⟨r, n, -, heq, -⟩ := ht.leafRecords_eq h
  rw [heq]
  exact List.cons_ne_nil _ _

theorem Levels.Ok.nodup_level1 {l : Levels κ} {c : Catalogue} (h : l.Ok c) :
    (l.level1.files.map BitFile.id).Nodup := by
  have hids := h.nodup
  rw [Levels.files, List.map_append, List.nodup_append] at hids
  exact hids.2.1

namespace LsmTree

variable {t : LsmTree κ}

/-- The key is in a memtable. -/
def InMemtables (t : LsmTree κ) (key : ℕ) : Prop :=
  ((t.memtable.get key).or (t.immutable.bind fun m => m.get key)).isSome = true

/-- The key is in a memtable or in level 0. -/
def AboveLevel1 (t : LsmTree κ) (key : ℕ) : Prop :=
  t.InMemtables key ∨ t.levels.level0.recordsOf key ≠ []

/-- A key of the range is torn in the file where it is looked up. -/
def TornKey (t : LsmTree κ) (start stop : ℕ) : Prop :=
  ∃ key, start ≤ key ∧ key ≤ stop ∧
    (¬t.InMemtables key ∧ (∃ f ∈ t.levels.level0.files, f.Torn t.InMemtables start key) ∨
      ¬t.AboveLevel1 key ∧ ∃ f ∈ t.levels.level1.files, f.Torn t.AboveLevel1 start key)

/-- A key of the range is looked up in a file without entries. -/
def EmptyFileHit (t : LsmTree κ) (start stop : ℕ) : Prop :=
  ∃ key, start ≤ key ∧ key ≤ stop ∧ ¬t.InMemtables key ∧
    ((∃ f ∈ t.levels.level0.files, f.entries = [] ∧ key = 0) ∨
      t.levels.level0.recordsOf key = [] ∧
        ∃ f, t.levels.level1.locateFile key = some f ∧ f.entries = [])

/-- What is cached are leaves of the files. -/
def CachesOk (t : LsmTree κ) (caches : ℕ → LruCache (Leaf κ)) : Prop :=
  ∀ f ∈ t.levels.files, f.Cached (caches f.id)

/-- The range lookup returns, and with exactly what the point lookups return. -/
def RangeAgrees (t : LsmTree κ) (caches : ℕ → LruCache (Leaf κ)) (start stop : ℕ) : Prop :=
  ∃ res, t.rangeSearch caches start stop = some res ∧
    (∀ key, start ≤ key → key ≤ stop → t.search key = some (res.bind fun m => m.get key)) ∧
    (∀ key, ¬(start ≤ key ∧ key ≤ stop) → (res.bind fun m => m.get key) = none) ∧
    (res = none ↔ ∀ key, start ≤ key → key ≤ stop → t.search key = some none)

/-- What the layers find. -/
structure LayersSpec (t : LsmTree κ) (caches : ℕ → LruCache (Leaf κ)) (start stop : ℕ)
    (st : RangeState κ) : Prop where
  /-- the result set -/
  ok : st.Ok start stop
  /-- keys in a memtable -/
  memtables : ∀ key, start ≤ key → key ≤ stop → t.InMemtables key →
    st.results.get key = (t.memtable.get key).or (t.immutable.bind fun m => m.get key)
  /-- keys in level 0 -/
  upper : ∀ key, start ≤ key → key ≤ stop → ¬t.InMemtables key → ∀ f ∈ t.levels.level0.files,
    f.recordsOf key ≠ [] → f.Reads t.InMemtables start (caches f.id) key (st.results.get key)
  /-- keys in level 1 -/
  lower : ∀ key, start ≤ key → key ≤ stop → ¬t.AboveLevel1 key → ∀ f ∈ t.levels.level1.files,
    f.recordsOf key ≠ [] → f.Reads t.AboveLevel1 start (caches f.id) key (st.results.get key)
  /-- keys that are nowhere -/
  missing : ∀ key, start ≤ key → key ≤ stop → ¬t.AboveLevel1 key →
    t.levels.level1.recordsOf key = [] → st.results.get key = none

/-- When the counter reaches the length of the range, all keys are found. -/
theorem mem_found_of_size {st : RangeState κ} (hok : st.Ok start stop)
    (hsize : st.results.size = stop + 1 - start) {key : ℕ} (hfirst : start ≤ key)
    (hlast : key ≤ stop) : key ∈ st.found := by
  have hall : st.found = Finset.Icc start stop := by
    refine Finset.eq_of_subset_of_card_le hok.range ?_
    rw [Nat.card_Icc, ← hsize, hok.size]
  rw [hall]
  exact Finset.mem_Icc.mpr ⟨hfirst, hlast⟩

/-- The state when the two memtables are done with. -/
structure MemtablesSpec (t : LsmTree κ) (caches : ℕ → LruCache (Leaf κ)) (start stop : ℕ)
    (st : RangeState κ) : Prop where
  /-- the result set -/
  ok : st.Ok start stop
  /-- no file has been read -/
  caches_eq : st.caches = caches
  /-- the keys in a memtable -/
  get : ∀ key, start ≤ key → key ≤ stop →
    st.results.get key = (t.memtable.get key).or (t.immutable.bind fun m => m.get key)

theorem MemtablesSpec.found {caches : ℕ → LruCache (Leaf κ)} {st : RangeState κ}
    (hm : t.MemtablesSpec caches start stop st) {key : ℕ} (hfirst : start ≤ key)
    (hlast : key ≤ stop) : key ∈ st.found ↔ t.InMemtables key := by
  rw [hm.ok.found, hm.get key hfirst hlast]
  rfl

/-- **The layers.** If the memtables do not have all keys, the levels are searched. -/
theorem rangeLayers_cases (t : LsmTree κ) (caches : ℕ → LruCache (Leaf κ)) (hle : start ≤ stop) :
    ∃ st, t.MemtablesSpec caches start stop st ∧
      (t.rangeLayers start stop ⟨.create, ∅, caches⟩ = some st ∧
          (∀ key, start ≤ key → key ≤ stop → t.InMemtables key) ∨
        t.rangeLayers start stop ⟨.create, ∅, caches⟩ =
          (t.levels.level0.rangeSearch start stop st).bind fun st =>
            if st.results.size = stop + 1 - start then some st
            else t.levels.level1.rangeSearch start stop st) := by
  have hinit : (⟨.create, ∅, caches⟩ : RangeState κ).Ok start stop := RangeState.Ok.init caches
  obtain ⟨hok₁, hcaches₁, hget₁⟩ := t.memtable.rangeSearch_spec hinit hle
  rw [rangeLayers]
  generalize t.memtable.rangeSearch start stop ⟨.create, ∅, caches⟩ = st₁ at *
  have hfirst : ∀ key, start ≤ key → key ≤ stop → st₁.results.get key = t.memtable.get key := by
    intro key h₁ h₂
    rw [hget₁ key h₁ h₂]
    simp [Memtable.create, Memtable.get]
  by_cases hsize : st₁.results.size = stop + 1 - start
  · -- the memtable has all keys
    have hall : ∀ key, start ≤ key → key ≤ stop → (t.memtable.get key).isSome = true := by
      intro key h₁ h₂
      rw [← hfirst key h₁ h₂, ← hok₁.found]
      exact mem_found_of_size hok₁ hsize h₁ h₂
    refine ⟨st₁, ⟨hok₁, hcaches₁, fun key h₁ h₂ => ?_⟩, Or.inl ⟨if_pos hsize, fun key h₁ h₂ => ?_⟩⟩
    · rw [hfirst key h₁ h₂, Option.or_of_isSome (hall key h₁ h₂)]
    · rw [InMemtables, Option.or_of_isSome (hall key h₁ h₂)]
      exact hall key h₁ h₂
  · rw [if_neg hsize]
    have hm : t.MemtablesSpec caches start stop
        ((t.immutable.map fun m => m.rangeSearch start stop st₁).getD st₁) := by
      cases him : t.immutable with
      | none =>
        refine ⟨hok₁, hcaches₁, fun key h₁ h₂ => ?_⟩
        rw [Option.map_none, Option.getD_none, hfirst key h₁ h₂, him, Option.bind_none,
          Option.or_none]
      | some m =>
        obtain ⟨hok₂, hcaches₂, hget₂⟩ := m.rangeSearch_spec hok₁ hle
        refine ⟨hok₂, hcaches₂.trans hcaches₁, fun key h₁ h₂ => ?_⟩
        rw [Option.map_some, Option.getD_some, hget₂ key h₁ h₂, hfirst key h₁ h₂, him,
          Option.bind_some]
    generalize (t.immutable.map fun m => m.rangeSearch start stop st₁).getD st₁ = st₂ at *
    refine ⟨st₂, hm, ?_⟩
    by_cases hsize₂ : st₂.results.size = stop + 1 - start
    · exact Or.inl ⟨if_pos hsize₂, fun key h₁ h₂ =>
        (hm.found h₁ h₂).mp (mem_found_of_size hm.ok hsize₂ h₁ h₂)⟩
    · exact Or.inr (if_neg hsize₂)

/-- The state after level 0. -/
theorem MemtablesSpec.upper (h : t.Ok) {caches : ℕ → LruCache (Leaf κ)} (hc : t.CachesOk caches)
    (hle : start ≤ stop) {st₂ st₃ : RangeState κ} (hm : t.MemtablesSpec caches start stop st₂)
    (hst₃ : t.levels.level0.rangeSearch start stop st₂ = some st₃) :
    st₃.Ok start stop ∧ (∀ f ∈ t.levels.level1.files, st₃.caches f.id = caches f.id) ∧
      (∀ key, start ≤ key → key ≤ stop → t.InMemtables key →
        st₃.results.get key = (t.memtable.get key).or (t.immutable.bind fun m => m.get key)) ∧
      (∀ key, start ≤ key → key ≤ stop → ¬t.InMemtables key → ∀ f ∈ t.levels.level0.files,
        f.recordsOf key ≠ [] → f.Reads t.InMemtables start (caches f.id) key (st₃.results.get key)) ∧
      ∀ key, start ≤ key → key ≤ stop → (key ∈ st₃.found ↔ t.AboveLevel1 key) := by
  have hmem : ∀ f ∈ t.levels.level0.files, f ∈ t.levels.files := fun f hf =>
    Levels.mem_files.mpr (Or.inl hf)
  have hspec := BitLevel.rangeSearch_upper h.levels.level0.1 h.levels.one
    (fun f hf => (h.levels.files f (hmem f hf)).sorted)
    (fun f hf => hm.caches_eq ▸ hc f (hmem f hf)) hle hm.ok hst₃
  have hreads : ∀ key, start ≤ key → key ≤ stop → ¬t.InMemtables key →
      ∀ f ∈ t.levels.level0.files, f.recordsOf key ≠ [] →
        f.Reads t.InMemtables start (caches f.id) key (st₃.results.get key) := by
    intro key h₁ h₂ hnot f hf hr
    have hread := hspec.reads f hf key h₁ h₂ (mt (hm.found h₁ h₂).mp hnot) hr
    rw [hm.caches_eq] at hread
    exact hread.congr fun j hj₁ hj₂ _ => hm.found hj₁ (by omega)
  refine ⟨hspec.ok, fun f hf => ?_, fun key h₁ h₂ hin => ?_, hreads, fun key h₁ h₂ => ?_⟩
  · rw [hspec.others f.id, hm.caches_eq]
    -- no file of level 0 has its descriptor
    have hids := h.levels.nodup
    rw [Levels.files, List.map_append, List.nodup_append] at hids
    exact fun hid => hids.2.2 f.id hid f.id (List.mem_map_of_mem hf) rfl
  · rw [hspec.same key fun hcon => hcon.2.2.1 ((hm.found h₁ h₂).mpr hin), hm.get key h₁ h₂]
  · rw [hspec.ok.found]
    by_cases hin : t.InMemtables key
    · rw [hspec.same key fun hcon => hcon.2.2.1 ((hm.found h₁ h₂).mpr hin), hm.get key h₁ h₂]
      exact iff_of_true hin (Or.inl hin)
    · by_cases hrec : t.levels.level0.recordsOf key = []
      · rw [hspec.same key fun hcon => hcon.2.2.2 hrec, hm.get key h₁ h₂]
        exact iff_of_false hin fun hcon => hcon.elim hin fun hne => hne hrec
      · obtain ⟨f, hf, hfr⟩ := BitLevel.exists_file_of_recordsOf hrec
        exact iff_of_true (hreads key h₁ h₂ hin f hf hfr).isSome (Or.inr hrec)

/-- **All layers.** -/
theorem rangeLayers_spec (h : t.Ok) {caches : ℕ → LruCache (Leaf κ)} (hc : t.CachesOk caches)
    (hle : start ≤ stop) {st : RangeState κ}
    (hst : t.rangeLayers start stop ⟨.create, ∅, caches⟩ = some st) :
    t.LayersSpec caches start stop st := by
  obtain ⟨st₂, hm, ⟨hlayers, hin⟩ | hlayers⟩ := t.rangeLayers_cases caches hle
  · -- the memtables have all keys
    obtain rfl := Option.some.inj (hlayers.symm.trans hst)
    exact ⟨hm.ok, fun key h₁ h₂ _ => hm.get key h₁ h₂,
      fun key h₁ h₂ hnot => absurd (hin key h₁ h₂) hnot,
      fun key h₁ h₂ hnot => absurd (Or.inl (hin key h₁ h₂)) hnot,
      fun key h₁ h₂ hnot => absurd (Or.inl (hin key h₁ h₂)) hnot⟩
  · rw [hlayers] at hst
    obtain ⟨st₃, hst₃, hrest⟩ := Option.bind_eq_some_iff.mp hst
    obtain ⟨hok₃, hcaches₃, hmem₃, hupper₃, hfound₃⟩ := hm.upper h hc hle hst₃
    split at hrest
    · rename_i hsize
      obtain rfl := Option.some.inj hrest
      have habove : ∀ key, start ≤ key → key ≤ stop → t.AboveLevel1 key := fun key h₁ h₂ =>
        (hfound₃ key h₁ h₂).mp (mem_found_of_size hok₃ hsize h₁ h₂)
      exact ⟨hok₃, hmem₃, hupper₃, fun key h₁ h₂ hnot => absurd (habove key h₁ h₂) hnot,
        fun key h₁ h₂ hnot => absurd (habove key h₁ h₂) hnot⟩
    · have hmem : ∀ f ∈ t.levels.level1.files, f ∈ t.levels.files := fun f hf =>
        Levels.mem_files.mpr (Or.inr hf)
      have hspec := BitLevel.rangeSearch_lower h.levels.level1 h.levels.tidy h.levels.nodup_level1
        (fun f hf => hcaches₃ f hf ▸ hc f (hmem f hf)) hle hok₃ hrest
      -- what is found above stays
      have hkeep : ∀ key, start ≤ key → key ≤ stop → t.AboveLevel1 key →
          st.results.get key = st₃.results.get key := fun key h₁ h₂ habove =>
        hspec.same key fun hcon => hcon.2.2.1 ((hfound₃ key h₁ h₂).mpr habove)
      refine ⟨hspec.ok, fun key h₁ h₂ hin => ?_, fun key h₁ h₂ hnot f hf hr => ?_,
        fun key h₁ h₂ hnot f hf hr => ?_, fun key h₁ h₂ hnot hnil => ?_⟩
      · rw [hkeep key h₁ h₂ (Or.inl hin), hmem₃ key h₁ h₂ hin]
      · rw [hkeep key h₁ h₂ (Or.inr fun hnil => hr (List.flatMap_eq_nil_iff.mp hnil f hf))]
        exact hupper₃ key h₁ h₂ hnot f hf hr
      · have hread := hspec.reads f hf key h₁ h₂ (mt (hfound₃ key h₁ h₂).mp hnot) hr
        rw [hcaches₃ f hf] at hread
        exact hread.congr fun j hj₁ hj₂ _ => hfound₃ j hj₁ (by omega)
      · rw [hspec.same key fun hcon => hcon.2.2.2 hnil]
        exact hok₃.not_mem_found.mp (mt (hfound₃ key h₁ h₂).mp hnot)

/-! ### Lookups that fault -/

/-- A point lookup faults when it is led to a file without entries. -/
theorem search_eq_none (h : t.Ok) {key : ℕ} :
    t.search key = none ↔ ¬t.InMemtables key ∧
      ((∃ f ∈ t.levels.level0.files, f.entries = [] ∧ key = 0) ∨
        t.levels.level0.recordsOf key = [] ∧
          ∃ f, t.levels.level1.locateFile key = some f ∧ f.entries = []) := by
  rw [LsmTree.search, InMemtables]
  cases t.memtable.get key with
  | some r => simp
  | none =>
    rw [Option.none_or]
    cases t.immutable.bind fun m => m.get key with
    | some r => simp
    | none =>
      have hupper : t.levels.level0.search key = none ↔
          ∃ f ∈ t.levels.level0.files, f.entries = [] ∧ key = 0 := by
        rw [BitLevel.search, if_pos h.levels.level0.1]
        exact BitLevel.linearSearch_eq_none h.levels.one
      have hhead : ∀ res, t.levels.level0.search key = some res →
          res = (t.levels.level0.recordsOf key).head? := by
        intro res hres
        rw [BitLevel.search, if_pos h.levels.level0.1] at hres
        exact BitLevel.linearSearch_eq h.levels.one (fun f hf =>
          (h.levels.files f (Levels.mem_files.mpr (Or.inl hf))).sorted) hres
      rw [← hupper, ← BitLevel.search_eq_none h.levels.level1]
      cases h₀ : t.levels.level0.search key with
      | none => simp
      | some res =>
        have hres := hhead res h₀
        cases res with
        | none =>
          rw [eq_comm, List.head?_eq_none_iff] at hres
          simp [hres]
        | some r =>
          have hne : t.levels.level0.recordsOf key ≠ [] := by
            intro hnil
            rw [hnil] at hres
            cases hres
          simp [hne]

theorem emptyFileHit_iff (h : t.Ok) :
    t.EmptyFileHit start stop ↔ ∃ key, start ≤ key ∧ key ≤ stop ∧ t.search key = none := by
  simp only [EmptyFileHit, search_eq_none h]

/-- Otherwise it returns the newest record. -/
theorem search_of_not_hit (h : t.Ok) (hhit : ¬t.EmptyFileHit start stop) {key : ℕ}
    (hfirst : start ≤ key) (hlast : key ≤ stop) : t.search key = some (t.newest key) := by
  cases hs : t.search key with
  | none => exact absurd ((emptyFileHit_iff h).mpr ⟨key, hfirst, hlast, hs⟩) hhit
  | some res => rw [h.search_eq hs]

/-- **A range lookup faults** only where a point lookup does. -/
theorem emptyFileHit_of_rangeLayers (h : t.Ok) {caches : ℕ → LruCache (Leaf κ)}
    (hc : t.CachesOk caches) (hle : start ≤ stop)
    (hst : t.rangeLayers start stop ⟨.create, ∅, caches⟩ = none) : t.EmptyFileHit start stop := by
  obtain ⟨st₂, hm, ⟨hlayers, -⟩ | hlayers⟩ := t.rangeLayers_cases caches hle
  · cases hlayers.symm.trans hst
  · rw [hlayers] at hst
    cases hst₃ : t.levels.level0.rangeSearch start stop st₂ with
    | none =>
      -- the file of level 0 is empty
      cases hfiles : t.levels.level0.files with
      | nil => cases (BitLevel.rangeSearch_nil hfiles st₂).symm.trans hst₃
      | cons f rest =>
        rw [BitLevel.rangeSearch_cons h.levels.level0.1 hfiles] at hst₃
        obtain ⟨hnil, hzero, hmiss⟩ := BitFile.rangeSearch_eq_none.mp hst₃
        refine ⟨0, hzero.le, Nat.zero_le _, mt (hm.found hzero.le (Nat.zero_le _)).mpr hmiss,
          Or.inl ⟨f, ?_, hnil, rfl⟩⟩
        rw [hfiles]
        exact List.mem_cons_self
    | some st₃ =>
      rw [hst₃, Option.bind_some] at hst
      obtain ⟨hok₃, hcaches₃, -, -, hfound₃⟩ := hm.upper h hc hle hst₃
      split at hst
      · cases hst
      · rw [BitLevel.rangeSearch_of_ne h.levels.level1] at hst
        obtain ⟨hzero, hmiss, f, hlocate, hnil⟩ := (BitLevel.Scan.init hok₃ fun f hf => by
          rw [hcaches₃ f hf]
          exact hc f (Levels.mem_files.mpr (Or.inr hf))).fault h.levels.tidy
            h.levels.nodup_level1 hok₃ le_rfl (by omega) hst
        have habove := mt (hfound₃ 0 hzero.le (Nat.zero_le _)).mpr hmiss
        refine ⟨0, hzero.le, Nat.zero_le _, fun hin => habove (Or.inl hin), Or.inr ⟨?_, f, hlocate,
          hnil⟩⟩
        by_contra hne
        exact habove (Or.inr hne)

/-- And it does, at key 0. -/
theorem rangeLayers_of_emptyFileHit (h : t.Ok) {caches : ℕ → LruCache (Leaf κ)}
    (hc : t.CachesOk caches) (hle : start ≤ stop) (hhit : t.EmptyFileHit start stop) :
    t.rangeLayers start stop ⟨.create, ∅, caches⟩ = none := by
  obtain ⟨key, hfirst, hlast, hnot, hfile⟩ := hhit
  obtain ⟨st₂, hm, ⟨-, hin⟩ | hlayers⟩ := t.rangeLayers_cases caches hle
  · exact absurd (hin key hfirst hlast) hnot
  · rw [hlayers]
    have hmiss := mt (hm.found hfirst hlast).mp hnot
    obtain ⟨f, hf, hnil, rfl⟩ | ⟨hupper, f, hlocate, hnil⟩ := hfile
    · obtain ⟨f₀, hf₀⟩ := List.length_eq_one_iff.mp
        (Nat.le_antisymm h.levels.one (List.length_pos_of_mem hf))
      obtain rfl := List.mem_singleton.mp (hf₀ ▸ hf)
      rw [BitLevel.rangeSearch_cons h.levels.level0.1 hf₀,
        BitFile.rangeSearch_eq_none.mpr ⟨hnil, Nat.le_zero.mp hfirst, hmiss⟩]
      rfl
    · cases hst₃ : t.levels.level0.rangeSearch start stop st₂ with
      | none => rfl
      | some st₃ =>
        obtain ⟨hok₃, -, -, -, hfound₃⟩ := hm.upper h hc hle hst₃
        have hmiss₃ : key ∉ st₃.found := fun hmem =>
          ((hfound₃ key hfirst hlast).mp hmem).elim hnot fun hne => hne hupper
        -- an empty file is in the way of key 0 only
        obtain ⟨-, -, hzero⟩ := BitLevel.locateFile_eq_some hlocate
        rw [BitFile.lastKey_of_empty hnil] at hzero
        obtain rfl := Nat.le_zero.mp hzero
        obtain rfl := Nat.le_zero.mp hfirst
        rw [Option.bind_some, if_neg fun hsize => hmiss₃ (mem_found_of_size hok₃ hsize hfirst hlast),
          BitLevel.rangeSearch_of_ne h.levels.level1, Nat.sub_zero, List.range'_succ,
          Machine.exec_cons, BitLevel.rangeStep, if_neg hmiss₃, hlocate]
        simp only [BitFile.rangeSearch_eq_none.mpr ⟨hnil, rfl, hmiss₃⟩, Option.bind_none]

/-! ### The newest record -/

theorem newest_of_inMemtables {key : ℕ} (hin : t.InMemtables key) :
    t.newest key = (t.memtable.get key).or (t.immutable.bind fun m => m.get key) := by
  obtain ⟨r, hr⟩ := Option.isSome_iff_exists.mp hin
  rw [newest, ← Option.or_assoc, hr]
  rfl

theorem newest_of_not_inMemtables {key : ℕ} (hnot : ¬t.InMemtables key) :
    t.newest key = t.levels.newest key := by
  rw [InMemtables, Bool.not_eq_true, Option.isSome_eq_false_iff, Option.isNone_iff_eq_none] at hnot
  rw [newest, ← Option.or_assoc, hnot, Option.none_or]

theorem newest_of_upper (h : t.Ok) {key : ℕ} (hnot : ¬t.InMemtables key) {f : BitFile κ}
    (hf : f ∈ t.levels.level0.files) (hr : f.recordsOf key ≠ []) :
    t.newest key = (f.recordsOf key).head? := by
  obtain ⟨f₀, hf₀⟩ := List.length_eq_one_iff.mp
    (Nat.le_antisymm h.levels.one (List.length_pos_of_mem hf))
  rw [hf₀, List.mem_singleton] at hf
  subst hf
  rw [newest_of_not_inMemtables hnot]
  rw [Levels.newest, Levels.recordsOf_level0 hf₀, List.head?_append_of_ne_nil _ hr]

theorem newest_of_lower (h : t.Ok) {key : ℕ} (hnot : ¬t.AboveLevel1 key) {f : BitFile κ}
    (hf : f ∈ t.levels.level1.files) (hr : f.recordsOf key ≠ []) :
    t.newest key = (f.recordsOf key).head? := by
  obtain ⟨hmem, hnil⟩ := not_or.mp hnot
  rw [newest_of_not_inMemtables hmem]
  rw [Levels.newest, not_not.mp hnil, List.nil_append, h.levels.tidy.recordsOf_of_mem hf hr]

/-- The key is torn in the file where it is looked up. -/
def TornIn (t : LsmTree κ) (start key : ℕ) : Prop :=
  ¬t.InMemtables key ∧ (∃ f ∈ t.levels.level0.files, f.Torn t.InMemtables start key) ∨
    ¬t.AboveLevel1 key ∧ ∃ f ∈ t.levels.level1.files, f.Torn t.AboveLevel1 start key

/-- A lookup of the key alone comes to its leaf with this key first. -/
theorem TornIn.self {key : ℕ} (ht : t.TornIn start key) : t.TornIn key key := by
  have hself : ∀ {above : ℕ → Prop} {f : BitFile κ}, f.Torn above start key → f.Torn above key key :=
    fun htorn => ⟨htorn.1, fun j h₁ h₂ => absurd h₂ (Nat.not_lt.mpr h₁)⟩
  exact ht.imp (And.imp_right fun ⟨f, hf, htorn⟩ => ⟨f, hf, hself htorn⟩)
    (And.imp_right fun ⟨f, hf, htorn⟩ => ⟨f, hf, hself htorn⟩)

/-- Most layers hand over the newest record. A file that is searched reads its own. -/
theorem LayersSpec.get_cases {caches : ℕ → LruCache (Leaf κ)} {st : RangeState κ}
    (hl : t.LayersSpec caches start stop st) (h : t.Ok) {key : ℕ} (hfirst : start ≤ key)
    (hlast : key ≤ stop) :
    st.results.get key = t.newest key ∨
      ∃ (above : ℕ → Prop) (f : BitFile κ), f.recordsOf key ≠ [] ∧
        t.newest key = (f.recordsOf key).head? ∧
        f.Reads above start (caches f.id) key (st.results.get key) ∧
        (f.Torn above start key → t.TornIn start key) := by
  by_cases hin : t.InMemtables key
  · exact Or.inl (by rw [hl.memtables key hfirst hlast hin, newest_of_inMemtables hin])
  · by_cases hupper : t.levels.level0.recordsOf key = []
    · have habove : ¬t.AboveLevel1 key := fun hcon => hcon.elim hin fun hne => hne hupper
      by_cases hlower : t.levels.level1.recordsOf key = []
      · left
        rw [hl.missing key hfirst hlast habove hlower, newest_of_not_inMemtables hin,
          Levels.newest, hupper, hlower]
        rfl
      · obtain ⟨f, hf, hr⟩ := BitLevel.exists_file_of_recordsOf hlower
        exact Or.inr ⟨t.AboveLevel1, f, hr, newest_of_lower h habove hf hr,
          hl.lower key hfirst hlast habove f hf hr, fun ht => Or.inr ⟨habove, f, hf, ht⟩⟩
    · obtain ⟨f, hf, hr⟩ := BitLevel.exists_file_of_recordsOf hupper
      exact Or.inr ⟨t.InMemtables, f, hr, newest_of_upper h hin hf hr,
        hl.upper key hfirst hlast hin f hf hr, fun ht => Or.inl ⟨hin, f, hf, ht⟩⟩

/-- What the layers find is the newest record if the key is not torn. -/
theorem LayersSpec.get_eq {caches : ℕ → LruCache (Leaf κ)} {st : RangeState κ}
    (hl : t.LayersSpec caches start stop st) (h : t.Ok) {key : ℕ} (hfirst : start ≤ key)
    (hlast : key ≤ stop) (htorn : ¬t.TornIn start key) : st.results.get key = t.newest key := by
  obtain heq | ⟨above, f, -, hnewest, hread, ht⟩ := hl.get_cases h hfirst hlast
  · exact heq
  · rw [hnewest]
    exact hread.whole fun hcon => htorn (ht hcon)

/-- They find nothing only if there is nothing to find. -/
theorem LayersSpec.get_eq_none {caches : ℕ → LruCache (Leaf κ)} {st : RangeState κ}
    (hl : t.LayersSpec caches start stop st) (h : t.Ok) {key : ℕ} (hfirst : start ≤ key)
    (hlast : key ≤ stop) : st.results.get key = none ↔ t.newest key = none := by
  obtain heq | ⟨above, f, hr, hnewest, hread, -⟩ := hl.get_cases h hfirst hlast
  · rw [heq]
  · rw [hnewest, List.head?_eq_none_iff]
    exact iff_of_false (Option.isSome_iff_ne_none.mp hread.isSome) hr

/-- If the key is torn and nothing is cached, they find the older record of it. -/
theorem LayersSpec.get_torn {caches : ℕ → LruCache (Leaf κ)} {st : RangeState κ}
    (hl : t.LayersSpec caches start stop st) (h : t.Ok) (hempty : ∀ id, (caches id).entries = [])
    {key : ℕ} (hfirst : start ≤ key) (hlast : key ≤ stop) (htorn : t.TornIn start key) :
    ∃ r n, t.newest key = some r ∧ st.results.get key = some n ∧ r.isNegative = false ∧
      n.isNegative = true := by
  obtain ⟨above, f, hok, ht, hnewest, hget⟩ : ∃ (above : ℕ → Prop) (f : BitFile κ), f.Ok ∧
      f.Torn above start key ∧ t.newest key = (f.recordsOf key).head? ∧
      st.results.get key = (f.leafRecords key).getLast? := by
    obtain ⟨hnot, f, hf, ht⟩ | ⟨hnot, f, hf, ht⟩ := htorn
    · have hok := h.levels.files f (Levels.mem_files.mpr (Or.inl hf))
      have hr := ht.recordsOf_ne_nil hok
      exact ⟨_, f, hok, ht, newest_of_upper h hnot hf hr,
        (hl.upper key hfirst hlast hnot f hf hr).torn ht (hempty f.id)⟩
    · have hok := h.levels.files f (Levels.mem_files.mpr (Or.inr hf))
      have hr := ht.recordsOf_ne_nil hok
      exact ⟨_, f, hok, ht, newest_of_lower h hnot hf hr,
        (hl.lower key hfirst hlast hnot f hf hr).torn ht (hempty f.id)⟩
  obtain ⟨r, n, hleaf, hrec, hpos, hneg⟩ := ht.leafRecords_eq hok
  rw [hrec] at hnewest
  rw [hleaf] at hget
  exact ⟨r, n, hnewest, hget, hpos, hneg⟩

theorem memtable_get_of_ok {st : RangeState κ} (hok : st.Ok start stop) (key : ℕ) :
    ((if st.results.size = 0 then none else some st.results : Option (Memtable κ)).bind
      fun m => m.get key) = st.results.get key := by
  split
  · rename_i hzero
    rw [hok.size, Finset.card_eq_zero] at hzero
    have hnot : key ∉ st.found := by
      rw [hzero]
      exact Finset.notMem_empty key
    rw [hok.not_mem_found.mp hnot]
    rfl
  · rfl

/-- A range lookup that returns hands over what the layers find. -/
theorem Ok.rangeSearch_spec (h : t.Ok) {caches : ℕ → LruCache (Leaf κ)} (hc : t.CachesOk caches)
    (hle : start ≤ stop) {res : Option (Memtable κ)}
    (hres : t.rangeSearch caches start stop = some res) :
    ∃ st, t.LayersSpec caches start stop st ∧
      (∀ key, (res.bind fun m => m.get key) = st.results.get key) ∧
      (res = none ↔ ∀ key, start ≤ key → key ≤ stop → st.results.get key = none) := by
  rw [rangeSearch, if_neg (Nat.not_lt.mpr hle)] at hres
  obtain ⟨st, hst, rfl⟩ := Option.map_eq_some_iff.mp hres
  have hl := rangeLayers_spec h hc hle hst
  refine ⟨st, hl, memtable_get_of_ok hl.ok, fun hnone key _ _ => ?_, fun hnone => if_pos ?_⟩
  · rw [← memtable_get_of_ok hl.ok, hnone]
    rfl
  · rw [hl.ok.size, Finset.card_eq_zero, Finset.eq_empty_iff_forall_notMem]
    intro key hmem
    obtain ⟨hfirst, hlast⟩ := Finset.mem_Icc.mp (hl.ok.range hmem)
    exact hl.ok.not_mem_found.mpr (hnone key hfirst hlast) hmem

/-- It does not return if it is led to a file without entries. -/
theorem Ok.rangeSearch_eq_none (h : t.Ok) {caches : ℕ → LruCache (Leaf κ)} (hc : t.CachesOk caches)
    (hle : start ≤ stop) : t.rangeSearch caches start stop = none ↔ t.EmptyFileHit start stop := by
  rw [rangeSearch, if_neg (Nat.not_lt.mpr hle), Option.map_eq_none_iff]
  exact ⟨emptyFileHit_of_rangeLayers h hc hle, rangeLayers_of_emptyFileHit h hc hle⟩

omit [Inhabited κ] in
/-- Nothing is cached yet. -/
theorem cachesOk_empty (t : LsmTree κ) : t.CachesOk fun _ => ⟨maxLeafNodeCached, []⟩ := by
  intro f _ e he
  cases he

/-- **Range lookup against point lookup**, in a tree between two operations. -/
theorem Ok.rangeAgrees_iff (h : t.Ok) (hle : start ≤ stop) :
    (∀ caches, t.CachesOk caches → t.RangeAgrees caches start stop) ↔
      ¬t.TornKey start stop ∧ ¬t.EmptyFileHit start stop := by
  constructor
  · intro hall
    obtain ⟨res, hres, hin, -, -⟩ := hall _ t.cachesOk_empty
    obtain ⟨st, hl, hget, -⟩ := h.rangeSearch_spec t.cachesOk_empty hle hres
    refine ⟨fun ⟨key, hfirst, hlast, htorn⟩ => ?_, fun hhit => ?_⟩
    · obtain ⟨r, n, hr, hn, hpos, hneg⟩ := hl.get_torn h (fun _ => rfl) hfirst hlast htorn
      have hsearch := hin key hfirst hlast
      rw [hget] at hsearch
      obtain rfl := Option.some.inj (hr.symm.trans ((h.search_eq hsearch).symm.trans hn))
      cases hpos.symm.trans hneg
    · cases ((h.rangeSearch_eq_none t.cachesOk_empty hle).mpr hhit).symm.trans hres
  · rintro ⟨htorn, hhit⟩ caches hc
    cases hres : t.rangeSearch caches start stop with
    | none => exact absurd ((h.rangeSearch_eq_none hc hle).mp hres) hhit
    | some res =>
      obtain ⟨st, hl, hget, hnone⟩ := h.rangeSearch_spec hc hle hres
      have hin : ∀ key, start ≤ key → key ≤ stop →
          t.search key = some (st.results.get key) := by
        intro key hfirst hlast
        rw [search_of_not_hit h hhit hfirst hlast,
          hl.get_eq h hfirst hlast fun ht => htorn ⟨key, hfirst, hlast, ht⟩]
      refine ⟨res, hres, fun key hfirst hlast => ?_, fun key hkey => ?_, ?_⟩
      · rw [hget]
        exact hin key hfirst hlast
      · rw [hget]
        exact hl.ok.not_mem_found.mp fun hmem => hkey (Finset.mem_Icc.mp (hl.ok.range hmem))
      · refine hnone.trans (forall₃_congr fun key hfirst hlast => ?_)
        rw [hin key hfirst hlast, Option.some_inj]

end LsmTree

/-- **Range lookup agrees with point lookup**, whatever is cached, exactly if no key of the range
is torn and none is looked up in a file without entries. This is so in every state the device
gets into. -/
theorem range_agrees_iff (capacity maxFd : ℕ) (run : List (LsmAction κ)) (s : LsmStore κ)
    (hrun : Machine.exec LsmStore.step (LsmStore.init capacity maxFd) run = some s)
    (start stop : ℕ) (hle : start ≤ stop) :
    (∀ caches, s.tree.CachesOk caches → s.tree.RangeAgrees caches start stop) ↔
      ¬s.tree.TornKey start stop ∧ ¬s.tree.EmptyFileHit start stop :=
  (LsmStore.ok_exec hrun).tree.rangeAgrees_iff hle

/-- A device that was just opened has nothing in its memtables. -/
theorem LsmStore.Reopened.not_inMemtables {s : LsmStore κ} {upper lower : List (BitFile κ)}
    (h : s.Reopened upper lower) (key : ℕ) : ¬s.tree.InMemtables key := by
  rw [LsmTree.InMemtables, h.memtable, h.immutable]
  simp [Memtable.create, Memtable.get]

/-- With one file, and entries in it, no lookup comes to an empty file. -/
theorem LsmStore.Reopened.not_emptyFileHit {s : LsmStore κ} {f : BitFile κ}
    (h : s.Reopened [f] []) (hne : f.entries ≠ []) : ¬s.tree.EmptyFileHit start stop := by
  rintro ⟨key, -, -, -, ⟨g, hg, hnil, -⟩ | ⟨-, g, hlocate, -⟩⟩
  · rw [h.upper, List.mem_singleton] at hg
    exact hne (hg ▸ hnil)
  · obtain ⟨⟨i, hi⟩, -⟩ := BitLevel.locateFile_eq_some hlocate
    rw [h.lower.eq_nil] at hi
    cases hi

/-- One key is written and the device closed and opened. -/
theorem range_agrees_iff_sample :
    ∃ s : LsmStore Unit,
      Machine.exec LsmStore.step (LsmStore.init 4 8) [.put 5 (some ⟨7, [], ()⟩), .reopen []] = some s ∧
      ∀ caches, s.tree.CachesOk caches → s.tree.RangeAgrees caches 3 9 := by
  obtain ⟨s, i, hs, hre, -⟩ := LsmStore.exec_first 4 8 (by decide) 5 (r := (⟨7, [], ()⟩ : Record Unit))
    (by decide)
  refine ⟨s, hs, (range_agrees_iff 4 8 _ s hs 3 9 (by decide)).mpr ⟨?_, hre.not_emptyFileHit
    (List.cons_ne_nil _ _)⟩⟩
  rintro ⟨key, -, -, ⟨-, f, hf, ht⟩ | ⟨-, f, hf, -⟩⟩
  · -- the file has one record
    have hok := hre.ok.tree.levels.files f (Levels.mem_files.mpr (Or.inl hf))
    obtain ⟨r, n, -, hrec, -⟩ := ht.leafRecords_eq hok
    rw [hre.upper, List.mem_singleton] at hf
    subst hf
    have hlen := congrArg List.length hrec
    simp only [BitFile.recordsOf, List.length_map] at hlen
    have hle := List.length_filter_le (fun e : ℕ × Record Unit => decide (e.1 = key)) [(5, ⟨7, [], ()⟩)]
    rw [hlen] at hle
    simp only [List.length_cons, List.length_nil] at hle
    omega
  · rw [hre.lower.eq_nil] at hf
    cases hf

/-- **A deleted record is returned.** Key 0 is deleted and written in one memtable, and the device
is closed and opened. A point lookup finds the record, and a range lookup the deletion. -/
theorem torn_key_returned :
    ∃ s : LsmStore Unit, ∃ m,
      Machine.exec LsmStore.step (LsmStore.init 4 8)
        [.put 0 none, .put 0 (some ⟨7, [], ()⟩), .reopen []] = some s ∧
      s.tree.search 0 = some (some ⟨7, [], ()⟩) ∧
      s.tree.rangeSearch (fun _ => ⟨maxLeafNodeCached, []⟩) 0 0 = some (some m) ∧
      m.get 0 = some .negative ∧
      s.tree.CachesOk (fun _ => ⟨maxLeafNodeCached, []⟩) ∧
      ¬s.tree.RangeAgrees (fun _ => ⟨maxLeafNodeCached, []⟩) 0 0 := by
  have hput₁ := LsmStore.step_put_single (s := (LsmStore.init 4 8 : LsmStore Unit))
    (Memtable.create_put 0 none) (by rintro _ ⟨⟩)
  have hput₂ := LsmStore.step_put_single (s := { (LsmStore.init 4 8 : LsmStore Unit) with
      tree := { (LsmStore.init 4 8 : LsmStore Unit).tree with
        memtable := .single 0 .negative } })
    (Memtable.single_put 0 .negative (some ⟨7, [], ()⟩)) (by rintro _ ⟨⟩; decide)
  obtain ⟨s, i, hs, hre, -⟩ := LsmStore.reopen_first 4 8 (by decide) (e := .both ⟨7, [], ()⟩) rfl
    (((LsmStore.ok_init 4 8).step hput₁).step hput₂)
  have hok := hre.ok.tree
  obtain ⟨f, hf⟩ : ∃ f : BitFile Unit, f = ⟨i, 0, 0, [(0, ⟨7, [], ()⟩), (0, .negative)]⟩ := ⟨_, rfl⟩
  have hupper : s.tree.levels.level0.files = [f] := hf ▸ hre.upper
  have hmem : f ∈ s.tree.levels.level0.files := hupper ▸ List.mem_singleton_self f
  have hrec : f.recordsOf 0 = [⟨7, [], ()⟩, .negative] := by
    rw [hf]
    rfl
  have hleaf : f.leafRecords 0 = [⟨7, [], ()⟩, .negative] := by
    rw [BitFile.leafRecords, BitFile.searchLeafKeyPos, BitFile.leaves, hf,
      Chunks.chunks_of_ne_nil (by decide) (List.cons_ne_nil _ _)]
    rfl
  have htorn : f.Torn s.tree.InMemtables 0 0 := ⟨by rw [hleaf]; decide, fun j _ hj => by omega⟩
  have hhit : ¬s.tree.EmptyFileHit 0 0 := hre.not_emptyFileHit (List.cons_ne_nil _ _)
  have hc := s.tree.cachesOk_empty
  have hsearch : s.tree.search 0 = some (some ⟨7, [], ()⟩) := by
    rw [LsmTree.search_of_not_hit hok hhit le_rfl le_rfl, LsmTree.newest_of_upper hok
      (hre.not_inMemtables 0) hmem (by simp [hrec]), hrec]
    rfl
  cases hrange : s.tree.rangeSearch (fun _ => ⟨maxLeafNodeCached, []⟩) 0 0 with
  | none => exact absurd ((hok.rangeSearch_eq_none hc le_rfl).mp hrange) hhit
  | some res =>
    obtain ⟨st, hl, hresults, -⟩ := hok.rangeSearch_spec hc le_rfl hrange
    have hget : (res.bind fun m => m.get 0) = some .negative := by
      have hread := hl.upper 0 le_rfl le_rfl (hre.not_inMemtables 0) f hmem (by simp [hrec])
      rw [hresults, hread.torn htorn rfl, hleaf]
      rfl
    obtain ⟨m, rfl, hm⟩ := Option.bind_eq_some_iff.mp hget
    refine ⟨s, m, Machine.exec_cons_of hput₁ (Machine.exec_cons_of hput₂
      (Machine.exec_cons_of hs rfl)), hsearch, hrange, hm, hc, ?_⟩
    rintro ⟨res, hres, hin, -⟩
    obtain rfl := Option.some.inj (hres.symm.trans hrange)
    have hsame := (hin 0 le_rfl le_rfl).symm.trans hsearch
    rw [hget] at hsame
    exact absurd (Option.some.inj (Option.some.inj hsame)) (by decide)

end JinDisk
