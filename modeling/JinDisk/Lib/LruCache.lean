import Mathlib.Data.List.Nodup

/-!
# A cache that drops what was used least recently

The entries are kept in the order of their last use. Looking something up never changes what is
in the cache, and storing something never adds anything else. With distinct keys more can be said:
what each operation makes of the list of keys, what is found under a key afterwards, and which
values leave.
-/

/-- The entries, most recently used first. -/
structure LruCache (α : Type) where
  /-- how many entries there may be -/
  capacity : ℕ
  /-- keys and values -/
  entries : List (ℕ × α)

namespace LruCache

variable {α : Type} {c : LruCache α} {key : ℕ}

/-- Look up a key; it becomes the most recently used one. -/
def get (c : LruCache α) (key : ℕ) : Option α × LruCache α :=
  match c.entries.find? fun e => e.1 = key with
  | some e => (some e.2, { c with entries := e :: c.entries.eraseP fun e => e.1 = key })
  | none => (none, c)

/-- Store a value. A new key takes the place of the one used least recently if there is no room
for it. -/
def put (c : LruCache α) (key : ℕ) (val : α) : LruCache α :=
  if c.entries.any fun e => e.1 = key then
    { c with entries := (key, val) :: c.entries.eraseP fun e => e.1 = key }
  else { c with entries := (key, val) :: c.entries.take (c.capacity - 1) }

/-- The key is in the cache. -/
def Has (c : LruCache α) (key : ℕ) : Prop := ∃ e ∈ c.entries, e.1 = key

theorem find?_perm {l : List (ℕ × α)} {e : ℕ × α} (h : l.find? (fun e => e.1 = key) = some e) :
    (e :: l.eraseP fun e => e.1 = key).Perm l := by
  induction l with
  | nil => cases h
  | cons a l ih =>
    by_cases ha : a.1 = key
    · rw [List.find?_cons_of_pos (by simpa using ha)] at h
      obtain rfl := Option.some.inj h
      rw [List.eraseP_cons_of_pos (by simpa using ha)]
    · rw [List.find?_cons_of_neg (by simpa using ha)] at h
      rw [List.eraseP_cons_of_neg (by simpa using ha)]
      exact (List.Perm.swap _ _ _).trans ((ih h).cons a)

/-- Looking something up changes nothing but the order. -/
theorem mem_get (c : LruCache α) (key : ℕ) (e : ℕ × α) :
    e ∈ (c.get key).2.entries ↔ e ∈ c.entries := by
  rw [get]
  split
  · rename_i a ha
    exact (find?_perm ha).mem_iff
  · rfl

theorem has_get (c : LruCache α) (key k : ℕ) : (c.get key).2.Has k ↔ c.Has k := by
  simp only [Has, mem_get]

/-- What is found is in the cache. -/
theorem mem_of_get {v : α} (h : (c.get key).1 = some v) : (key, v) ∈ c.entries := by
  rw [get] at h
  split at h
  · rename_i e he
    have hkey : e.1 = key := by simpa using List.find?_some he
    obtain rfl := Option.some.inj h
    rw [← hkey]
    exact List.mem_of_find?_eq_some he
  · cases h

theorem get_eq_none : (c.get key).1 = none ↔ ¬c.Has key := by
  rw [get]
  split
  · rename_i e he
    refine iff_of_false (by simp) (not_not.mpr ⟨e, List.mem_of_find?_eq_some he, ?_⟩)
    simpa using List.find?_some he
  · rename_i hnone
    refine iff_of_true rfl ?_
    rintro ⟨e, he, hkey⟩
    exact absurd hkey (by simpa using List.find?_eq_none.mp hnone e he)

/-- The same cache with other values. -/
def map {β : Type} (f : α → β) (c : LruCache α) : LruCache β :=
  ⟨c.capacity, c.entries.map fun e => (e.1, f e.2)⟩

theorem get_map {β : Type} (f : α → β) (c : LruCache α) (key : ℕ) :
    (c.map f).get key = ((c.get key).1.map f, (c.get key).2.map f) := by
  have hfind : (c.map f).entries.find? (fun e => e.1 = key) =
      (c.entries.find? fun e => e.1 = key).map fun e => (e.1, f e.2) := List.find?_map
  rw [get, hfind, get]
  cases c.entries.find? fun e => e.1 = key with
  | none => rfl
  | some e =>
    simp only [map, Option.map_some, List.map_cons, List.eraseP_map]
    rfl

theorem put_map {β : Type} (f : α → β) (c : LruCache α) (key : ℕ) (val : α) :
    (c.map f).put key (f val) = (c.put key val).map f := by
  have hany : (c.map f).entries.any (fun e => e.1 = key) = c.entries.any fun e => e.1 = key :=
    List.any_map
  rw [put, hany, put]
  split
  · simp only [map, List.map_cons, List.eraseP_map]
    rfl
  · simp only [map, List.map_cons, List.map_take]

/-- After a put the key is there. -/
theorem has_put (c : LruCache α) (key : ℕ) (val : α) : (c.put key val).Has key := by
  rw [put]
  split <;> exact ⟨_, List.mem_cons_self, rfl⟩

/-- And nothing else is new. -/
theorem mem_put {val : α} {e : ℕ × α} (h : e ∈ (c.put key val).entries) :
    e = (key, val) ∨ e ∈ c.entries := by
  rw [put] at h
  split at h
  · exact (List.mem_cons.mp h).imp_right fun he => List.mem_of_mem_eraseP he
  · exact (List.mem_cons.mp h).imp_right fun he => List.mem_of_mem_take he

/-! ## Keys and values -/

/-- The keys, most recently used first. -/
def keys (c : LruCache α) : List ℕ := c.entries.map Prod.fst

/-- The values, in the same order. -/
def values (c : LruCache α) : List α := c.entries.map Prod.snd

/-- What is stored under a key. Looking does not count as a use. -/
def lookup (c : LruCache α) (key : ℕ) : Option α :=
  (c.entries.find? fun e => e.1 = key).map Prod.snd

/-- Remove a key. -/
def delete (c : LruCache α) (key : ℕ) : LruCache α :=
  { c with entries := c.entries.eraseP fun e => e.1 = key }

/-- The value that a put takes the place of: the one under the same key, or the one used least
recently if there is no room. -/
def displaced (c : LruCache α) (key : ℕ) : Option α :=
  match c.lookup key with
  | some v => some v
  | none => if c.entries.length < c.capacity then none else c.entries.getLast?.map Prod.snd

theorem get_fst (c : LruCache α) (key : ℕ) : (c.get key).1 = c.lookup key := by
  rw [get, lookup]
  cases c.entries.find? fun e => e.1 = key <;> rfl

theorem lookup_eq_none : c.lookup key = none ↔ key ∉ c.keys := by
  simp only [lookup, keys, Option.map_eq_none_iff, List.find?_eq_none, decide_eq_true_eq,
    List.mem_map, not_exists, not_and]

theorem mem_keys : key ∈ c.keys ↔ ∃ v, c.lookup key = some v := by
  rw [← Option.ne_none_iff_exists', ne_eq, lookup_eq_none, not_not]

theorem mem_of_lookup {v : α} (h : c.lookup key = some v) : (key, v) ∈ c.entries :=
  mem_of_get (by rw [get_fst, h])

/-- Under a key of its own an entry is found. -/
theorem lookup_eq_some (hd : c.keys.Nodup) {v : α} :
    c.lookup key = some v ↔ (key, v) ∈ c.entries := by
  refine ⟨mem_of_lookup, fun h => ?_⟩
  obtain ⟨w, hw⟩ := mem_keys.mp (List.mem_map_of_mem (f := Prod.fst) h)
  have hsame : (key, w) = (key, v) :=
    List.inj_on_of_nodup_map hd (mem_of_lookup hw) h rfl
  rw [hw, (Prod.mk.inj hsame).2]

theorem map_fst_eraseP (l : List (ℕ × α)) (key : ℕ) :
    (l.eraseP fun e => e.1 = key).map Prod.fst = (l.map Prod.fst).erase key := by
  rw [List.erase_eq_eraseP', List.eraseP_map]
  rfl

theorem keys_get (c : LruCache α) (key : ℕ) :
    (c.get key).2.keys = if key ∈ c.keys then key :: c.keys.erase key else c.keys := by
  by_cases h : key ∈ c.keys
  · obtain ⟨v, hv⟩ := mem_keys.mp h
    obtain ⟨e, he, -⟩ := Option.map_eq_some_iff.mp hv
    have hkey : e.1 = key := by simpa using List.find?_some he
    rw [if_pos h, get, he]
    simp only [keys, List.map_cons, map_fst_eraseP, hkey]
  · rw [if_neg h, get, Option.map_eq_none_iff.mp (lookup_eq_none.mpr h)]

theorem any_iff_mem_keys : (c.entries.any fun e => e.1 = key) = true ↔ key ∈ c.keys := by
  simp only [List.any_eq_true, decide_eq_true_eq, keys, List.mem_map]

theorem keys_put (c : LruCache α) (key : ℕ) (val : α) :
    (c.put key val).keys =
      key :: (if key ∈ c.keys then c.keys.erase key else c.keys.take (c.capacity - 1)) := by
  by_cases h : key ∈ c.keys
  · rw [if_pos h, put, if_pos (any_iff_mem_keys.mpr h)]
    simp only [keys, List.map_cons, map_fst_eraseP]
  · rw [if_neg h, put, if_neg (mt any_iff_mem_keys.mp h)]
    simp only [keys, List.map_cons, List.map_take]

theorem keys_delete (c : LruCache α) (key : ℕ) : (c.delete key).keys = c.keys.erase key :=
  map_fst_eraseP c.entries key

/-- The rest of the keys after a put: no others than before, and not the new one again. -/
theorem keys_put_cons (hd : c.keys.Nodup) (key : ℕ) (val : α) :
    ∃ rest, (c.put key val).keys = key :: rest ∧ rest.Sublist c.keys ∧ key ∉ rest := by
  refine ⟨_, keys_put c key val, ?_, ?_⟩
  · split
    · exact List.erase_sublist
    · exact List.take_sublist _ _
  · split
    · exact hd.not_mem_erase
    · exact fun h => ‹key ∉ c.keys› (List.mem_of_mem_take h)

theorem nodup_get (hd : c.keys.Nodup) : (c.get key).2.keys.Nodup := by
  rw [keys_get]
  split
  · exact List.nodup_cons.mpr ⟨hd.not_mem_erase, hd.erase key⟩
  · exact hd

theorem lookup_get (hd : c.keys.Nodup) (k : ℕ) : (c.get key).2.lookup k = c.lookup k := by
  apply Option.ext
  intro v
  rw [lookup_eq_some (nodup_get hd), lookup_eq_some hd, mem_get]

theorem lookup_put_self (c : LruCache α) (key : ℕ) (val : α) :
    (c.put key val).lookup key = some val := by
  rw [lookup, put]
  split <;> rw [List.find?_cons_of_pos (by simp)] <;> rfl

/-- Under another key a put leaves what it leaves there at all. -/
theorem lookup_put_of_ne (hd : c.keys.Nodup) (val : α) {k : ℕ} (hne : k ≠ key) :
    (c.put key val).lookup k = if k ∈ (c.put key val).keys then c.lookup k else none := by
  split
  · rename_i hk
    obtain ⟨v, hv⟩ := mem_keys.mp hk
    rw [hv, eq_comm, lookup_eq_some hd]
    rcases mem_put (mem_of_lookup hv) with heq | hmem
    · exact absurd (Prod.mk.inj heq).1 hne
    · exact hmem
  · exact lookup_eq_none.mpr ‹_›

theorem lookup_delete (hd : c.keys.Nodup) (k : ℕ) :
    (c.delete key).lookup k = if k = key then none else c.lookup k := by
  have hd' : (c.delete key).keys.Nodup := keys_delete c key ▸ hd.erase key
  split
  · rename_i hk
    rw [lookup_eq_none, keys_delete, hk]
    exact hd.not_mem_erase
  · rename_i hk
    apply Option.ext
    intro v
    rw [lookup_eq_some hd', lookup_eq_some hd]
    refine ⟨List.mem_of_mem_eraseP, fun h => ?_⟩
    exact (List.mem_eraseP_of_neg (by simpa using hk)).mpr h

/-! ## The values that leave -/

theorem displaced_of_mem (h : key ∈ c.keys) : c.displaced key = c.lookup key := by
  obtain ⟨v, hv⟩ := mem_keys.mp h
  rw [displaced, hv]

theorem displaced_of_room (h : key ∉ c.keys) (hroom : c.entries.length < c.capacity) :
    c.displaced key = none := by
  simp only [displaced, lookup_eq_none.mpr h, hroom, if_true]

/-- In a full cache it is the value under the last key. -/
theorem displaced_of_full (hd : c.keys.Nodup) (h : key ∉ c.keys)
    (hfull : ¬c.entries.length < c.capacity) :
    c.displaced key = c.keys.getLast?.bind c.lookup := by
  simp only [displaced, lookup_eq_none.mpr h, if_neg hfull, keys, List.getLast?_map]
  cases hlast : c.entries.getLast? with
  | none => rfl
  | some e => exact ((lookup_eq_some hd).mpr (List.mem_of_getLast? hlast)).symm

theorem values_get (c : LruCache α) (key : ℕ) : (c.get key).2.values.Perm c.values := by
  rw [get]
  split
  · exact (find?_perm ‹_›).map Prod.snd
  · exact List.Perm.refl _

/-- What a key is deleted with is the one value that goes. -/
theorem values_delete (c : LruCache α) (key : ℕ) :
    ((c.delete key).values ++ (c.lookup key).toList).Perm c.values := by
  rw [lookup, delete]
  cases he : c.entries.find? fun e => e.1 = key with
  | none =>
    rw [List.eraseP_of_forall_not (List.find?_eq_none.mp he)]
    exact (List.append_nil _).symm ▸ List.Perm.refl _
  | some e => exact List.perm_append_comm.trans ((find?_perm he).map Prod.snd)

/-- A put brings one value in and takes out the one it displaces. -/
theorem values_put (hcap : 1 ≤ c.capacity) (hroom : c.entries.length ≤ c.capacity) (val : α) :
    ((c.put key val).values ++ (c.displaced key).toList).Perm (val :: c.values) := by
  by_cases hk : key ∈ c.keys
  · obtain ⟨v, hv⟩ := mem_keys.mp hk
    have hdelete : ((c.delete key).values ++ [v]).Perm c.values := by
      have h := values_delete c key
      rw [hv] at h
      exact h
    rw [displaced, hv, put, if_pos (any_iff_mem_keys.mpr hk)]
    exact hdelete.cons val
  · rw [displaced, lookup_eq_none.mpr hk, put, if_neg (mt any_iff_mem_keys.mp hk)]
    by_cases hfull : c.entries.length < c.capacity
    · have htake : c.entries.take (c.capacity - 1) = c.entries :=
        List.take_of_length_le (by omega)
      simp only [values, htake, if_pos hfull, Option.toList_none, List.append_nil, List.map_cons]
      exact List.Perm.refl _
    · have hne : c.entries ≠ [] := List.ne_nil_of_length_pos (by omega)
      have htake : c.entries.take (c.capacity - 1) = c.entries.dropLast := by
        rw [List.dropLast_eq_take, Nat.le_antisymm hroom (Nat.not_lt.mp hfull)]
      have hlast := List.dropLast_append_getLast hne
      simp only [values, htake, if_neg hfull, List.map_cons, List.cons_append,
        List.getLast?_eq_getLast_of_ne_nil hne, Option.map_some, Option.toList_some]
      rw [← List.map_singleton, ← List.map_append, hlast]

end LruCache
