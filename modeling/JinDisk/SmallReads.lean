import JinDisk.Aliasing
import JinDisk.ReadPath

/-!
# Reads of less than a block

The end of a bio that is no whole block goes through `read_small_block`, with the results of the
range search for the whole bio. It looks the block up in its own way: segment buffer, results, disk.
Two things are different from what the loop of `jindisk_do_read` does for a whole block. Without
results it returns at once, before it has asked the segment buffer, and there are no results when
none of the bio's blocks is in the LSM tree. And it has no test for a negative record, so it reads
from `INF_ADDR`, and hands over what the cipher makes of that.

What a failed decryption leaves in the buffer is handed over as well, here as there.
-/

namespace JinDisk

variable {κ : Type} [Inhabited κ]

/-- `DATA_BLOCK_SIZE` -/
def dataBlockSize : ℕ := 4096

/-- A read bio when less than a block of it is left: the lba it started with, the number of whole
blocks, and the segment of the page that is left. -/
structure TailRead where
  /-- `start` -/
  start : ℕ
  /-- the whole blocks in front -/
  full : ℕ
  /-- `bv_offset` -/
  bvOffset : ℕ
  /-- `bv_len` -/
  bvLen : ℕ
  bvLen_pos : 0 < bvLen
  bv_fits : bvOffset + bvLen ≤ dataBlockSize

namespace TailRead

/-- The lba of the block. -/
def lba (t : TailRead) : ℕ := t.start + t.full

theorem start_le (t : TailRead) : t.start ≤ t.lba := Nat.le_add_right _ _

/-- The bytes of a block that the bio asks for. -/
def bytes (t : TailRead) (block : Bytes) : Bytes := (block.drop t.bvOffset).take t.bvLen

end TailRead

namespace Device

/-- What `cipher->decrypt` leaves at its destination: key, mac, address and ciphertext. -/
abbrev Opened (κ : Type) : Type := κ → Bytes → ℕ → Bytes → Bytes

/-- `read_small_block`, where the allocation succeeds: the bytes that go to the page at `bv_offset`;
`none` if it is left as it is. -/
def readSmallBlock (opened : Opened κ) (d : Device κ Bytes) (t : TailRead)
    (results : Option (Memtable κ)) : Option Bytes :=
  match results with
  | none => none
  | some results =>
    match d.segBuffer.queryBlock t.lba with
    | some buffer => some (t.bytes buffer)
    | none =>
      (results.get t.lba).map fun old =>
        t.bytes (opened old.key old.mac old.pba (jindiskReadBlocks d.rawDev old.pba 0))

/-- `jindisk_do_read` for one whole block: what goes to the page. A block that is collected makes a
range of its own. -/
def readWholeBlock (opened : Opened κ) (d : Device κ Bytes) (lba : ℕ)
    (results : Option (Memtable κ)) : Option Bytes :=
  match d.segBuffer.queryBlock lba with
  | some data => some data
  | none =>
    match results.bind fun m => m.get lba with
    | none => none
    | some old =>
      if old.pba = infAddr then none
      else
        let blks : ℕ → BlkInfo κ := fun _ => ⟨lba, old, 0⟩
        (((mergeLoop blks 1 0 0).flatMap fun r =>
          decryptWork (mergeReadIo d.rawDev blks r.1 r.2)).getLast?).map fun call =>
            opened call.key call.mac call.pba call.ciphertext

/-- The two reads agree, whatever is on the disk and whatever the cipher makes of it. -/
def SmallAgrees (d : Device κ Bytes) (t : TailRead) (results whole : Option (Memtable κ)) : Prop :=
  ∀ (opened : Opened κ) (raw : ℕ → Bytes),
    readSmallBlock opened { d with rawDev := raw } t results =
      (readWholeBlock opened { d with rawDev := raw } t.lba whole).map t.bytes

/-- When they do, given what the range searches return. -/
structure SmallOk (d : Device κ Bytes) (t : TailRead) (results whole : Option (Memtable κ)) :
    Prop where
  /-- of a block in the segment buffer: the range search has found anything at all -/
  buffered : (d.segBuffer.queryBlock t.lba).isSome → results.isSome
  /-- of another block: no negative record was found for it -/
  positive : d.segBuffer.queryBlock t.lba = none → ∀ r,
    (results.bind fun m => m.get t.lba) = some r → r.pba ≠ infAddr
  /-- and a search for the block alone comes to the same -/
  same : d.segBuffer.queryBlock t.lba = none → ∀ r, r.pba ≠ infAddr →
    ((results.bind fun m => m.get t.lba) = some r ↔ (whole.bind fun m => m.get t.lba) = some r)

variable {opened : Opened κ} {d : Device κ Bytes} {t : TailRead}
  {results whole : Option (Memtable κ)}

/-- A single block is decrypted with its own record, from its own address. -/
theorem readWholeBlock_of_disk {r : Record κ} (hbuf : d.segBuffer.queryBlock t.lba = none)
    (hr : (whole.bind fun m => m.get t.lba) = some r) (hpos : r.pba ≠ infAddr) :
    readWholeBlock opened d t.lba whole =
      some (opened r.key r.mac r.pba (jindiskReadBlocks d.rawDev r.pba 0)) := by
  have hloop : ∀ blks : ℕ → BlkInfo κ, mergeLoop blks 1 0 0 = [(0, 0)] := by
    intro blks
    rw [mergeLoop, if_pos Nat.one_pos, if_neg (fun h => h.1 rfl), mergeLoop, if_neg (by decide)]
  simp only [readWholeBlock, hbuf, hr, if_neg hpos, hloop]
  rfl

/-- A whole block is left as it is exactly if no copy is found, or a negative record. -/
theorem readWholeBlock_eq_none :
    readWholeBlock opened d t.lba whole = none ↔ d.segBuffer.queryBlock t.lba = none ∧
      ∀ r, (whole.bind fun m => m.get t.lba) = some r → r.pba = infAddr := by
  cases hbuf : d.segBuffer.queryBlock t.lba with
  | some data => simp [readWholeBlock, hbuf]
  | none =>
    cases hr : whole.bind fun m => m.get t.lba with
    | none => simp [readWholeBlock, hbuf, hr]
    | some r =>
      by_cases hpos : r.pba = infAddr
      · simp [readWholeBlock, hbuf, hr, hpos]
      · simp [readWholeBlock_of_disk hbuf hr hpos, hpos]

/-- What is not found in the segment buffer is looked up in the results. -/
theorem readSmallBlock_of_disk (hbuf : d.segBuffer.queryBlock t.lba = none) :
    readSmallBlock opened d t results = (results.bind fun m => m.get t.lba).map fun old =>
      t.bytes (opened old.key old.mac old.pba (jindiskReadBlocks d.rawDev old.pba 0)) := by
  cases results with
  | none => rfl
  | some m => simp only [readSmallBlock, hbuf, Option.bind_some]

/-- Where the conditions hold the small read delivers the bytes of the whole one. -/
theorem SmallOk.agrees (h : d.SmallOk t results whole) : d.SmallAgrees t results whole := by
  intro opened raw
  cases hbuf : d.segBuffer.queryBlock t.lba with
  | some data =>
    obtain ⟨m, rfl⟩ := Option.isSome_iff_exists.mp (h.buffered (by rw [hbuf]; rfl))
    simp only [readSmallBlock, readWholeBlock, hbuf, Option.map_some]
  | none =>
    have hbuf' : { d with rawDev := raw }.segBuffer.queryBlock t.lba = none := hbuf
    rw [readSmallBlock_of_disk hbuf']
    cases hr : results.bind fun m => m.get t.lba with
    | some r =>
      have hpos := h.positive hbuf r hr
      rw [readWholeBlock_of_disk hbuf' ((h.same hbuf r hpos).mp hr) hpos]
      rfl
    | none =>
      have hnone : readWholeBlock opened { d with rawDev := raw } t.lba whole = none := by
        refine readWholeBlock_eq_none.mpr ⟨hbuf', fun r hw => ?_⟩
        by_contra hpos
        rw [(h.same hbuf r hpos).mpr hw] at hr
        cases hr
      rw [hnone]
      rfl

/-! ## When they do not -/

theorem bytes_replicate (t : TailRead) (b : UInt8) :
    t.bytes (List.replicate dataBlockSize b) = List.replicate t.bvLen b := by
  have hfits := t.bv_fits
  rw [TailRead.bytes, List.drop_replicate, List.take_replicate]
  congr 1
  omega

omit [Inhabited κ] in
open Classical in
/-- The cipher may tell two records apart in every byte. -/
theorem exists_opened_ne (t : TailRead) {r r' : Record κ} (hne : r ≠ r') :
    ∃ opened : Opened κ, ∀ x x',
      t.bytes (opened r.key r.mac r.pba x) ≠ t.bytes (opened r'.key r'.mac r'.pba x') := by
  refine ⟨fun key mac pba _ => List.replicate dataBlockSize
    (if (⟨pba, mac, key⟩ : Record κ) = r then 0 else 1), fun x x' heq => ?_⟩
  have hright : (if (⟨r'.pba, r'.mac, r'.key⟩ : Record κ) = r then (0 : UInt8) else 1) = 1 :=
    if_neg hne.symm
  simp only [if_true, hright, bytes_replicate] at heq
  have hbyte := List.eq_of_mem_replicate (heq ▸ List.mem_replicate.mpr ⟨t.bvLen_pos.ne', rfl⟩)
  exact absurd hbyte (by decide)

/-- Reads that agree come to the same record. -/
theorem SmallAgrees.eq_of_get (h : d.SmallAgrees t results whole)
    (hbuf : d.segBuffer.queryBlock t.lba = none) {r : Record κ}
    (hr : (results.bind fun m => m.get t.lba) = some r) :
    (whole.bind fun m => m.get t.lba) = some r ∧ r.pba ≠ infAddr := by
  have hsmall : ∀ opened raw, readSmallBlock opened { d with rawDev := raw } t results =
      some (t.bytes (opened r.key r.mac r.pba (jindiskReadBlocks raw r.pba 0))) := by
    intro opened raw
    have hbuf' : { d with rawDev := raw }.segBuffer.queryBlock t.lba = none := hbuf
    rw [readSmallBlock_of_disk hbuf', hr]
    rfl
  have hsome : ∃ r', (whole.bind fun m => m.get t.lba) = some r' ∧ r'.pba ≠ infAddr := by
    by_contra hnot
    push Not at hnot
    have hnone : readWholeBlock (fun _ _ _ _ => []) d t.lba whole = none :=
      readWholeBlock_eq_none.mpr ⟨hbuf, hnot⟩
    have hagree := h (fun _ _ _ _ => []) d.rawDev
    rw [hsmall, hnone] at hagree
    cases hagree
  obtain ⟨r', hr', hpos⟩ := hsome
  have hsame : r = r' := by
    by_contra hne
    obtain ⟨opened, hopened⟩ := exists_opened_ne t hne
    have hagree := h opened d.rawDev
    rw [hsmall, readWholeBlock_of_disk hbuf hr' hpos] at hagree
    exact hopened _ _ (Option.some.inj hagree)
  exact hsame ▸ ⟨hr', hpos⟩

theorem SmallAgrees.ok (h : d.SmallAgrees t results whole) : d.SmallOk t results whole where
  buffered hbuf := by
    obtain ⟨data, hdata⟩ := Option.isSome_iff_exists.mp hbuf
    have hagree := h (fun _ _ _ _ => []) d.rawDev
    cases results with
    | some m => rfl
    | none =>
      simp only [readSmallBlock, readWholeBlock, hdata, Option.map_some] at hagree
      cases hagree
  positive hbuf r hr := (h.eq_of_get hbuf hr).2
  same hbuf r hpos := by
    refine ⟨fun hr => (h.eq_of_get hbuf hr).1, fun hr => ?_⟩
    have hagree := h (fun _ _ _ _ => []) d.rawDev
    rw [readSmallBlock_of_disk hbuf, readWholeBlock_of_disk hbuf hr hpos] at hagree
    cases hr' : results.bind fun m => m.get t.lba with
    | none =>
      rw [hr'] at hagree
      cases hagree
    | some r' =>
      obtain ⟨hwhole, -⟩ := h.eq_of_get hbuf hr'
      rw [← hwhole, hr]

/-! ## What it takes of the device -/

/-- The state of the device in which a small read and a read of the whole block are the same. -/
structure SmallReadable (d : Device κ Bytes) (t : TailRead) : Prop where
  /-- no lookup of the bio's blocks is led to an index file without records -/
  returns : ¬d.lsmTree.EmptyFileHit t.start t.lba
  /-- if the block is in the segment buffer, one of the bio's blocks is in the tree -/
  buffered : (d.segBuffer.queryBlock t.lba).isSome →
    ∃ key, t.start ≤ key ∧ key ≤ t.lba ∧ d.lsmTree.newest key ≠ none
  /-- otherwise the newest record of the block, if there is one, is not negative, and no leaf has an
  older one beside it -/
  positive : d.segBuffer.queryBlock t.lba = none → ∀ r, d.lsmTree.newest t.lba = some r →
    r.isNegative = false ∧ ¬d.lsmTree.TornIn t.lba t.lba

/-- The block was never written, or its newest record is negative. -/
def Unwritten (d : Device κ Bytes) (lba : ℕ) : Prop :=
  d.segBuffer.queryBlock lba = none ∧ ∀ r, d.lsmTree.newest lba = some r → r.isNegative = true

/-- Whatever is cached, both reads return, and agree. They leave the page as it is exactly for what
is not written. -/
def SmallReadsAgree (d : Device κ Bytes) (t : TailRead) : Prop :=
  ∀ caches caches', d.lsmTree.CachesOk caches → d.lsmTree.CachesOk caches' →
    ∃ results whole, d.lsmTree.rangeSearch caches t.start t.lba = some results ∧
      d.lsmTree.rangeSearch caches' t.lba t.lba = some whole ∧ d.SmallAgrees t results whole ∧
      ∀ opened, readSmallBlock opened d t results = none ↔ d.Unwritten t.lba

omit [Inhabited κ] in
theorem isNegative_eq_false {r : Record κ} : r.isNegative = false ↔ r.pba ≠ infAddr := by
  simp [Record.isNegative]

/-- The whole read looks up one of the bio's blocks. -/
theorem SmallReadable.returns_whole (h : d.SmallReadable t) :
    ¬d.lsmTree.EmptyFileHit t.lba t.lba := fun ⟨key, hfirst, hlast, hhit⟩ =>
  h.returns ⟨key, t.start_le.trans hfirst, hlast, hhit⟩

theorem SmallReadable.agree (hok : d.lsmTree.Ok) (h : d.SmallReadable t) : d.SmallReadsAgree t := by
  intro caches caches' hc hc'
  have hle := t.start_le
  obtain ⟨results, hres⟩ := Option.ne_none_iff_exists'.mp
    (mt (hok.rangeSearch_eq_none hc hle).mp h.returns)
  obtain ⟨whole, hwhole⟩ := Option.ne_none_iff_exists'.mp
    (mt (hok.rangeSearch_eq_none hc' le_rfl).mp h.returns_whole)
  obtain ⟨st, hl, hget, hnone⟩ := hok.rangeSearch_spec hc hle hres
  obtain ⟨st', hl', hget', -⟩ := hok.rangeSearch_spec hc' le_rfl hwhole
  -- both find the newest record
  have hnewest : d.segBuffer.queryBlock t.lba = none →
      st.results.get t.lba = d.lsmTree.newest t.lba ∧
        st'.results.get t.lba = d.lsmTree.newest t.lba := by
    intro hbuf
    cases hr : d.lsmTree.newest t.lba with
    | none =>
      exact ⟨(hl.get_eq_none hok hle le_rfl).mpr hr, (hl'.get_eq_none hok le_rfl le_rfl).mpr hr⟩
    | some r =>
      have htorn := (h.positive hbuf r hr).2
      rw [← hr]
      exact ⟨hl.get_eq hok hle le_rfl fun ht => htorn ht.self, hl'.get_eq hok le_rfl le_rfl htorn⟩
  have hsmall : d.SmallOk t results whole := by
    refine ⟨fun hbuf => ?_, fun hbuf r hr => ?_, fun hbuf r _ => ?_⟩
    · obtain ⟨key, hfirst, hlast, hkey⟩ := h.buffered hbuf
      rw [Option.isSome_iff_ne_none, ne_eq, hnone]
      exact fun hall => hkey ((hl.get_eq_none hok hfirst hlast).mp (hall key hfirst hlast))
    · rw [hget, (hnewest hbuf).1] at hr
      exact isNegative_eq_false.mp (h.positive hbuf r hr).1
    · rw [hget, hget', (hnewest hbuf).1, (hnewest hbuf).2]
  refine ⟨results, whole, hres, hwhole, hsmall.agrees, fun opened => ?_⟩
  cases hbuf : d.segBuffer.queryBlock t.lba with
  | some data =>
    obtain ⟨m, rfl⟩ := Option.isSome_iff_exists.mp (hsmall.buffered (by rw [hbuf]; rfl))
    simp [readSmallBlock, Unwritten, hbuf]
  | none =>
    rw [readSmallBlock_of_disk hbuf, Option.map_eq_none_iff, hget, (hnewest hbuf).1]
    refine ⟨fun hnone => ⟨hbuf, fun r hr => ?_⟩, fun hun => ?_⟩
    · rw [hnone] at hr
      cases hr
    · by_contra hsome
      obtain ⟨r, hr⟩ := Option.ne_none_iff_exists'.mp hsome
      cases (h.positive hbuf r hr).1.symm.trans (hun.2 r hr)

theorem SmallReadsAgree.readable (hok : d.lsmTree.Ok) (h : d.SmallReadsAgree t) :
    d.SmallReadable t := by
  have hc := d.lsmTree.cachesOk_empty
  have hle := t.start_le
  obtain ⟨results, whole, hres, hwhole, hagrees, -⟩ := h _ _ hc hc
  obtain ⟨st, hl, hget, hnone⟩ := hok.rangeSearch_spec hc hle hres
  obtain ⟨st', hl', hget', -⟩ := hok.rangeSearch_spec hc le_rfl hwhole
  have hsmall := hagrees.ok
  refine ⟨fun hhit => ?_, fun hbuf => ?_, fun hbuf r hr => ?_⟩
  · cases ((hok.rangeSearch_eq_none hc hle).mpr hhit).symm.trans hres
  · by_contra hnot
    push Not at hnot
    refine Option.isSome_iff_ne_none.mp (hsmall.buffered hbuf) (hnone.mpr fun key hfirst hlast => ?_)
    exact (hl.get_eq_none hok hfirst hlast).mpr (hnot key hfirst hlast)
  · have hsome : st.results.get t.lba ≠ none :=
      mt (hl.get_eq_none hok hle le_rfl).mp (hr ▸ Option.some_ne_none r)
    obtain ⟨x, hx⟩ := Option.ne_none_iff_exists'.mp hsome
    rw [← hget] at hx
    have hpos := hsmall.positive hbuf x hx
    have hx' := (hsmall.same hbuf x hpos).mp hx
    rw [hget'] at hx'
    have htorn : ¬d.lsmTree.TornIn t.lba t.lba := by
      intro ht
      obtain ⟨-, n, -, hn, -, hneg⟩ := hl'.get_torn hok (fun _ => rfl) le_rfl le_rfl ht
      obtain rfl := Option.some.inj (hn.symm.trans hx')
      cases (isNegative_eq_false.mpr hpos).symm.trans hneg
    rw [hl'.get_eq hok le_rfl le_rfl htorn, hr] at hx'
    obtain rfl := Option.some.inj hx'
    exact ⟨isNegative_eq_false.mpr hpos, htorn⟩

/-- A formatted device, with a block in its segment buffer. -/
def pushed (block : Bytes) : Device Unit Bytes :=
  (format 10 4 1 () () fun _ => []).pushBlock 0 block true ()

end Device

end JinDisk
