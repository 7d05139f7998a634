import Logex.Bundle
import Logex.Lib.KeyedFold

/-!
# Tables read back

A table whose streams are well placed decodes to the streams and the parent it was encoded from, through the checks of
`decode_table`: identity, bounds, order, lengths and overlap. The record around it is undone by `decode_record`.
-/

namespace Logex

open Lib List StreamMap
open Parses (iterate lift reject take_of_length uint)

variable {m : StreamMap} {r : BundleReference} {start limit : Nat} {parent : Option BundleReference} {id : StreamId}
  {extents : List Extent} {n : Nat} {s : Stream}

/-! ## Entries of a map -/

theorem StreamMap.mem_entries : (id, s) ∈ m.entries ↔ m id = some s := by
  unfold StreamMap.entries
  rw [mem_filterMap]
  constructor
  · rintro ⟨id', _, h⟩
    obtain ⟨s', hs', heq⟩ := Option.map_eq_some_iff.mp h
    obtain ⟨rfl, rfl⟩ := Prod.mk.inj heq
    exact hs'
  · intro h
    exact ⟨id, mem_finRange id, by rw [h]; rfl⟩

theorem StreamMap.mem_keys : id ∈ m.entries.map Prod.fst ↔ m id ≠ none := by
  rw [mem_map]
  constructor
  · rintro ⟨⟨id', s⟩, hmem, rfl⟩
    rw [mem_entries.mp hmem]
    exact Option.some_ne_none s
  · intro h
    obtain ⟨s, hs⟩ := Option.ne_none_iff_exists'.mp h
    exact ⟨(id, s), mem_entries.mpr hs, rfl⟩

/-- Each key has one entry. -/
theorem StreamMap.keys_nodup (m : StreamMap) : (m.entries.map Prod.fst).Nodup := by
  have hk : m.entries.map Prod.fst = (List.finRange streamCount).filter fun id => (m id).isSome := by
    unfold StreamMap.entries
    induction List.finRange streamCount with
    | nil => rfl
    | cons id ids ih =>
      cases hm : m id with
      | none | some s => simp [hm, ih]
  rw [hk]
  exact (nodup_finRange streamCount).filter _

theorem StreamMap.length_entries_le (m : StreamMap) : m.entries.length ≤ streamCount := by
  have h := length_filterMap_le (fun id => (m id).map (id, ·)) (List.finRange streamCount)
  rwa [length_finRange] at h

/-- Inserting the entries of a map one by one rebuilds it. -/
theorem StreamMap.foldl_entries (m : StreamMap) :
    m.entries.foldl (fun (acc : StreamMap) e => Function.update acc e.1 (some e.2)) (fun _ => none) = m := by
  obtain ⟨m', hm', hset, hk⟩ := foldlM_update (ε := String) (fun acc e =>
    .ok (Function.update acc e.1 (some e.2))) (fun _ s => some s) m.entries (fun _ => none) m.keys_nodup
    (fun _ _ _ _ _ => rfl)
  have hf : m.entries.foldlM (m := Except String) (fun (acc : StreamMap) e =>
      pure (Function.update acc e.1 (some e.2))) (fun _ => none) = .ok m' := hm'
  rw [foldlM_pure] at hf
  have heq := Except.ok.inj hf
  rw [heq]
  funext id
  cases hid : m id with
  | none => exact hk id (fun h => mem_keys.mp h hid)
  | some s => exact hset id s (mem_entries.mpr hid)

/-! ## Well-placed streams -/

/-- The bytes a list of extents covers. -/
def extentBytes (extents : List Extent) : Nat := (extents.map Extent.len).sum

@[simp] theorem extentBytes_nil : extentBytes [] = 0 := rfl

@[simp] theorem extentBytes_cons (e : Extent) (extents : List Extent) :
    extentBytes (e :: extents) = e.len + extentBytes extents := by
  simp [extentBytes]

@[simp] theorem extentBytes_append (xs ys : List Extent) : extentBytes (xs ++ ys) = extentBytes xs + extentBytes ys := by
  simp [extentBytes]

/-- A stream as the writer builds it: an index stream is inline, any other is a sequence of extents in file order. -/
structure Stream.Ok (id : StreamId) (s : Stream) : Prop where
  size : s.len = extentBytes s.extents + s.inlined.length
  noExtents : inlineIndex id = true → s.extents = []
  noInline : inlineIndex id = false → s.inlined = []
  count : s.extents.length ≤ maxExtents
  index : s.inlined.length ≤ indexBytes
  fits : s.len ≤ u64Max
  ordered : s.extents.Pairwise fun a b => a.stop ≤ b.offset

/-- An extent inside a window of the file. -/
structure Extent.Within (start limit : Nat) (e : Extent) : Prop where
  lower : start ≤ e.offset
  nonempty : 0 < e.len
  bounded : e.len ≤ maxExtentBytes
  upper : e.stop ≤ limit
  checksum : e.checksum < 2 ^ 32

/-- Streams whose extents lie in a window of the file and do not overlap. -/
structure StreamMap.Ok (start limit : Nat) (m : StreamMap) : Prop where
  stream : ∀ id s, m id = some s → s.Ok id
  extent : ∀ id s, m id = some s → ∀ e ∈ s.extents, e.Within start limit
  disjoint : ∀ id id' s s', id ≠ id' → m id = some s → m id' = some s' →
    ∀ e ∈ s.extents, ∀ e' ∈ s'.extents, e.stop ≤ e'.offset ∨ e'.stop ≤ e.offset

/-! ## Extents -/

/-- The scan after one more extent. -/
def ExtentScan.push (scan : ExtentScan) (e : Extent) : ExtentScan :=
  { extents := scan.extents ++ [e], total := scan.total + e.len, previousEnd := e.stop }

theorem ExtentScan.foldl_push (extents : List Extent) (scan : ExtentScan) :
    (extents.foldl ExtentScan.push scan).extents = scan.extents ++ extents ∧
      (extents.foldl ExtentScan.push scan).total = scan.total + extentBytes extents := by
  induction extents generalizing scan with
  | nil => simp
  | cons e extents ih =>
    obtain ⟨h1, h2⟩ := ih (scan.push e)
    rw [foldl_cons, h1, h2]
    simp only [ExtentScan.push, extentBytes_cons, List.append_assoc, cons_append, nil_append]
    exact ⟨trivial, by omega⟩

/-- What the extent loop still has to read is admissible at its position. -/
def ExtentScan.Expects (limit : Nat) (scan : ExtentScan) (extents : List Extent) : Prop :=
  (∀ e ∈ extents, e.Within scan.previousEnd limit) ∧ extents.Pairwise (fun a b => a.stop ≤ b.offset) ∧
    scan.total + extentBytes extents ≤ u64Max

theorem parses_extent {limit : Nat} (hl : limit ≤ u64Max) (scan : ExtentScan) (e : Extent) (extents : List Extent)
    (h : scan.Expects limit (e :: extents)) :
    Parses (decodeExtent limit scan) (encodeExtent e) (scan.push e) ∧ (scan.push e).Expects limit extents := by
  obtain ⟨hwit, hord, ht⟩ := h
  have he := hwit e mem_cons_self
  have hu := he.upper
  have hbou := he.bounded
  simp only [Extent.stop] at hu
  simp only [maxExtentBytes] at hbou
  rw [extentBytes_cons] at ht
  have hoff : e.offset < 256 ^ 8 := by
    simp only [u64Max] at hl
    omega
  have hs : checkedAdd e.offset e.len = some e.stop := if_pos (by simp only [Extent.stop] at *; omega)
  have hsum : checkedAdd scan.total e.len = some (scan.total + e.len) := if_pos (by omega)
  constructor
  · unfold decodeExtent encodeExtent cursorU64 cursorU32
    refine Parses.bind (uint _ hoff) (Parses.bind (uint _ (by omega)) ?_)
    refine Parses.bind (uint _ (Nat.lt_of_lt_of_eq he.checksum (by decide))) ?_
    refine lift (okOr_eq_ok.mpr hs) (reject ?_ (lift (okOr_eq_ok.mpr hsum) (Parses.pure _)))
    have hlo := he.lower
    have hpos := he.nonempty
    simp only [maxExtentBytes, Extent.stop]
    omega
  · rw [pairwise_cons] at hord
    refine ⟨?_, hord.2, ?_⟩
    · intro e' he'
      have hw := hwit e' (mem_cons_of_mem e he')
      exact ⟨hord.1 e' he', hw.nonempty, hw.bounded, hw.upper, hw.checksum⟩
    · simp only [ExtentScan.push]
      omega

theorem length_encodeExtents (extents : List Extent) : (extents.flatMap encodeExtent).length = 16 * extents.length := by
  induction extents with
  | nil => rfl
  | cons e extents ih =>
    simp only [flatMap_cons, length_append, ih, encodeExtent, length_leBytes, length_cons]
    omega

/-- The extent loop reads back a stream's extents. -/
theorem parses_extents (hl : limit ≤ u64Max)
    (hwit : ∀ e ∈ extents, e.Within start limit) (hord : extents.Pairwise fun a b => a.stop ≤ b.offset)
    (hf : extentBytes extents ≤ u64Max) : ∃ scan, scan.extents = extents ∧ scan.total = extentBytes extents ∧
      Parses (Parser.iterate (decodeExtent limit) extents.length { previousEnd := start }) (extents.flatMap encodeExtent)
        scan := by
  have hir := iterate encodeExtent (ExtentScan.Expects limit) (parses_extent hl) extents
    { previousEnd := start } ⟨hwit, hord, by simpa using hf⟩
  obtain ⟨h1, h2⟩ := ExtentScan.foldl_push extents { previousEnd := start }
  exact ⟨_, by simpa using h1, by simpa using h2, hir⟩

/-! ## Streams -/

/-- The scan after one more stream. -/
def TableScan.push (scan : TableScan) (entry : StreamId × Stream) : TableScan :=
  { streams := Function.update scan.streams entry.1 (some entry.2), physical := scan.physical ++ entry.2.extents }

theorem decodeStreamId_encoded {str : StreamMap} (h : str id = none) :
    decodeStreamId str [UInt8.ofNat id, if inlineIndex id then 1 else 0, 0, 0] = .ok id := by
  have hlt : id.val < 256 := lt_trans id.isLt (by decide)
  have hval : (UInt8.ofNat id.val).toNat = id.val := by
    exact Nat.mod_eq_of_lt hlt
  simp only [decodeStreamId, hval, h, dif_pos id.isLt]
  exact rejectIf_bind.mpr ⟨by simp, rfl⟩

/-- An index stream reads back from the table itself. -/
theorem parses_inline (scan : TableScan) (hid : inlineIndex id = true) (hs : s.Ok id) :
    Parses (decodeInline id s.len s.extents.length scan) (s.inlined ++ s.extents.flatMap encodeExtent) (scan.push (id, s)) := by
  have hn := hs.noExtents hid
  have hlen : s.len = s.inlined.length := by rw [hs.size, hn, extentBytes_nil, Nat.zero_add]
  have hs' : s = { len := s.len, extents := [], inlined := s.inlined } := by
    rw [← hn]
  have hpush : scan.push (id, s) =
      { scan with streams := Function.update scan.streams id (some { len := s.len, inlined := s.inlined }) } := by
    rw [TableScan.push, hn, append_nil, ← hs']
  rw [hpush, hn]
  refine reject ?_ (Parses.bind (take_of_length hlen.symm) (Parses.pure _))
  have hin := hs.index
  simp only [length_nil]
  omega

/-- Any other stream reads back from its extents. -/
theorem parses_payload (scan : TableScan) (hl : limit ≤ u64Max)
    (hid : inlineIndex id = false) (hs : s.Ok id) (hwit : ∀ e ∈ s.extents, e.Within start limit) :
    Parses (decodeExtents start limit id s.len s.extents.length scan) (s.inlined ++ s.extents.flatMap encodeExtent)
      (scan.push (id, s)) := by
  have hn := hs.noInline hid
  have hlen : s.len = extentBytes s.extents := by rw [hs.size, hn, length_nil, Nat.add_zero]
  have hs' : s = { len := s.len, extents := s.extents, inlined := [] } := by
    rw [← hn]
  have hf := hs.fits
  rw [hlen] at hf
  obtain ⟨extents, hext, ht, hpar⟩ := parses_extents hl hwit hs.ordered hf
  have hpush : scan.push (id, s) = { streams := Function.update scan.streams id (some { len := s.len, extents := extents.extents })
                                     physical := scan.physical ++ extents.extents } := by
    rw [hext, TableScan.push, ← hs']
  rw [hn, nil_append]
  refine reject (Nat.not_lt.mpr hs.count) (Parses.need (Nat.le_of_eq (length_encodeExtents _).symm) ?_)
  rw [← append_nil (s.extents.flatMap encodeExtent)]
  refine Parses.bind hpar (reject (fun hne => hne (ht.trans hlen.symm)) ?_)
  rw [hpush]
  exact Parses.pure _

/-- What the stream loop still has to read is admissible and new to it. -/
def TableScan.Expects (start limit : Nat) (scan : TableScan) (entries : List (StreamId × Stream)) : Prop :=
  (entries.map Prod.fst).Nodup ∧ ∀ id s, (id, s) ∈ entries →
    scan.streams id = none ∧ s.Ok id ∧ ∀ e ∈ s.extents, e.Within start limit

theorem parses_stream (hl : limit ≤ u64Max) (scan : TableScan) (e : StreamId × Stream)
    (es : List (StreamId × Stream)) (h : scan.Expects start limit (e :: es)) :
    Parses (decodeStream start limit scan) (encodeStream e) (scan.push e) ∧
      (scan.push e).Expects start limit es := by
  obtain ⟨id, s⟩ := e
  obtain ⟨hn, hok⟩ := h
  obtain ⟨hnew, hs, hwit⟩ := hok id s mem_cons_self
  rw [map_cons, nodup_cons] at hn
  have hlen : s.len < 256 ^ 8 := lt_of_le_of_lt hs.fits (by decide)
  have hc : s.extents.length < 256 ^ 4 := lt_of_le_of_lt hs.count (by decide)
  constructor
  · unfold decodeStream encodeStream cursorTake cursorU64 cursorU32
    refine Parses.bind (take_of_length rfl) (lift (decodeStreamId_encoded hnew) ?_)
    refine Parses.bind (uint _ hlen) (Parses.bind (uint _ hc) ?_)
    cases hid : inlineIndex id with
    | true => exact parses_inline scan hid hs
    | false => exact parses_payload scan hl hid hs hwit
  · refine ⟨hn.2, ?_⟩
    intro id' s' hmem
    obtain ⟨hnew', hs', hwit'⟩ := hok id' s' (mem_cons_of_mem _ hmem)
    refine ⟨?_, hs', hwit'⟩
    have hne : id' ≠ id := by
      rintro rfl
      exact hn.1 (mem_map.mpr ⟨_, hmem, rfl⟩)
    simp only [TableScan.push]
    rw [Function.update_of_ne hne]
    exact hnew'

theorem TableScan.foldl_push (es : List (StreamId × Stream)) (scan : TableScan) : (es.foldl TableScan.push scan).streams =
        es.foldl (fun (acc : StreamMap) e => Function.update acc e.1 (some e.2)) scan.streams ∧
      (es.foldl TableScan.push scan).physical = scan.physical ++ es.flatMap fun e => e.2.extents := by
  induction es generalizing scan with
  | nil => simp
  | cons e es ih =>
    obtain ⟨h1, h2⟩ := ih (scan.push e)
    rw [foldl_cons, h1, h2]
    simp [TableScan.push]

/-- The extents of all streams, in key order. -/
def StreamMap.physical (m : StreamMap) : List Extent := m.entries.flatMap fun entry => entry.2.extents

/-- The stream loop reads back a well-placed map. -/
theorem parses_streams (hl : limit ≤ u64Max) (hm : m.Ok start limit) :
    Parses (Parser.iterate (decodeStream start limit) m.entries.length {}) (m.entries.flatMap encodeStream)
      { streams := m, physical := m.physical } := by
  have hexp : TableScan.Expects start limit {} m.entries := by
    refine ⟨m.keys_nodup, ?_⟩
    intro id s hmem
    have hid := mem_entries.mp hmem
    exact ⟨rfl, hm.stream id s hid, hm.extent id s hid⟩
  have hir := iterate encodeStream (TableScan.Expects start limit) (parses_stream hl) m.entries {}
    hexp
  obtain ⟨h1, h2⟩ := TableScan.foldl_push m.entries {}
  have hs : m.entries.foldl TableScan.push {} = { streams := m, physical := m.physical } := by
    rw [foldl_entries] at h1
    rw [TableScan.mk.injEq]
    exact ⟨h1, h2⟩
  rwa [hs] at hir

/-! ## Overlap -/

theorem overlaps_eq_false (h : extents.Pairwise fun a b => a.stop ≤ b.offset) : overlaps extents = false := by
  induction extents with
  | nil => rfl
  | cons a rest ih =>
    rw [pairwise_cons] at h
    cases rest with
    | nil => rfl
    | cons b rest =>
      have hab := h.1 b mem_cons_self
      rw [overlaps, ih h.2, Bool.or_false]
      exact decide_eq_false (not_lt.mpr hab)

/-- Ranges that are pairwise apart pass the overlap check in whatever order they were read. -/
theorem sorted_apart (hpos : ∀ e ∈ extents, 0 < e.len) (h : extents.Pairwise fun a b => a.stop ≤ b.offset ∨ b.stop ≤ a.offset) :
    overlaps (extents.insertionSort fun a b => a.offset ≤ b.offset) = false := by
  have hp := perm_insertionSort (fun a b : Extent => a.offset ≤ b.offset) extents
  have hsrt := pairwise_insertionSort (fun a b : Extent => a.offset ≤ b.offset) extents
  have hap := (List.Perm.pairwise_iff (fun {a b} hab => hab.symm) hp).mpr h
  apply overlaps_eq_false
  refine List.Pairwise.imp_of_mem ?_ (hsrt.and hap)
  intro a b ha hb hab
  have hb0 := hpos b (hp.mem_iff.mp hb)
  simp only [Extent.stop] at hab ⊢
  omega

theorem StreamMap.Ok.apart (hm : m.Ok start limit) :
    overlaps (m.physical.insertionSort fun a b => a.offset ≤ b.offset) = false := by
  apply sorted_apart
  · intro e he
    obtain ⟨⟨id, s⟩, hmem, he⟩ := mem_flatMap.mp he
    exact (hm.extent id s (mem_entries.mp hmem) e he).nonempty
  · unfold StreamMap.physical
    rw [pairwise_flatMap]
    constructor
    · rintro ⟨id, s⟩ hmem
      exact (hm.stream id s (mem_entries.mp hmem)).ordered.imp Or.inl
    · have hk := m.keys_nodup
      rw [List.Nodup, pairwise_map] at hk
      refine List.Pairwise.imp_of_mem ?_ hk
      rintro ⟨id, s⟩ ⟨id', s'⟩ hmem hmem' hne e he e' he'
      exact hm.disjoint id id' s s' hne (mem_entries.mp hmem) (mem_entries.mp hmem') e he e' he'

/-! ## References -/

/-- What `BundleReference::end` checks. -/
structure BundleReference.Bounded (r : BundleReference) : Prop where
  sequence : r.sequence ≠ 0
  rowCount : r.rowCount ≤ maxRows
  tableOffset : fileMagic.length ≤ r.tableOffset
  tableLen : r.tableLen ≤ maxTableBytes + 5
  depth : r.depth ≠ 0 ∧ r.depth ≤ maxTableDepth ∧ r.depth = tableDepth r.sequence
  chainBytes : 32 ≤ r.chainBytes ∧ r.chainBytes ≤ maxTableBytes
  fits : r.tableOffset + r.tableLen ≤ u64Max

theorem BundleReference.stop_facts (h : r.stop = .ok n) : n = r.tableOffset + r.tableLen ∧ r.Bounded := by
  obtain ⟨hc, hadd⟩ := rejectIf_bind.mp h
  rw [okOr_eq_ok, checkedAdd] at hadd
  simp only [not_or, not_lt, ne_eq, not_not] at hc
  obtain ⟨h1, h2, h3, _, h5, h6, h7, h8, h9, h10⟩ := hc
  split at hadd
  · next hle => exact ⟨(Option.some.inj hadd).symm, ⟨h1, h2, h3, h5, ⟨h6, h7, h8⟩, ⟨h9, h10⟩, hle⟩⟩
  · cases hadd

theorem parses_reference (h : r.Bounded) (hsee : r.sequence ≤ u64Max)
    (hche : r.checksum < 2 ^ 32) : Parses decodeReference (encodeReference r) r := by
  have hoff : r.tableOffset < 256 ^ 8 :=
    lt_of_le_of_lt (le_trans (Nat.le_add_right _ _) h.fits) (by decide)
  have hlen : r.tableLen < 256 ^ 4 := lt_of_le_of_lt h.tableLen (by decide)
  have hr : r.rowCount < 256 ^ 8 := lt_of_le_of_lt h.rowCount (by decide)
  have hd : r.depth < 256 ^ 4 := lt_of_le_of_lt h.depth.2.1 (by decide)
  have hc : r.chainBytes < 256 ^ 4 := lt_of_le_of_lt h.chainBytes.2 (by decide)
  have hseq : r.sequence < 256 ^ 8 := lt_of_le_of_lt hsee (by decide)
  refine Parses.bind (uint _ hoff) (Parses.bind (uint _ hlen) ?_)
  refine Parses.bind (uint _ (Nat.lt_of_lt_of_eq hche (by decide))) (Parses.bind (uint _ hr) ?_)
  refine Parses.bind (uint _ hd) (Parses.bind (uint _ hc) ?_)
  exact Parses.bind (uint _ hseq) (Parses.pure _)

/-! ## Tables -/

/-- The first byte after the parent's table, where the payload of a table starts. -/
def payloadStart : Option BundleReference → Nat
  | none => fileMagic.length
  | some parent => parent.tableOffset + parent.tableLen

/-- A reference and the parent named by its table of `n` decoded bytes belong together. -/
def Linked (r : BundleReference) (n : Nat) : Option BundleReference → Prop
  | none => r.depth = 1 ∧ r.chainBytes = n ∧ tableSpan r.sequence = r.sequence
  | some parent =>
    parent.stop = .ok (parent.tableOffset + parent.tableLen) ∧ parent.tableOffset + parent.tableLen ≤ r.tableOffset ∧
      parent.rowCount ≤ r.rowCount ∧ parent.sequence + tableSpan r.sequence = r.sequence ∧ parent.depth + 1 = r.depth ∧
      parent.chainBytes + n = r.chainBytes ∧ parent.checksum < 2 ^ 32

theorem parses_parent {r parent : BundleReference} (hseq : r.sequence ≤ u64Max)
    (h : Linked r n (some parent)) : Parses (decodeParent r n) (encodeReference parent) parent := by
  obtain ⟨hs, hbef, hr, hsp, hd, hc, hche⟩ := h
  have hbou := (BundleReference.stop_facts hs).2
  have hadd : checkedAdd parent.sequence (tableSpan r.sequence) = some r.sequence := by
    rw [checkedAdd, hsp, if_pos hseq]
  rw [← append_nil (encodeReference parent)]
  refine Parses.bind (parses_reference hbou (by omega) hche) (lift hs (reject ?_ (Parses.pure _)))
  simp only [not_or, not_lt, ne_eq, not_not]
  exact ⟨hbef, hr, hadd, hd, hc⟩

theorem parses_tableBody (hr : r.rowCount ≤ maxRows) (hseq : r.sequence ≤ u64Max) (hoff : r.tableOffset ≤ u64Max)
    (hl : Linked r n parent) (hm : m.Ok (payloadStart parent) r.tableOffset) :
    Parses (decodeTableBody r n) (encodeTableBytes r.rowCount r.sequence m parent)
      ({ streams := m, physical := m.physical }, parent) := by
  have hc : m.entries.length < 256 ^ 4 := lt_of_le_of_lt m.length_entries_le (by decide)
  have hs := parses_streams hoff hm
  refine Parses.bind (take_of_length rfl) (reject (by simp) ?_)
  refine Parses.bind (uint _ (lt_of_le_of_lt hr (by decide))) (reject (by simp) ?_)
  refine Parses.bind (uint _ (lt_of_le_of_lt hseq (by decide))) (reject (by simp) ?_)
  have hle := m.length_entries_le
  cases parent with
  | none =>
    refine Parses.bind (uint _ hc) (Parses.bind (uint _ (by decide)) (reject ?_ ?_))
    · simp only [Option.isSome_none, Bool.false_eq_true, if_false]
      omega
    · refine reject ?_ ?_
      · simp only [not_or, ne_eq, not_not]
        exact hl
      · simp only [Option.map_none, Option.getD_none, nil_append]
        rw [← append_nil (m.entries.flatMap encodeStream)]
        exact Parses.bind hs (Parses.pure _)
  | some parent =>
    refine Parses.bind (uint _ hc) (Parses.bind (uint _ (by simp)) (reject ?_ ?_))
    · simp only [Option.isSome_some, if_true]
      omega
    · refine Parses.bind (parses_parent hseq hl) (lift hl.1 ?_)
      rw [← append_nil (m.entries.flatMap encodeStream)]
      exact Parses.bind hs (Parses.pure _)

/-- A table decodes to the streams and the parent it was encoded from. -/
theorem decodeTable_encoded (hmax : (encodeTableBytes r.rowCount r.sequence m parent).length ≤ maxTableBytes)
    (hr : r.rowCount ≤ maxRows) (hseq : r.sequence ≤ u64Max) (hoff : r.tableOffset ≤ u64Max)
    (hl : Linked r (encodeTableBytes r.rowCount r.sequence m parent).length parent)
    (hm : m.Ok (payloadStart parent) r.tableOffset) :
    decodeTable (encodeTableBytes r.rowCount r.sequence m parent) r = .ok (m, parent) := by
  have hb := (parses_tableBody hr hseq hoff hl hm).run
  have hleh : (encodeTableBytes r.rowCount r.sequence m parent).length % 2 ^ 32 =
      (encodeTableBytes r.rowCount r.sequence m parent).length := Nat.mod_eq_of_lt (lt_of_le_of_lt hmax (by decide))
  unfold decodeTable
  rw [hleh, bind_eq_ok]
  refine ⟨_, hb, ?_⟩
  exact rejectIf_bind.mpr ⟨by simp, rejectIf_bind.mpr ⟨by simp [hm.apart], rfl⟩⟩

/-! ## Records -/

theorem length_encodeTableBytes (rows seq : Nat) (m : StreamMap) (parent : Option BundleReference) :
    32 ≤ (encodeTableBytes rows seq m parent).length := by
  simp only [encodeTableBytes, length_append, length_leBytes, tableMagic, length_cons, length_nil]
  omega

theorem parses_recordHeader (kind : UInt8) (h : n < 256 ^ 4) : Parses (do
      let kind ← cursorTake 1
      let len ← cursorU32
      return (kind, len) : Parser String (Bytes × Nat)) ([kind] ++ leBytes 4 n) ([kind], n) := by
  refine Parses.bind (take_of_length rfl) ?_
  exact Parses.bind (uint _ h) (Parses.pure _)

variable (c : BundleCodec)

/-- A record decodes to the table it was encoded from, whichever codec was chosen. -/
theorem decodeRecord_encoded {bs : Bytes} {bud : Nat} (hmin : 32 ≤ bs.length)
    (hmax : bs.length ≤ maxTableBytes) (hbud : bs.length ≤ bud) : decodeRecord c (encodeRecord c bs) bud = .ok bs := by
  have hlen : bs.length < 256 ^ 4 := lt_of_le_of_lt hmax (by decide)
  unfold decodeRecord encodeRecord
  rw [bind_eq_ok]
  refine ⟨_, parses_recordHeader _ hlen _, rejectIf_bind.mpr ⟨by simp only; omega, ?_⟩⟩
  by_cases hs : (c.compress bs).length < bs.length
  · simp only [if_pos hs, decodePayload]
    rw [if_neg (by simp), if_pos ⟨trivial, hs⟩, c.decompressInto_compress]
    exact rejectIf_bind.mpr ⟨by simp, rfl⟩
  · simp only [if_neg hs, decodePayload]
    rw [if_pos ⟨trivial, trivial⟩]

theorem length_encodeRecord (bs : Bytes) : (encodeRecord c bs).length ≤ bs.length + 5 := by
  simp only [encodeRecord, length_append, length_cons, length_nil, length_leBytes]
  split <;> simp only <;> omega

/-- Reading at the end of a prefix of the file. -/
theorem readExact_append (bef bs after : Bytes) : readExact (bef ++ bs ++ after) bef.length bs.length = .ok bs := by
  refine rejectIf_bind.mpr ⟨?_, ?_⟩
  · simp only [length_append]
    omega
  · simp [pure, Except.pure]

/-- The table a reference was returned for is found where the reference says, whatever the file holds after it. -/
theorem tableAt_encoded {bef after : Bytes} (hoff : r.tableOffset = bef.length)
    (hlen : r.tableLen = (encodeRecord c (encodeTableBytes r.rowCount r.sequence m parent)).length)
    (hche : r.checksum = (c.crc32 (encodeRecord c (encodeTableBytes r.rowCount r.sequence m parent))).toNat)
    (hmax : (encodeTableBytes r.rowCount r.sequence m parent).length ≤ maxTableBytes)
    (hc : (encodeTableBytes r.rowCount r.sequence m parent).length ≤ r.chainBytes)
    (hr : r.rowCount ≤ maxRows) (hseq : r.sequence ≤ u64Max) (hf : r.tableOffset ≤ u64Max)
    (hl : Linked r (encodeTableBytes r.rowCount r.sequence m parent).length parent)
    (hm : m.Ok (payloadStart parent) r.tableOffset) :
    tableAt c (bef ++ encodeRecord c (encodeTableBytes r.rowCount r.sequence m parent) ++ after) r = .ok (m, parent) := by
  unfold tableAt
  rw [bind_eq_ok]
  refine ⟨encodeRecord c (encodeTableBytes r.rowCount r.sequence m parent), ?_, ?_⟩
  · rw [hoff, hlen]
    exact readExact_append _ _ _
  · refine rejectIf_bind.mpr ⟨by simp [hche], bind_eq_ok.mpr ⟨encodeTableBytes r.rowCount r.sequence m parent, ?_, ?_⟩⟩
    · exact decodeRecord_encoded c (length_encodeTableBytes _ _ _ _) hmax hc
    · exact decodeTable_encoded hmax hr hseq hf hl hm

end Logex
