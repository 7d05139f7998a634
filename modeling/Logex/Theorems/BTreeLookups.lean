import Logex.Lemmas.BTreeFile

/-!
# Lookups in an index file equal the map that was written

Every reader of a written file answers with the rows inserted under a key, or under the keys of a range: the full reader, the point
lookup with its route for small files, and the range lookup, whichever of them decode through the query decoder.
-/

namespace Logex

open Lib List

variable {start stop : Bytes}

namespace LookupAux

open BTreeIndexReader

variable {index : BTreeIndex} {file : IndexFile} {key : Bytes}

/-- The route for one small entry is taken only for the key of that entry. -/
theorem hint_spec (h : Written index file) (hh : singleEntryBulkRouteHint file key = true) :
    ∃ bm, index.entries = [(key, bm)] := by
  unfold singleEntryBulkRouteHint at hh
  split at hh
  · nomatch hh
  next page hp =>
  unfold IndexFile.pendingUnverifiedPrefix at hp
  split at hp
  case isFalse => nomatch hp
  case isTrue hl =>
  cases hp
  have hpa : IndexHeader.parse (file.data.take 4096) = .ok index.header := by
    refine h.parse_eq ⟨(tableBytes index.tableStop index.entries ++ index.entries.flatMap fun e => e.2.serializeInto).take 4076, ?_⟩
    rw [h.data_eq, take_append, index.length_headerBytes, take_of_length_le (by rw [index.length_headerBytes]; omega)]
  rw [hpa] at hh
  dsimp only at hh
  split at hh
  · nomatch hh
  next hsin =>
  simp only [not_or, not_not] at hsin
  obtain ⟨-, hc, hw⟩ := hsin
  split at hh
  case h_2 => nomatch hh
  case h_1 stop hgeo hs =>
  obtain ⟨rfl, -, -⟩ := tableEnd_eq_ok.mp hs
  split at hh
  · nomatch hh
  next hp =>
  have hkey := (of_decide_eq_true hh).1
  obtain ⟨e, hen⟩ := length_eq_one_iff.mp (show index.entries.length = 1 from hc)
  have hf : (file.data.drop 20).take index.keySize = e.1 := by
    rw [h.data_entry (show index.entries = [] ++ e :: [] from hen), tableBytes, append_nil,
      drop_left' index.length_headerBytes, take_left' (h.widths e (by simp [hen]))]
  refine ⟨e.2, ?_⟩
  rw [hen]
  refine congrArg (fun first => [(first, e.2)]) ?_
  rw [← hf, ← hkey]
  simp only [BTreeIndex.header, indexHeaderLen, take_take, drop_take, length_take] at hp ⊢
  congr 1
  omega

/-- What a point lookup returns: the entry of the key, if there is one. -/
def Found (index : BTreeIndex) (key : Bytes) (result : Option RoaringBitmap) : Prop :=
  ∀ bitmap, result = some bitmap ↔ (key, bitmap) ∈ index.entries

theorem found_get (index : BTreeIndex) (key : Bytes) : Found index key (BTreeIndexReader.get ⟨index.keySize, index.entries⟩ key) :=
  fun _ => find_entry index.sorted

theorem found_some {bm : RoaringBitmap} (h : (key, bm) ∈ index.entries) : Found index key (some bm) := by
  intro other
  rw [Option.some_inj]
  constructor
  · rintro rfl
    exact h
  · intro hot
    have heq := (find_entry index.sorted).mpr h
    rw [(find_entry index.sorted).mpr hot] at heq
    exact (Option.some.inj heq).symm

theorem found_none (h : ∀ bm, (key, bm) ∉ index.entries) : Found index key none :=
  fun bm => ⟨nofun, fun hmem => absurd hmem (h bm)⟩

theorem validateLookupKey_eq (hkey : key.length = index.keySize) : validateLookupKey index.header key = .ok () :=
  rejectIf_eq_ok.mpr (not_not.mpr hkey)

section

variable (h : Written index file)

include h

/-- The header is read and the key admitted; a protected file of the current version is searched. -/
theorem searched_found {decode : Bytes → Except String RoaringBitmap} {whole : IndexHeader → Except String (Option RoaringBitmap)}
    (hdec : ∀ bitmap, decode bitmap.serializeInto = .ok bitmap) (hkey : key.length = index.keySize) : ∃ res, (do
      let header ← readHeader file
      validateLookupKey header key
      if file.isProtected = false ∨ header.version = 1 then whole header
      else match ← findPointPayload file header key with
        | none => return none
        | some (offset, length) => do
          let bitmap ← decode (← file.readAt offset length)
          return some bitmap) = .ok res ∧ Found index key res := by
  rcases h.findPointPayload_eq key with ⟨i, bitmap, hey, hf⟩ | ⟨hn, hf⟩
  · refine ⟨some bitmap, bind_eq_ok.mpr ⟨_, h.readHeader_eq, bind_eq_ok.mpr ⟨_, validateLookupKey_eq hkey, ?_⟩⟩,
      found_some (mem_of_getElem? hey)⟩
    rw [if_neg (by simp [h.isProtected, BTreeIndex.header])]
    have hpay := h.readPayload_at hey
    refine bind_eq_ok.mpr ⟨_, hf, ?_⟩
    refine bind_eq_ok.mpr ⟨_, hpay, ?_⟩
    exact bind_eq_ok.mpr ⟨_, hdec bitmap, rfl⟩
  · refine ⟨none, bind_eq_ok.mpr ⟨_, h.readHeader_eq, bind_eq_ok.mpr ⟨_, validateLookupKey_eq hkey, ?_⟩⟩, found_none hn⟩
    rw [if_neg (by simp [h.isProtected, BTreeIndex.header])]
    rw [hf]
    rfl

variable (c : RoaringCodec)

theorem getFromIndexFile_found (hkey : key.length = index.keySize) :
    ∃ res, getFromIndexFile c file key = .ok res ∧ Found index key res := by
  unfold getFromIndexFile
  by_cases hh : singleEntryBulkRouteHint file key = true
  · obtain ⟨bitmap, hen⟩ := hint_spec h hh
    have hop := h.openData_eq c
    rw [hen] at hop
    rw [if_pos hh]
    refine ⟨some bitmap, bind_eq_ok.mpr ⟨_, hop, rejectIf_bind.mpr ⟨?_, ?_⟩⟩, found_some (by simp [hen])⟩
    · rintro (hne | hne)
      · exact hne hkey.symm
      · exact hne rfl
    · exact rejectIf_bind.mpr ⟨not_not.mpr rfl, rfl⟩
  · rw [if_neg hh]
    exact searched_found h (decodeBitmap_serializeInto c) hkey

theorem getFromIndexFileWithMemory_found (hkey : key.length = index.keySize) :
    ∃ res, getFromIndexFileWithMemory c file key = .ok res ∧ Found index key res := by
  unfold getFromIndexFileWithMemory
  by_cases hh : singleEntryBulkRouteHint file key = true
  · obtain ⟨bitmap, hen⟩ := hint_spec h hh
    have hdec := h.decodeEntries_eq c.prepareDeserialize_serializeInto
    rw [hen] at hdec
    rw [if_pos hh]
    have hone : index.header.entryCount = 1 := by rw [BTreeIndex.header, hen, length_singleton]
    refine ⟨some bitmap, bind_eq_ok.mpr ⟨_, h.new_eq, bind_eq_ok.mpr ⟨_, validateLookupKey_eq hkey, rejectIf_bind.mpr
      ⟨fun hne => hne.2 hone, bind_eq_ok.mpr ⟨_, hdec, ?_⟩⟩⟩⟩, found_some (by simp [hen])⟩
    simp
    rfl
  · rw [if_neg hh]
    exact searched_found h c.prepareDeserialize_serializeInto hkey

theorem rangeFromIndexFileWithMemory_eq (inc : Bool)
    (hs : start.length = index.keySize) (hst : stop.length = index.keySize) : rangeFromIndexFileWithMemory c file start stop inc =
      .ok (unionAll ((index.entries.filter fun e => inRange start stop inc e.1).map Prod.snd)) := by
  refine bind_eq_ok.mpr ⟨_, h.readHeader_eq, bind_eq_ok.mpr ⟨_, validateLookupKey_eq hs, bind_eq_ok.mpr
    ⟨_, validateLookupKey_eq hst, ?_⟩⟩⟩
  rw [if_neg (by simp [h.isProtected, BTreeIndex.header])]
  exact h.searchRange_eq c start stop inc

omit h in
/-- The bound or key of another width is refused before the table is searched. -/
theorem validateLookupKey_eq_error (hkey : key.length ≠ index.keySize) :
    validateLookupKey index.header key = .error s!"lookup key has length {key.length}, expected {index.keySize}" :=
  if_pos hkey

theorem getFromIndexFile_refuses (hkey : key.length ≠ index.keySize) :
    getFromIndexFile c file key = .error s!"lookup key has length {key.length}, expected {index.keySize}" ∧
      getFromIndexFileWithMemory c file key = .error s!"lookup key has length {key.length}, expected {index.keySize}" := by
  have hh : ¬singleEntryBulkRouteHint file key = true := by
    intro hh
    obtain ⟨bm, hen⟩ := hint_spec h hh
    exact hkey (h.widths (key, bm) (by simp [hen]))
  constructor
  · rw [getFromIndexFile, if_neg hh, h.readHeader_eq]
    simp [bind, Except.bind, validateLookupKey_eq_error hkey]
  · rw [getFromIndexFileWithMemory, if_neg hh, h.readHeader_eq]
    simp [bind, Except.bind, validateLookupKey_eq_error hkey]

end

theorem mem_range {row : UInt32} : row ∈ BTreeIndexReader.range ⟨index.keySize, index.entries⟩ start stop ↔
    ∃ key, start ≤ key ∧ key < stop ∧ Holding index.entries key row := by
  unfold BTreeIndexReader.range
  split
  · next hle =>
    refine iff_of_false (RoaringBitmap.not_mem_new row) ?_
    rintro ⟨key, hs, hst, -⟩
    exact absurd (lt_of_le_of_lt hs hst) (not_lt.mpr hle)
  · next hlt =>
    dsimp only
    rw [drop_take_eq_filter index.sorted (below_lt start) (below_lt stop) fun key hkey =>
      decide_eq_true (lt_trans (of_decide_eq_true hkey) (not_le.mp hlt)),
      mem_unionAll_filter fun key => !decide (key < start) && decide (key < stop)]
    simp [and_assoc]

theorem mem_rangeInclusive {row : UInt32} : row ∈ BTreeIndexReader.rangeInclusive ⟨index.keySize, index.entries⟩ start stop ↔
      ∃ key, start ≤ key ∧ key ≤ stop ∧ Holding index.entries key row := by
  unfold BTreeIndexReader.rangeInclusive
  split
  · next hlt =>
    refine iff_of_false (RoaringBitmap.not_mem_new row) ?_
    rintro ⟨key, hs, hst, -⟩
    exact absurd (le_trans hs hst) (not_le.mpr hlt)
  · next hle =>
    dsimp only
    rw [drop_take_eq_filter index.sorted (below_lt start) (below_le stop) fun key hkey =>
      decide_eq_true (le_of_lt (lt_of_lt_of_le (of_decide_eq_true hkey) (not_lt.mp hle))),
      mem_unionAll_filter fun key => !decide (key < start) && decide (key ≤ stop)]
    simp [and_assoc]

end LookupAux

open LookupAux in
/-- After any insertions, whatever is written answers every lookup with the rows inserted under the key or under a key in the bounds. The
keys of a file lookup have the width of the index; bounds may be anything, equal or inverted. -/
theorem btree_lookups_equal_map (codec : RoaringCodec) (keySize : Nat) (insertions : List (Bytes × UInt32)) (fileId : FixedBytes 16)
    (file : IndexFile) (hwrite : (BTreeIndex.build keySize insertions).writeToFile fileId = .ok file) :
    (∃ reader, BTreeIndexReader.openFile codec file = .ok reader ∧
      (∀ key, rowsOf (reader.get key) = {row | (key, row) ∈ insertions}) ∧
      (∀ start stop row, row ∈ reader.range start stop ↔ ∃ key, start ≤ key ∧ key < stop ∧ (key, row) ∈ insertions) ∧
      ∀ start stop row, row ∈ reader.rangeInclusive start stop ↔ ∃ key, start ≤ key ∧ key ≤ stop ∧ (key, row) ∈ insertions) ∧
    (∀ key : Bytes, key.length = keySize →
      (∃ result, BTreeIndexReader.getFromIndexFile codec file key = .ok result ∧ rowsOf result = {row | (key, row) ∈ insertions}) ∧
      ∃ result, BTreeIndexReader.getFromIndexFileWithMemory codec file key = .ok result ∧
        rowsOf result = {row | (key, row) ∈ insertions}) ∧
    (∀ key : Bytes, key.length ≠ keySize →
      BTreeIndexReader.getFromIndexFile codec file key = .error s!"lookup key has length {key.length}, expected {keySize}" ∧
      BTreeIndexReader.getFromIndexFileWithMemory codec file key =
        .error s!"lookup key has length {key.length}, expected {keySize}") ∧
    ∀ (start stop : Bytes) (inclusive : Bool), start.length = keySize → stop.length = keySize →
      ∃ bitmap, BTreeIndexReader.rangeFromIndexFileWithMemory codec file start stop inclusive = .ok bitmap ∧
        ∀ row, row ∈ bitmap ↔ ∃ key, start ≤ key ∧ (key < stop ∨ inclusive = true ∧ key = stop) ∧ (key, row) ∈ insertions := by
  have h := writeToFile_written hwrite
  have hs := BTreeIndex.keySize_build keySize insertions
  have hr : ∀ {key result}, Found (BTreeIndex.build keySize insertions) key result → rowsOf result = {row | (key, row) ∈ insertions} := by
    intro key result hf
    rw [rowsOf_find hf]
    exact Set.ext fun row => BTreeIndex.holding_build
  refine ⟨⟨_, h.openData_eq codec, fun key => hr (found_get _ key), fun start stop row => ?_, fun start stop row => ?_⟩, ?_, ?_, ?_⟩
  · rw [LookupAux.mem_range]
    simp [BTreeIndex.holding_build]
  · rw [mem_rangeInclusive]
    simp [BTreeIndex.holding_build]
  · intro key hkey
    obtain ⟨result, hget, hf⟩ := getFromIndexFile_found h codec (hkey.trans hs.symm)
    obtain ⟨result', hget', hf'⟩ := getFromIndexFileWithMemory_found h codec (hkey.trans hs.symm)
    exact ⟨⟨result, hget, hr hf⟩, result', hget', hr hf'⟩
  · intro key hkey
    have href := getFromIndexFile_refuses h codec (hs.symm ▸ hkey)
    rwa [hs] at href
  · intro start stop inclusive hst hsp
    refine ⟨_, rangeFromIndexFileWithMemory_eq h codec inclusive (hst.trans hs.symm) (hsp.trans hs.symm), fun row => ?_⟩
    rw [mem_unionAll_filter]
    simp [BTreeIndex.holding_build, BTreeIndexReader.inRange, and_assoc]

namespace LookupWitness

def insertions : List (Bytes × UInt32) := [([255, 255], 7), ([1, 2], 3), ([255, 255], 4294967295), ([1, 2], 3)]

def file : Except String IndexFile := (BTreeIndex.build 2 insertions).writeToFile 9

end LookupWitness

open LookupWitness in
/-- Two keys, one of them the greatest of its width, in a file the theorem speaks about. -/
theorem btree_lookups_of_two_keys : ∃ written, file = .ok written ∧
    ∃ result, BTreeIndexReader.getFromIndexFile portableCodec written [255, 255] = .ok result ∧
      rowsOf result = {row | (([255, 255] : Bytes), row) ∈ insertions} := by
  have hf : ∃ written, file = .ok written := by
    cases hc : file with
    | ok written => exact ⟨written, rfl⟩
    | error error =>
      have hok : file.isOk = true := by decide +kernel
      rw [hc] at hok
      nomatch hok
  obtain ⟨written, hwri⟩ := hf
  exact ⟨written, hwri, ((btree_lookups_equal_map portableCodec 2 insertions 9 written hwri).2.1 [255, 255] rfl).1⟩

end Logex
