import Logex.Lemmas.VarPages
import Logex.Page.Columns

/-!
# Sizes of encoded pages

How long a page of each column can be. A page of at most `maxPageRows` rows fits into one extent in every column but the variable
data, whose page is bounded by what the compressor needs in the worst case. An encoder fails only where the compressor does.
-/

namespace Logex.Page

open Lib BorrowedVarBytes List FixedBytes

variable {raw : Bytes} {is : Nat} {w : Nat} {compressBound : Nat → Nat}

/-- The compressor keeps to its documented worst case, which holds the input, never falls with it and leaves room in an extent for
the page of a four-byte column. -/
structure PageCodecs.WithinBound (codecs : PageCodecs) (compressBound : Nat → Nat) : Prop where
  bounds : ∀ raw compressed, codecs.zstdEncodeAll raw = some compressed → compressed.length ≤ compressBound raw.length
  holds : ∀ size, size ≤ compressBound size
  mono : ∀ {m n}, m ≤ n → compressBound m ≤ compressBound n
  page : compressBound (4 * maxPageRows) ≤ maxExtentBytes

section

variable {codecs : PageCodecs} {rows : List LogRow} {page : Bytes}

theorem zstdCompress_length (hb : codecs.WithinBound compressBound) (h : zstdCompress codecs raw = .ok page) :
    page.length ≤ compressBound raw.length :=
  hb.bounds raw page (zstdCompress_eq_ok.mp h)

/-! ## Fixed-width columns -/

/-- The first of the sorted representations is no longer than any other. -/
theorem head?_mergeSort_le {can : List (UInt8 × Bytes)} {cho cand : UInt8 × Bytes}
    (hcho : (can.mergeSort fun a b => a.2.length ≤ b.2.length).head? = some cho) (h : cand ∈ can) :
    cho.2.length ≤ cand.2.length := by
  have hsrt : (can.mergeSort fun a b => a.2.length ≤ b.2.length).Pairwise fun a b => decide (a.2.length ≤ b.2.length) := by
    apply pairwise_mergeSort
    · intro a b c hab hbc
      simp only [decide_eq_true_eq] at hab hbc ⊢
      omega
    · intro a b
      simp only [Bool.or_eq_true, decide_eq_true_eq]
      omega
  have hmem : cand ∈ can.mergeSort fun a b => a.2.length ≤ b.2.length := mem_mergeSort.mpr h
  cases hl : can.mergeSort fun a b => a.2.length ≤ b.2.length with
  | nil =>
    rw [hl] at hmem
    exact absurd hmem not_mem_nil
  | cons first rest =>
    rw [hl] at hcho hmem hsrt
    obtain rfl : first = cho := Option.some.inj hcho
    rcases mem_cons.mp hmem with rfl | hr
    · exact le_rfl
    · exact of_decide_eq_true (rel_of_pairwise_cons hsrt hr)

/-- The plain values are always among the representations. -/
theorem plain_mem_candidates {can : List (UInt8 × Bytes)}
    (h : adaptiveCandidates codecs raw is = .ok can) : (adaptiveFixedNone, raw) ∈ can := by
  obtain ⟨zstd, -, h⟩ := bind_eq_ok.mp h
  split at h
  · obtain ⟨low20, -, h⟩ := bind_eq_ok.mp h
    cases h
    simp
  · cases h
    simp

/-- An adaptive page is at most one byte longer than its values. -/
theorem adaptivePage_length (hraw : raw.length ≤ 2 ^ 32)
    (h : encodeAdaptiveFixedWidthPage codecs raw is = .ok page) : page.length ≤ raw.length + 1 := by
  have hu64 : u64Max = 2 ^ 64 - 1 := rfl
  unfold encodeAdaptiveFixedWidthPage at h
  dsimp only at h
  split at h
  · next hf =>
    cases h
    unfold saturatingMul at hf
    rw [length_cons]
    omega
  · obtain ⟨can, hcan, hr⟩ := bind_eq_ok.mp h
    obtain ⟨chosen, hcho, hp⟩ := bind_eq_ok.mp hr
    cases hp
    exact Nat.succ_le_succ (head?_mergeSort_le (okOr_eq_ok.mp hcho) (plain_mem_candidates hcan))

theorem fixedPage_length (hraw : raw.length ≤ 2 ^ 19)
    (h : encodeFixedWidthPage codecs raw is .adaptiveFixed = .ok page) : page.length ≤ maxExtentBytes := by
  obtain ⟨-, h⟩ := rejectIf_bind.mp h
  have hle := adaptivePage_length (by omega) h
  have hmax : maxExtentBytes = 2 ^ 20 := rfl
  omega

/-- The values of one width of a page. -/
theorem length_flatMap_le (hw : w ≤ 32) {v : LogRow → Bytes} (hv : ∀ row, (v row).length = w)
    (hr : rows.length ≤ maxPageRows) : (rows.flatMap v).length ≤ 2 ^ 19 := by
  have hleh : OfWidth w (rows.map v) := by
    intro item him
    obtain ⟨row, -, rfl⟩ := mem_map.mp him
    exact hv row
  have hf := hleh.length_flatten
  rw [length_map] at hf
  rw [flatMap_def, hf]
  exact le_trans (Nat.mul_le_mul hr hw) (by decide)

theorem Column.length_topicBytes (t : Option B256) : (topicBytes t).length = 32 := by
  cases t with
  | none => exact length_replicate
  | some t => exact length_toBytes t

/-! ## Integer columns -/

theorem length_encodePacked (hd : Bytes) (ns : List (BitVec 64)) :
    (encodePacked hd ns).length ≤ hd.length + 1 + (8 * ns.length + 1) := by
  have hw := packedWidth_le ns
  have hb : ns.length * packedWidth ns ≤ ns.length * 64 := Nat.mul_le_mul_left _ hw
  rw [encodePacked_eq, length_append, length_cons, length_packedBytes, length_map]
  omega

theorem length_signedDeltaEncode (vs : List (BitVec 64)) : (signedDeltaEncode vs).length ≤ 8 * vs.length + 10 := by
  cases vs with
  | nil => exact Nat.zero_le _
  | cons base rest =>
    have hle := length_encodePacked (leBytes 8 base.toNat) ((wrappingDeltas base rest).map zigzagEncode)
    rw [length_leBytes, length_map, length_wrappingDeltas] at hle
    rw [signedDeltaEncode, length_cons]
    omega

theorem length_deltaOfDeltaEncode (vs : List (BitVec 64)) : (deltaOfDeltaEncode vs).length ≤ 8 * vs.length + 18 := by
  match vs with
  | [] => exact Nat.zero_le _
  | [base] =>
    exact Nat.le_add_left _ _
  | base :: second :: rest =>
    have hle := length_encodePacked (leBytes 8 base.toNat ++ leBytes 8 (second - base).toNat)
      ((wrappingDeltas (second - base) (wrappingDeltas second rest)).map zigzagEncode)
    rw [length_append, length_leBytes, length_leBytes, length_map, length_wrappingDeltas, length_wrappingDeltas] at hle
    rw [deltaOfDeltaEncode, length_cons, length_cons]
    omega

theorem length_rawU32 (vs : List Nat) : (rawU32 vs).length = vs.length * 4 := by
  have hf := (ofWidth_map_leBytes 4 vs).length_flatten
  rw [length_map] at hf
  rw [rawU32, flatMap_def, hf]

theorem u32Page_length (hb : codecs.WithinBound compressBound) {vs : List Nat} (hv : vs.length ≤ maxPageRows)
    (h : encodeU32Page codecs vs .zstd = .ok page) : page.length ≤ maxExtentBytes := by
  have hle := zstdCompress_length hb h
  have hraw : (rawU32 vs).length ≤ 4 * maxPageRows := by
    rw [length_rawU32, Nat.mul_comm]
    exact Nat.mul_le_mul_left 4 hv
  exact le_trans hle (le_trans (hb.mono hraw) hb.page)

/-- The dictionary of one-byte values holds at most one entry for each of them. -/
theorem length_dictEncodeBytes {vs : Bytes} (hv : vs.length ≤ maxPageRows) : (dictEncodeRaw vs 1).length ≤ maxExtentBytes := by
  obtain ⟨xs, hw, hc, rfl⟩ := @exists_items 1 vs vs.length (Nat.mul_one _).symm
  have hr : maxPageRows = 16384 := rfl
  unfold dictEncodeRaw
  rw [chunksExact_flatten (by decide) hw]
  obtain ⟨-, hd, hen, hidx⟩ := dictIndices_spec xs [] (by rw [length_nil]; omega)
  generalize dictIndices [] xs = ps at *
  have hdiW : OfWidth 1 ps.1 := by
    intro ent hey
    rcases hen ent hey with hnil | him
    · exact absurd hnil not_mem_nil
    · exact hw ent him
  rw [length_nil, Nat.zero_add] at hd
  have hmod : ps.1.length % 2 ^ 32 = ps.1.length := Nat.mod_eq_of_lt (by omega)
  have hb : dictionaryBits ps.1.length ≤ 32 := dictionaryBits_le (by omega)
  have hpac : ps.2.length * dictionaryBits ps.1.length ≤ ps.2.length * 32 := Nat.mul_le_mul_left _ hb
  have hcoI := hidx.length_eq
  have hmax : maxExtentBytes = 2 ^ 20 := rfl
  unfold encodeDictionaryParts
  dsimp only
  rw [hmod, bitpackU32_eq (dictionaryBits_ne_zero _) hb, length_append, length_append, length_append,
    length_cons, length_leBytes, length_leBytes, hdiW.length_flatten, length_packedBytes]
  omega

/-- A page of any column but the variable data fits into one extent. -/
theorem encodePage_length (hb : codecs.WithinBound compressBound) {col : Column} (hcol : col ≠ .data)
    (hr : rows.length ≤ maxPageRows) (h : col.encodePage codecs rows = .ok page) : page.length ≤ maxExtentBytes := by
  have hmax : maxExtentBytes = 2 ^ 20 := rfl
  have hp : maxPageRows = 16384 := rfl
  cases col with
  | address => exact fixedPage_length (length_flatMap_le (by decide) (fun row => length_toBytes row.address) hr) h
  | blockHash => exact fixedPage_length (length_flatMap_le (by decide) (fun row => length_toBytes row.blockHash) hr) h
  | txHash => exact fixedPage_length (length_flatMap_le (by decide) (fun row => length_toBytes row.txHash) hr) h
  | topic i =>
    exact fixedPage_length (length_flatMap_le (by decide) (fun row => Column.length_topicBytes (row.topic i)) hr) h
  | blockNumber =>
    cases h
    have hle := length_signedDeltaEncode (rows.map fun row => BitVec.ofNat 64 row.blockNumber)
    rw [length_map] at hle
    omega
  | timestamp =>
    cases h
    have hle := length_deltaOfDeltaEncode (rows.map fun row => BitVec.ofNat 64 row.timestamp)
    rw [length_map] at hle
    omega
  | txIndex | logIndex | dataLen => exact u32Page_length hb (by rwa [length_map]) h
  | source =>
    cases h
    exact length_dictEncodeBytes (by rwa [length_map])
  | data => exact absurd rfl hcol

/-! ## Variable data -/

/-- The raw bytes the capacity check charges for a page. -/
def pageBytes (rows : List LogRow) : Nat := 16 + rows.length * 8 + (rows.map fun row => row.data.length).sum

/-- What the capacity check charges for the data page of some rows. -/
def pageBound (compressBound : Nat → Nat) (rows : List LogRow) : Nat := compressBound (pageBytes rows) + 1

theorem length_varBytesRaw_le (hw : w ≤ 8) : (encodeVarBytesRaw w (rows.map (·.data))).length ≤ pageBytes rows := by
  have hmul : (rows.length + 1) * w ≤ (rows.length + 1) * 8 := Nat.mul_le_mul_left _ hw
  have hsum : (rows.map (·.data)).flatten.length = (rows.map fun row => row.data.length).sum := by
    rw [List.length_flatten, map_map]
    rfl
  rw [length_encodeVarBytesRaw, length_map, hsum, pageBytes]
  omega

/-- A page of the variable data is no longer than its charge. -/
theorem encodePage_data_length (hb : codecs.WithinBound compressBound) (h : Column.data.encodePage codecs rows = .ok page) :
    page.length ≤ pageBound compressBound rows := by
  have hcom : ∀ {w : Nat} {z : Bytes}, w ≤ 8 →
      zstdCompress codecs (encodeVarBytesRaw w (rows.map (·.data))) = .ok z →
      z.length + 1 ≤ pageBound compressBound rows := by
    intro w z hw hz
    have hle := zstdCompress_length hb hz
    exact Nat.succ_le_succ (le_trans hle (hb.mono (length_varBytesRaw_le hw)))
  obtain ⟨tl, -, h⟩ := bind_eq_ok.mp h
  split at h
  · obtain ⟨z, hz, h⟩ := bind_eq_ok.mp h
    cases h
    exact hcom (by decide) hz
  · obtain ⟨z, hz, h⟩ := bind_eq_ok.mp h
    cases h
    exact hcom (by decide) hz

/-! ## Refusals -/

variable {e : PageError}

theorem zstdCompress_error (h : zstdCompress codecs raw = .error e) : e = .invalidData "zstd" := (okOr_eq_error h).2.symm

theorem adaptivePage_error (h : encodeAdaptiveFixedWidthPage codecs raw is = .error e) : e = .invalidData "zstd" := by
  unfold encodeAdaptiveFixedWidthPage at h
  dsimp only at h
  split at h
  · nomatch h
  rcases bind_eq_error.mp h with hcan | ⟨cands, hcan, h⟩
  · rcases bind_eq_error.mp hcan with hz | ⟨zstd, -, hcan⟩
    · exact zstdCompress_error hz
    · split at hcan
      · rcases bind_eq_error.mp hcan with hlow20 | ⟨low20, -, hret⟩
        · exact zstdCompress_error hlow20
        · nomatch hret
      · nomatch hcan
  rcases bind_eq_error.mp h with hcho | ⟨chosen, -, hret⟩
  · have hmem : (adaptiveFixedNone, raw) ∈ cands.mergeSort fun a b => a.2.length ≤ b.2.length :=
      mem_mergeSort.mpr (plain_mem_candidates hcan)
    rw [head?_eq_none_iff.mp (okOr_eq_error hcho).1] at hmem
    exact absurd hmem not_mem_nil
  · nomatch hret

theorem fixedPage_error (hw : 0 < w) {v : LogRow → Bytes} (hv : ∀ row, (v row).length = w)
    (h : encodeFixedWidthPage codecs (rows.flatMap v) w .adaptiveFixed = .error e) : e = .invalidData "zstd" := by
  rcases bind_eq_error.mp h with hrej | ⟨-, -, h⟩
  · have hleh : OfWidth w (rows.map v) := by
      intro item him
      obtain ⟨row, -, rfl⟩ := mem_map.mp him
      exact hv row
    obtain ⟨hbad, -⟩ := rejectIf_eq_error hrej
    rw [flatMap_def, hleh.length_flatten, Nat.mul_mod_left] at hbad
    omega
  · exact adaptivePage_error h

/-- The encoder of a column fails only where the compressor does. -/
theorem encodePage_error (hb : codecs.WithinBound compressBound) (hchg : pageBound compressBound rows ≤ u32Max) {col : Column} (h : col.encodePage codecs rows = .error e) :
    e = .invalidData "zstd" := by
  cases col with
  | address => exact fixedPage_error (by decide) (fun row => length_toBytes row.address) h
  | blockHash => exact fixedPage_error (by decide) (fun row => length_toBytes row.blockHash) h
  | txHash => exact fixedPage_error (by decide) (fun row => length_toBytes row.txHash) h
  | topic i => exact fixedPage_error (by decide) (fun row => Column.length_topicBytes (row.topic i)) h
  | blockNumber | timestamp | source => nomatch h
  | txIndex | logIndex | dataLen => exact zstdCompress_error h
  | data =>
    have hu64 : u64Max = 2 ^ 64 - 1 := rfl
    have hu32 : u32Max = 2 ^ 32 - 1 := rfl
    have hsum : (rows.map (·.data)).flatten.length = (rows.map fun row => row.data.length).sum := by
      rw [length_flatten, map_map]
      rfl
    have ht := @totalLen_eq (rows.map (·.data)) (by
      have hin := hb.holds (pageBytes rows)
      unfold pageBound at hchg
      unfold pageBytes at hchg hin
      omega)
    rcases bind_eq_error.mp h with hove | ⟨total, -, h⟩
    · rw [ht] at hove
      nomatch hove
    · split at h
      · rcases bind_eq_error.mp h with hz | ⟨z, -, hret⟩
        · exact zstdCompress_error hz
        · nomatch hret
      · rcases bind_eq_error.mp h with hz | ⟨z, -, hret⟩
        · exact zstdCompress_error hz
        · nomatch hret

end

end Logex.Page
