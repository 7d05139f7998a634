import Logex.Lemmas.Catalog
import Logex.Lemmas.Stream
import Logex.StreamedPrefix

/-!
# Row commitments

Extending a prefix is determined by two counters and the bytes absorbed, so it does not matter how the rows are grouped; the
transcript of a row says where it ends, so the absorbed bytes determine the rows. The state over the resumable stream carries the
absorbed bytes along: each of its operations is the operation on them.
-/

namespace Logex

open Lib List FixedBytes LogRow PrefixState

variable {state next : PrefixState} {rows : List LogRow} {a b : Bytes}

/-! ## Transcripts -/

namespace Lib

theorem leBytes_append_inj {n x y : Nat} (hx : x < 256 ^ n) (hy : y < 256 ^ n) {a b : List UInt8}
    (h : leBytes n x ++ a = leBytes n y ++ b) : x = y ∧ a = b := by
  obtain ⟨hf, hr⟩ := append_inj h (by rw [length_leBytes, length_leBytes])
  refine ⟨?_, hr⟩
  rw [← ofLeBytes_leBytes hx, hf, ofLeBytes_leBytes hy]

end Lib

theorem FixedBytes.toBytes_append_inj {n : Nat} {x y : FixedBytes n}
    (h : FixedBytes.toBytes x ++ a = FixedBytes.toBytes y ++ b) : x = y ∧ a = b := by
  obtain ⟨hf, hr⟩ := append_inj h (by rw [length_toBytes, length_toBytes])
  exact ⟨toBytes_inj.mp hf, hr⟩

theorem topicTranscript_append_inj {x y : Option B256} (h : topicTranscript x ++ a = topicTranscript y ++ b) : x = y ∧ a = b := by
  cases x with
  | none =>
    cases y with
    | none => exact ⟨rfl, (List.cons.inj h).2⟩
    | some y => exact absurd (List.cons.inj h).1 (by decide)
  | some x =>
    cases y with
    | none => exact absurd (List.cons.inj h).1 (by decide)
    | some y =>
      obtain ⟨rfl, hr⟩ := toBytes_append_inj (List.cons.inj h).2
      exact ⟨rfl, hr⟩

theorem Source.toByte_inj {x y : Source} (h : x.toByte = y.toByte) : x = y := by
  cases x <;> cases y <;> first | rfl | exact absurd h (by decide)

/-- The transcript of a row ends where the row says it does. -/
theorem LogRow.transcript_append_inj {row row' : LogRow} (ht : row.Typed) (ht' : row'.Typed) (hd : row.data.length ≤ u64Max)
    (hd' : row'.data.length ≤ u64Max) (h : row.transcript ++ a = row'.transcript ++ b) : row = row' ∧ a = b := by
  have h8 : u64Max < 256 ^ 8 := by decide
  have h4 : u32Max < 256 ^ 4 := by decide
  simp only [transcript, LogRow.topics, flatMap_cons, flatMap_nil, List.append_assoc, append_nil] at h
  obtain ⟨hb, h⟩ := leBytes_append_inj (ht.blockNumber.trans_lt h8) (ht'.blockNumber.trans_lt h8) h
  obtain ⟨hh, h⟩ := toBytes_append_inj h
  obtain ⟨hti, h⟩ := leBytes_append_inj (ht.timestamp.trans_lt h8) (ht'.timestamp.trans_lt h8) h
  obtain ⟨htx, h⟩ := toBytes_append_inj h
  obtain ⟨htxI, h⟩ := leBytes_append_inj (ht.txIndex.trans_lt h4) (ht'.txIndex.trans_lt h4) h
  obtain ⟨hlog, h⟩ := leBytes_append_inj (ht.logIndex.trans_lt h4) (ht'.logIndex.trans_lt h4) h
  obtain ⟨hadd, h⟩ := toBytes_append_inj h
  obtain ⟨h0, h⟩ := topicTranscript_append_inj h
  obtain ⟨h1, h⟩ := topicTranscript_append_inj h
  obtain ⟨h2, h⟩ := topicTranscript_append_inj h
  obtain ⟨h3, h⟩ := topicTranscript_append_inj h
  obtain ⟨hdaL, h⟩ := leBytes_append_inj (ht.dataLen.trans_lt h4) (ht'.dataLen.trans_lt h4) h
  obtain ⟨hlen, h⟩ := leBytes_append_inj (hd.trans_lt h8) (hd'.trans_lt h8) h
  obtain ⟨hda, h⟩ := append_inj h hlen
  obtain ⟨hsou, hr⟩ := List.cons.inj h
  refine ⟨?_, hr⟩
  cases row
  cases row'
  simp only [LogRow.mk.injEq]
  exact ⟨hb, hh, hti, htx, htxI, hlog, hadd, h0, h1, h2, h3, hda, hdaL, Source.toByte_inj hsou⟩

theorem LogRow.data_length_le (row : LogRow) : row.data.length ≤ row.transcript.length := by
  simp only [transcript, length_append]
  omega

/-- The transcript of a list of rows determines the rows. -/
theorem transcripts_inj {rows rows' : List LogRow} (ht : ∀ row ∈ rows, row.Typed) (ht' : ∀ row ∈ rows', row.Typed)
    (hf : (rows.flatMap transcript).length ≤ u64Max) (h : rows.flatMap transcript = rows'.flatMap transcript) : rows = rows' := by
  have hleh : ∀ (row : LogRow) (rest : List LogRow), (row :: rest).flatMap transcript ≠ [] := by
    intro row rest hnil
    have hlen := row.transcript_length
    rw [flatMap_cons, append_eq_nil_iff] at hnil
    rw [hnil.1] at hlen
    exact absurd hlen (by decide)
  induction rows generalizing rows' with
  | nil =>
    cases rows' with
    | nil => rfl
    | cons row' rows' => exact absurd h.symm (hleh row' rows')
  | cons row rows ih =>
    cases rows' with
    | nil => exact absurd h (hleh row rows)
    | cons row' rows' =>
      have hf' := hf
      rw [h] at hf'
      rw [flatMap_cons, length_append] at hf hf'
      have hd := row.data_length_le
      have hd' := row'.data_length_le
      rw [forall_mem_cons] at ht ht'
      obtain ⟨rfl, hr⟩ := transcript_append_inj ht.1 ht'.1 (by omega) (by omega) h
      rw [ih ht.2 ht'.2 (by omega) hr]

theorem topicTranscript_length (t : Option B256) : (topicTranscript t).length = 1 + 32 * if t.isSome then 1 else 0 := by
  cases t with
  | none => rfl
  | some t =>
    rw [topicTranscript, length_cons, length_toBytes]
    rfl

/-- The length `checked_row_end` adds for a row. -/
theorem LogRow.transcript_length_eq (row : LogRow) : row.transcript.length = 125 + 32 * row.topicCount + row.data.length := by
  have hc : ∀ top : List (Option B256), (top.flatMap topicTranscript).length =
      top.length + 32 * (top.filter Option.isSome).length := by
    intro top
    induction top with
    | nil => rfl
    | cons t top ih =>
      rw [flatMap_cons, length_append, topicTranscript_length, ih, length_cons]
      cases t with
      | none | some t => simp; omega
  have hf : row.topics.length = 4 := rfl
  simp only [transcript, length_append, length_leBytes, length_toBytes, hc, hf, topicCount, length_cons, length_nil]
  omega

/-! ## Extending a prefix -/

theorem PrefixState.extend_eq_ok : state.extend rows = .ok next ↔
      state.rows + rows.length ≤ u64Max ∧ (state.stream ++ rows.flatMap transcript).length ≤ u64Max ∧
        next = ⟨state.namespaceId, state.rows + rows.length, state.stream ++ rows.flatMap transcript⟩ := by
  unfold PrefixState.extend
  rw [bind_eq_ok]
  constructor
  · rintro ⟨count, hc, h⟩
    obtain ⟨rfl, hle⟩ := checkedAdd_eq_some.mp (okOr_eq_ok.mp hc)
    obtain ⟨hf, h⟩ := rejectIf_bind.mp h
    exact ⟨hle, Nat.le_of_not_lt hf, (Except.ok.inj h).symm⟩
  · rintro ⟨hle, hf, rfl⟩
    exact ⟨_, okOr_eq_ok.mpr (checkedAdd_eq_some.mpr ⟨rfl, hle⟩), rejectIf_bind.mpr ⟨not_lt.mpr hf, rfl⟩⟩

/-- The counters of a state are 64-bit. -/
structure PrefixState.Fits (state : PrefixState) : Prop where
  rows : state.rows ≤ u64Max
  stream : state.stream.length ≤ u64Max

theorem PrefixState.Fits.extend (h : state.extend rows = .ok next) : next.Fits := by
  obtain ⟨hle, hf, rfl⟩ := extend_eq_ok.mp h
  exact ⟨hle, hf⟩

/-- Extending by one list after another is extending by both. -/
theorem PrefixState.extend_extend {rows more : List LogRow} :
    (state.extend rows >>= fun mid => mid.extend more) = .ok next ↔ state.extend (rows ++ more) = .ok next := by
  rw [bind_eq_ok, extend_eq_ok, length_append, flatMap_append, ← List.append_assoc, ← add_assoc]
  constructor
  · rintro ⟨mid, hmid, hn⟩
    obtain ⟨-, -, rfl⟩ := extend_eq_ok.mp hmid
    exact extend_eq_ok.mp hn
  · rintro ⟨hle, hf, rfl⟩
    refine ⟨_, extend_eq_ok.mpr ⟨by omega, ?_, rfl⟩, extend_eq_ok.mpr ⟨hle, hf, rfl⟩⟩
    rw [length_append] at hf
    omega

theorem PrefixState.extend_nil {state : PrefixState} (h : state.Fits) : state.extend [] = .ok state := by
  refine extend_eq_ok.mpr ⟨h.rows, ?_, ?_⟩
  · rw [flatMap_nil, append_nil]
    exact h.stream
  · rw [flatMap_nil, append_nil, length_nil, add_zero]

/-- Any cut into successive appends reaches what one append reaches. -/
theorem PrefixState.foldlM_extend (h : state.Fits) (bs : List (List LogRow)) :
    bs.foldlM PrefixState.extend state = .ok next ↔ state.extend bs.flatten = .ok next := by
  induction bs generalizing state with
  | nil =>
    rw [flatten_nil, extend_nil h]
    exact Iff.rfl
  | cons rows bs ih =>
    rw [foldlM_cons, flatten_cons, ← extend_extend, bind_eq_ok, bind_eq_ok]
    refine exists_congr fun mid => and_congr_right fun hmid => ?_
    exact ih (PrefixState.Fits.extend hmid)

/-! ## The state over the resumable stream -/

theorem LogRow.flatten_writes (row : LogRow) : row.writes.flatten = row.transcript := by
  have ht : ∀ t : Option B256, (topicWrites t).flatten = topicTranscript t := by
    intro t
    cases t with
    | none => rfl
    | some t => simp [topicWrites, topicTranscript]
  simp [LogRow.writes, transcript, LogRow.topics, ht]

theorem flatten_writes (rows : List LogRow) : (rows.flatMap LogRow.writes).flatten = rows.flatMap transcript := by
  induction rows with
  | nil => rfl
  | cons row rows ih => rw [flatMap_cons, flatten_append, row.flatten_writes, ih, flatMap_cons]

namespace StreamedPrefix

variable {core : Blake3}

/-- The state over the stream that has absorbed the bytes of a prefix. -/
def ofPrefix (core : Blake3) (state : PrefixState) : StreamedPrefix :=
  fromParts core state.namespaceId state.rows (StreamState.ofBytes core state.stream)

theorem empty_eq (core : Blake3) (ns : FixedBytes 16) : empty core ns = ofPrefix core (.empty ns) := by
  rw [empty, StreamState.new_eq_ofBytes core]
  rfl

/-- The published identity is that of the absorbed bytes. -/
theorem root_ofPrefix (core : Blake3) (state : PrefixState) : (ofPrefix core state).root = state.commitment core.hash := by
  change core.hash (preimage core state.namespaceId state.rows (StreamState.ofBytes core state.stream)) = _
  rw [preimage, digest_ofBytes]
  rfl

theorem extend_ofPrefix (core : Blake3) (state : PrefixState) (rows : List LogRow) :
    (ofPrefix core state).extend core rows = (state.extend rows).map (ofPrefix core) := by
  have happ := append_ofBytes core state.stream (rows.flatMap LogRow.writes)
  rw [flatten_writes] at happ
  unfold extend PrefixState.extend
  change (okOr _ (checkedAdd state.rows rows.length) >>= fun n =>
    (StreamState.ofBytes core state.stream).append core (rows.flatMap LogRow.writes) >>= _) = _
  rw [happ]
  cases checkedAdd state.rows rows.length with
  | none => rfl
  | some n =>
    change (_ >>= _) = (rejectIf _ _ >>= _).map (ofPrefix core)
    by_cases hf : (state.stream ++ rows.flatMap transcript).length ≤ u64Max
    · rw [if_pos hf, rejectIf, if_neg (not_lt.mpr hf)]
      rfl
    · rw [if_neg hf, rejectIf, if_pos (Nat.lt_of_not_le hf)]
      rfl

theorem foldlM_extend_ofPrefix (core : Blake3) (state : PrefixState) (bs : List (List LogRow)) :
    bs.foldlM (extend core) (ofPrefix core state) = (bs.foldlM PrefixState.extend state).map (ofPrefix core) := by
  induction bs generalizing state with
  | nil => rfl
  | cons rows bs ih =>
    rw [foldlM_cons, foldlM_cons, extend_ofPrefix]
    cases state.extend rows with
    | error e => rfl
    | ok mid => exact ih mid

theorem map_eq_ok {ε α β : Type} {x : Except ε α} {f : α → β} {b : β} : x.map f = .ok b ↔ ∃ a, x = .ok a ∧ f a = b := by
  cases x <;> simp [Except.map]

theorem validate_ofPrefix (core : Blake3) (state : PrefixState) (ns : FixedBytes 16) (rows : Nat) (root : B256) :
    (ofPrefix core state).validate ns rows root = state.validate core.hash ns rows root := by
  unfold validate PrefixState.validate
  rw [root_ofPrefix]
  rfl

/-- A state whose counters agree is resumed from its encoding. -/
theorem fromBytes_toBytes (core : Blake3) {state : PrefixState} (h : state.Fits)
    (hr : state.rows = 0 ↔ state.stream.length = 0) (hmin : state.rows * 125 ≤ state.stream.length) :
    fromBytes core (ofPrefix core state).toBytes = .ok (ofPrefix core state) := by
  have hstr := Logex.fromBytes_toBytes core h.stream
  obtain ⟨hlen, -⟩ := rejectIf_bind.mp hstr
  rw [not_not] at hlen
  have hid := length_toBytes state.namespaceId
  have hc : state.rows < 256 ^ 8 := by
    have hle := h.rows
    unfold u64Max at hle
    omega
  have hn : FixedBytes.ofBytes 16 (FixedBytes.toBytes state.namespaceId) = state.namespaceId :=
    toBytes_inj.mp (toBytes_ofBytes hid)
  have hb : (ofPrefix core state).toBytes =
      FixedBytes.toBytes state.namespaceId ++ (leBytes 8 state.rows ++ (StreamState.ofBytes core state.stream).toBytes) := by
    unfold toBytes
    rw [List.append_assoc]
    rfl
  have hd : (ofPrefix core state).toBytes.drop 16 = leBytes 8 state.rows ++ (StreamState.ofBytes core state.stream).toBytes := by
    rw [hb, drop_left' hid]
  have hre : (ofPrefix core state).toBytes.drop 24 = (StreamState.ofBytes core state.stream).toBytes := by
    rw [show 24 = 16 + 8 from rfl, ← drop_drop, hd, drop_left' (length_leBytes 8 _)]
  have hv : (ofPrefix core state).validate state.namespaceId state.rows (ofPrefix core state).root = .ok () := by
    have hmax := h.stream
    rw [validate_ofPrefix, root_ofPrefix]
    exact PrefixState.validate_eq_ok.mpr ⟨⟨rfl, rfl, rfl⟩, hr, hmin, by omega⟩
  unfold fromBytes
  refine rejectIf_bind.mpr ⟨?_, bind_eq_ok.mpr ⟨_, by rw [hre]; exact hstr, ?_⟩⟩
  · rw [not_not, hb, length_append, length_append, hid, length_leBytes]
    unfold maxEncodedBytes
    omega
  · rw [hd, take_left' (length_leBytes 8 _), ofLeBytes_leBytes hc, hb, take_left' hid, hn]
    exact check_bind_eq_ok.mpr ⟨hv, rfl⟩

end StreamedPrefix

/-! ## Checking an append before it is made -/

/-- The summary is the count and the extrema of the rows. -/
structure RowBounds.Exact (rows : List LogRow) (bounds : RowBounds) : Prop where
  rowCount : bounds.rowCount = rows.length
  minBlock : (rows.map LogRow.blockNumber).min? = some bounds.minBlock
  maxBlock : (rows.map LogRow.blockNumber).max? = some bounds.maxBlock
  minTimestamp : (rows.map LogRow.timestamp).min? = some bounds.minTimestamp
  maxTimestamp : (rows.map LogRow.timestamp).max? = some bounds.maxTimestamp

theorem RowBounds.foldl_include_eq (rows : List LogRow) (bou : RowBounds) : rows.foldl RowBounds.include bou =
      ⟨bou.rowCount + rows.length, (rows.map blockNumber).foldl min bou.minBlock,
        (rows.map blockNumber).foldl max bou.maxBlock, (rows.map timestamp).foldl min bou.minTimestamp,
        (rows.map timestamp).foldl max bou.maxTimestamp⟩ := by
  induction rows generalizing bou with
  | nil => rfl
  | cons row rows ih =>
    rw [foldl_cons, ih, length_cons, ← add_assoc, Nat.add_right_comm]
    rfl

theorem RowBounds.fromRows_exact {bou : RowBounds} (h : RowBounds.fromRows rows = some bou) : RowBounds.Exact rows bou := by
  cases rows with
  | nil => nomatch h
  | cons row rows =>
    cases h
    rw [RowBounds.foldl_include_eq]
    exact ⟨add_comm 1 _, rfl, rfl, rfl, rfl⟩

theorem RowBounds.fromRows_eq_none : RowBounds.fromRows rows = none ↔ rows = [] := by
  cases rows <;> simp [RowBounds.fromRows]

namespace StreamedPrefix

theorem checkedRowEnd_eq_ok {prev bs : Nat} (row : LogRow) : checkedRowEnd prev row.topicCount row.data.length = .ok bs ↔
      prev + row.transcript.length ≤ u64Max ∧ bs = prev + row.transcript.length := by
  rw [row.transcript_length_eq, checkedRowEnd, okOr_eq_ok, Option.bind_eq_some_iff]
  constructor
  · rintro ⟨fixed, hf, hb⟩
    obtain ⟨rfl, -⟩ := checkedAdd_eq_some.mp hf
    obtain ⟨rfl, hle⟩ := checkedAdd_eq_some.mp hb
    omega
  · rintro ⟨hle, rfl⟩
    exact ⟨_, checkedAdd_eq_some.mpr ⟨rfl, by omega⟩, checkedAdd_eq_some.mpr ⟨by omega, by omega⟩⟩

/-- The scan passes when the transcripts fit, with the bounds of the rows it has seen. -/
theorem foldlM_checkRow (rows : List LogRow) {scan : Nat × Option RowBounds} {res : Nat × Option RowBounds}
    (h : scan.1 ≤ u64Max) : rows.foldlM checkRow scan = .ok res ↔
      scan.1 + (rows.flatMap transcript).length ≤ u64Max ∧
        res = (scan.1 + (rows.flatMap transcript).length, match scan.2 with
          | some bou => some (rows.foldl RowBounds.include bou)
          | none => RowBounds.fromRows rows) := by
  induction rows generalizing scan with
  | nil =>
    obtain ⟨bs, bou⟩ := scan
    cases bou <;> exact ⟨fun hok => ⟨h, (Except.ok.inj hok).symm⟩, fun hok => congrArg Except.ok hok.2.symm⟩
  | cons row rows ih =>
    rw [foldlM_cons, bind_eq_ok, flatMap_cons, length_append, ← add_assoc]
    unfold checkRow
    constructor
    · rintro ⟨mid, hmid, hr⟩
      obtain ⟨bs, hb, hmid⟩ := bind_eq_ok.mp hmid
      obtain ⟨hle, rfl⟩ := (checkedRowEnd_eq_ok row).mp hb
      cases hmid
      obtain ⟨hf, rfl⟩ := (ih hle).mp hr
      refine ⟨hf, ?_⟩
      cases scan.2 <;> rfl
    · rintro ⟨hf, rfl⟩
      have hle : scan.1 + row.transcript.length ≤ u64Max := by omega
      refine ⟨_, bind_eq_ok.mpr ⟨_, (checkedRowEnd_eq_ok row).mpr ⟨hle, rfl⟩, rfl⟩, (ih hle).mpr ⟨hf, ?_⟩⟩
      cases scan.2 <;> rfl

/-- A new append passes its checks exactly when it can be made. -/
theorem validateNewAppend_empty (core : Blake3) (ns : FixedBytes 16) (rows : List LogRow) (res : Option RowBounds) :
    (empty core ns).validateNewAppend ns (empty core ns).root rows = .ok res ↔
      (∃ state, fromRows core ns rows = .ok state) ∧ res = RowBounds.fromRows rows := by
  have hv : (empty core ns).validate ns 0 (empty core ns).root = .ok () := by
    rw [empty_eq, validate_ofPrefix, root_ofPrefix]
    exact PrefixState.validate_eq_ok.mpr ⟨⟨rfl, rfl, rfl⟩, ⟨fun _ => rfl, fun _ => rfl⟩, le_rfl, by decide⟩
  have hext : (∃ state, fromRows core ns rows = .ok state) ↔
      rows.length ≤ u64Max ∧ (rows.flatMap transcript).length ≤ u64Max := by
    rw [fromRows, empty_eq, extend_ofPrefix]
    constructor
    · rintro ⟨state, hs⟩
      obtain ⟨mid, hmid, -⟩ := map_eq_ok.mp hs
      obtain ⟨hle, hf, -⟩ := extend_eq_ok.mp hmid
      exact ⟨by rwa [PrefixState.empty, zero_add] at hle, hf⟩
    · rintro ⟨hle, hf⟩
      refine ⟨_, map_eq_ok.mpr ⟨_, extend_eq_ok.mpr ⟨?_, hf, rfl⟩, rfl⟩⟩
      rwa [PrefixState.empty, zero_add]
  rw [hext, validateNewAppend, check_bind_eq_ok, bind_eq_ok]
  have hz : (empty core ns).stream.totalBytes = 0 := rfl
  have hn : (empty core ns).rows = 0 := rfl
  rw [hz, hn]
  constructor
  · rintro ⟨-, count, hc, h⟩
    obtain ⟨scan, hsc, h⟩ := bind_eq_ok.mp h
    obtain ⟨rfl, hle⟩ := checkedAdd_eq_some.mp (okOr_eq_ok.mp hc)
    obtain ⟨hf, rfl⟩ := (foldlM_checkRow rows (Nat.zero_le _)).mp hsc
    rw [zero_add] at hle hf
    exact ⟨⟨hle, hf⟩, (Except.ok.inj h).symm⟩
  · rintro ⟨⟨hle, hf⟩, rfl⟩
    refine ⟨hv, _, okOr_eq_ok.mpr (checkedAdd_eq_some.mpr ⟨rfl, by omega⟩), ?_⟩
    exact bind_eq_ok.mpr ⟨_, (foldlM_checkRow rows (Nat.zero_le _)).mpr ⟨by omega, rfl⟩, rfl⟩

end StreamedPrefix

end Logex
