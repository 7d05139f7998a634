import Logex.Lemmas.Capacity

/-!
# What the column workers write

Each worker writes to the streams of its own column: one append for each page, one for the entries of these pages, and for a topic
the replacement of a bitmap. What this takes up follows from the sizes of the pages; a worker stops early only where an encoder does.
-/

namespace Logex.Page

open Lib List

variable {r : BundleReader} {file : Bytes}

/-! ## Streams of a column -/

namespace Column

theorem dataStream_lt (column : Column) : column.dataStream < 14 := by
  cases column with
  | topic index =>
    change 9 + index.val < 14
    omega
  | _ => decide

/-- The data stream of a column. -/
def dataId (column : Column) : StreamId := ⟨column.dataStream, Nat.lt_trans column.dataStream_lt (by decide)⟩

/-- The index stream of a column. -/
def indexId (column : Column) : StreamId := ⟨column.indexStream, Nat.lt_trans (Nat.add_lt_add_right column.dataStream_lt 14) (by decide)⟩

/-- The column of a data stream. -/
def ofDataStream : Nat → Column
  | 0 => .address
  | 1 => .blockNumber
  | 2 => .blockHash
  | 3 => .timestamp
  | 4 => .txHash
  | 5 => .txIndex
  | 6 => .logIndex
  | 7 => .dataLen
  | 8 => .source
  | 9 => .topic 0
  | 10 => .topic 1
  | 11 => .topic 2
  | 12 => .topic 3
  | _ => .data

theorem ofDataStream_dataStream (column : Column) : ofDataStream column.dataStream = column := by
  cases column with
  | topic index =>
    revert index
    decide
  | _ => rfl

theorem dataStream_inj {column o : Column} (h : column.dataStream = o.dataStream) : column = o := by
  rw [← ofDataStream_dataStream column, h, ofDataStream_dataStream]

theorem dataStream_ofDataStream {n : Nat} (h : n < 14) : (ofDataStream n).dataStream = n := by
  revert n
  decide

theorem mem_all (column : Column) : column ∈ all := by
  cases column with
  | topic index =>
    revert index
    decide
  | _ => decide

theorem all_nodup : all.Nodup := by decide

theorem inlineIndex_dataId (column : Column) : inlineIndex column.dataId = false := by
  have := column.dataStream_lt
  refine decide_eq_false ?_
  rintro ⟨hlow, -⟩
  change 14 ≤ column.dataStream at hlow
  omega

theorem inlineIndex_indexId (column : Column) : inlineIndex column.indexId = true := by
  have := column.dataStream_lt
  refine decide_eq_true ?_
  change 14 ≤ column.dataStream + 14 ∧ column.dataStream + 14 < 28
  omega

theorem nullStream_bounds (index : Fin 4) : dataStreams ≤ nullStream index ∧ nullStream index < streamCount := by
  revert index
  decide

end Column

/-! ## Writes of one column -/

/-- A write of a column's worker: to a stream of the column, or a bitmap. -/
def Targets (column : Column) : BundleWrite → Prop
  | .appendData target _ => target = column.dataStream ∨ target = column.indexStream
  | .replaceMetadata target bytes => dataStreams ≤ target ∧ target < streamCount ∧ bytes.length ≤ maxExtents * maxExtentBytes

/-- Writes of a column's worker that take up no more than given in its two streams. -/
structure ColumnWrites (column : Column) (data index : Nat) (writes : List BundleWrite) : Prop where
  targets : ∀ w ∈ writes, Targets column w
  data : demandOf column.dataId writes ≤ data
  index : demandOf column.indexId writes ≤ index

namespace ColumnWrites

variable {column : Column} {data data' index i' : Nat} {writes ws' : List BundleWrite}

theorem nil (column : Column) : ColumnWrites column 0 0 [] := ⟨nofun, le_rfl, le_rfl⟩

variable (h : ColumnWrites column data index writes)

include h

theorem append (h' : ColumnWrites column data' i' ws') : ColumnWrites column (data + data') (index + i') (writes ++ ws') := by
  refine ⟨?_, ?_, ?_⟩
  · intro w hw
    rcases mem_append.mp hw with hw | hw
    · exact h.targets w hw
    · exact h'.targets w hw
  · rw [demandOf_append]
    exact Nat.add_le_add h.data h'.data
  · rw [demandOf_append]
    exact Nat.add_le_add h.index h'.index

theorem mono (hd : data ≤ data') (hin : index ≤ i') :
    ColumnWrites column data' i' writes := ⟨h.targets, h.data.trans hd, h.index.trans hin⟩

omit h in
/-- An append to the data stream. -/
theorem page (column : Column) (bs : Bytes) :
    ColumnWrites column (extentsFor bs.length) 0 [.appendData column.dataStream bs] := by
  have hne : column.dataStream ≠ column.indexStream := by
    unfold Column.indexStream
    omega
  refine ⟨?_, ?_, ?_⟩
  · intro w hw
    obtain rfl := mem_singleton.mp hw
    exact .inl rfl
  · rw [demandOf_cons, demandOf_nil, BundleWrite.demand, if_pos (by rfl), column.inlineIndex_dataId, if_neg Bool.false_ne_true,
      add_zero]
  · rw [demandOf_cons, demandOf_nil, BundleWrite.demand]
    exact le_of_eq (if_neg hne)

omit h in
/-- An append to the index stream. -/
theorem entries (column : Column) (bs : Bytes) : ColumnWrites column 0 bs.length [.appendData column.indexStream bs] := by
  have hne : column.indexStream ≠ column.dataStream := by
    unfold Column.indexStream
    omega
  refine ⟨?_, ?_, ?_⟩
  · intro w hw
    obtain rfl := mem_singleton.mp hw
    exact .inr rfl
  · rw [demandOf_cons, demandOf_nil, BundleWrite.demand]
    exact le_of_eq (if_neg hne)
  · rw [demandOf_cons, demandOf_nil, BundleWrite.demand, if_pos (by rfl), column.inlineIndex_indexId, if_pos rfl]
    exact le_rfl

omit h in
/-- The replacement of a bitmap. -/
theorem bitmap (column : Column) {tgt : Nat} {bs : Bytes} (htgt : dataStreams ≤ tgt ∧ tgt < streamCount)
    (hb : bs.length ≤ maxExtents * maxExtentBytes) : ColumnWrites column 0 0 [.replaceMetadata tgt bs] := by
  refine ⟨?_, le_rfl, le_rfl⟩
  intro w hw
  obtain rfl := mem_singleton.mp hw
  exact ⟨htgt.1, htgt.2, hb⟩

/-- The writes of a worker name existing streams. -/
theorem placed : ∀ w ∈ writes, w.Placed := by
  intro w hw
  have htgt := h.targets w hw
  have hlt := column.dataStream_lt
  cases w with
  | appendData tgt bs =>
    change tgt < 28
    unfold Targets Column.indexStream at htgt
    omega
  | replaceMetadata tgt bs => exact htgt

/-- A worker takes up nothing in a stream of another column. -/
theorem demand_other {id : StreamId} (hd : id.val ≠ column.dataStream)
    (hin : id.val ≠ column.indexStream) : demandOf id writes = 0 := by
  refine sum_eq_zero_iff.mpr fun n hn => ?_
  obtain ⟨w, hw, rfl⟩ := mem_map.mp hn
  have htgt := h.targets w hw
  cases w with
  | appendData tgt bs =>
    refine if_neg ?_
    rintro rfl
    exact htgt.elim hd hin
  | replaceMetadata tgt bs => rfl

end ColumnWrites

/-! ## Pages -/

variable {c : BundleCodec} {codecs : PageCodecs} {output : PageOutput} {column : Column} {rows : List LogRow} {e : PageError}

/-- One page is refused only by its encoder, where lengths and offsets are in range. -/
theorem encodeEntry_error {a off : Nat} {page : List LogRow}
    (hs : ∀ bs, column.encodePage codecs page = .ok bs → bs.length ≤ u32Max)
    (hrow : output.existingRows + a ≤ u64Max) (hoff : off + u32Max ≤ u64Max)
    (h : output.encodeEntry codecs column a off page = .error e) : column.encodePage codecs page = .error e := by
  rcases bind_eq_error.mp h with henc | ⟨enc, henc, h⟩
  · exact henc
  have hle := hs enc henc
  rcases bind_eq_error.mp h with hrej | ⟨-, -, h⟩
  · exact absurd hle (not_le.mpr (rejectIf_eq_error hrej).1)
  rcases bind_eq_error.mp h with hove | ⟨fr, -, h⟩
  · rw [checkedAdd, if_pos hrow] at hove
    cases hove
  rcases bind_eq_error.mp h with hove | ⟨next, -, h⟩
  · rw [checkedAdd, if_pos (by omega)] at hove
    cases hove
  · cases h

theorem encodeEntry_ok {a off : Nat} {page : List LogRow} {res : Bytes × PageIndexEntry}
    (h : output.encodeEntry codecs column a off page = .ok res) :
    column.encodePage codecs page = .ok res.1 ∧ res.1.length ≤ u32Max := by
  obtain ⟨encoded, henc, h⟩ := bind_eq_ok.mp h
  obtain ⟨hle, h⟩ := rejectIf_bind.mp h
  obtain ⟨fr, -, h⟩ := bind_eq_ok.mp h
  obtain ⟨next, -, h⟩ := bind_eq_ok.mp h
  cases h
  exact ⟨henc, not_lt.mp hle⟩

/-- What a worker guarantees wherever it stops: the writes it added, and the encoder that stopped it. -/
def WorkerSpec {α : Type} (worker : ColumnM α) (column : Column) (pages : List (List LogRow)) (codecs : PageCodecs) (data index : Nat)
    (result : α → Prop) : Prop :=
  ∀ before, wpE worker (fun a after => result a ∧ ∃ more, after = before ++ more ∧ ColumnWrites column data index more)
    (fun e after => (∃ page ∈ pages, column.encodePage codecs page = .error e) ∧
      ∃ more, after = before ++ more ∧ ColumnWrites column data index more) before

/-- The page loop writes one append for each page. -/
theorem writePageLoop_spec {cost : List LogRow → Nat} {all : List (List LogRow)}
    (hc : ∀ page ∈ all, ∀ bs, column.encodePage codecs page = .ok bs → bs.length ≤ u32Max ∧ extentsFor bs.length ≤ cost page)
    (pag : List (List LogRow)) : ∀ a off, pag ⊆ all → output.existingRows + a + (pag.map List.length).sum ≤ u64Max →
    off + pag.length * u32Max ≤ u64Max →
    WorkerSpec (output.writePageLoop codecs column a off pag) column all codecs (pag.map cost).sum 0
      fun es => es.length = pag.length := by
  induction pag with
  | nil =>
    intro a off hsub hrow hoff bef
    exact wpE_pure.mpr ⟨rfl, [], (append_nil _).symm, ColumnWrites.nil column⟩
  | cons page pag ih =>
    intro a off hsub hrow hoff bef
    have hmem : page ∈ all := hsub mem_cons_self
    rw [map_cons, sum_cons] at hrow
    rw [length_cons, Nat.succ_mul] at hoff
    rw [PageOutput.writePageLoop, wpE_bind, wpE_attempt]
    refine ⟨?_, ?_⟩
    · rintro ⟨enc, entry⟩ hen
      obtain ⟨henc, hle⟩ := encodeEntry_ok hen
      dsimp only at henc hle ⊢
      have hp := (ColumnWrites.page column enc).mono (hc page hmem enc henc).2 (le_refl 0)
      have hr := ih (a + page.length) (off + enc.length) (subset_of_cons_subset hsub) (by omega) (by omega)
        (bef ++ [.appendData column.dataStream enc])
      rw [wpE_bind, emit, wpE_modify, wpE_bind, map_cons, sum_cons]
      refine wpE_mono hr ?_ ?_
      · rintro es after ⟨hleh, more, rfl, hm⟩
        refine wpE_pure.mpr ⟨by rw [length_cons, length_cons, hleh], ?_⟩
        exact ⟨_ :: more, by rw [List.append_assoc]; rfl, hp.append hm⟩
      · rintro e after ⟨hrea, more, rfl, hm⟩
        exact ⟨hrea, _ :: more, by rw [List.append_assoc]; rfl, hp.append hm⟩
    · intro e he
      have her := encodeEntry_error (fun bs h => (hc page hmem bs h).1) (by omega) (by omega) he
      exact ⟨⟨page, hmem, her⟩, [], (append_nil _).symm, (ColumnWrites.nil column).mono (Nat.zero_le _) (le_refl 0)⟩

theorem length_pageIndexBytes (es : List PageIndexEntry) :
    ((writePageIndex es).drop pageIndexHeaderBytes).length = pageIndexEntryBytes * es.length := by
  have hen : (es.flatMap PageIndexEntry.toBytes).length = pageIndexEntryBytes * es.length := by
    induction es with
    | nil => rfl
    | cons entry es ih =>
      rw [flatMap_cons, length_append, ih, length_cons, Nat.mul_succ, add_comm]
      simp [PageIndexEntry.toBytes, pageIndexEntryBytes]
  have hhdr : (pageIndexHeader es.length).length = pageIndexHeaderBytes := by
    simp [pageIndexHeader, pageIndexMagic, pageIndexHeaderBytes]
  rw [writePageIndex, drop_left' hhdr, hen]

/-- The pages of a column, then the entries of its index. -/
theorem writePages_spec {cost : List LogRow → Nat} (hc : ∀ page ∈ pagesOf rows, ∀ bs, column.encodePage codecs page = .ok bs →
      bs.length ≤ u32Max ∧ extentsFor bs.length ≤ cost page)
    (hrow : output.existingRows + ((pagesOf rows).map List.length).sum ≤ u64Max)
    (hoff : ((output.existing column).map (·.encodedBytes)).getD 0 + (pagesOf rows).length * u32Max ≤ u64Max) :
    WorkerSpec (output.writePages codecs column rows) column (pagesOf rows) codecs ((pagesOf rows).map cost).sum
      (pageIndexEntryBytes * (pagesOf rows).length) fun _ => True := by
  intro bef
  -- A new empty column first claims its stream, which takes up nothing.
  obtain ⟨fro, hf, hcl⟩ : ∃ fro, ColumnWrites column 0 0 fro ∧
      runIf (rows = [] ∧ output.existing column = none) (emit (.appendData column.dataStream [])) bef = .ok () (bef ++ fro) := by
    by_cases hem : rows = [] ∧ output.existing column = none
    · exact ⟨[.appendData column.dataStream []], ColumnWrites.page column [], by rw [runIf, if_pos hem]; rfl⟩
    · exact ⟨[], ColumnWrites.nil column, by rw [runIf, if_neg hem, append_nil]; rfl⟩
  have hl := writePageLoop_spec hc (pagesOf rows) 0 _ (List.Subset.refl _) hrow hoff (bef ++ fro)
  rw [PageOutput.writePages, wpE_bind]
  unfold wpE
  rw [hcl]
  change wpE _ _ _ (bef ++ fro)
  refine wpE_seq hl ?_ ?_
  · rintro es after ⟨hleh, more, rfl, hm⟩
    rw [emit, wpE_modify]
    have hin := ColumnWrites.entries column ((writePageIndex es).drop pageIndexHeaderBytes)
    rw [length_pageIndexBytes, hleh] at hin
    refine ⟨trivial, fro ++ more ++ [.appendData column.indexStream ((writePageIndex es).drop pageIndexHeaderBytes)], ?_, ?_⟩
    · rw [List.append_assoc, List.append_assoc, List.append_assoc]
    · exact ((hf.append hm).append hin).mono (by omega) (by omega)
  · rintro e after ⟨hrea, more, rfl, hm⟩
    exact ⟨hrea, fro ++ more, by rw [List.append_assoc], (hf.append hm).mono (by omega) (by omega)⟩

/-! ## Bitmaps -/

theorem NullBitmap.len_foldl_push {α : Type} (pre : α → Bool) (vs : List α) (bm : NullBitmap) :
    (vs.foldl (fun bm v => bm.push (pre v)) bm).len = bm.len + vs.length := by
  induction vs generalizing bm with
  | nil => rfl
  | cons v vs ih =>
    rw [foldl_cons, ih, length_cons]
    change bm.len + 1 + vs.length = _
    omega

/-- A bitmap of the rows of a bundle is encoded and fits into its stream. -/
theorem encodeBitmap_ok (c : BundleCodec) {bm : NullBitmap} (hmax : bm.len ≤ maxRows) :
    ∃ enc, encodeBitmap c bm.writeTo bm.len = .ok enc ∧ enc.length ≤ maxExtents * maxExtentBytes := by
  have hleh : bm.writeTo.length = 8 + (bm.len + 7) / 8 := by
    rw [NullBitmap.writeTo, length_append, length_leBytes, bm.size]
  have hf : bm.writeTo.take 8 = leBytes 8 bm.len := take_left' (length_leBytes 8 _)
  refine ⟨_, bind_eq_ok.mpr ⟨_, rejectIf_bind.mpr ⟨not_lt.mpr hmax, rfl⟩,
    rejectIf_bind.mpr ⟨not_or.mpr ⟨not_not.mpr hleh, not_not.mpr hf⟩, rfl⟩⟩, ?_⟩
  have hr : maxRows = 2 ^ 26 := rfl
  have hext : maxExtents * maxExtentBytes = 2 ^ 32 := by decide
  split
  · rw [length_cons]
    omega
  · rw [length_cons]
    omega

theorem metadata_spec (c : BundleCodec) {tgt : Nat} {bm : NullBitmap} (hr : bm.len = output.rows) (hmax : output.rows ≤ maxRows)
    (htgt : dataStreams ≤ tgt ∧ tgt < streamCount) (column : Column) (bef : List BundleWrite) :
    ∃ more, output.metadata c tgt bm bef = .ok () (bef ++ more) ∧ ColumnWrites column 0 0 more := by
  obtain ⟨enc, henc, hleh⟩ := encodeBitmap_ok c (hr ▸ hmax)
  rw [hr] at henc
  refine ⟨[.replaceMetadata tgt enc], ?_, ColumnWrites.bitmap column htgt hleh⟩
  unfold PageOutput.metadata
  rw [henc]
  rfl

/-! ## The prefix -/

/-- What the workers of a publication rely on: the rows and bytes the writer's streams already hold, counted as the pages count them. -/
structure PageOutput.Extends (output : PageOutput) (state : WriteState) (count : Nat) : Prop where
  rows : output.rows = output.existingRows + count
  initial : state.initialRows ≤ output.rows
  open_ : state.failed = false
  pages : output.existingRows ≤ StreamMap.used state.streams (Column.indexId .address) / pageIndexEntryBytes * maxPageRows
  offset : ∀ column, ((output.existing column).map (·.encodedBytes)).getD 0 = (StreamMap.orDefault state.streams column.dataId).len
  nulls : ∀ index, ∃ bitmap, output.previousNulls (.topic index) = .ok bitmap ∧ bitmap.len = output.existingRows
  canonical : output.canonical.len = output.existingRows

/-- A new bundle holds nothing. -/
theorem extends_new (n : Nat) : PageOutput.Extends { rows := n } WriteState.create n where
  rows := (zero_add n).symm
  initial := Nat.zero_le _
  open_ := rfl
  pages := Nat.zero_le _
  offset _ := rfl
  nulls _ := ⟨{}, rfl, rfl⟩
  canonical := rfl

theorem bundleError_eq_ok {α : Type} {res : Except String α} {a : α} (h : bundleError res = .ok a) : res = .ok a := by
  cases res with
  | error e => nomatch h
  | ok b => exact congrArg Except.ok (Except.ok.inj h)

/-- Each scanned entry covers at most one page of rows. -/
theorem scanEntries_le {n : Nat} (es : List PageIndexEntry) : ∀ {scan scan' : PrefixScan},
    scan.rows ≤ scan.entries * maxPageRows → scanEntries n es scan = .ok scan' →
    scan'.rows ≤ scan'.entries * maxPageRows ∧ scan'.entries ≤ scan.entries + es.length := by
  induction es with
  | nil =>
    intro scan scan' hs h
    cases h
    exact ⟨hs, le_rfl⟩
  | cons entry es ih =>
    intro scan scan' hs h
    rw [scanEntries] at h
    split at h
    · cases h
      exact ⟨hs, Nat.le_add_right _ _⟩
    · obtain ⟨hen, h⟩ := rejectIf_bind.mp h
      obtain ⟨sca, hsca, h⟩ := bind_eq_ok.mp h
      obtain ⟨offset, -, h⟩ := bind_eq_ok.mp h
      have hsum := okOr_checkedAdd hsca
      have hp : entry.rowCount ≤ maxPageRows := by
        by_contra hl
        exact hen (.inr (.inr (.inr (.inl (not_le.mp hl)))))
      obtain ⟨hle, hc⟩ := @ih ⟨sca, offset, scan.entries + 1⟩ scan' (by dsimp only; rw [Nat.succ_mul]; omega) h
      refine ⟨hle, ?_⟩
      dsimp only at hc
      rw [length_cons]
      omega

theorem length_pageIndexEntries (n : Nat) (data : Bytes) : (pageIndexEntries n data).length = n := by
  induction n generalizing data with
  | zero => rfl
  | succ n ih => rw [pageIndexEntries, length_cons, ih]

/-- A framed index has as many entries as its bytes hold. -/
theorem length_readPageIndex {bs fra : Bytes} {es : List PageIndexEntry} (hf : framePageIndex bs = .ok fra)
    (h : readPageIndex fra = .ok es) : es.length = bs.length / pageIndexEntryBytes := by
  obtain ⟨-, hf⟩ := rejectIf_bind.mp hf
  obtain ⟨hc, hf⟩ := rejectIf_bind.mp hf
  cases hf
  obtain ⟨-, h⟩ := rejectIf_bind.mp h
  obtain ⟨-, h⟩ := rejectIf_bind.mp h
  obtain ⟨expected, -, h⟩ := bind_eq_ok.mp h
  obtain ⟨-, h⟩ := rejectIf_bind.mp h
  cases h
  have hu32 : u32Max = 2 ^ 32 - 1 := rfl
  have hfi : ((pageIndexHeader (bs.length / pageIndexEntryBytes) ++ bs).drop 8).take 4 =
      leBytes 4 (bs.length / pageIndexEntryBytes) := by
    rw [pageIndexHeader, List.append_assoc, List.append_assoc, ← List.append_assoc]
    rw [drop_left' (by simp [pageIndexMagic]), take_left' (length_leBytes 4 _)]
  rw [length_pageIndexEntries, hfi, ofLeBytes_leBytes (by omega)]

theorem reader_stream_eq_ok {id : StreamId} {st : Stream} (h : r.stream id = .ok st) : StreamMap.orDefault r.streams id = st := by
  have hs := okOr_eq_ok.mp h
  rw [dif_pos id.isLt] at hs
  exact StreamMap.orDefault_some hs

/-- The index of a bundle is read from its inline bytes. -/
theorem readStream_index {r r' : BundleReader} {bs : Bytes} {column : Column}
    (h : r.readStream c file column.indexStream = .ok (bs, r')) :
    bs.length ≤ (StreamMap.orDefault r.streams column.indexId).inlined.length := by
  obtain ⟨st, hstr, h⟩ := bind_eq_ok.mp h
  obtain ⟨stream', hstr', h⟩ := bind_eq_ok.mp h
  rw [hstr] at hstr'
  cases hstr'
  obtain ⟨-, h⟩ := rejectIf_bind.mp h
  rw [show inlineIndex column.indexStream = true from column.inlineIndex_indexId, if_pos rfl] at h
  obtain ⟨rfl, -⟩ := Prod.mk.inj (Except.ok.inj h)
  rw [@reader_stream_eq_ok r column.indexId st hstr, length_take, length_drop]
  omega

/-- What the inspection of one column establishes. -/
theorem inspectColumn_ok {exi : ExistingPages} (h : inspectColumn c file r column = .ok exi) :
    exi.encodedBytes = (StreamMap.orDefault r.streams column.dataId).len ∧
      r.reference.rowCount ≤ (StreamMap.orDefault r.streams column.indexId).inlined.length / pageIndexEntryBytes * maxPageRows ∧
      ∀ index, column = .topic index → ∃ bm, exi.nulls = some bm ∧ bm.len = r.reference.rowCount := by
  obtain ⟨framed, hfra, h⟩ := bind_eq_ok.mp h
  obtain ⟨es, hen, h⟩ := bind_eq_ok.mp h
  obtain ⟨scan, hs, h⟩ := bind_eq_ok.mp h
  obtain ⟨st, hstr, h⟩ := bind_eq_ok.mp h
  obtain ⟨hr, h⟩ := rejectIf_bind.mp h
  obtain ⟨nulls, hn, h⟩ := bind_eq_ok.mp h
  obtain ⟨hm, h⟩ := rejectIf_bind.mp h
  cases h
  obtain ⟨hr, -⟩ := not_or.mp hr
  obtain ⟨-, hm⟩ := not_or.mp hm
  obtain ⟨hlen, hbm⟩ := not_or.mp hm
  rw [ne_eq, not_not] at hr hlen
  refine ⟨?_, ?_, ?_⟩
  · rw [@reader_stream_eq_ok r column.dataId st (bundleError_eq_ok hstr), hlen]
  · obtain ⟨is, -, hfra⟩ := bind_eq_ok.mp hfra
    obtain ⟨-, hfra⟩ := rejectIf_bind.mp hfra
    obtain ⟨⟨bs, reader'⟩, hre, hfra⟩ := bind_eq_ok.mp hfra
    have hb := readStream_index (bundleError_eq_ok hre)
    have hc := length_readPageIndex hfra hen
    obtain ⟨hp, hsca⟩ := scanEntries_le es (Nat.zero_le _) hs
    rw [zero_add, hc] at hsca
    rw [← hr]
    exact le_trans hp (Nat.mul_le_mul_right _ (le_trans hsca (Nat.div_le_div_right hb)))
  · rintro index rfl
    obtain ⟨bs, -, hn⟩ := bind_eq_ok.mp hn
    obtain ⟨bm, -, hn⟩ := bind_eq_ok.mp hn
    cases hn
    refine ⟨bm, rfl, ?_⟩
    by_contra hne
    exact hbm ⟨bm, rfl, hr ▸ hne⟩

/-- A keyed list of results holds the result of each key. -/
theorem lookup_of_mapM {α β ε : Type} [BEq α] [LawfulBEq α] {f : α → Except ε β} {keys : List α} {pai : List (α × β)}
    (h : (keys.mapM fun key => do let v ← f key; return (key, v)) = .ok pai) {key : α} (hkey : key ∈ keys) :
    ∃ v, pai.lookup key = some v ∧ f key = .ok v := by
  induction keys generalizing pai with
  | nil => exact absurd hkey not_mem_nil
  | cons first keys ih =>
    rw [mapM_cons] at h
    obtain ⟨pair, hp, h⟩ := bind_eq_ok.mp h
    obtain ⟨rest, hr, h⟩ := bind_eq_ok.mp h
    obtain ⟨v, hv, hp⟩ := bind_eq_ok.mp hp
    cases hp
    cases h
    by_cases hf : key = first
    · subst hf
      exact ⟨v, lookup_cons_self, hv⟩
    · obtain ⟨v', hloo, hv'⟩ := ih hr ((mem_cons.mp hkey).resolve_left hf)
      refine ⟨v', ?_, hv'⟩
      rw [lookup_cons, beq_eq_false_iff_ne.mpr hf]
      exact hloo

/-- The inspected prefix of an append. -/
theorem append_extends {st : WriteState} {n : Nat}
    (hout : PageOutput.append c file r n = .ok output) (hs : WriteState.appendInspected file r = .ok st) :
    output.Extends st n := by
  obtain ⟨total, ht, h⟩ := bind_eq_ok.mp hout
  obtain ⟨-, h⟩ := rejectIf_bind.mp h
  obtain ⟨prev, hp, h⟩ := bind_eq_ok.mp h
  obtain ⟨bytes, -, h⟩ := bind_eq_ok.mp h
  obtain ⟨can, -, h⟩ := bind_eq_ok.mp h
  obtain ⟨stop, -, h⟩ := bind_eq_ok.mp h
  obtain ⟨hta, h⟩ := rejectIf_bind.mp h
  cases h
  obtain ⟨offset, -, hs⟩ := bind_eq_ok.mp hs
  obtain ⟨-, hs⟩ := rejectIf_bind.mp hs
  cases hs
  obtain ⟨hsum, -⟩ := Option.filter_eq_some_iff.mp (okOr_eq_ok.mp ht)
  obtain ⟨rfl, -⟩ := checkedAdd_eq_some.mp hsum
  have hcol : ∀ column, ∃ exi, prev.lookup column = some exi ∧ inspectColumn c file r column = .ok exi :=
    fun column => lookup_of_mapM hp column.mem_all
  refine ⟨rfl, Nat.le_add_right _ _, rfl, ?_, ?_, ?_, ?_⟩
  · obtain ⟨exi, -, hins⟩ := hcol .address
    exact (inspectColumn_ok hins).2.1
  · intro column
    obtain ⟨exi, hloo, hins⟩ := hcol column
    change ((prev.lookup column).map (·.encodedBytes)).getD 0 = _
    rw [hloo]
    exact (inspectColumn_ok hins).1
  · intro index
    obtain ⟨exi, hloo, hins⟩ := hcol (.topic index)
    obtain ⟨bm, hbm, hlen⟩ := (inspectColumn_ok hins).2.2 index rfl
    refine ⟨bm, ?_, hlen⟩
    unfold PageOutput.previousNulls PageOutput.existing
    rw [hloo]
    dsimp only
    rw [hbm]
    rfl
  · exact not_not.mp (not_or.mp hta).2

/-- The prefix of the next publication. -/
theorem openBatch_extends {bd : PublishedBundle} {st : WriteState} {n : Nat}
    (h : openBatch c bd n = .ok (st, output)) : output.Extends st n ∧ bd.writer c = .ok st := by
  unfold openBatch at h
  unfold PublishedBundle.writer
  cases hl : bd.references.getLast? with
  | none =>
    rw [hl] at h
    cases h
    exact ⟨extends_new n, rfl⟩
  | some ref =>
    rw [hl] at h
    obtain ⟨r, hrdr, h⟩ := bind_eq_ok.mp h
    obtain ⟨output', hout, h⟩ := bind_eq_ok.mp h
    obtain ⟨state', hs, h⟩ := bind_eq_ok.mp h
    cases h
    exact ⟨append_extends hout (bundleError_eq_ok hs), bind_eq_ok.mpr ⟨r, bundleError_eq_ok hrdr, bundleError_eq_ok hs⟩⟩

end Logex.Page
