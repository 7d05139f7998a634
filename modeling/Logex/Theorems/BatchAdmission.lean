import Logex.Lemmas.BatchWrites
import Logex.Theorems.BundleSnapshots

/-!
# Batches admitted to a bundle

`capacity_from_extents` decides how many rows of a batch a bundle can take before anything is written. The rows it admits can be
written as one publication: no page is longer than its index entry can say, and no write and no completion is refused for a limit of
the format, however the column workers are interleaved and wherever they stop.
-/

namespace Logex.Page

open Lib List Logex.Page.Column

variable {α : Type}

namespace BatchAdmissionAux

variable {codec : BundleCodec} {codecs : PageCodecs} {output : PageOutput} {column : Column} {rows : List LogRow} {compressBound : Nat → Nat}
  {state : WriteState}
  {capacity : RemainingExtents}

/-! ## Remaining extents -/

theorem getD_of_mapM {n : Nat} {β ε : Type} {f : Fin n → Except ε β} {vs : List β} {det : β}
    (h : (List.finRange n).mapM f = .ok vs) (id : Fin n) : f id = .ok (vs.getD id det) := by
  have hall : ∀ (ids : List (Fin n)) (vs : List β), ids.mapM f = .ok vs →
      ∀ (i : Nat) (id : Fin n), ids[i]? = some id → ∃ v, vs[i]? = some v ∧ f id = .ok v := by
    intro ids
    induction ids with
    | nil =>
      intro vs h i id hid
      nomatch hid
    | cons first ids ih =>
      intro vs h i id hid
      rw [mapM_cons] at h
      obtain ⟨v, hv, h⟩ := bind_eq_ok.mp h
      obtain ⟨rest, hr, h⟩ := bind_eq_ok.mp h
      cases h
      cases i with
      | zero =>
        obtain rfl : first = id := Option.some.inj hid
        exact ⟨v, rfl, hv⟩
      | succ i => exact ih rest hr i id hid
  obtain ⟨v, hget, hv⟩ := hall _ _ h id.val id (by rw [getElem?_eq_getElem (by simp), getElem_finRange]; rfl)
  rw [hv, getD_eq_getElem?_getD, hget, Option.getD_some]

/-- What a data stream holds and what it is said to have left stay within its limit. -/
theorem room_of_remaining (h : remainingExtents state.streams true = .ok capacity) (id : Fin dataStreams) :
    StreamMap.used state.streams (id.castLE (by decide)) + (if inlineIndex id then pageIndexEntryBytes * capacity id else capacity id) ≤
      streamLimit (id.castLE (by decide)) := by
  obtain ⟨cou, hcou, h⟩ := bind_eq_ok.mp h
  cases h
  have hid : remainingOf state.streams true id = .ok (cou.getD id 0) := getD_of_mapM hcou id
  dsimp only
  generalize cou.getD id 0 = left at hid ⊢
  have hb : pageIndexEntryBytes = 24 := rfl
  have hin : indexBytes = 4096 * 24 := rfl
  have hmax : maxExtents = 4096 := rfl
  unfold remainingOf at hid
  unfold StreamMap.used streamLimit StreamMap.orDefault
  rw [Fin.val_castLE]
  cases hs : state.streams (id.castLE (by decide)) with
  | none =>
    rw [hs] at hid
    cases hid
    rw [Option.getD_none, Fin.val_last, hb, hmax, hin]
    split <;> rw [length_nil]
  | some s =>
    rw [hs] at hid
    dsimp only at hid
    rw [Option.getD_some]
    cases hinl : inlineIndex id with
    | true =>
      simp only [hinl, if_true] at hid ⊢
      split at hid
      · next hu =>
        cases hid
        dsimp only
        rw [hb] at hu ⊢
        omega
      · nomatch hid
    | false =>
      simp only [hinl, Bool.false_eq_true, if_false] at hid ⊢
      split at hid
      · next hu =>
        cases hid
        dsimp only
        omega
      · nomatch hid

/-! ## The charge of a page -/

/-- What a page is charged in the data stream of a column. -/
def pageCost (compressBound : Nat → Nat) (column : Column) (page : List LogRow) : Nat := if column = .data then extentsFor (pageBound compressBound page) else 1

theorem encoded_within (hcodecs : codecs.WithinBound compressBound) {page : List LogRow} (hp : page.length ≤ maxPageRows)
    (hb : pageBound compressBound page ≤ u32Max) {bs : Bytes} (h : column.encodePage codecs page = .ok bs) :
    bs.length ≤ u32Max ∧ extentsFor bs.length ≤ pageCost compressBound column page := by
  unfold pageCost
  split
  · next hd =>
    subst hd
    have hle := encodePage_data_length hcodecs h
    exact ⟨hle.trans hb, extentsFor_mono hle⟩
  · next hd =>
    have hle := encodePage_length hcodecs hd hp h
    have hmax : maxExtentBytes = 2 ^ 20 := rfl
    have hu32 : u32Max = 2 ^ 32 - 1 := rfl
    exact ⟨by omega, extentsFor_le (by omega)⟩

/-- The number of a column's data stream among the append-only streams. -/
def dataIndex (column : Column) : Fin dataStreams := ⟨column.dataStream, Nat.lt_trans column.dataStream_lt (by decide)⟩

/-- The number of a column's index stream among the append-only streams. -/
def indexIndex (column : Column) : Fin dataStreams :=
  ⟨column.indexStream, Nat.lt_of_lt_of_le (Nat.add_lt_add_right column.dataStream_lt 14) (by decide)⟩

/-- Rows that were admitted by the remaining extents of all streams. -/
def AdmittedBy (compressBound : Nat → Nat) (capacity : RemainingExtents) (rows : List LogRow) : Prop :=
  Admitted compressBound ((pageExtents capacity).min?.getD 0) (capacity (dataIndex .data)) rows

theorem AdmittedBy.cost_le (h : AdmittedBy compressBound capacity rows) (column : Column) :
    ((pagesOf rows).map (pageCost compressBound column)).sum ≤ capacity (dataIndex column) := by
  by_cases hd : column = .data
  · subst hd
    rw [show pageCost compressBound .data = fun page => extentsFor (pageBound compressBound page) from funext fun page => if_pos rfl]
    exact h.extents
  · have hone : (pagesOf rows).map (pageCost compressBound column) = List.replicate (pagesOf rows).length 1 := by
      rw [show pageCost compressBound column = fun _ => 1 from funext fun page => if_neg hd, map_const']
    rw [hone, sum_replicate_nat, mul_one]
    refine h.count.trans (pageExtents_min_le capacity fun heq => hd (dataStream_inj heq))

theorem AdmittedBy.count_le (h : AdmittedBy compressBound capacity rows) (column : Column) :
    (pagesOf rows).length ≤ capacity (indexIndex column) := by
  refine h.count.trans (pageExtents_min_le capacity fun heq => ?_)
  change column.dataStream + 14 = 13 at heq
  omega

/-! ## The workers -/

section Workers

variable (hcodecs : codecs.WithinBound compressBound) {base : StreamMap} {bound : Nat} (hwriting : Writing codec base bound state)
  (hextends : output.Extends state rows.length) (hremaining : remainingExtents state.streams true = .ok capacity)
  (hadmitted : AdmittedBy compressBound capacity rows)

include hremaining hadmitted hextends

/-- The pages of the admitted rows fit behind those the index already describes, so the rows stay within the limit of a bundle. -/
theorem rows_le_maxRows : output.rows ≤ maxRows := by
  have hr : StreamMap.used state.streams (Column.indexId .address) + pageIndexEntryBytes * capacity (indexIndex .address) ≤
      indexBytes := room_of_remaining hremaining (indexIndex .address)
  have hc := hadmitted.count_le .address
  have hro := length_le_pagesOf rows
  have hp := hextends.pages
  have ht := hextends.rows
  have hb : pageIndexEntryBytes = 24 := rfl
  have hin : indexBytes = 4096 * 24 := rfl
  have hmax : maxRows = 4096 * 16384 := rfl
  have hpa : maxPageRows = 16384 := rfl
  rw [hb, hin] at hr
  rw [hpa] at hro hp
  rw [hb] at hp
  omega

/-- The canonical bitmap is written. -/
theorem appendCanonical_spec (codec : BundleCodec) :
    ∃ ws, output.appendCanonical codec rows.length [] = .ok () ws ∧ ColumnWrites .address 0 0 ws := by
  have hlen : ((List.replicate rows.length true).foldl NullBitmap.push output.canonical).len = output.rows := by
    rw [show NullBitmap.push = fun bm pre => bm.push (id pre) from rfl, NullBitmap.len_foldl_push,
      length_replicate, hextends.canonical, hextends.rows]
  exact metadata_spec codec hlen (rows_le_maxRows hextends hremaining hadmitted) (by decide) .address []

include hcodecs hwriting

/-- One column's worker writes within what its streams have left. -/
theorem compactColumn_spec (column : Column) :
    WorkerSpec (output.compactColumn codec codecs column rows) column (pagesOf rows) codecs (capacity (dataIndex column))
      (pageIndexEntryBytes * capacity (indexIndex column)) fun _ => True := by
  have hmaR := rows_le_maxRows hextends hremaining hadmitted
  have hc : ∀ page ∈ pagesOf rows, ∀ bs, column.encodePage codecs page = .ok bs →
      bs.length ≤ u32Max ∧ extentsFor bs.length ≤ pageCost compressBound column page := by
    intro page hp bs hb
    exact encoded_within hcodecs (length_le_of_mem_pagesOf hp) (hadmitted.bound page hp) hb
  have hco := hadmitted.count_le column
  have hsum : ((pagesOf rows).map List.length).sum ≤ (pagesOf rows).length * maxPageRows := by
    have hle := sum_le_card_nsmul ((pagesOf rows).map List.length) maxPageRows (by
      intro length hleh
      obtain ⟨page, hp, rfl⟩ := mem_map.mp hleh
      exact length_le_of_mem_pagesOf hp)
    rwa [length_map] at hle
  have hlt : (capacity (indexIndex column)).val ≤ maxExtents := Nat.le_of_lt_succ (capacity (indexIndex column)).isLt
  have hu64 : u64Max = 2 ^ 64 - 1 := rfl
  have hu32 : u32Max = 2 ^ 32 - 1 := rfl
  have hext : maxExtents = 4096 := rfl
  have hpaR : maxPageRows = 16384 := rfl
  have hli : maxRows = 4096 * 16384 := rfl
  have hrow : output.existingRows + ((pagesOf rows).map List.length).sum ≤ u64Max := by
    have ht := hextends.rows
    rw [hpaR] at hsum
    omega
  have hoff : ((output.existing column).map (·.encodedBytes)).getD 0 + (pagesOf rows).length * u32Max ≤ u64Max := by
    have hlen := hwriting.len_le column.inlineIndex_dataId
    have hu := (hwriting.ok.orDefault column.dataId).count
    have hb : maxExtentBytes = 2 ^ 20 := rfl
    rw [hextends.offset column, hu32]
    rw [hb] at hlen
    omega
  have hpa : WorkerSpec (output.writePages codecs column rows) column (pagesOf rows) codecs (capacity (dataIndex column))
      (pageIndexEntryBytes * capacity (indexIndex column)) fun _ => True := by
    intro bef
    have hcoL := hadmitted.cost_le column
    have hinL : pageIndexEntryBytes * (pagesOf rows).length ≤ pageIndexEntryBytes * capacity (indexIndex column) :=
      Nat.mul_le_mul_left _ hco
    refine wpE_mono (writePages_spec hc hrow hoff bef) ?_ ?_
    · rintro _ aft ⟨-, more, rfl, hm⟩
      exact ⟨trivial, more, rfl, hm.mono hcoL hinL⟩
    · rintro e aft ⟨hrea, more, rfl, hm⟩
      exact ⟨hrea, more, rfl, hm.mono hcoL hinL⟩
  cases column with
  | topic i =>
    intro bef
    obtain ⟨bm, hbm, hlen⟩ := hextends.nulls i
    have hn : (rows.foldl (fun nulls row => nulls.push (row.topic i).isSome) bm).len = output.rows := by
      rw [NullBitmap.len_foldl_push fun row : LogRow => (row.topic i).isSome, hlen, hextends.rows]
    rw [PageOutput.compactColumn, hbm]
    change wpE (output.writePages codecs (.topic i) rows >>= fun _ => _) _ _ bef
    refine wpE_seq (hpa bef) ?_ ?_
    · rintro _ aft ⟨-, more, rfl, hm⟩
      obtain ⟨last, hmet, hl⟩ := metadata_spec codec hn hmaR (nullStream_bounds i) (.topic i) (bef ++ more)
      unfold wpE
      rw [hmet]
      exact ⟨trivial, more ++ last, List.append_assoc _ _ _, hm.append hl⟩
    · rintro e aft hs
      exact hs
  | _ => exact hpa

end Workers

/-! ## The batch -/

theorem writes_of_spec {wor : ColumnM α} {pages : List (List LogRow)} {data i : Nat} {res : α → Prop}
    (h : WorkerSpec wor column pages codecs data i res) : ColumnWrites column data i wor.writes := by
  have hrun := h []
  unfold wpE at hrun
  unfold ColumnM.writes
  split at hrun
  · next hok =>
    obtain ⟨-, more, rfl, hm⟩ := hrun
    rw [hok]
    exact hm
  · next her =>
    obtain ⟨-, more, rfl, hm⟩ := hrun
    rw [her]
    exact hm

theorem demandOf_flatMap (id : StreamId) (f : α → List BundleWrite) (xs : List α) :
    demandOf id (xs.flatMap f) = (xs.map fun item => demandOf id (f item)).sum := by
  induction xs with
  | nil => rfl
  | cons item xs ih => rw [flatMap_cons, demandOf_append, ih, map_cons, sum_cons]

/-- A sum whose other terms vanish. -/
theorem sum_map_le_single {f : α → Nat} {xs : List α} (hno : xs.Nodup) (a : α) (h : ∀ b ∈ xs, b ≠ a → f b = 0) :
    (xs.map f).sum ≤ f a := by
  induction xs with
  | nil => exact Nat.zero_le _
  | cons item xs ih =>
    obtain ⟨hnot, hno⟩ := nodup_cons.mp hno
    rw [map_cons, sum_cons]
    by_cases heq : item = a
    · subst heq
      have hr : (xs.map f).sum = 0 := by
        refine sum_eq_zero_iff.mpr fun n hn => ?_
        obtain ⟨b, hb, rfl⟩ := mem_map.mp hn
        refine h b (mem_cons_of_mem _ hb) ?_
        rintro rfl
        exact hnot hb
      omega
    · have hz := h item mem_cons_self heq
      have hr := ih hno fun b hb => h b (mem_cons_of_mem _ hb)
      omega

/-- The streams have room for all writes of an admitted batch. -/
theorem batch_hasRoom (hcodecs : codecs.WithinBound compressBound) {base : StreamMap} {bound : Nat} (hwriting : Writing codec base bound state)
    (hextends : output.Extends state rows.length) (hremaining : remainingExtents state.streams true = .ok capacity)
    (hadmitted : AdmittedBy compressBound capacity rows) : HasRoom state (output.batchWrites codec codecs rows) := by
  have hwor := fun column => writes_of_spec (compactColumn_spec hcodecs hwriting hextends hremaining hadmitted column)
  obtain ⟨ws, hrun, hcan⟩ := appendCanonical_spec hextends hremaining hadmitted codec
  have hwri : (output.appendCanonical codec rows.length).writes = ws := by
    unfold ColumnM.writes
    rw [hrun]
  unfold PageOutput.batchWrites
  rw [hwri]
  refine ⟨hextends.open_, ?_, ?_⟩
  · intro id hid
    have hz : demandOf id ws = 0 := by
      by_cases hd : id = Column.dataId .address
      · exact Nat.le_zero.mp (hd ▸ hcan.data)
      · by_cases hin : id = Column.indexId .address
        · exact Nat.le_zero.mp (hin ▸ hcan.index)
        · exact hcan.demand_other (fun h => hd (Fin.ext h)) (fun h => hin (Fin.ext h))
    rw [demandOf_append, hz, zero_add, demandOf_flatMap]
    have hdaS : dataStreams = 28 := rfl
    rcases lt_or_ge id.val 14 with hlow | hh
    · -- A data stream: only the worker of its column writes to it.
      obtain ⟨column, hcol⟩ : ∃ column : Column, column.dataId = id :=
        ⟨ofDataStream id, Fin.ext (dataStream_ofDataStream hlow)⟩
      subst hcol
      have hsum := sum_map_le_single (f := fun o => demandOf column.dataId (output.compactColumn codec codecs o rows).writes)
        all_nodup column (by
          intro o _ hne
          refine (hwor o).demand_other (fun h => hne (dataStream_inj h.symm)) ?_
          change column.dataStream ≠ o.dataStream + 14
          change column.dataStream < 14 at hlow
          omega)
      have hr : StreamMap.used state.streams column.dataId + (if inlineIndex column.dataId then pageIndexEntryBytes * capacity (dataIndex column)
          else capacity (dataIndex column)) ≤ streamLimit column.dataId := room_of_remaining hremaining (dataIndex column)
      rw [column.inlineIndex_dataId, if_neg Bool.false_ne_true] at hr
      have hdem := (hwor column).data
      omega
    · obtain ⟨column, hcol⟩ : ∃ column : Column, column.indexId = id := by
        refine ⟨ofDataStream (id - 14), Fin.ext ?_⟩
        change (ofDataStream (id - 14)).dataStream + 14 = id
        rw [dataStream_ofDataStream (by omega)]
        omega
      subst hcol
      have hsum := sum_map_le_single (f := fun o => demandOf column.indexId (output.compactColumn codec codecs o rows).writes)
        all_nodup column (by
          intro o _ hne
          refine (hwor o).demand_other ?_ fun h => hne (dataStream_inj (Nat.add_right_cancel h).symm)
          have := o.dataStream_lt
          change column.dataStream + 14 ≠ o.dataStream
          omega)
      have hr : StreamMap.used state.streams column.indexId + (if inlineIndex column.indexId then pageIndexEntryBytes * capacity (indexIndex column)
          else capacity (indexIndex column)) ≤ streamLimit column.indexId := room_of_remaining hremaining (indexIndex column)
      rw [column.inlineIndex_indexId, if_pos rfl] at hr
      have hdem := (hwor column).index
      omega
  · intro w hw
    rcases mem_append.mp hw with hw | hw
    · exact hcan.placed w hw
    · obtain ⟨column, -, hw⟩ := mem_flatMap.mp hw
      exact (hwor column).placed w hw

end BatchAdmissionAux

open BatchAdmissionAux BundleAux

/-- An admitted batch can be written. -/
structure BatchFits (codec : BundleCodec) (codecs : PageCodecs) (state : WriteState) (output : PageOutput) (rows : List LogRow) : Prop where
  canonical : ∃ writes, output.appendCanonical codec rows.length [] = .ok () writes
  pages : ∀ (column : Column), ∀ page ∈ pagesOf rows, ∀ bytes, column.encodePage codecs page = .ok bytes → bytes.length ≤ u32Max
  workers : ∀ column e writes, output.compactColumn codec codecs column rows [] = .error e writes → e = .invalidData "zstd"
  /-- The workers are threads: the writes made so far are any of the batch, in any order. -/
  writes : ∀ writes : List BundleWrite, writes.Subperm (output.batchWrites codec codecs rows) →
    ∀ e, writes.foldlM (WriteState.write codec) state = .error e → e = "bundle offset overflow"
  streams : ∀ (writes : List BundleWrite) (state' : WriteState), writes.Subperm (output.batchWrites codec codecs rows) →
    writes.foldlM (WriteState.write codec) state = .ok state' →
    ∀ id stream, state'.streams id = some stream → stream.extents.length ≤ maxExtents ∧ stream.inlined.length ≤ indexBytes ∧
      ∀ extent ∈ stream.extents, extent.len ≤ maxExtentBytes
  finish : ∀ (writes : List BundleWrite) (state' : WriteState), writes.Subperm (output.batchWrites codec codecs rows) →
    writes.foldlM (WriteState.write codec) state = .ok state' →
    ∀ e, state'.finish codec output.rows = .error e → e ∉ formatLimits

/-- For all remaining extents and every list of rows, the check admits some first `k` rows. Writing these as one publication to any
bundle with these extents left never meets a limit of the format: what a write can be refused for is a file past the last offset, and
a column's worker stops only where the compressor fails. The check admits nothing only where a stream has no extent left or the first
row does not fit by itself. -/
theorem admitted_batches_fit (codec : BundleCodec) (codecs : PageCodecs) (compressBound : Nat → Nat)
    (hcodecs : codecs.WithinBound compressBound) (capacity : RemainingExtents) (rows : List LogRow) (k : Nat)
    (hk : capacityFromExtents compressBound capacity rows = .ok k) : k ≤ rows.length ∧
    (∀ publications bundle state output, publishAll codec publications = .ok bundle → openBatch codec bundle k = .ok (state, output) →
      remainingExtents state.streams true = .ok capacity → BatchFits codec codecs state output (rows.take k)) ∧
    (k = 0 → (∃ id, capacity id = 0) ∨
      ∀ row ∈ rows.head?, fitsExtents (capacity ⟨Column.data.dataStream, by decide⟩) (compressBound (24 + row.data.length) + 1) = false) := by
  obtain ⟨hle, hadmitted⟩ := capacityLoop_admits _ _ _ _ hk
  refine ⟨hle, ?_, ?_⟩
  · intro publications bundle state output hpub hop hremaining
    obtain ⟨hextends, hwrr⟩ := openBatch_extends hop
    rw [← length_take_of_le hle] at hextends
    obtain ⟨base, bound, hwriting, hori, hs⟩ := (Sound.run publications (sound_empty codec) hpub).writer hwrr
    have hr := batch_hasRoom hcodecs hwriting hextends hremaining hadmitted
    have hsub : ∀ ws : List BundleWrite, ws.Subperm (output.batchWrites codec codecs (rows.take k)) → HasRoom state ws := by
      intro ws hwri
      refine ⟨hr.open_, fun id hid => ?_, fun w hw => hr.placed w (hwri.subset hw)⟩
      exact le_trans (Nat.add_le_add_left (demandOf_subperm hwri id) _) (hr.room id hid)
    refine ⟨?_, ?_, ?_, ?_, ?_, ?_⟩
    · obtain ⟨ws, hrun, -⟩ := appendCanonical_spec hextends hremaining hadmitted codec
      exact ⟨ws, hrun⟩
    · intro column page hp bytes hb
      exact (encoded_within hcodecs (length_le_of_mem_pagesOf hp) (hadmitted.bound page hp) hb).1
    · intro column e ws hrun
      have hsp := compactColumn_spec hcodecs hwriting hextends hremaining hadmitted column []
      unfold wpE at hsp
      rw [hrun] at hsp
      obtain ⟨⟨page, hp, her⟩, -⟩ := hsp
      exact encodePage_error hcodecs (hadmitted.bound page hp) her
    · intro ws hwri
      exact (HasRoom.run ws hwriting hs (hsub ws hwri)).1
    · intro ws st' hwri hrun id st hstr
      obtain ⟨hwr', -, -⟩ := (HasRoom.run ws hwriting hs (hsub ws hwri)).2 st' hrun
      have hok := hwr'.ok.stream id st hstr
      exact ⟨hok.count, hok.index, fun extent hext => (hwr'.ok.extent id st hstr extent hext).bounded⟩
    · intro ws st' hwri hrun e he
      obtain ⟨hwr', hsa, hfai⟩ := (HasRoom.run ws hwriting hs (hsub ws hwri)).2 st' hrun
      have hro : st'.initialRows ≤ output.rows := hsa.initialRows ▸ hextends.initial
      have hmax := rows_le_maxRows hextends hremaining hadmitted
      rcases hori with ⟨-, hori⟩ | ⟨-, hori⟩
      · exact finish_error hwr' (hori.same hsa) hfai hro hmax he
      · exact finish_error hwr' (hori.same hsa) hfai hro hmax he
  · rintro rfl
    rcases capacityLoop_zero hk with hpa | hd | hrow
    · exact .inl (exists_of_pageExtents_min capacity hpa)
    · exact .inl ⟨_, Fin.ext hd⟩
    · refine .inr fun row hmem => ?_
      have hb : pageBytes [row] = 24 + row.data.length := by simp [pageBytes]
      have hf := hrow row hmem
      rwa [pageBound, hb] at hf

namespace BatchAdmissionWitness

/-- A log with four bytes of data. -/
def row : LogRow where
  blockNumber := 7
  blockHash := 1
  timestamp := 1700000000
  txHash := 2
  txIndex := 0
  logIndex := 3
  address := 5
  topic0 := some 9
  topic1 := none
  topic2 := none
  topic3 := none
  data := [1, 2, 3, 4]
  dataLen := 4
  source := .receipt

/-- The bound the compressor's library gives for an input of that size. -/
def libraryBound (size : Nat) : Nat := size + size / 256 + (131072 - size) / 2048

theorem stored_withinBound : PageCodecs.stored.WithinBound libraryBound where
  bounds raw compressed h := by
    cases h
    rw [length_cons]
    unfold libraryBound
    omega
  holds size := by
    unfold libraryBound
    omega
  mono h := by
    unfold libraryBound
    omega
  page := by decide

/-- An untouched bundle. -/
def untouched : RemainingExtents := fun _ => Fin.last maxExtents

/-- Two logs of one transaction. -/
def rows : List LogRow := [row, { row with logIndex := 4, data := [], dataLen := 0 }]

theorem untouched_takes_rows : capacityFromExtents libraryBound untouched rows = .ok 2 := by
  have hmin : (pageExtents untouched).min?.getD 0 = 4095 + 1 := by decide
  rw [capacityFromExtents, hmin, capacityLoop]
  decide

theorem new_bundle_untouched : remainingExtents WriteState.create.streams true = .ok untouched := by
  have hcou : (List.finRange dataStreams).mapM (remainingOf WriteState.create.streams true) =
      .ok (List.replicate dataStreams (Fin.last maxExtents)) := rfl
  refine bind_eq_ok.mpr ⟨_, hcou, congrArg Except.ok (funext fun id => ?_)⟩
  rw [getD_eq_getElem?_getD, getElem?_replicate_of_lt id.isLt]
  rfl

/-- The first two rows of a new bundle are admitted and can be written. -/
theorem first_rows_fit : capacityFromExtents libraryBound untouched rows = .ok 2 ∧
    BatchFits BundleWitness.codec PageCodecs.stored WriteState.create { rows := 2 } rows :=
  ⟨untouched_takes_rows, (admitted_batches_fit BundleWitness.codec PageCodecs.stored libraryBound stored_withinBound untouched rows 2
    untouched_takes_rows).2.1 [] {} _ _ rfl rfl new_bundle_untouched⟩

end BatchAdmissionWitness

end Logex.Page
