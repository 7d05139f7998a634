import Logex.Lib.BitSet
import Logex.Page.Pages
import Logex.Types

/-!
# Columns of a bundled segment

`segment.rs` writes the rows of one publication column by column: each worker encodes its column page by page into a data stream,
appends the entries of these pages to an index stream and, for a topic, replaces a row bitmap. An append starts from the inspected
prefix of the bundle. Before anything is written, `capacity_from_extents` decides how many rows the bundle can still take.

The manifest of a bundled segment selects the canonical descriptor of every column, so a column stands for its artifact paths.
-/

namespace Logex.Page

open Lib

/-! ## Row bitmaps -/

/-- `NullBitmap`: one bit for each row, eight to a byte, lowest bit first. -/
structure NullBitmap where
  bits : Bytes := []
  len : Nat := 0
  size : bits.length = (len + 7) / 8 := by decide
deriving DecidableEq, Repr

namespace NullBitmap

variable (bitmap : NullBitmap)

/-- The bytes of a bitmap with room for one more row. -/
def grown : Bytes :=
  if bitmap.bits.length ≤ bitmap.len / 8 then bitmap.bits ++ [0] else bitmap.bits

theorem length_grown (bm : NullBitmap) : bm.grown.length = (bm.len + 1 + 7) / 8 := by
  have hs := bm.size
  unfold grown
  split
  · rw [List.length_append, List.length_singleton]
    omega
  · omega

def push (present : Bool) : NullBitmap where
  bits := if present then setBit bitmap.grown bitmap.len else bitmap.grown
  len := bitmap.len + 1
  size := by
    rw [← bitmap.length_grown]
    split
    · exact length_setBit _ _
    · rfl

def isPresent (row : Nat) : Bool := testBit bitmap.bits row

def writeTo : Bytes := leBytes 8 bitmap.len ++ bitmap.bits

/-- `NullBitmap::read_from`: padding bits are outside the declared rows and are cleared. -/
def readFrom (data : Bytes) : Option NullBitmap :=
  let len := ofLeBytes (data.take 8)
  let bits := (data.drop 8).take ((len + 7) / 8)
  if h : 8 ≤ data.length ∧ bits.length = (len + 7) / 8 then
    some {
      bits := if len % 8 = 0 then bits else bits.modify (bits.length - 1) (· &&& UInt8.ofNat (2 ^ (len % 8) - 1))
      len
      size := by
        rw [← h.2]
        split
        · rfl
        · exact List.length_modify ..
    }
  else none

end NullBitmap

/-! ## Bitmaps in a bundle -/

def bitmapBytes (rows : Nat) : Except PageError Nat := do
  rejectIf (maxRows < rows) (.invalidData "bundled bitmap row count exceeds its bound")
  return 8 + (rows + 7) / 8

def encodeBitmap (codec : BundleCodec) (bytes : Bytes) (rows : Nat) : Except PageError Bytes := do
  let expected ← bitmapBytes rows
  rejectIf (bytes.length ≠ expected ∨ bytes.take 8 ≠ leBytes 8 rows) (.invalidData "bundled bitmap row count mismatch")
  let compressed := codec.compress bytes
  return if compressed.length < bytes.length then 1 :: compressed else 0 :: bytes

/-- The bytes behind the tag of a bitmap artifact. -/
def decodeBitmapPayload (codec : BundleCodec) (encoded : Bytes) (expected : Nat) : Except PageError Bytes :=
  match encoded with
  | 0 :: bytes => do
    rejectIf (bytes.length ≠ expected) (.invalidData "invalid bundled bitmap encoding")
    return bytes
  | 1 :: bytes => do
    let output ← okOr (.invalidData "invalid compressed bundled bitmap") (codec.decompressInto bytes expected)
    rejectIf (output.length ≠ expected) (.invalidData "bundled bitmap length mismatch")
    return output
  | _ => .error (.invalidData "invalid bundled bitmap encoding")

def decodeBitmap (codec : BundleCodec) (encoded : Bytes) (rows : Nat) : Except PageError Bytes := do
  let expected ← bitmapBytes rows
  rejectIf (expected + 1 < encoded.length) (.invalidData "bundled bitmap exceeds its bound")
  let bytes ← decodeBitmapPayload codec encoded expected
  rejectIf (bytes.take 8 ≠ leBytes 8 rows) (.invalidData "bundled bitmap row count mismatch")
  return bytes

/-! ## Columns and their streams -/

inductive Column where
  | address
  | blockNumber
  | blockHash
  | timestamp
  | txHash
  | txIndex
  | logIndex
  | dataLen
  | source
  | topic (index : Fin 4)
  | data
deriving DecidableEq, Repr

namespace Column

/-- `COLUMN_NAMES`, in the order of the stream numbers. -/
def all : List Column :=
  [.address, .blockNumber, .blockHash, .timestamp, .txHash, .txIndex, .logIndex, .dataLen, .source, .topic 0, .topic 1, .topic 2,
    .topic 3, .data]

/-- The position of a column's name, which numbers its data stream. -/
def dataStream : Column → Nat
  | .address => 0
  | .blockNumber => 1
  | .blockHash => 2
  | .timestamp => 3
  | .txHash => 4
  | .txIndex => 5
  | .logIndex => 6
  | .dataLen => 7
  | .source => 8
  | .topic index => 9 + index
  | .data => 13

def indexStream (column : Column) : Nat := column.dataStream + 14

/-- The bitmap stream of a nullable column. -/
def nullStream (index : Fin 4) : Nat := dataStream (.topic index) + 19

/-- `current_column_profile`. -/
def codec : Column → CompressionCodec
  | .address => .adaptiveFixed
  | .blockNumber => .deltaZigZag
  | .blockHash => .adaptiveFixed
  | .timestamp => .deltaOfDelta
  | .txHash => .adaptiveFixed
  | .txIndex => .zstd
  | .logIndex => .zstd
  | .dataLen => .zstd
  | .source => .dictionary
  | .topic _ => .adaptiveFixed
  | .data => .adaptiveBytes

/-- Absent topics are stored as zero bytes. -/
def topicBytes (topic : Option B256) : Bytes := (topic.map FixedBytes.toBytes).getD (List.replicate 32 0)

/-- One page of a column. -/
def encodePage (codecs : PageCodecs) (column : Column) (rows : List LogRow) : Except PageError Bytes :=
  match column with
  | .address => encodeFixedWidthPage codecs (rows.flatMap fun row => FixedBytes.toBytes row.address) 20 column.codec
  | .blockNumber => encodeU64Page codecs (rows.map fun row => BitVec.ofNat 64 row.blockNumber) column.codec
  | .blockHash => encodeFixedWidthPage codecs (rows.flatMap fun row => FixedBytes.toBytes row.blockHash) 32 column.codec
  | .timestamp => encodeU64Page codecs (rows.map fun row => BitVec.ofNat 64 row.timestamp) column.codec
  | .txHash => encodeFixedWidthPage codecs (rows.flatMap fun row => FixedBytes.toBytes row.txHash) 32 column.codec
  | .txIndex => encodeU32Page codecs (rows.map (·.txIndex)) column.codec
  | .logIndex => encodeU32Page codecs (rows.map (·.logIndex)) column.codec
  | .dataLen => encodeU32Page codecs (rows.map (·.dataLen)) column.codec
  | .source => encodeU8Page codecs (rows.map (·.source.toByte)) column.codec
  | .topic index => encodeFixedWidthPage codecs (rows.flatMap fun row => topicBytes (row.topic index)) 32 column.codec
  | .data => encodeVarBytesPage codecs (rows.map (·.data)) column.codec

end Column

/-- `CANONICAL_STREAM`. -/
def canonicalStream : Nat := 32

/-! ## The inspected prefix -/

/-- An error of the bundle reader or writer. -/
def bundleError {α : Type} (result : Except String α) : Except PageError α := result.mapError .invalidData

structure ExistingPages where
  entries : List PageIndexEntry
  encodedBytes : Nat
  nulls : Option NullBitmap
deriving DecidableEq, Repr

/-- `ColumnArtifacts::read` of a page index. -/
def readIndexArtifact (codec : BundleCodec) (file : Bytes) (reader : BundleReader) (column : Column) : Except PageError Bytes := do
  let stream ← bundleError (reader.stream column.indexStream)
  rejectIf (indexBytes < stream.len ∨ stream.len % pageIndexEntryBytes ≠ 0) (.invalidData "bundled page index exceeds its bound")
  let (bytes, _) ← bundleError (reader.readStream codec file column.indexStream)
  framePageIndex bytes

/-- `ColumnArtifacts::read` of a bitmap. -/
def readBitmapArtifact (codec : BundleCodec) (file : Bytes) (reader : BundleReader) (id : Nat) : Except PageError Bytes := do
  let stream ← bundleError (reader.stream id)
  let expected ← bitmapBytes reader.reference.rowCount
  rejectIf (expected + 1 < stream.len) (.invalidData "bundled bitmap exceeds its bound")
  let (bytes, _) ← bundleError (reader.readStream codec file id)
  decodeBitmap codec bytes reader.reference.rowCount

def parseBitmapPrefix (bytes : Bytes) (rows : Nat) : Except PageError NullBitmap := do
  let bitmap ← okOr (.invalidData "invalid bitmap") (NullBitmap.readFrom bytes)
  rejectIf (bitmap.len < rows ∨ bytes.length ≠ 8 + (bitmap.len + 7) / 8)
    (.invalidData "bitmap does not match the committed row count")
  return bitmap

/-- What the entry loop of `inspect` carries: the rows and bytes the entries cover, and how many there were. -/
structure PrefixScan where
  rows : Nat := 0
  offset : Nat := 0
  entries : Nat := 0
deriving DecidableEq, Repr

/-- The loop over the entries of one index; it stops where the committed rows end. -/
def scanEntries (rowCount : Nat) : List PageIndexEntry → PrefixScan → Except PageError PrefixScan
  | [], scan => .ok scan
  | entry :: rest, scan =>
    if scan.rows = rowCount then .ok scan
    else do
      rejectIf (entry.firstRow ≠ scan.rows ∨ entry.offset ≠ scan.offset ∨ entry.rowCount = 0 ∨ maxPageRows < entry.rowCount ∨
        entry.encodedLen = 0) (.invalidData "page index does not describe a contiguous prefix")
      let rows ← okOr (.invalidData "page row overflow") (checkedAdd scan.rows entry.rowCount)
      let offset ← okOr (.invalidData "page offset overflow") (checkedAdd scan.offset entry.encodedLen)
      scanEntries rowCount rest ⟨rows, offset, scan.entries + 1⟩

/-- The bitmap of a nullable column. -/
def inspectNulls (codec : BundleCodec) (file : Bytes) (reader : BundleReader) : Column → Except PageError (Option NullBitmap)
  | .topic index => do
    let bytes ← readBitmapArtifact codec file reader (Column.nullStream index)
    let bitmap ← parseBitmapPrefix bytes reader.reference.rowCount
    return some bitmap
  | _ => .ok none

/-- One column of `PageOutput::inspect`, for a bundle. -/
def inspectColumn (codec : BundleCodec) (file : Bytes) (reader : BundleReader) (column : Column) : Except PageError ExistingPages := do
  let rowCount := reader.reference.rowCount
  let index ← readIndexArtifact codec file reader column
  let entries ← readPageIndex index
  let scan ← scanEntries rowCount entries {}
  let stream ← bundleError (reader.stream column.dataStream)
  rejectIf (scan.rows ≠ rowCount ∨ stream.len < scan.offset) (.invalidData "page prefix length does not match the manifest")
  let nulls ← inspectNulls codec file reader column
  rejectIf (scan.entries ≠ entries.length ∨ stream.len ≠ scan.offset ∨ ∃ bitmap ∈ nulls, bitmap.len ≠ scan.rows)
    (.invalidData "bundle streams do not match their immutable row boundary")
  return { entries := entries.take scan.entries, encodedBytes := scan.offset, nulls }

/-- What the column workers of one publication share: the prefix they append to and the rows the bundle has afterwards. -/
structure PageOutput where
  existingRows : Nat := 0
  previous : List (Column × ExistingPages) := []
  canonical : NullBitmap := {}
  rows : Nat
deriving DecidableEq, Repr

namespace PageOutput

/-- `previous.get(name)`. -/
def existing (output : PageOutput) (column : Column) : Option ExistingPages := output.previous.lookup column

/-- `PageOutput::append`, for a bundle: the inspection of the captured prefix. -/
def append (codec : BundleCodec) (file : Bytes) (reader : BundleReader) (rowCount : Nat) : Except PageError PageOutput := do
  let existingRows := reader.reference.rowCount
  let rows ← okOr (.invalidData "row count exceeds segment addressing") ((checkedAdd existingRows rowCount).filter (· ≤ u32Max))
  rejectIf (¬∀ id : StreamId, (reader.streams id).isSome) (.invalidData "incomplete bundled column streams")
  let previous ← Column.all.mapM fun column => do
    let existing ← inspectColumn codec file reader column
    return (column, existing)
  let bytes ← readBitmapArtifact codec file reader canonicalStream
  let canonical ← parseBitmapPrefix bytes existingRows
  let stop ← bundleError reader.reference.stop
  rejectIf (file.length ≠ stop ∨ canonical.len ≠ existingRows)
    (.invalidData "compacted segment has an unpublished tail; reopen before appending")
  return { existingRows, previous, canonical, rows }

end PageOutput

/-! ## Column workers -/

/-- A column worker: it keeps the writes it has made when it stops. -/
abbrev ColumnM := EStateM PageError (List BundleWrite)

/-- Hand one write to the shared bundle writer. -/
def emit (write : BundleWrite) : ColumnM Unit := modify (· ++ [write])

/-- The pages of a column, given at least as much fuel as there are rows. -/
def pagesFrom : Nat → List LogRow → List (List LogRow)
  | 0, _ => []
  | _ + 1, [] => []
  | fuel + 1, row :: rows => (row :: rows).take maxPageRows :: pagesFrom fuel ((row :: rows).drop maxPageRows)

def pagesOf (rows : List LogRow) : List (List LogRow) := pagesFrom rows.length rows

namespace PageOutput

variable (codec : BundleCodec) (codecs : PageCodecs) (output : PageOutput) (column : Column)

/-- One encoded page with its index entry. -/
def encodeEntry (start offset : Nat) (page : List LogRow) : Except PageError (Bytes × PageIndexEntry) := do
  let encoded ← column.encodePage codecs page
  rejectIf (u32Max < encoded.length) (.invalidInput "encoded page exceeds page-index length")
  let firstRow ← okOr (.invalidInput "page row offset overflow") (checkedAdd output.existingRows start)
  let _ ← okOr (.invalidInput "page byte offset overflow") (checkedAdd offset encoded.length)
  return (encoded, { firstRow, rowCount := page.length, offset, encodedLen := encoded.length })

/-- The page loop of `write_pages`; it returns the index entries. -/
def writePageLoop (start offset : Nat) : List (List LogRow) → ColumnM (List PageIndexEntry)
  | [] => pure []
  | page :: pages => do
    let (encoded, entry) ← attempt (output.encodeEntry codecs column start offset page)
    emit (.appendData column.dataStream encoded)
    let entries ← writePageLoop (start + page.length) (offset + encoded.length) pages
    return entry :: entries

/-- `write_pages`, into a bundle. A new empty column still owns a zero-length data stream. -/
def writePages (rows : List LogRow) : ColumnM Unit := do
  let previous := output.existing column
  runIf (rows = [] ∧ previous = none) (emit (.appendData column.dataStream []))
  let entries ← output.writePageLoop codecs column 0 ((previous.map (·.encodedBytes)).getD 0) (pagesOf rows)
  emit (.appendData column.indexStream ((writePageIndex entries).drop pageIndexHeaderBytes))

def previousNulls : Except PageError NullBitmap :=
  match output.existing column with
  | some previous => okOr (.invalidData "nullable column is missing its bitmap") previous.nulls
  | none => .ok {}

/-- `PageOutput::metadata`, into a bundle. -/
def metadata (id : Nat) (bitmap : NullBitmap) : ColumnM Unit := do
  let encoded ← attempt (encodeBitmap codec bitmap.writeTo output.rows)
  emit (.replaceMetadata id encoded)

/-- The worker of one column. -/
def compactColumn (rows : List LogRow) : ColumnM Unit :=
  match column with
  | .topic index => do
    let previous ← attempt (output.previousNulls (.topic index))
    output.writePages codecs (.topic index) rows
    output.metadata codec (Column.nullStream index) (rows.foldl (fun nulls row => nulls.push (row.topic index).isSome) previous)
  | other => output.writePages codecs other rows

/-- `append_canonical`. -/
def appendCanonical (count : Nat) : ColumnM Unit :=
  output.metadata codec canonicalStream ((List.replicate count true).foldl NullBitmap.push output.canonical)

end PageOutput

/-- What a worker has written when it stops. -/
def ColumnM.writes {α : Type} (worker : ColumnM α) : List BundleWrite :=
  match worker [] with
  | .ok _ writes => writes
  | .error _ writes => writes

/-- The writes of one publication: the canonical bitmap, then the columns, whose workers run side by side. -/
def PageOutput.batchWrites (codec : BundleCodec) (codecs : PageCodecs) (output : PageOutput) (rows : List LogRow) : List BundleWrite :=
  (output.appendCanonical codec rows.length).writes ++
    Column.all.flatMap fun column => (output.compactColumn codec codecs column rows).writes

/-- The writer of the next publication with the prefix it appends to: a new bundle, or the inspected snapshot of the last
reference. -/
def openBatch (codec : BundleCodec) (bundle : PublishedBundle) (rowCount : Nat) : Except PageError (WriteState × PageOutput) :=
  match bundle.references.getLast? with
  | none => .ok (WriteState.create, { rows := rowCount })
  | some reference => do
    let reader ← bundleError (BundleReader.openAt codec bundle.file reference)
    let output ← PageOutput.append codec bundle.file reader rowCount
    let state ← bundleError (WriteState.appendInspected bundle.file reader)
    return (state, output)

/-! ## Capacity -/

/-- Remaining extents of the append-only streams. -/
abbrev RemainingExtents := Fin dataStreams → Fin (maxExtents + 1)

/-- One stream of `remaining_extents`. -/
def remainingOf (streams : StreamMap) (allowMissing : Bool) (id : Fin dataStreams) : Except String (Fin (maxExtents + 1)) :=
  match streams (id.castLE (by decide)) with
  | none => if allowMissing then .ok (Fin.last maxExtents) else .error "missing bundle data stream"
  | some stream =>
    let used :=
      if inlineIndex id then (stream.inlined.length + pageIndexEntryBytes - 1) / pageIndexEntryBytes else stream.extents.length
    if used ≤ maxExtents then .ok ⟨maxExtents - used, Nat.lt_succ_of_le (Nat.sub_le _ _)⟩
    else .error "bundle extent capacity exceeded"

def remainingExtents (streams : StreamMap) (allowMissing : Bool) : Except String RemainingExtents := do
  let counts ← (List.finRange dataStreams).mapM (remainingOf streams allowMissing)
  return fun id => counts.getD id 0

-- `zstd_safe::compress_bound`, the compressor's worst case for an input of that size.
variable (compressBound : Nat → Nat)

/-- The raw bytes of a page that the capacity check charges: offsets of eight bytes, the payload, and the row count. -/
def checkedPageBytes (page : List LogRow) : Except String Nat :=
  page.foldlM (fun bytes row => okOr "variable page length overflow" (checkedAdd bytes row.data.length)) (16 + page.length * 8)

def checkedBound (rawBytes : Nat) : Except String Nat :=
  okOr "compressed page bound overflow" (checkedAdd (compressBound rawBytes) 1)

/-- `fits`: a page of that size can be stored in the remaining extents and described by its index entry. -/
def fitsExtents (dataExtents bound : Nat) : Bool := decide (bound ≤ dataExtents * maxExtentBytes ∧ bound ≤ u32Max)

/-- Only the final capacity-constrained page needs a row-wise check: the rows taken and the bound of their page. -/
def fitRows (dataExtents : Nat) : List LogRow → (rawBytes count bound : Nat) → Except String (Nat × Nat)
  | [], _, count, bound => .ok (count, bound)
  | row :: rows, rawBytes, count, bound => do
    let next ← okOr "variable page length overflow" ((checkedAdd rawBytes row.data.length).bind (checkedAdd · 8))
    let nextBound ← checkedBound compressBound next
    if fitsExtents dataExtents nextBound then fitRows dataExtents rows next (count + 1) nextBound
    else return (count, bound)

/-- The rows of one page that fit and the bound they are charged with. -/
def fitPage (dataExtents : Nat) (page : List LogRow) : Except String (Nat × Nat) := do
  let rawBytes ← checkedPageBytes page
  let fullBound ← checkedBound compressBound rawBytes
  if fitsExtents dataExtents fullBound then return (page.length, fullBound)
  else fitRows compressBound dataExtents page 16 0 0

/-- The loop of `capacity_from_extents`: the rows accepted from here on. Every turn uses up one of the remaining pages. -/
def capacityLoop : (pages dataExtents : Nat) → List LogRow → Except String Nat
  | 0, _, _ => .ok 0
  | pages + 1, dataExtents, rows =>
    if rows = [] ∨ dataExtents = 0 then .ok 0
    else do
      let (count, bound) ← fitPage compressBound dataExtents (rows.take maxPageRows)
      if count < maxPageRows then return count
      else do
        let accepted ← capacityLoop pages (dataExtents - (bound + maxExtentBytes - 1) / maxExtentBytes) (rows.drop count)
        return count + accepted

/-- The extents of every stream but the variable data, of which each page uses one. -/
def pageExtents (capacity : RemainingExtents) : List Nat :=
  ((List.finRange dataStreams).filter fun id => decide (id.val ≠ Column.data.dataStream)).map fun id => (capacity id).val

def capacityFromExtents (capacity : RemainingExtents) (rows : List LogRow) : Except String Nat :=
  capacityLoop compressBound ((pageExtents capacity).min?.getD 0) (capacity ⟨Column.data.dataStream, by decide⟩) rows

end Logex.Page
