import Logex.Primitives

/-!
# Bundles

`bundle.rs`: one append-only file that holds the compressed artifacts of a segment and the tables that describe them. A
publication writes payload extents and ends with a table; the reference to that table, kept by the catalog, is a snapshot. The
tables form the base-8 decomposition of the publication sequence: a table holds only what changed since its parent, and a carry
summarises its group against the captured base of the group.

A file is its list of bytes. Writes of the buffered writer succeed; the checksum and the LZ4 block codec are parameters. Byte
budgets of queries are left out: the writer reads with none.
-/

namespace Logex

open Lib

abbrev Bytes := List UInt8

/-- The third-party functions the format rests on: `crc32fast::hash` and the LZ4 block codec of `lz4_flex`. -/
structure BundleCodec where
  crc32 : Bytes → UInt32
  compress : Bytes → Bytes
  /-- The bytes `decompress_into` writes into a buffer of the given length. -/
  decompressInto : Bytes → Nat → Option Bytes
  /-- A compressed block decompresses into a buffer of its original length. -/
  decompressInto_compress : ∀ bytes, decompressInto (compress bytes) bytes.length = some bytes

/-! ## Format constants -/

/-- `b"LXBND005"`. -/
def fileMagic : Bytes := [76, 88, 66, 78, 68, 48, 48, 53]

/-- `b"LXBT0005"`. -/
def tableMagic : Bytes := [76, 88, 66, 84, 48, 48, 48, 53]

/-- `DATA_STREAMS`: column payloads and page-index entries are append-only; the streams from here on replace. -/
def dataStreams : Nat := 28

/-- `STREAMS`. -/
abbrev streamCount : Nat := 33

def maxExtentBytes : Nat := 1024 * 1024

def maxExtents : Nat := 4096

def maxTableBytes : Nat := 4 * 1024 * 1024

def groupBits : Nat := 3

def maxTableDepth : Nat := 64 / groupBits * (2 ^ groupBits - 1) + 2 ^ (64 % groupBits) - 1

def maxRows : Nat := maxExtents * 16384

def pageIndexEntryBytes : Nat := 24

def indexBytes : Nat := maxExtents * pageIndexEntryBytes

def readAheadBytes : Nat := 64 * 1024

def inlineIndex (id : Nat) : Bool := decide (14 ≤ id ∧ id < 28)

/-! ## References and streams -/

/-- The octal digits of a sequence, added up. A 64-bit number has at most 22 of them. -/
def tableDepthFrom : Nat → Nat → Nat
  | 0, _ => 0
  | fuel + 1, sequence =>
    if sequence = 0 then 0 else sequence % 2 ^ groupBits + tableDepthFrom fuel (sequence / 2 ^ groupBits)

def tableDepth (sequence : Nat) : Nat := tableDepthFrom 22 sequence

/-- `u64::trailing_zeros`, looking at `fuel` bits. -/
def trailingZerosFrom : Nat → Nat → Nat
  | 0, _ => 0
  | fuel + 1, x => if x % 2 = 1 then 0 else 1 + trailingZerosFrom fuel (x / 2)

def trailingZeros (x : Nat) : Nat := trailingZerosFrom 64 x

theorem pow_trailingZerosFrom_dvd (fuel n : Nat) : 2 ^ trailingZerosFrom fuel n ∣ n := by
  induction fuel generalizing n with
  | zero => exact Nat.one_dvd n
  | succ fuel ih =>
    rw [trailingZerosFrom]
    split
    · exact Nat.one_dvd n
    · next hev =>
      have hn : n = 2 * (n / 2) := by omega
      have hh := Nat.mul_dvd_mul_left 2 (ih (n / 2))
      rw [← hn] at hh
      rwa [Nat.add_comm, Nat.pow_succ, Nat.mul_comm]

def tableSpan (sequence : Nat) : Nat := 2 ^ (trailingZeros sequence / groupBits * groupBits)

structure BundleReference where
  sequence : Nat
  rowCount : Nat
  tableOffset : Nat
  /-- Stored record bytes, including the codec and decoded-length header. -/
  tableLen : Nat
  checksum : Nat
  depth : Nat
  /-- Sum of decoded table bytes along the chain. -/
  chainBytes : Nat
deriving DecidableEq, Repr

/-- `BundleReference::end`. -/
def BundleReference.stop (r : BundleReference) : Except String Nat := do
  rejectIf (r.sequence = 0 ∨ maxRows < r.rowCount ∨ r.tableOffset < fileMagic.length ∨ r.tableLen < 5 ∨
    maxTableBytes + 5 < r.tableLen ∨ r.depth = 0 ∨ maxTableDepth < r.depth ∨ r.depth ≠ tableDepth r.sequence ∨
    r.chainBytes < 32 ∨ maxTableBytes < r.chainBytes) "invalid bundle reference"
  okOr "bundle reference overflow" (checkedAdd r.tableOffset r.tableLen)

structure Extent where
  offset : Nat
  len : Nat
  checksum : Nat
deriving DecidableEq, Repr

/-- One past the last byte of an extent. -/
def Extent.stop (e : Extent) : Nat := e.offset + e.len

structure Stream where
  len : Nat := 0
  extents : List Extent := []
  inlined : Bytes := []
deriving DecidableEq, Repr

/-- A stream number the format admits. -/
abbrev StreamId := Fin streamCount

/-- `BTreeMap<u8, Stream>`: both write paths and the decoder reject other keys. -/
abbrev StreamMap := StreamId → Option Stream

/-- The entries of a map in key order. -/
def StreamMap.entries (m : StreamMap) : List (StreamId × Stream) :=
  (List.finRange streamCount).filterMap fun id => (m id).map (id, ·)

/-- `entry(id).or_default()`. -/
def StreamMap.orDefault (m : StreamMap) (id : StreamId) : Stream := (m id).getD {}

/-! ## Tables -/

def encodeReference (r : BundleReference) : Bytes :=
  leBytes 8 r.tableOffset ++ (leBytes 4 r.tableLen ++ (leBytes 4 r.checksum ++ (leBytes 8 r.rowCount ++
    (leBytes 4 r.depth ++ (leBytes 4 r.chainBytes ++ leBytes 8 r.sequence)))))

def encodeExtent (e : Extent) : Bytes :=
  leBytes 8 e.offset ++ (leBytes 4 e.len ++ leBytes 4 e.checksum)

def encodeStream (entry : StreamId × Stream) : Bytes :=
  [UInt8.ofNat entry.1, if inlineIndex entry.1 then 1 else 0, 0, 0] ++ (leBytes 8 entry.2.len ++
    (leBytes 4 entry.2.extents.length ++ (entry.2.inlined ++ entry.2.extents.flatMap encodeExtent)))

def encodeTableBytes (rows sequence : Nat) (streams : StreamMap) (parent : Option BundleReference) : Bytes :=
  tableMagic ++ (leBytes 8 rows ++ (leBytes 8 sequence ++ (leBytes 4 streams.entries.length ++
    (leBytes 4 (if parent.isSome then 1 else 0) ++ (((parent.map encodeReference).getD []) ++
      streams.entries.flatMap encodeStream)))))

def encodeTable (rows sequence : Nat) (streams : StreamMap) (parent : Option BundleReference) : Except String Bytes := do
  let bytes := encodeTableBytes rows sequence streams parent
  rejectIf (maxTableBytes < bytes.length) "bundle table exceeds its bound"
  return bytes

variable (codec : BundleCodec) (file : Bytes) (state : WriteState)

/-- The checksummed record around a table; compression is kept only where it shortens the table. -/
def encodeRecord (bytes : Bytes) : Bytes :=
  let compressed := codec.compress bytes
  let coded : UInt8 × Bytes := if compressed.length < bytes.length then (1, compressed) else (0, bytes)
  [coded.1] ++ (leBytes 4 bytes.length ++ coded.2)

def cursorTake (n : Nat) : Parser String Bytes := Parser.take "truncated bundle table" n

def cursorU32 : Parser String Nat := Parser.uint "truncated bundle table" 4

def cursorU64 : Parser String Nat := Parser.uint "truncated bundle table" 8

/-- The payload of a record, by its codec byte and decoded length. -/
def decodePayload (kind : Bytes) (len : Nat) (payload : Bytes) : Except String Bytes :=
  if kind = [0] ∧ payload.length = len then .ok payload
  else if kind = [1] ∧ payload.length < len then do
    let bytes ← okOr "invalid compressed bundle table" (codec.decompressInto payload len)
    rejectIf (bytes.length ≠ len) "bundle decoded table length mismatch"
    return bytes
  else .error "invalid bundle table record"

/-- `decode_record_accounted`, without a memory budget. -/
def decodeRecord (record : Bytes) (budget : Nat) : Except String Bytes := do
  let (header, payload) ← (do
    let kind ← cursorTake 1
    let len ← cursorU32
    return (kind, len) : Parser String (Bytes × Nat)) record
  rejectIf (header.2 < 32 ∨ maxTableBytes < header.2 ∨ budget < header.2) "bundle decoded table exceeds its bound"
  decodePayload codec header.1 header.2 payload

def decodeReference : Parser String BundleReference := do
  let tableOffset ← cursorU64
  let tableLen ← cursorU32
  let checksum ← cursorU32
  let rowCount ← cursorU64
  let depth ← cursorU32
  let chainBytes ← cursorU32
  let sequence ← cursorU64
  return { sequence, rowCount, tableOffset, tableLen, checksum, depth, chainBytes }

variable (reference : BundleReference)

/-- The parent link of a delta table, checked against the reference the table was read by. -/
def decodeParent (tableBytes : Nat) : Parser String BundleReference := do
  let parent ← decodeReference
  let stop ← parent.stop
  rejectIf (reference.tableOffset < stop ∨ reference.rowCount < parent.rowCount ∨
    checkedAdd parent.sequence (tableSpan reference.sequence) ≠ some reference.sequence ∨
    parent.depth + 1 ≠ reference.depth ∨ parent.chainBytes + tableBytes ≠ reference.chainBytes)
    "invalid bundle parent reference"
  return parent

/-- What the extent loop of one stream accumulates. -/
structure ExtentScan where
  extents : List Extent := []
  total : Nat := 0
  previousEnd : Nat
deriving DecidableEq, Repr

def decodeExtent (tableOffset : Nat) (scan : ExtentScan) : Parser String ExtentScan := do
  let offset ← cursorU64
  let len ← cursorU32
  let checksum ← cursorU32
  let stop ← okOr "bundle extent overflow" (checkedAdd offset len)
  rejectIf (offset < scan.previousEnd ∨ len = 0 ∨ maxExtentBytes < len ∨ tableOffset < stop)
    "bundle extent is out of bounds or out of order"
  let total ← okOr "bundle logical length overflow" (checkedAdd scan.total len)
  return { extents := scan.extents ++ [{ offset, len, checksum }], total, previousEnd := stop }

/-- What the stream loop accumulates: the streams read so far and the physical ranges of all their extents. -/
structure TableScan where
  streams : StreamMap := fun _ => none
  physical : List Extent := []

variable (reader : BundleReader) (rowCount sequence : Nat) (streams : StreamMap) (id : StreamId) (bytes : Bytes)

/-- The number of one stream entry, its tag bytes checked. -/
def decodeStreamId (head : Bytes) : Except String StreamId :=
  match head with
  | [id, a, b, c] =>
    if h : id.toNat < streamCount then do
      rejectIf (a ≠ (if inlineIndex id.toNat then 1 else 0) ∨ b ≠ 0 ∨ c ≠ 0 ∨ (streams ⟨id.toNat, h⟩).isSome)
        "invalid or duplicated bundle stream"
      return ⟨id.toNat, h⟩
    else .error "invalid or duplicated bundle stream"
  | _ => .error "truncated bundle field"

def decodeInline (len count : Nat) (scan : TableScan) : Parser String TableScan := do
  rejectIf (count ≠ 0 ∨ indexBytes < len) "invalid inline bundle index bound"
  let bytes ← Parser.take "truncated inline bundle index" len
  return { scan with streams := Function.update scan.streams id (some { len, inlined := bytes }) }

def decodeExtents (payloadStart tableOffset : Nat) (id : StreamId) (len count : Nat) (scan : TableScan) :
    Parser String TableScan := do
  rejectIf (maxExtents < count) "bundle extent count exceeds its bound"
  Parser.need "bundle extent count exceeds its bound" (16 * count)
  let extents ← Parser.iterate (decodeExtent tableOffset) count { previousEnd := payloadStart }
  rejectIf (extents.total ≠ len) "bundle stream length mismatch"
  return { streams := Function.update scan.streams id (some { len, extents := extents.extents })
           physical := scan.physical ++ extents.extents }

def decodeStream (payloadStart tableOffset : Nat) (scan : TableScan) : Parser String TableScan := do
  let head ← cursorTake 4
  let id ← decodeStreamId scan.streams head
  let len ← cursorU64
  let count ← cursorU32
  if inlineIndex id then decodeInline id len count scan
  else decodeExtents payloadStart tableOffset id len count scan

/-- `windows(2)` over the sorted ranges finds an overlap. -/
def overlaps : List Extent → Bool
  | a :: b :: rest => decide (b.offset < a.stop) || overlaps (b :: rest)
  | _ => false

/-- `decode_table`, as far as it reads the cursor. -/
def decodeTableBody (tableBytes : Nat) : Parser String (TableScan × Option BundleReference) := do
  let magic ← cursorTake 8
  rejectIf (magic ≠ tableMagic) "bundle table identity mismatch"
  let rows ← cursorU64
  rejectIf (rows ≠ reference.rowCount) "bundle table identity mismatch"
  let sequence ← cursorU64
  rejectIf (sequence ≠ reference.sequence) "bundle table identity mismatch"
  let count ← cursorU32
  let flags ← cursorU32
  rejectIf (streamCount < count ∨ 1 < flags) "invalid bundle stream count or flags"
  if flags = 1 then do
    let parent ← decodeParent reference tableBytes
    let payloadStart ← parent.stop
    let scan ← Parser.iterate (decodeStream payloadStart reference.tableOffset) count {}
    return (scan, some parent)
  else do
    rejectIf (reference.depth ≠ 1 ∨ reference.chainBytes ≠ tableBytes ∨ tableSpan reference.sequence ≠ reference.sequence)
      "invalid full bundle table reference"
    let scan ← Parser.iterate (decodeStream fileMagic.length reference.tableOffset) count {}
    return (scan, none)

def decodeTable (reference : BundleReference) : Except String (StreamMap × Option BundleReference) := do
  -- `bytes.len() as u32`.
  let ((scan, parent), trailing) ← decodeTableBody reference (bytes.length % 2 ^ 32) bytes
  rejectIf (trailing ≠ []) "trailing bundle table bytes"
  rejectIf (overlaps (scan.physical.insertionSort fun a b => a.offset ≤ b.offset)) "bundle extents overlap"
  return (scan.streams, parent)

/-! ## Reading a snapshot -/

/-- `read_exact` after a seek. -/
def readExact (offset len : Nat) : Except String Bytes := do
  rejectIf (file.length < offset + len) "failed to fill whole buffer"
  return (file.drop offset).take len

/-- One table of a chain, read and checked by its reference. -/
def tableAt : Except String (StreamMap × Option BundleReference) := do
  let bytes ← readExact file reference.tableOffset reference.tableLen
  rejectIf ((codec.crc32 bytes).toNat ≠ reference.checksum) "bundle table checksum mismatch"
  let decoded ← decodeRecord codec bytes reference.chainBytes
  decodeTable decoded reference

/-- The tables from a reference back to the full table its chain starts with, newest first. The depth of a reference bounds
the walk: `decode_table` admits only a parent that is one table shallower. -/
def captureTables (codec : BundleCodec) (file : Bytes) :
    Nat → BundleReference → Except String (List (BundleReference × StreamMap))
  | 0, _ => .error "invalid bundle reference"
  | depth + 1, current => do
    let (streams, parent) ← tableAt codec file current
    match parent with
    | none => return [(current, streams)]
    | some parent => do
      let older ← captureTables codec file depth parent
      return (current, streams) :: older

structure StreamBoundary where
  len : Nat
  extents : Nat
  inlined : Nat
deriving DecidableEq, Repr

/-- The table a coming carry will be encoded against: boundaries of the append-only streams, copies of the others. -/
structure GroupBase where
  reference : BundleReference
  data : StreamId → Option StreamBoundary
  metadata : StreamMap

def GroupBase.capture : GroupBase where
  reference := reference
  data := fun id =>
    if id < dataStreams then
      (streams id).map fun stream => ⟨stream.len, stream.extents.length, stream.inlined.length⟩
    else none
  metadata := fun id => if id < dataStreams then none else streams id

/-- A data stream grows by its update; a metadata stream is replaced by it. -/
def mergeStream (update : Stream) : Except String StreamMap :=
  if id < dataStreams then
    match streams id with
    | none => .ok (Function.update streams id (some update))
    | some stream => do
      rejectIf (maxExtents < stream.extents.length + update.extents.length) "bundle extent chain exceeds its bound"
      rejectIf (indexBytes < stream.inlined.length + update.inlined.length) "bundle index chain exceeds its bound"
      let len ← okOr "bundle stream length overflow" (checkedAdd stream.len update.len)
      return Function.update streams id
        (some ⟨len, stream.extents ++ update.extents, stream.inlined ++ update.inlined⟩)
  else .ok (Function.update streams id (some update))

def mergeTable (streams table : StreamMap) : Except String StreamMap :=
  table.entries.foldlM (fun streams entry => mergeStream streams entry.1 entry.2) streams

/-- The sequence a publication after this one will carry. -/
def nextSequence (sequence : Nat) : Nat := (checkedAdd sequence 1).getD 1

/-- What the merge of the captured tables accumulates. -/
structure Captured where
  streams : StreamMap := fun _ => none
  groupBase : Option GroupBase := none

/-- Apply one captured table, and capture the base of the next group when it is this table. -/
def mergeCaptured (acc : Captured) (table : BundleReference × StreamMap) : Except String Captured := do
  let base := nextSequence reference.sequence - tableSpan (nextSequence reference.sequence)
  let streams ← mergeTable acc.streams table.2
  return { streams
           groupBase := if base ≠ reference.sequence ∧ table.1.sequence = base then some (GroupBase.capture table.1 streams)
             else acc.groupBase }

structure ReadWindow where
  offset : Nat := 0
  bytes : Bytes := []
deriving DecidableEq, Repr

structure BundleReader where
  window : ReadWindow := {}
  reference : BundleReference
  streams : StreamMap
  groupBase : Option GroupBase

/-- `BundleReader::open`. -/
def BundleReader.openAt : Except String BundleReader := do
  let stop ← reference.stop
  rejectIf (file.length < stop) "bundle snapshot is truncated"
  let magic ← readExact file 0 8
  rejectIf (magic ≠ fileMagic) "unsupported bundle format"
  let tables ← captureTables codec file reference.depth reference
  let captured ← tables.reverse.foldlM (mergeCaptured reference) {}
  return { reference, streams := captured.streams, groupBase := captured.groupBase }

/-- `BundleReader::stream`. -/
def BundleReader.stream (reader : BundleReader) (id : Nat) : Except String Stream :=
  okOr "missing bundle stream" (if h : id < streamCount then reader.streams ⟨id, h⟩ else none)

/-- Fetch the window an extent is read through, unless the cached one covers it. -/
def ReadWindow.fetch (window : ReadWindow) (extent : Extent) (snapshotEnd : Nat) (readAhead : Bool) : Except String ReadWindow :=
  if extent.offset < window.offset ∨ window.offset + window.bytes.length < extent.stop then do
    let offset := if readAhead then extent.offset / readAheadBytes * readAheadBytes else extent.offset
    let windowEnd :=
      if readAhead then min (max (saturatingAdd offset readAheadBytes) extent.stop) snapshotEnd else extent.stop
    let bytes ← readExact file offset (windowEnd - offset)
    return ⟨offset, bytes⟩
  else .ok window

/-- `ReadWindow::read_extent`: even a partial selection checks its whole extent. -/
def ReadWindow.readExtent (window : ReadWindow) (extent : Extent) (snapshotEnd : Nat)
    (readAhead : Bool) : Except String (Bytes × ReadWindow) := do
  let window ← window.fetch file extent snapshotEnd readAhead
  let bytes := (window.bytes.drop (extent.offset - window.offset)).take extent.len
  rejectIf ((codec.crc32 bytes).toNat ≠ extent.checksum) "bundle extent checksum mismatch"
  return (bytes, window)

/-- Read ahead only when another extent of the stream is close enough to reuse the window. -/
def readAheadFor (extents : List Extent) (index : Nat) : Bool :=
  match extents[index]?, extents[index + 1]? with
  | some extent, some next => decide (next.offset - extent.offset < 4 * 1024)
  | _, _ => false

/-- `copy_from_slice` at a position of the output. -/
def copyInto (output : Bytes) (destination : Nat) (piece : Bytes) : Bytes :=
  output.take destination ++ piece ++ output.drop (destination + piece.length)

/-- What the extent loop of a range read carries. -/
structure RangeScan where
  output : Bytes
  logical : Nat
  window : ReadWindow

/-- One turn of the extent loop. -/
def readRangeStep (snapshotEnd start stop : Nat) (extents : List Extent)
    (scan : RangeScan) (entry : Extent × Nat) : Except String RangeScan :=
  let next := scan.logical + entry.1.len
  let lo := max start scan.logical
  let hi := min stop next
  if lo < hi then do
    let (bytes, window) ← scan.window.readExtent codec file entry.1 snapshotEnd (readAheadFor extents entry.2)
    return { output := copyInto scan.output (lo - start) ((bytes.drop (lo - scan.logical)).take (hi - lo))
             logical := next, window }
  else .ok { scan with logical := next }

/-- The extent loop; it stops once the range is complete. -/
def readRangeLoop (codec : BundleCodec) (file : Bytes) (snapshotEnd start stop : Nat) (extents : List Extent) :
    List (Extent × Nat) → RangeScan → Except String RangeScan
  | [], scan => .ok scan
  | entry :: entries, scan => do
    let scan ← readRangeStep codec file snapshotEnd start stop extents scan entry
    if stop ≤ scan.logical then return scan
    else readRangeLoop codec file snapshotEnd start stop extents entries scan

/-- The logical end of every extent, from a logical start. -/
def logicalEnds : Nat → List Extent → List Nat
  | _, [] => []
  | logical, extent :: extents => (logical + extent.len) :: logicalEnds (logical + extent.len) extents

/-- Where the extent loop starts: page selections do not rescan every preceding extent. -/
def firstExtent (extents : List Extent) (start : Nat) : Nat × Nat :=
  if start ≠ 0 ∧ 32 ≤ extents.length then
    let ends := logicalEnds 0 extents
    let first := (ends.takeWhile fun stop => decide (stop ≤ start)).length
    (first, if first = 0 then 0 else ends.getD (first - 1) 0)
  else (0, 0)

/-- `BundleReader::read_range`, with the reader whose window it leaves behind. -/
def BundleReader.readRange (id start stop : Nat) : Except String (Bytes × BundleReader) := do
  let stream ← reader.stream id
  rejectIf (stop < start ∨ stream.len < stop) "bundle stream range is out of bounds"
  if inlineIndex id then return ((stream.inlined.drop start).take (stop - start), reader)
  else do
    let (first, logical) := firstExtent stream.extents start
    let snapshotEnd ← reader.reference.stop
    let scan ← readRangeLoop codec file snapshotEnd start stop stream.extents (stream.extents.zipIdx.drop first)
      { output := List.replicate (stop - start) 0, logical, window := reader.window }
    return (scan.output, { reader with window := scan.window })

/-- `BundleReader::read_stream`. -/
def BundleReader.readStream (id : Nat) : Except String (Bytes × BundleReader) := do
  let stream ← reader.stream id
  reader.readRange codec file id 0 stream.len

/-- `BundleReader::verify_all`: every extent of every stream is read, through windows fetched during this pass. -/
def BundleReader.verifyAll : Except String BundleReader :=
  (List.finRange streamCount).foldlM (fun reader id =>
    if (reader.streams id).isSome then Prod.snd <$> reader.readStream codec file id else .ok reader) { reader with window := {} }

/-! ## Writing a snapshot -/

structure WriteState where
  file : Bytes
  offset : Nat
  initialRows : Nat
  streams : StreamMap := fun _ => none
  updates : StreamMap := fun _ => none
  parent : Option BundleReference
  groupBase : Option GroupBase
  failed : Bool := false

/-- `BundleWriter::create`. -/
def WriteState.create : WriteState where
  file := fileMagic
  offset := fileMagic.length
  initialRows := 0
  parent := none
  groupBase := none

/-- `BundleWriter::append_inspected`, on the file the reader inspected. -/
def WriteState.appendInspected : Except String WriteState := do
  let offset ← reader.reference.stop
  rejectIf (file.length ≠ offset) "unpublished bundle tail; recover before appending"
  return { file, offset, initialRows := reader.reference.rowCount, streams := reader.streams
           parent := some reader.reference, groupBase := reader.groupBase }

/-- `chunks(size)`, given at least as much fuel as there are bytes. -/
def chunksFrom (size : Nat) : Nat → Bytes → List Bytes
  | 0, _ => []
  | _ + 1, [] => []
  | fuel + 1, b :: bytes => (b :: bytes).take size :: chunksFrom size fuel ((b :: bytes).drop size)

def chunks (size : Nat) (bytes : Bytes) : List Bytes := chunksFrom size bytes.length bytes

/-- The extents a list of chunks becomes when it is written at an offset. -/
def extentsAt (codec : BundleCodec) : Nat → List Bytes → List Extent
  | _, [] => []
  | offset, chunk :: rest => ⟨offset, chunk.length, (codec.crc32 chunk).toNat⟩ :: extentsAt codec (offset + chunk.length) rest

/-- Index bytes live in the table: they are appended to the stream and to this publication's update of it. -/
def WriteState.appendInline : WriteState :=
  let grow (stream : Stream) : Stream :=
    { stream with inlined := stream.inlined ++ bytes, len := stream.len + bytes.length }
  { state with
    streams := Function.update state.streams id (some (grow (StreamMap.orDefault state.streams id)))
    updates := Function.update state.updates id (some (grow (StreamMap.orDefault state.updates id))) }

/-- Payload bytes go to the end of the file; a replacement forgets the extents it replaces. -/
def WriteState.appendPayload (replace : Bool) (len : Nat) : WriteState :=
  let appended := extentsAt codec state.offset (chunks maxExtentBytes bytes)
  let stream := StreamMap.orDefault state.streams id
  let update := StreamMap.orDefault state.updates id
  { state with
    file := state.file ++ bytes
    offset := state.offset + bytes.length
    streams := Function.update state.streams id
      (some { stream with extents := (if replace then [] else stream.extents) ++ appended, len })
    updates := Function.update state.updates id
      (some { update with extents := (if replace then [] else update.extents) ++ appended
                          len := (if replace then 0 else update.len) + bytes.length }) }

/-- `BundleWriter::write_stream`. -/
def WriteState.writeStream (replace : Bool) : Except String WriteState := do
  rejectIf (state.failed = true) "bundle write failed; reopen at the committed snapshot"
  if inlineIndex id then do
    rejectIf (indexBytes < (StreamMap.orDefault state.streams id).inlined.length + bytes.length)
      "bundle index limit; rotate before appending"
    return state.appendInline id bytes
  else do
    let previous := if replace then {} else StreamMap.orDefault state.streams id
    rejectIf (maxExtents < previous.extents.length + (bytes.length + maxExtentBytes - 1) / maxExtentBytes)
      "bundle extent limit; rotate before appending"
    let len ← okOr "bundle stream length overflow" (checkedAdd previous.len bytes.length)
    let _ ← okOr "bundle offset overflow" (checkedAdd state.offset bytes.length)
    return state.appendPayload codec id bytes replace len

/-- `BundleWriter::append_data`. -/
def WriteState.appendData (id : Nat) (bytes : Bytes) : Except String WriteState :=
  if h : id < dataStreams then state.writeStream codec ⟨id, Nat.lt_trans h (by decide)⟩ bytes false
  else .error "invalid bundle data stream"

/-- `BundleWriter::replace_metadata`. -/
def WriteState.replaceMetadata (id : Nat) (bytes : Bytes) : Except String WriteState :=
  if h : dataStreams ≤ id ∧ id < streamCount then state.writeStream codec ⟨id, h.2⟩ bytes true
  else .error "invalid bundle metadata stream"

/-- The part of one stream that a group summary has to carry. -/
def groupUpdate (base : GroupBase) (id : StreamId) (stream : Stream) : Except String (Option Stream) :=
  if id < dataStreams then
    match base.data id with
    | none => .ok (some stream)
    | some previous => do
      rejectIf (stream.len < previous.len) "bundle group shortened an append-only stream"
      if stream.len = previous.len then return none
      else do
        rejectIf (stream.extents.length < previous.extents) "bundle group shortened its extent prefix"
        rejectIf (stream.inlined.length < previous.inlined) "bundle group shortened its index prefix"
        return some ⟨stream.len - previous.len, stream.extents.drop previous.extents, stream.inlined.drop previous.inlined⟩
  else if base.metadata id ≠ some stream then .ok (some stream)
  else .ok none

def groupUpdates (base : GroupBase) : Except String StreamMap :=
  streams.entries.foldlM (fun (updates : StreamMap) entry => do
    let update ← groupUpdate base entry.1 entry.2
    return match update with
      | some stream => Function.update updates entry.1 (some stream)
      | none => updates) fun _ => none

/-- The table a publication extends: its own parent, the captured base of its group, or none. -/
def WriteState.tableParent (baseSequence : Nat) : Except String (Option BundleReference) :=
  if baseSequence = 0 then .ok none
  else if state.parent.any (fun parent => parent.sequence = baseSequence) then .ok state.parent
  else do
    let base ← okOr "bundle group boundary is missing"
      ((state.groupBase.map (·.reference)).filter fun parent => parent.sequence = baseSequence)
    return some base

/-- The delta against the chosen parent. -/
def WriteState.deltaTable (parent : BundleReference) : Except String Bytes :=
  if state.parent = some parent then encodeTable rowCount sequence state.updates (some parent)
  else do
    let base ← okOr "bundle group boundary is missing" state.groupBase
    let updates ← groupUpdates state.streams base
    encodeTable rowCount sequence updates (some parent)

/-- The decoded bytes of a new table with the fields its reference takes from them. -/
structure ChosenTable where
  sequence : Nat
  bytes : Bytes
  depth : Nat
  chainBytes : Nat
deriving DecidableEq, Repr

/-- A full snapshot of all streams. -/
def WriteState.fullTable : Except String ChosenTable := do
  let bytes ← encodeTable rowCount sequence state.streams none
  return { sequence, bytes, depth := 1, chainBytes := bytes.length }

/-- A delta where the decoded-table budget of its chain allows one. Where it does not, the local counter restarts at a full
snapshot. -/
def WriteState.chooseTable : Option BundleReference → Except String ChosenTable
  | none => state.fullTable rowCount sequence
  | some parent => do
    let bytes ← state.deltaTable rowCount sequence parent
    if parent.chainBytes + bytes.length ≤ maxTableBytes then
      return { sequence, bytes, depth := parent.depth + 1, chainBytes := parent.chainBytes + bytes.length }
    else state.fullTable rowCount 1

/-- The reference to a table written at the end of the file. -/
def WriteState.referenceTo (rowCount : Nat) (table : ChosenTable) : BundleReference where
  sequence := table.sequence
  rowCount := rowCount
  tableOffset := state.offset
  tableLen := (encodeRecord codec table.bytes).length
  checksum := (codec.crc32 (encodeRecord codec table.bytes)).toNat
  depth := table.depth
  chainBytes := table.chainBytes

/-- `BundleWriter::finish`: the reference to the new table and the file that holds it. -/
def WriteState.finish (rowCount : Nat) : Except String (BundleReference × Bytes) := do
  rejectIf (state.failed = true ∨ rowCount < state.initialRows ∨ maxRows < rowCount) "invalid bundle snapshot completion"
  let sequence := (state.parent.map fun parent => nextSequence parent.sequence).getD 1
  let parent ← state.tableParent (sequence - tableSpan sequence)
  let table ← state.chooseTable rowCount sequence parent
  rejectIf (2 ^ 32 ≤ (encodeRecord codec table.bytes).length) "bundle table is too large"
  let reference := state.referenceTo codec rowCount table
  let _ ← reference.stop
  return (reference, state.file ++ encodeRecord codec table.bytes)

/-! ## Publications -/

/-- One write of a publication. -/
inductive BundleWrite where
  | appendData (id : Nat) (bytes : Bytes)
  | replaceMetadata (id : Nat) (bytes : Bytes)
deriving DecidableEq, Repr

/-- The writes of one publication and the row count it finishes with. -/
structure Publication where
  writes : List BundleWrite
  rowCount : Nat
deriving DecidableEq, Repr

/-- A bundle file with the references its publications returned, oldest first. -/
structure PublishedBundle where
  file : Bytes := []
  references : List BundleReference := []
deriving DecidableEq, Repr

def WriteState.write : BundleWrite → Except String WriteState
  | .appendData id bytes => state.appendData codec id bytes
  | .replaceMetadata id bytes => state.replaceMetadata codec id bytes

/-- The writer of the next publication: a new file, or the inspected snapshot of the last reference. -/
def PublishedBundle.writer (bundle : PublishedBundle) : Except String WriteState :=
  match bundle.references.getLast? with
  | none => .ok WriteState.create
  | some reference => do
    let reader ← BundleReader.openAt codec bundle.file reference
    WriteState.appendInspected bundle.file reader

/-- One publication: the writes in order, then `finish`. -/
def PublishedBundle.publish (bundle : PublishedBundle) (publication : Publication) : Except String PublishedBundle := do
  let writer ← bundle.writer codec
  let state ← publication.writes.foldlM (WriteState.write codec) writer
  let (reference, file) ← state.finish codec publication.rowCount
  return { file, references := bundle.references ++ [reference] }

/-- A sequence of publications, from no file at all. -/
def publishAll (publications : List Publication) : Except String PublishedBundle :=
  publications.foldlM (PublishedBundle.publish codec) {}

/-- What `restore_bundled_checkpoint` takes from the other files of the segment and from the streams: the schema and the rows of the
canonical bitmap (`ColumnArtifacts::open`, `PageOutput::inspect`), whether the manifest on disk is that of the catalog, the rows the
catalog counts and the outcome of writing the manifest. -/
structure SegmentRecovery where
  inspect : BundleReader → Except String (Option Nat)
  manifestIsCurrent : Except String Bool
  rowCount : Nat
  persistManifest : Except String Unit

/-- `restore_bundled_checkpoint`: what follows the last reference is cut off. -/
def PublishedBundle.restore (recovery : SegmentRecovery) (bundle : PublishedBundle) : Except String PublishedBundle := do
  let reference ← okOr "missing catalog bundle reference" bundle.references.getLast?
  let reader ← BundleReader.openAt codec bundle.file reference
  let canonical ← recovery.inspect reader
  let stop ← reference.stop
  let current ← recovery.manifestIsCurrent
  if bundle.file.length = stop ∧ current then return bundle
  let _ ← reader.verifyAll codec bundle.file
  let canonical ← okOr "missing canonical prefix" canonical
  rejectIf (canonical ≠ recovery.rowCount) "immutable canonical bitmap does not match the catalog"
  recovery.persistManifest
  return { bundle with file := bundle.file.take stop }

/-- What happens to a bundle: a publication whose reference is never committed leaves bytes at its end. -/
inductive BundleEvent where
  | publish (publication : Publication)
  | interrupt (tail : Bytes)
  | restore (recovery : SegmentRecovery)

/-- The bundle and its completed publications after an event. A first publication that stops leaves no bundle. -/
def BundleEvent.step (state : PublishedBundle × List Publication) : BundleEvent → PublishedBundle × List Publication
  | publish publication =>
    ((state.1.publish codec publication).toOption.map fun bundle => (bundle, state.2 ++ [publication])).getD state
  | interrupt tail => if state.1.references = [] then state else ({ state.1 with file := state.1.file ++ tail }, state.2)
  | restore recovery => ((state.1.restore codec recovery).toOption.getD state.1, state.2)

end Logex
