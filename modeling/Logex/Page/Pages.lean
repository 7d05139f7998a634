import Logex.Page.Compression

/-!
# Column pages

`page.rs`: the index of a column's pages and the encoding of one page. Fixed-width pages choose among several representations by size; pages of byte
strings carry a table of offsets before the payload and are read back against the lengths kept in a companion column.
-/

namespace Logex.Page

open Lib

inductive CompressionCodec where
  | none
  | delta
  | deltaZigZag
  | deltaOfDelta
  | dictionary
  | zstd
  | lz4
  | adaptiveFixed
  | adaptiveBytes
deriving DecidableEq, Repr

/-- `{other:?}`. -/
def CompressionCodec.debug : CompressionCodec → String
  | .none => "None"
  | .delta => "Delta"
  | .deltaZigZag => "DeltaZigZag"
  | .deltaOfDelta => "DeltaOfDelta"
  | .dictionary => "Dictionary"
  | .zstd => "Zstd"
  | .lz4 => "Lz4"
  | .adaptiveFixed => "AdaptiveFixed"
  | .adaptiveBytes => "AdaptiveBytes"

/-- `MAX_PAGE_ROWS`. -/
def maxPageRows : Nat := 16384

/-! ## Page index -/

/-- `b"LXPI"`. -/
def pageIndexMagic : Bytes := [76, 88, 80, 73]

def pageIndexVersion : Nat := 1

def pageIndexHeaderBytes : Nat := 12

structure PageIndexEntry where
  firstRow : Nat
  rowCount : Nat
  offset : Nat
  encodedLen : Nat
deriving DecidableEq, Repr

/-- One entry as `write_page_index` lays it out. -/
def PageIndexEntry.toBytes (entry : PageIndexEntry) : Bytes :=
  leBytes 8 entry.firstRow ++ (leBytes 4 entry.rowCount ++ (leBytes 8 entry.offset ++ leBytes 4 entry.encodedLen))

/-- The header of an index of so many entries. -/
def pageIndexHeader (count : Nat) : Bytes := pageIndexMagic ++ (leBytes 4 pageIndexVersion ++ leBytes 4 count)

def writePageIndex (entries : List PageIndexEntry) : Bytes :=
  pageIndexHeader entries.length ++ entries.flatMap PageIndexEntry.toBytes

/-- `frame_page_index`: restore the standard header around a captured entry stream. -/
def framePageIndex (entries : Bytes) : Except PageError Bytes := do
  rejectIf (entries.length % pageIndexEntryBytes ≠ 0) (.invalidData "unaligned page index entries")
  rejectIf (u32Max < entries.length / pageIndexEntryBytes) (.invalidData "page index count overflow")
  return pageIndexHeader (entries.length / pageIndexEntryBytes) ++ entries

/-- The entry whose bytes start the data. -/
def pageIndexEntryAt (data : Bytes) : PageIndexEntry where
  firstRow := ofLeBytes (data.take 8)
  rowCount := ofLeBytes ((data.drop 8).take 4)
  offset := ofLeBytes ((data.drop 12).take 8)
  encodedLen := ofLeBytes ((data.drop 20).take 4)

/-- The loop over the entries. -/
def pageIndexEntries : Nat → Bytes → List PageIndexEntry
  | 0, _ => []
  | count + 1, data => pageIndexEntryAt data :: pageIndexEntries count (data.drop pageIndexEntryBytes)

/-- `read_page_index`. -/
def readPageIndex (data : Bytes) : Except PageError (List PageIndexEntry) := do
  rejectIf (data.length < pageIndexHeaderBytes ∨ data.take 4 ≠ pageIndexMagic) (.invalidData "invalid page index header")
  let version := ofLeBytes ((data.drop 4).take 4)
  rejectIf (version ≠ pageIndexVersion) (.invalidData s!"unsupported page index version: {version}")
  let count := ofLeBytes ((data.drop 8).take 4)
  let expected ← okOr (.invalidData "page index size overflow")
    ((checkedMul count pageIndexEntryBytes).bind (checkedAdd · pageIndexHeaderBytes))
  rejectIf (data.length ≠ expected) (.invalidData "page index length mismatch")
  return pageIndexEntries count (data.drop pageIndexHeaderBytes)

/-! ## Fixed-width pages -/

def adaptiveFixedNone : UInt8 := 0

def adaptiveFixedDictionary : UInt8 := 1

def adaptiveFixedZstd : UInt8 := 2

def adaptiveFixedZstdB256Low20 : UInt8 := 3

def decodedFixedLen (rows width : Nat) : Except PageError Nat :=
  okOr (.invalidData "fixed page size overflow") (checkedMul rows width)

def decodePlainFixedWidthPage (encoded : Bytes) (expected : Nat) : Except PageError Bytes := do
  rejectIf (encoded.length ≠ expected) (.invalidData "decoded fixed-width page has unexpected length")
  return encoded

/-- `usize::saturating_mul`. -/
def saturatingMul (a b : Nat) : Nat := min (a * b) u64Max

/-- The 20-byte tails of 32-byte values whose first 12 bytes are zero. -/
def low20Tails (rawValues : Bytes) (itemSize : Nat) : Option Bytes :=
  if itemSize = 32 ∧ rawValues.length % 32 = 0 ∧ ∀ value ∈ chunksExact 32 rawValues, value.take 12 = List.replicate 12 0 then
    some ((chunksExact 32 rawValues).flatMap (List.drop 12))
  else
    none

variable (codecs : PageCodecs) (rawValues : Bytes) (values : List Bytes) (encoded : Bytes) (rowCount itemSize : Nat)
  (codec : CompressionCodec) (dataLengths : List Nat)

/-- The representations an adaptive page is chosen from, in the order of their tags. -/
def adaptiveCandidates (itemSize : Nat) : Except PageError (List (UInt8 × Bytes)) := do
  let dictionary := dictEncodeRaw rawValues itemSize
  let zstd ← zstdCompress codecs rawValues
  let plain := [(adaptiveFixedNone, rawValues), (adaptiveFixedDictionary, dictionary), (adaptiveFixedZstd, zstd)]
  match low20Tails rawValues itemSize with
  | some tails => do
    let low20 ← zstdCompress codecs tails
    return plain ++ [(adaptiveFixedZstdB256Low20, low20)]
  | none => return plain

def encodeAdaptiveFixedWidthPage (itemSize : Nat) : Except PageError Bytes := do
  let dictionary := dictEncodeRaw rawValues itemSize
  if saturatingMul dictionary.length 4 ≤ saturatingMul rawValues.length 3 then
    return adaptiveFixedDictionary :: dictionary
  let candidates ← adaptiveCandidates codecs rawValues itemSize
  -- `sort_by_key` is stable, so the first of the shortest representations is taken.
  let chosen ← okOr .outOfBounds (candidates.mergeSort fun a b => a.2.length ≤ b.2.length).head?
  return chosen.1 :: chosen.2

def encodeFixedWidthPage (itemSize : Nat) (codec : CompressionCodec) : Except PageError Bytes := do
  rejectIf (itemSize = 0 ∨ rawValues.length % itemSize ≠ 0) (.invalidInput "fixed-width page has invalid item size")
  match codec with
  | .none => return rawValues
  | .dictionary => return dictEncodeRaw rawValues itemSize
  | .zstd => zstdCompress codecs rawValues
  | .lz4 => return lz4CompressPrependSize codecs rawValues
  | .adaptiveFixed => encodeAdaptiveFixedWidthPage codecs rawValues itemSize
  | other => throw (.invalidInput s!"unsupported fixed-width codec: {other.debug}")

def decodeB256Low20Page (payload : Bytes) (rowCount itemSize : Nat) (memory : Option PageBudget) : DecodeM Bytes := do
  failIf (itemSize ≠ 32) (.invalidData "low20 adaptive page can only decode 32-byte values")
  let tailLen ← attempt (decodedFixedLen rowCount 20)
  let tails ← zstdDecompressBoundedAccounted codecs payload tailLen memory
  failIf (tails.length ≠ tailLen) (.invalidData "low20 adaptive page has unexpected length")
  let outputLen ← attempt (decodedFixedLen rowCount 32)
  tryWithCapacity memory outputLen 1 decodeStage
  return (chunksExact 20 tails).flatMap fun tail => List.replicate 12 0 ++ tail

def decodeAdaptiveFixedWidthPage (memory : Option PageBudget) : DecodeM Bytes :=
  match encoded with
  | [] => throw (.invalidData "adaptive page is empty")
  | tag :: payload =>
    if tag = adaptiveFixedNone then do
      let expected ← attempt (decodedFixedLen rowCount itemSize)
      decodeBuffer memory expected 1 decodeStage (decodePlainFixedWidthPage payload expected)
    else if tag = adaptiveFixedDictionary then
      dictDecode payload rowCount itemSize memory
    else if tag = adaptiveFixedZstd then do
      let expected ← attempt (decodedFixedLen rowCount itemSize)
      zstdDecompressBoundedAccounted codecs payload expected memory
    else if tag = adaptiveFixedZstdB256Low20 then
      decodeB256Low20Page codecs payload rowCount itemSize memory
    else
      throw (.invalidData s!"unsupported adaptive fixed-width tag: {tag}")

def decodeFixedWidthPage (memory : Option PageBudget) : DecodeM Bytes := do
  let expected ← attempt (decodedFixedLen rowCount itemSize)
  let raw ← match codec with
    | .none => decodeBuffer memory expected 1 decodeStage (decodePlainFixedWidthPage encoded expected)
    | .dictionary => dictDecode encoded rowCount itemSize memory
    | .zstd => zstdDecompressBoundedAccounted codecs encoded expected memory
    | .lz4 => lz4DecompressBoundedAccounted codecs encoded expected memory
    | .adaptiveFixed => decodeAdaptiveFixedWidthPage codecs encoded rowCount itemSize memory
    | other => throw (.invalidInput s!"unsupported fixed-width codec: {other.debug}")
  failIf (raw.length ≠ expected) (.invalidData "decoded fixed-width page has unexpected length")
  return raw

/-! ## Pages of 64-bit integers -/

def rawU64 (values : List (BitVec 64)) : Bytes := values.flatMap fun value => leBytes 8 value.toNat

def encodeU64Page (values : List (BitVec 64)) (codec : CompressionCodec) : Except PageError Bytes :=
  match codec with
  | .none => .ok (rawU64 values)
  | .delta => .ok (deltaEncode values)
  | .deltaZigZag => .ok (signedDeltaEncode values)
  | .deltaOfDelta => .ok (deltaOfDeltaEncode values)
  | .zstd => zstdCompress codecs (rawU64 values)
  | .lz4 => .ok (lz4CompressPrependSize codecs (rawU64 values))
  | other => .error (.invalidInput s!"unsupported u64 codec: {other.debug}")

def decodePlainU64Page (raw : Bytes) (rowCount : Nat) : Except PageError (List (BitVec 64)) := do
  let expected ← decodedFixedLen rowCount 8
  rejectIf (raw.length ≠ expected) (.invalidData "decoded u64 page has unexpected length")
  return (chunksExact 8 raw).map fun chunk => BitVec.ofNat 64 (ofLeBytes chunk)

def decodeU64Page (rowCount : Nat) (codec : CompressionCodec) (memory : Option PageBudget) : DecodeM (List (BitVec 64)) :=
  match codec with
  | .none => decodeBuffer memory rowCount 8 decodeStage (decodePlainU64Page encoded rowCount)
  | .delta => deltaDecode encoded rowCount memory
  | .deltaZigZag => signedDeltaDecode encoded rowCount memory
  | .deltaOfDelta => deltaOfDeltaDecode encoded rowCount memory
  | .zstd => do
    let limit ← attempt (decodedFixedLen rowCount 8)
    let raw ← zstdDecompressBoundedAccounted codecs encoded limit memory
    decodeBuffer memory rowCount 8 decodeStage (decodePlainU64Page raw rowCount)
  | .lz4 => do
    let limit ← attempt (decodedFixedLen rowCount 8)
    let raw ← lz4DecompressBoundedAccounted codecs encoded limit memory
    decodeBuffer memory rowCount 8 decodeStage (decodePlainU64Page raw rowCount)
  | other => throw (.invalidInput s!"unsupported u64 codec: {other.debug}")

/-! ## Pages of 32-bit integers and of bytes -/

def rawU32 (values : List Nat) : Bytes := values.flatMap (leBytes 4)

def encodeU32Page (values : List Nat) (codec : CompressionCodec) : Except PageError Bytes :=
  match codec with
  | .none => .ok (rawU32 values)
  | .zstd => zstdCompress codecs (rawU32 values)
  | .lz4 => .ok (lz4CompressPrependSize codecs (rawU32 values))
  | other => .error (.invalidInput s!"unsupported u32 codec: {other.debug}")

def encodeU8Page (values : Bytes) (codec : CompressionCodec) : Except PageError Bytes :=
  match codec with
  | .none => .ok values
  | .dictionary => .ok (dictEncodeRaw values 1)
  | .zstd => zstdCompress codecs values
  | .lz4 => .ok (lz4CompressPrependSize codecs values)
  | other => .error (.invalidInput s!"unsupported u8 codec: {other.debug}")

/-! ## Pages of byte strings -/

def adaptiveBytesZstdU64Offsets : UInt8 := 0

def adaptiveBytesZstdU32Offsets : UInt8 := 1

/-- The running ends of a list of byte strings. -/
def runningEnds (offset : Nat) : List Bytes → List Nat
  | [] => []
  | value :: rest => (offset + value.length) :: runningEnds (offset + value.length) rest

/-- `encode_var_bytes_raw_u64` and `_u32`: the row count, the offsets in `width` bytes each, the payload. -/
def encodeVarBytesRaw (width : Nat) (values : List Bytes) : Bytes :=
  leBytes 4 values.length ++ (0 :: runningEnds 0 values).flatMap (leBytes width) ++ values.flatten

def encodeVarBytesRawU64 : Bytes := encodeVarBytesRaw 8 values

def encodeVarBytesRawU32 : Bytes := encodeVarBytesRaw 4 values

def encodeAdaptiveVarBytesPage : Except PageError Bytes := do
  let totalLen ← okOr (.invalidInput "bytes page is too large")
    (values.foldlM (fun total value => checkedAdd total value.length) 0)
  if u32Max < totalLen then
    let compressed ← zstdCompress codecs (encodeVarBytesRawU64 values)
    return adaptiveBytesZstdU64Offsets :: compressed
  let compressed ← zstdCompress codecs (encodeVarBytesRawU32 values)
  return adaptiveBytesZstdU32Offsets :: compressed

def encodeVarBytesPage : Except PageError Bytes :=
  match codec with
  | .adaptiveBytes => encodeAdaptiveVarBytesPage codecs values
  | .none => .ok (encodeVarBytesRawU64 values)
  | .zstd => zstdCompress codecs (encodeVarBytesRawU64 values)
  | .lz4 => .ok (lz4CompressPrependSize codecs (encodeVarBytesRawU64 values))
  | other => .error (.invalidInput s!"unsupported bytes codec: {other.debug}")

/-- Borrowed offsets avoid allocating a second table during page validation. -/
structure BorrowedVarBytes where
  offsets : Bytes
  blob : Bytes
  rowCount : Nat
  narrow : Bool
deriving DecidableEq, Repr

/-- The bytes of one offset. -/
def offsetWidth (narrow : Bool) : Nat := if narrow then 4 else 8

namespace BorrowedVarBytes

variable (page : BorrowedVarBytes)

/-- `encoded_offset`: chunk `row` of the offsets. -/
def encodedOffset (row : Nat) : Except PageError Nat := do
  let chunk ← okOr .outOfBounds (chunksExact (offsetWidth page.narrow) page.offsets)[row]?
  return ofLeBytes chunk

/-- The loop that checks the offsets in order, from `row` on; it returns the last one. -/
def checkOffsets (page : BorrowedVarBytes) : Nat → Nat → Nat → Except PageError Nat
  | 0, _, previous => .ok previous
  | remaining + 1, row, previous => do
    let offset ← page.encodedOffset row
    rejectIf ((row = 0 ∧ offset ≠ 0) ∨ offset < previous ∨ page.blob.length < offset)
      (.invalidData "bytes page offset is out of bounds")
    page.checkOffsets remaining (row + 1) offset

def parse (raw : Bytes) (narrow : Bool) (expectedRows : Option Nat) : Except PageError BorrowedVarBytes := do
  rejectIf (raw.length < 4) (.invalidData "bytes page is truncated")
  let rowCount := ofLeBytes (raw.take 4)
  rejectIf (∃ expected ∈ expectedRows, rowCount ≠ expected) (.invalidData "decoded bytes page has an unexpected row count")
  let blobStart ← okOr (.invalidData "bytes page offsets are truncated")
    (((checkedAdd rowCount 1).bind (checkedMul · (offsetWidth narrow))).bind (checkedAdd · 4) |>.filter (· ≤ raw.length))
  let offsets ← slice raw 4 blobStart
  let page : BorrowedVarBytes := ⟨offsets, raw.drop blobStart, rowCount, narrow⟩
  let last ← page.checkOffsets (rowCount + 1) 0 0
  rejectIf (last ≠ page.blob.length) (.invalidData "bytes page offsets do not cover its exact payload")
  return page

def row (page : BorrowedVarBytes) (row : Nat) : Except PageError Bytes := do
  let start ← page.encodedOffset row
  let stop ← page.encodedOffset (row + 1)
  slice page.blob start stop

/-- The rows of a selection, or all of them. -/
def positions (selection : Option (List Nat)) : List Nat := selection.getD (List.range page.rowCount)

/-- The lengths of the selected rows, added up. -/
def payloadBytes (positions : List Nat) : Except PageError Nat :=
  positions.foldlM (fun total position => do
    let value ← page.row position
    okOr (.invalidData "selected payload size overflow") (checkedAdd total value.length)) 0

/-- The outputs that share one payload: each is the slice at its running start. -/
def sliceOutputs (page : BorrowedVarBytes) (payload : Bytes) : List Nat → Nat → Except PageError (List Bytes)
  | [], _ => .ok []
  | position :: rest, start => do
    let value ← page.row position
    let output ← (if value.length = 0 then .ok [] else slice payload start (start + value.length))
    let outputs ← page.sliceOutputs payload rest (start + value.length)
    return output :: outputs

/-- `size_of::<Bytes>()`. -/
def bytesSize : Nat := 32

def materialize (selection : Option (List Nat)) (memory : Option PageBudget) : DecodeM (List Bytes) := do
  failIf (∃ rows ∈ selection, ∃ row ∈ rows, page.rowCount ≤ row) (.invalidData "bytes page selection is out of bounds")
  let positions := page.positions selection
  tryWithCapacity memory positions.length bytesSize "variable page output"
  if memory.isNone then
    -- Ordinary storage consumers own their values.
    attempt (positions.mapM page.row)
  else
    let bytes ← attempt (page.payloadBytes positions)
    tryWithCapacity memory bytes 1 "variable page payload"
    let payload ← attempt (positions.mapM page.row)
    attempt (page.sliceOutputs payload.flatten positions 0)

end BorrowedVarBytes

/-- The decoded length of a page with offsets of the given width. -/
def rawLen (dataBytes width : Nat) : Except PageError Nat :=
  okOr (.invalidData "bytes page budget overflow")
    ((((checkedAdd dataLengths.length 1).bind (checkedMul · width)).bind (checkedAdd · 4)).bind (checkedAdd · dataBytes))

/-- The decompressed page, and whether its offsets are narrow. -/
def decodeVarBytesRaw (dataBytes : Nat) (memory : Option PageBudget) : DecodeM (Bytes × Bool) :=
  match codec with
  | .adaptiveBytes =>
    match encoded with
    | [] => throw (.invalidData "empty adaptive page")
    | tag :: payload =>
      if tag = adaptiveBytesZstdU64Offsets then do
        let limit ← attempt (rawLen dataLengths dataBytes 8)
        let raw ← zstdDecompressBoundedAccounted codecs payload limit memory
        return (raw, false)
      else if tag = adaptiveBytesZstdU32Offsets then do
        let limit ← attempt (rawLen dataLengths dataBytes 4)
        let raw ← zstdDecompressBoundedAccounted codecs payload limit memory
        return (raw, true)
      else
        throw (.invalidData "invalid adaptive bytes tag")
  | .zstd => do
    let limit ← attempt (rawLen dataLengths dataBytes 8)
    let raw ← zstdDecompressBoundedAccounted codecs encoded limit memory
    return (raw, false)
  | .lz4 => do
    let limit ← attempt (rawLen dataLengths dataBytes 8)
    let raw ← lz4DecompressBoundedAccounted codecs encoded limit memory
    return (raw, false)
  | .none => do
    let limit ← attempt (rawLen dataLengths dataBytes 8)
    failIf (encoded.length ≠ limit) (.invalidData "invalid or oversized bytes page")
    let raw ← decodeBuffer memory encoded.length 1 decodeStage (.ok encoded)
    return (raw, false)
  | _ => throw (.invalidData "invalid or oversized bytes page")

/-- The rows of the page have the lengths of the companion column, from `row` on. -/
def checkRowLengths (page : BorrowedVarBytes) : Nat → List Nat → Except PageError Unit
  | _, [] => .ok ()
  | row, expected :: rest => do
    let value ← page.row row
    rejectIf (value.length ≠ expected) (.invalidData "decoded bytes page differs from its row-length metadata")
    checkRowLengths page (row + 1) rest

/-- `decode_var_bytes_page_selected_accounted`: validate the complete decoded page and every companion length before copying
selected payloads. -/
def decodeVarBytesPageSelected (selection : Option (List Nat)) (memory : Option PageBudget) : DecodeM (List Bytes) := do
  let dataBytes ← attempt (okOr (.invalidData "bytes page budget overflow") (dataLengths.foldlM checkedAdd 0))
  let (raw, narrow) ← decodeVarBytesRaw codecs encoded codec dataLengths dataBytes memory
  let expected ← attempt (rawLen dataLengths dataBytes (offsetWidth narrow))
  failIf (raw.length ≠ expected) (.invalidData "decoded bytes page has an unexpected length")
  let page ← attempt (BorrowedVarBytes.parse raw narrow (some dataLengths.length))
  attempt (checkRowLengths page 0 dataLengths)
  page.materialize selection memory

end Logex.Page
