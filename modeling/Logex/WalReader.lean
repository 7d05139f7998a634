import Logex.Wal

/-!
# Reading the write-ahead log

The reading side of `wal.rs`: the decoder of row payloads and the scan of a log file. A partial final header, or a complete payload
with an incomplete matching checksum, ends the scan; anything else that is incomplete is an error. JSON payloads of older versions go
to `serde_json`, which is a parameter.
-/

namespace Logex

open Lib

/-! ## Row payloads -/

/-- What `read_exact` reports at the end of its input. -/
def unexpectedEof : String := "failed to fill whole buffer"

def readU8 : Parser String UInt8 := do
  let value ← Parser.uint unexpectedEof 1
  return UInt8.ofNat value

def readU32 : Parser String Nat := Parser.uint unexpectedEof 4

def readU64 : Parser String Nat := Parser.uint unexpectedEof 8

def readB256 : Parser String B256 := do
  let value ← Parser.take unexpectedEof 32
  return FixedBytes.ofBytes 32 value

def readAddress : Parser String Address := do
  let value ← Parser.take unexpectedEof 20
  return FixedBytes.ofBytes 20 value

/-- `mask & (1 << index) != 0`. -/
def hasTopic (mask index : UInt8) : Bool := mask &&& (1 <<< index) != 0

def readOptionalB256 (mask index : UInt8) : Parser String (Option B256) :=
  if hasTopic mask index = false then return none
  else do
    let value ← readB256
    return some value

/-- One row of the payload. -/
def decodeRow : Parser String LogRow := do
  let blockNumber ← readU64
  let blockHash ← readB256
  let timestamp ← readU64
  let txHash ← readB256
  let txIndex ← readU32
  let logIndex ← readU32
  let address ← readAddress
  let topics ← readU8
  liftM (rejectIf (topics &&& 0xf0 ≠ 0) "invalid WAL topic mask")
  let topic0 ← readOptionalB256 topics 0
  let topic1 ← readOptionalB256 topics 1
  let topic2 ← readOptionalB256 topics 2
  let topic3 ← readOptionalB256 topics 3
  let dataLen ← readU32
  let encodedDataLen ← readU32
  liftM (rejectIf (dataLen ≠ encodedDataLen) "WAL row data lengths disagree")
  Parser.need "WAL row data exceeds payload or leaves no source byte" (encodedDataLen + 1)
  let data ← Parser.take unexpectedEof encodedDataLen
  let source ← readU8
  let source ← liftM (okOr "invalid WAL row source" (Source.fromByte source))
  return ⟨blockNumber, blockHash, timestamp, txHash, txIndex, logIndex, address, topic0, topic1, topic2, topic3, data, dataLen, source⟩

/-- The rows of a payload, one after another. -/
def decodeRowsFrom : Nat → Parser String (List LogRow)
  | 0 => return []
  | rowCount + 1 => do
    let row ← decodeRow
    let rows ← decodeRowsFrom rowCount
    return row :: rows

/-- A payload of the binary format starts with its magic bytes. -/
def isBinaryPayload (data : Bytes) : Bool := decide (8 ≤ data.length) && decide (data.take 4 = walBinaryMagic)

def decodeRows (fromJson : Bytes → Except String (List LogRow)) (data : Bytes) (rowCount : Nat) : Except String (List LogRow) :=
  if isBinaryPayload data = false then do
    let rows ← fromJson data
    rejectIf (rows.length ≠ rowCount) "WAL JSON row count does not match entry header"
    rejectIf (rows.any (fun row => row.dataLen ≠ row.data.length) = true) "WAL row data_len does not match data bytes"
    return rows
  else do
    let version := ofLeBytes ((data.drop 4).take 4)
    rejectIf (version ≠ walBinaryVersion) s!"unsupported WAL binary version {version}"
    rejectIf ((data.length - 8) / walMinRowBytes < rowCount) "WAL row count exceeds available payload"
    let (rows, rest) ← decodeRowsFrom rowCount (data.drop 8)
    rejectIf (rest ≠ []) "WAL binary payload has trailing bytes"
    return rows

/-! ## Log files -/

/-- The bytes one entry adds to a log. -/
def EncodedWalBatch.frame (batch : EncodedWalBatch) : Bytes :=
  leBytes 4 batch.rowCount ++ leBytes 4 batch.payloadLen ++ batch.serialized ++ leBytes 4 batch.checksum.toNat

structure WalReadLimits where
  maxBytes : Nat
  maxRows : Nat
deriving DecidableEq, Repr

namespace WriteAheadLog

/-- `append`: a batch is validated and encoded before the file is opened. -/
def append (crc32 : Bytes → UInt32) (file : Bytes) (rows : List LogRow) : Except String Bytes := do
  let batch ← EncodedWalBatch.new crc32 rows
  return file ++ batch.frame

variable (crc32 : Bytes → UInt32) (fromJson : Bytes → Except String (List LogRow))

/-- `read_entry_with_limit`: the rows of the next entry and its length, or none for a safe tail. -/
def readEntryWithLimit (remaining : Nat) (remainingRows : Option Nat) : Parser String (Option (List LogRow × Nat)) :=
  if remaining < 8 then do
    let _ ← Parser.take unexpectedEof remaining
    return none
  else do
    let rowCount ← readU32
    let dataLen ← readU32
    liftM (rejectIf (remainingRows.any (fun limit => decide (limit < rowCount)) = true)
      s!"WAL row limit exceeded: frame requires={rowCount}, remaining allowance={remainingRows.getD 0}")
    let payloadRemaining := remaining - 8
    -- The outer header is not checksummed, so a length that runs over the end may conceal later entries.
    liftM (rejectIf (payloadRemaining < dataLen)
      "payload length exceeds remaining WAL bytes; preserve the WAL for inspection")
    let data ← Parser.take unexpectedEof dataLen
    let crcLen := min (payloadRemaining - dataLen) 4
    let storedCrc ← Parser.take unexpectedEof crcLen
    liftM (rejectIf (storedCrc ≠ (leBytes 4 (crc32 data).toNat).take crcLen) "WAL checksum mismatch")
    liftM (rejectIf (remainingRows.isSome = true ∧ data.take 4 ≠ walBinaryMagic)
      "bounded WAL inspection does not decode legacy JSON frames; preserve the WAL for explicit recovery")
    liftM (rejectIf (remainingRows.isSome = true ∧ data.length < 8) "incomplete WAL binary payload header")
    let rows ← liftM (decodeRows fromJson data rowCount)
    if crcLen < 4 then return none
    else return some (rows, 8 + dataLen + 4)

/-- The loop of `read_entries_with_limit`. Every entry is at least twelve bytes long, so the bound is never reached. -/
def readEntriesFrom (fileLen : Nat) (maxRows : Option Nat) : Nat → Nat → List LogRow → Parser String (List LogRow)
  | 0, _, _ => throw "unreachable"
  | fuel + 1, offset, allRows => fun reader =>
    if fileLen ≤ offset then .ok (allRows, reader)
    else
      let remainingRows := maxRows.map fun limit => limit - allRows.length
      match readEntryWithLimit crc32 fromJson (fileLen - offset) remainingRows reader with
      | .error error => .error s!"entry at byte {offset}: {error}"
      | .ok (none, reader) => .ok (allRows, reader)
      | .ok (some (rows, bytesRead), reader) => readEntriesFrom fileLen maxRows fuel (offset + bytesRead) (allRows ++ rows) reader

/-- `read_entries_with_limit`: bytes beyond the snapshot of the length mean that the log grew. -/
def readEntriesWithLimit (reader : Bytes) (fileLen : Nat) (maxRows : Option Nat) : Except String (List LogRow) := do
  let (allRows, rest) ← readEntriesFrom crc32 fromJson fileLen maxRows (fileLen + 1) 0 [] reader
  rejectIf (rest ≠ []) "WAL changed during recovery"
  return allRows

def readEntries (reader : Bytes) (fileLen : Nat) : Except String (List LogRow) := readEntriesWithLimit crc32 fromJson reader fileLen none

/-- `read_all`: a missing log has no rows. -/
def readAll (path : String) : Option Bytes → Except String (List LogRow)
  | none => .ok []
  | some file => (readEntries crc32 fromJson file file.length).mapError fun error => s!"cannot recover WAL {path}: {error}"

/-- `read_existing_bounded` of an ordinary file. -/
def readExistingBounded (path : String) (limits : WalReadLimits) : Option Bytes → Except String (List LogRow)
  | none => .ok []
  | some file => do
    rejectIf (limits.maxBytes < file.length) s!"WAL byte limit exceeded: required={file.length}, limit={limits.maxBytes}"
    (readEntriesWithLimit crc32 fromJson file file.length (some limits.maxRows)).mapError fun error =>
      s!"cannot inspect WAL {path}: {error}"

end WriteAheadLog

end Logex
