import Logex.Index.Bloom
import Logex.Index.BTree

/-!
# Verification of derived indexes

`verification.rs`: the comparison of a derived index with the source columns it was captured for. Nothing is rebuilt: every posting is
compared with its source row, and every source row that has a key must have been seen.
-/

namespace Logex

open Lib

/-! ## Fields and columns -/

/-- The columns an index key is made of. Only the first three topics are declared. -/
inductive Field where
  | address
  | topic (position : Fin 3)
  | blockNumber
  | timestamp
  | blockHash
deriving DecidableEq, Repr

namespace Field

def name : Field → String
  | address => "address"
  | topic position => topicColumn position.castSucc
  | blockNumber => "block_number"
  | timestamp => "timestamp"
  | blockHash => "block_hash"

def width : Field → Nat
  | address => 20
  | topic _ => 32
  | blockHash => 32
  | blockNumber => 8
  | timestamp => 8

end Field

/-- `u64::to_be_bytes`. -/
def toBeBytes (value : Nat) : Bytes := FixedBytes.toBytes (BitVec.ofNat (8 * 8) value : FixedBytes 8)

inductive Column where
  | addresses (values : List Address)
  | topics (values : List (Option B256))
  | hashes (values : List B256)
  | numbers (values : List Nat)

namespace Column

def length : Column → Nat
  | addresses values => values.length
  | topics values => values.length
  | hashes values => values.length
  | numbers values => values.length

/-- The column of a field. -/
def ofField (reader : SegmentReader) : Field → Column
  | .address => addresses reader.readAddress
  | .topic position => topics (reader.readTopic position.castSucc)
  | .blockHash => hashes reader.readBlockHash
  | .blockNumber => numbers reader.readBlockNumber
  | .timestamp => numbers reader.readTimestamp

/-- `Column::read`. -/
def read (reader : SegmentReader) (field : Field) (rows : Nat) : Except String Column := do
  let column := ofField reader field
  rejectIf (column.length ≠ rows) s!"source column {field.name} has {column.length} rows, expected {rows}"
  return column

/-- `write_key`: the bytes it copies, or nothing for a null topic. Rows are checked against the column before. -/
def writeKey (column : Column) (row : Nat) : Option Bytes :=
  match column with
  | addresses values => values[row]?.map FixedBytes.toBytes
  | hashes values => values[row]?.map FixedBytes.toBytes
  | numbers values => values[row]?.map toBeBytes
  | topics values => values[row]?.join.map FixedBytes.toBytes

end Column

/-- `source_key`. -/
def sourceKey (row : Nat) : List Column → Option Bytes
  | [] => some []
  | column :: columns => do
    let bytes ← column.writeKey row
    let rest ← sourceKey row columns
    return bytes ++ rest

/-- The fields of each B+ tree index. -/
def artifactFields : String → Option (List Field)
  | "address.bptree" => some [.address]
  | "topic0.bptree" => some [.topic 0]
  | "block_number.bptree" => some [.blockNumber]
  | "timestamp.bptree" => some [.timestamp]
  | "block_hash.bptree" => some [.blockHash]
  | "address_topic0.bptree" => some [.address, .topic 0]
  | "address_topic0_block.bptree" => some [.address, .topic 0, .blockNumber]
  | "topic0_topic1.bptree" => some [.topic 0, .topic 1]
  | "address_topic0_topic1.bptree" => some [.address, .topic 0, .topic 1]
  | "address_topic0_topic2.bptree" => some [.address, .topic 0, .topic 2]
  | _ => none

/-- The width of a key with some fields. -/
def keyWidth (fields : List Field) : Nat := (fields.map Field.width).sum

/-! ## Verification -/

/-- The rows of a bitmap, as they are iterated. -/
def RoaringBitmap.iter (bitmap : RoaringBitmap) : List UInt32 := bitmap.rows.map UInt32.ofNat

section Loops

variable (cancelled : Nat → Bool)

/-- The columns of the fields, one after another. -/
def readColumns (reader : SegmentReader) (rows : Nat) : List Field → VerifyM (List Column)
  | [] => pure []
  | field :: fields => do
    checkCancelled cancelled
    let column ← attempt (Column.read reader field rows)
    let columns ← readColumns reader rows fields
    return column :: columns

variable (rows : Nat) (columns : List Column)

/-- The loop over the rows of one entry. -/
def verifyRows (key : Bytes) : List UInt32 → RoaringBitmap → VerifyM RoaringBitmap
  | [], seen => pure seen
  | row :: rest, seen => do
    runIf (row.toNat % 16384 = 0) (checkCancelled cancelled)
    failIf (rows ≤ row.toNat) "index row ID exceeds source boundary"
    failIf (row.toNat ∈ seen.rows) "index repeats a source row under multiple keys"
    failIf (sourceKey row.toNat columns ≠ some key) s!"index key differs from source row {row}"
    verifyRows key rest (seen.insert row)

/-- The loop over the entries. -/
def verifyEntries : List (Bytes × RoaringBitmap) → RoaringBitmap → VerifyM RoaringBitmap
  | [], seen => pure seen
  | (key, bitmap) :: entries, seen => do
    checkCancelled cancelled
    failIf (bitmap.rows = []) "index contains an empty key entry"
    let seen ← verifyRows cancelled rows columns key bitmap.iter seen
    verifyEntries entries seen

/-- The loop over the source rows. -/
def verifyOmissions (seen : RoaringBitmap) : VerifyM Unit :=
  (List.range rows).forM fun row => do
    runIf (row % 16384 = 0) (checkCancelled cancelled)
    failIf ((sourceKey row columns).isSome ≠ decide (row ∈ seen.rows)) s!"index omits required source row {row}"

end Loops

/-- `verify_captured_artifact` of a B+ tree index. -/
def verifyCapturedIndex (codec : RoaringCodec) (reader : SegmentReader) (file : IndexFile) (fields : List Field)
    (fileId : FixedBytes 16) (cancelled : Nat → Bool) : VerifyM Unit := do
  let rows ← attempt (sourceRows reader)
  let columns ← readColumns cancelled reader rows fields
  let index ← attempt (BTreeIndexReader.openBound codec file fileId)
  failIf (index.keySize ≠ keyWidth fields) "index key width differs from its source fields"
  let seen ← verifyEntries cancelled rows columns index.entries .new
  verifyOmissions cancelled rows columns seen
  checkCancelled cancelled

/-- Read only retained source artifacts. -/
def verifyCapturedArtifact (world : BloomHashes) (codec : RoaringCodec) (reader : SegmentReader) (file : IndexFile) (name : String)
    (fileId : FixedBytes 16) (cancelled : Nat → Bool) : VerifyM Unit := do
  checkCancelled cancelled
  if name = eventBloomFile then EventBloom.verifyCapturedMembership world reader file fileId cancelled
  else if name = erc20EventsBloomFile ∨ name = transferBloomFile then
    TransferBloom.verifyCapturedMembership world reader file name fileId cancelled
  else do
    let fields ← attempt (okOr s!"unknown derived index {name}" (artifactFields name))
    verifyCapturedIndex codec reader file fields fileId cancelled

end Logex
