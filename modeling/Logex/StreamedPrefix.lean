import Logex.Commitment
import Logex.Stream

/-!
# Row commitments over the resumable stream

`commitment.rs` with the continuation state it really keeps: each field of a row is one write to the stream, and the published
identity is cached whenever the state changes. `PrefixState` keeps the absorbed bytes in place of the continuation state.
-/

namespace Logex

open Lib

/-- The writes of one topic slot. -/
def topicWrites : Option B256 → List Bytes
  | some topic => [[1], FixedBytes.toBytes topic]
  | none => [[0]]

/-- The writes of one row, in the order `extend` makes them. -/
def LogRow.writes (row : LogRow) : List Bytes :=
  [leBytes 8 row.blockNumber, FixedBytes.toBytes row.blockHash, leBytes 8 row.timestamp, FixedBytes.toBytes row.txHash,
    leBytes 4 row.txIndex, leBytes 4 row.logIndex, FixedBytes.toBytes row.address] ++ row.topics.flatMap topicWrites ++
    [leBytes 4 row.dataLen, leBytes 8 row.data.length, row.data, [row.source.toByte]]

/-- The source's `PrefixState`. -/
structure StreamedPrefix where
  namespaceId : FixedBytes 16
  rows : Nat
  stream : StreamState
  root : B256
deriving DecidableEq

namespace StreamedPrefix

variable (core : Blake3) (state : StreamedPrefix) (namespaceId : FixedBytes 16)

/-- What the published identity is the hash of. -/
def preimage (rows : Nat) (stream : StreamState) : Bytes :=
  prefixDomain ++ FixedBytes.toBytes namespaceId ++ leBytes 8 rows ++ leBytes 8 stream.totalBytes ++
    FixedBytes.toBytes (stream.digest core)

def fromParts (rows : Nat) (stream : StreamState) : StreamedPrefix :=
  ⟨namespaceId, rows, stream, core.hash (preimage core namespaceId rows stream)⟩

def empty : StreamedPrefix := fromParts core namespaceId 0 .new

def extend (rows : List LogRow) : Except String StreamedPrefix := do
  let rowCount ← okOr "logical row count overflow" (checkedAdd state.rows rows.length)
  let stream ← state.stream.append core (rows.flatMap LogRow.writes)
  return fromParts core state.namespaceId rowCount stream

def fromRows (rows : List LogRow) : Except String StreamedPrefix :=
  (empty core namespaceId).extend core rows

def validate (rows : Nat) (root : B256) : Except String Unit := do
  rejectIf (state.namespaceId ≠ namespaceId ∨ state.rows ≠ rows ∨ state.root ≠ root)
    "logical append state differs from its published prefix"
  rejectIf ((rows == 0) != (state.stream.totalBytes == 0) ∨
      (checkedMul rows 125).all fun minimum => state.stream.totalBytes < minimum)
    "invalid logical append row/byte boundary"

/-- One turn of the loop of `validate_new_append`: the row joins the bounds, then its end is checked. -/
def checkRow (scan : Nat × Option RowBounds) (row : LogRow) : Except String (Nat × Option RowBounds) := do
  let bounds := match scan.2 with
    | some bounds => bounds.include row
    | none => .fromRow row
  let bytes ← PrefixState.checkedRowEnd scan.1 row.topicCount row.data.length
  return (bytes, some bounds)

def validateNewAppend (root : B256) (rows : List LogRow) : Except String (Option RowBounds) := do
  state.validate namespaceId 0 root
  let _ ← okOr "logical row count overflow" (checkedAdd state.rows rows.length)
  let scan ← rows.foldlM checkRow (state.stream.totalBytes, none)
  return scan.2

/-- `PrefixState::MAX_ENCODED_BYTES`. -/
def maxEncodedBytes : Nat := 24 + maxStreamBytes

def toBytes (state : StreamedPrefix) : Bytes :=
  FixedBytes.toBytes state.namespaceId ++ leBytes 8 state.rows ++ state.stream.toBytes

def fromBytes (core : Blake3) (bytes : Bytes) : Except String StreamedPrefix := do
  rejectIf (¬(24 ≤ bytes.length ∧ bytes.length ≤ maxEncodedBytes)) "invalid logical append state length"
  let stream ← StreamState.fromBytes (bytes.drop 24)
  let state := fromParts core (.ofBytes 16 (bytes.take 16)) (ofLeBytes ((bytes.drop 16).take 8)) stream
  state.validate state.namespaceId state.rows state.root
  return state

end StreamedPrefix

end Logex
