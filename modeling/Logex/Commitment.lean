import Logex.Types

/-!
# Row commitments

`commitment.rs`: the grouping-independent identity of a segment's logical row prefix. The continuation state of the BLAKE3 stream
is kept as the bytes absorbed so far, of which the digest is a function.
-/

namespace Logex

open Lib

/-- `EVENT_NAMESPACE`: `b"logex.block.v1\0\0"`. -/
def eventNamespace : FixedBytes 16 :=
  .ofBytes 16 [108, 111, 103, 101, 120, 46, 98, 108, 111, 99, 107, 46, 118, 49, 0, 0]

/-- `b"logex.logical-prefix.stream.v2\0"`. -/
def prefixDomain : Bytes :=
  [108, 111, 103, 101, 120, 46, 108, 111, 103, 105, 99, 97, 108, 45, 112, 114, 101, 102, 105, 120, 46, 115, 116, 114, 101, 97,
    109, 46, 118, 50, 0]

def topicTranscript : Option B256 → Bytes
  | some topic => 1 :: FixedBytes.toBytes topic
  | none => [0]

/-- The bytes of one row in the logical encoding. -/
def LogRow.transcript (row : LogRow) : Bytes :=
  leBytes 8 row.blockNumber ++ FixedBytes.toBytes row.blockHash ++ leBytes 8 row.timestamp ++ FixedBytes.toBytes row.txHash ++
    leBytes 4 row.txIndex ++ leBytes 4 row.logIndex ++ FixedBytes.toBytes row.address ++ row.topics.flatMap topicTranscript ++
    leBytes 4 row.dataLen ++ leBytes 8 row.data.length ++ row.data ++ [row.source.toByte]

/-- Bounded append state for the ordered logical rows of one segment. -/
structure PrefixState where
  namespaceId : FixedBytes 16
  rows : Nat
  stream : Bytes
deriving DecidableEq, Repr

namespace PrefixState

variable (blake3 : Bytes → B256) (state : PrefixState) (namespaceId : FixedBytes 16)

def empty : PrefixState := ⟨namespaceId, 0, []⟩

/-- The published identity, cached by the source when the state changes. -/
def commitment : B256 :=
  blake3 (prefixDomain ++ FixedBytes.toBytes state.namespaceId ++ leBytes 8 state.rows ++ leBytes 8 state.stream.length ++
    FixedBytes.toBytes (blake3 state.stream))

def extend (rows : List LogRow) : Except String PrefixState := do
  let rowCount ← okOr "logical row count overflow" (checkedAdd state.rows rows.length)
  let stream := state.stream ++ rows.flatMap LogRow.transcript
  rejectIf (u64Max < stream.length) "stream byte count overflows u64"
  return ⟨state.namespaceId, rowCount, stream⟩

def fromRows (rows : List LogRow) : Except String PrefixState :=
  (empty namespaceId).extend rows

def validate (rows : Nat) (root : B256) : Except String Unit := do
  rejectIf (state.namespaceId ≠ namespaceId ∨ state.rows ≠ rows ∨ state.commitment blake3 ≠ root)
    "logical append state differs from its published prefix"
  -- Each encoded row contains at least 125 bytes.
  rejectIf ((rows == 0) != (state.stream.length == 0) ∨
      (checkedMul rows 125).all fun minimum => state.stream.length < minimum)
    "invalid logical append row/byte boundary"

/-- The length check of one row before a new bundle mutates files. -/
def checkedRowEnd (previous topics payload : Nat) : Except String Nat :=
  okOr "logical transcript length overflow" ((checkedAdd previous (125 + 32 * topics)).bind (checkedAdd · payload))

/-- Validate every fallible encoding boundary before a new bundle mutates files, and collect the bounds on the way. -/
def validateNewAppend (root : B256) (rows : List LogRow) : Except String (Option RowBounds) := do
  state.validate blake3 namespaceId 0 root
  let _ ← okOr "logical row count overflow" (checkedAdd state.rows rows.length)
  let _ ← rows.foldlM (fun bytes row => checkedRowEnd bytes row.topicCount row.data.length) state.stream.length
  return RowBounds.fromRows rows

end PrefixState

/-- `commitment::validate_state`. -/
def validateState (blake3 : Bytes → B256) (namespaceId : Option (FixedBytes 16)) (rows : Nat) (root : Option B256)
    (state : Option PrefixState) : Except String Unit :=
  match namespaceId, root, state with
  | some namespaceId, some root, some state => state.validate blake3 namespaceId rows root
  | _, none, none => .ok ()
  | _, _, _ => .error "missing or orphan logical append state"

structure AppendRevision where
  previous : Option B256
  next : Option B256
  state : Option PrefixState
deriving DecidableEq, Repr

/-- `AppendRevision::new`. -/
def AppendRevision.new (blake3 : Bytes → B256) (previous : Option PrefixState) (rows : List LogRow) :
    Except String AppendRevision := do
  let state ← match previous with
    | some previous => some <$> previous.extend rows
    | none => .ok none
  return { previous := previous.map (·.commitment blake3), next := state.map (·.commitment blake3), state }

end Logex
