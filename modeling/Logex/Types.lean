import Logex.Bundle

/-!
# Headers and rows

The block header of `alloy_consensus` and the records of `logex-types` that storage keeps: log rows, chain anchors and block
markers, and the row bounds of `row_bounds.rs`.
-/

namespace Logex

/-! ## Headers -/

/-- `alloy_consensus::Header`. -/
structure Header where
  parentHash : B256 := 0
  ommersHash : B256 := 0
  beneficiary : Address := 0
  stateRoot : B256 := 0
  transactionsRoot : B256 := 0
  receiptsRoot : B256 := 0
  logsBloom : FixedBytes 256 := 0
  difficulty : Nat := 0
  number : Nat
  gasLimit : Nat := 0
  gasUsed : Nat := 0
  timestamp : Nat := 0
  mixHash : B256 := 0
  nonce : FixedBytes 8 := 0
  extraData : Bytes := []
  baseFeePerGas : Option Nat := none
  withdrawalsRoot : Option B256 := none
  blobGasUsed : Option Nat := none
  excessBlobGas : Option Nat := none
  parentBeaconBlockRoot : Option B256 := none
  requestsHash : Option B256 := none
deriving DecidableEq, Repr

/-- `SyncHead`: the tip up to which canonical rows are stored. -/
structure SyncHead where
  blockNumber : Nat
  blockHash : B256
  timestamp : Nat
deriving DecidableEq, Repr

structure ExecutionAnchor where
  beaconRoot : B256
  beaconSlot : Nat
  blockNumber : Nat
  blockHash : B256
  receiptsRoot : B256
deriving DecidableEq, Repr

/-- Execution block marker that does not imply direct consensus authentication. -/
structure ExecutionBlockMarker where
  blockNumber : Nat
  blockHash : B256
  timestamp : Nat
deriving DecidableEq, Repr

structure ChainAnchors where
  indexedHead : Option ExecutionAnchor := none
  finalizedHead : Option ExecutionAnchor := none
  optimisticHead : Option ExecutionAnchor := none
deriving DecidableEq, Repr

/-! ## Log rows -/

/-- Provenance of a row. -/
inductive Source where
  | receipt
  | trace
deriving DecidableEq, Repr

/-- `source as u8`. -/
def Source.toByte : Source → UInt8
  | .receipt => 0
  | .trace => 1

/-- `Source::from_u8`. -/
def Source.fromByte : UInt8 → Option Source
  | 0 => some .receipt
  | 1 => some .trace
  | _ => none

structure LogRow where
  blockNumber : Nat
  blockHash : B256
  timestamp : Nat
  txHash : B256
  txIndex : Nat
  logIndex : Nat
  address : Address
  topic0 : Option B256
  topic1 : Option B256
  topic2 : Option B256
  topic3 : Option B256
  data : Bytes
  dataLen : Nat
  source : Source
deriving DecidableEq, Repr

variable (row : LogRow)

def LogRow.topics : List (Option B256) := [row.topic0, row.topic1, row.topic2, row.topic3]

instance instNeZeroFour : NeZero 4 := ⟨by decide⟩

/-- `row_topics[index]`. -/
def LogRow.topic : Fin 4 → Option B256
  | 0 => row.topic0
  | 1 => row.topic1
  | 2 => row.topic2
  | 3 => row.topic3

/-- The integers of a row are in the ranges of their types. -/
structure LogRow.Typed (row : LogRow) : Prop where
  blockNumber : row.blockNumber ≤ u64Max
  timestamp : row.timestamp ≤ u64Max
  txIndex : row.txIndex ≤ u32Max
  logIndex : row.logIndex ≤ u32Max
  dataLen : row.dataLen ≤ u32Max

/-- The number of topics a row has. -/
def LogRow.topicCount : Nat := (row.topics.filter Option.isSome).length

/-- Exact count and extrema of an in-memory batch, independent of physical order. -/
structure RowBounds where
  rowCount : Nat
  minBlock : Nat
  maxBlock : Nat
  minTimestamp : Nat
  maxTimestamp : Nat
deriving DecidableEq, Repr

def RowBounds.fromRow : RowBounds where
  rowCount := 1
  minBlock := row.blockNumber
  maxBlock := row.blockNumber
  minTimestamp := row.timestamp
  maxTimestamp := row.timestamp

def RowBounds.include (bounds : RowBounds) (row : LogRow) : RowBounds where
  rowCount := bounds.rowCount + 1
  minBlock := min bounds.minBlock row.blockNumber
  maxBlock := max bounds.maxBlock row.blockNumber
  minTimestamp := min bounds.minTimestamp row.timestamp
  maxTimestamp := max bounds.maxTimestamp row.timestamp

def RowBounds.fromRows : List LogRow → Option RowBounds
  | [] => none
  | row :: rest => some (rest.foldl RowBounds.include (.fromRow row))

end Logex
