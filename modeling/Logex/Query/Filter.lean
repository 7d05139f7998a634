import Logex.Catalog

/-!
# Native log filters

The filter native scans evaluate (`filter.rs`, `matches_native_filter`) and the admission of a filter against the verified coverage
of a snapshot (`coverage.rs`).
-/

namespace Logex

open Lib

/-! ## Filters -/

inductive LogOrder where
  | ascending
  | descending
deriving DecidableEq, Repr

inductive TopicConstraint where
  | any
  | one (topic : B256)
  | anyOf (topics : List B256)
deriving DecidableEq, Repr

/-- `NativeLogFilter`; its defaults are those of `new`. -/
structure NativeLogFilter where
  fromBlock : Option Nat := none
  toBlock : Option Nat := none
  fromTimestamp : Option Nat := none
  toTimestamp : Option Nat := none
  blockHash : Option B256 := none
  /-- No address constrains nothing. -/
  addresses : List Address := []
  topics : Fin 4 → TopicConstraint := fun _ => .any
  /-- Required leading topic positions. -/
  minTopicCount : Nat := 0
  dataLen : Option Nat := none
  dataMin : Option Bytes := none
  dataMax : Option Bytes := none
  dataNotEquals : List Bytes := []
  canonicalOnly : Bool := true
  order : LogOrder := .ascending
  limit : Option Nat := none
  offset : Nat := 0

def topicMatchesConstraint (topic : Option B256) : TopicConstraint → Bool
  | .any => true
  | .one expected => topic == some expected
  | .anyOf candidates => topic.any candidates.contains

/-- Check predicates carried by a log row. Callers handle canonical bitmap enforcement, result ordering and pagination separately. -/
def matchesNativeFilter (row : LogRow) (filter : NativeLogFilter) : Bool :=
  filter.blockHash.all (fun hash => row.blockHash == hash) &&
  filter.fromBlock.all (fun bound => !decide (row.blockNumber < bound)) &&
  filter.toBlock.all (fun bound => !decide (bound < row.blockNumber)) &&
  filter.fromTimestamp.all (fun bound => !decide (row.timestamp < bound)) &&
  filter.toTimestamp.all (fun bound => !decide (bound < row.timestamp)) &&
  (filter.addresses.isEmpty || filter.addresses.contains row.address) &&
  filter.dataLen.all (fun length => row.dataLen == length) &&
  filter.dataMin.all (fun bound => !decide (row.data < bound)) &&
  filter.dataMax.all (fun bound => !decide (bound < row.data)) &&
  !filter.dataNotEquals.any (fun value => row.data == value) &&
  !decide (4 < filter.minTopicCount) &&
  (List.finRange 4).all fun index => (decide (filter.minTopicCount ≤ index) || (row.topic index).isSome) &&
    topicMatchesConstraint (row.topic index) (filter.topics index)

/-! ## Coverage -/

inductive QueryCoverageError where
  | unverified
  | outsideRange (start stop verifiedFrom verifiedTo : Nat)
  | unknownBlockHash (hash : B256) (verifiedFrom : Nat)
  | noncanonical
deriving DecidableEq, Repr

/-- Retained with the same storage view as partition row boundaries. A later append or backfill cannot extend this snapshot's
admitted query range. -/
structure QueryCoverage where
  verified : Option VerifiedLogCoverage
  headers : List B256
deriving DecidableEq, Repr

namespace QueryCoverage

def capture (hashes : Hashes) (state : StorageState) : QueryCoverage where
  verified := state.verifiedLogCoverage
  headers := (state.recentHeaders.filter fun header => state.verifiedLogCoverage.any fun range =>
    decide (range.start.blockNumber ≤ header.number) && decide (header.number ≤ range.stop.blockNumber)).map hashes.hashSlow

/-- The block bounds of a filter must lie within the verified range; absent ones mean genesis and the verified end. -/
def checkRange (range : VerifiedLogCoverage) (filter : NativeLogFilter) : Except QueryCoverageError Unit :=
  let start := filter.fromBlock.getD 0
  let stop := filter.toBlock.getD range.stop.blockNumber
  rejectIf (start < range.start.blockNumber ∨ range.stop.blockNumber < stop)
    (.outsideRange start stop range.start.blockNumber range.stop.blockNumber)

/-- A known canonical hash identifies exactly one verified block. -/
def knows (coverage : QueryCoverage) (range : VerifiedLogCoverage) (hash : B256) : Bool :=
  hash == range.start.blockHash || hash == range.stop.blockHash || coverage.headers.contains hash

def check (coverage : QueryCoverage) (filter : NativeLogFilter) : Except QueryCoverageError Unit := do
  rejectIf (filter.canonicalOnly = false) .noncanonical
  let range ← okOr .unverified coverage.verified
  match filter.blockHash with
  | none => checkRange range filter
  | some hash =>
    if coverage.knows range hash then return
    else do
      rejectIf (filter.fromBlock.isNone ∧ range.start.blockNumber ≠ 0) (.unknownBlockHash hash range.start.blockNumber)
      checkRange range filter

end QueryCoverage

/-- `StorageSnapshot::require_coverage`. -/
def requireCoverage (coverage : Option QueryCoverage) (filter : NativeLogFilter) : Except QueryCoverageError Unit :=
  match coverage with
  | none => .ok ()
  | some coverage => coverage.check filter

end Logex
