import Logex.Commitment

/-!
# The catalog

`native/catalog.rs`: the checksummed record of what storage holds. It names every segment with its row count and, for a bundled
segment, the table that selects its rows, and carries the canonical progress committed with them. `validate` is what stands
between a catalog in memory and its publication. Hashing is a parameter.
-/

namespace Logex

open Lib

def catalogFormatVersion : Nat := 14

def maxCachedHeaders : Nat := 8192

/-- The hash functions storage rests on. -/
structure Hashes where
  /-- `Header::hash_slow`. -/
  hashSlow : Header → B256
  blake3 : Bytes → B256

/-! ## Records -/

inductive SegmentKind where
  | hot
  | sealed
deriving DecidableEq, Repr

/-- `format!("{n:016}")`. -/
def padded (n : Nat) : String := "".pushn '0' (16 - (toString n).length) ++ toString n

/-- `segments/s_{id:016}`. -/
def segmentPath (id : Nat) : String := "segments/s_" ++ padded id

def segmentManifestPath (id : Nat) : String := segmentPath id ++ "/segment.json"

structure SegmentDescriptor where
  columnBundle : Option BundleReference := none
  id : Nat
  sourceNamespace : Option (FixedBytes 16)
  sourceCommitment : Option B256
  sourceState : Option PrefixState
  generation : Nat := 0
  kind : SegmentKind
  relativePath : String
  manifestRelativePath : String
  minBlock : Option Nat := none
  maxBlock : Option Nat := none
  minTimestamp : Option Nat := none
  maxTimestamp : Option Nat := none
  rowCount : Nat := 0
deriving DecidableEq, Repr

/-- A contiguous range established by complete receipt validation and storage readback. -/
structure VerifiedLogCoverage where
  start : ExecutionBlockMarker
  stop : ExecutionBlockMarker
deriving DecidableEq, Repr

/-- A bounded rollback target into the original catalog header window. -/
structure CanonicalReorgIntent where
  retainedHeaderCount : Nat
  indexedHead : Option ExecutionAnchor
deriving DecidableEq, Repr

/-- Canonical progress committed atomically with its segment positions. -/
structure StorageState where
  verifiedLogCoverage : Option VerifiedLogCoverage := none
  canonicalReorg : Option CanonicalReorgIntent := none
  syncHead : Option SyncHead := none
  recentHeaders : List Header := []
  historicalFloorHeader : Option Header := none
  historicalAnchorHeader : Option Header := none
deriving DecidableEq, Repr

structure NativeStorageCatalog where
  formatVersion : Nat := catalogFormatVersion
  state : StorageState := {}
  hotTargetRows : Nat
  nextSegmentId : Nat := 0
  activeHotSegment : Option Nat := none
  activeHistoricalSegment : Option Nat := none
  anchors : ChainAnchors := {}
  segments : List SegmentDescriptor := []
deriving DecidableEq, Repr

variable (hashes : Hashes) (catalog : NativeStorageCatalog) (segment : SegmentDescriptor) (header : Header)

/-- `execution_marker_from_header`. -/
def executionMarkerFromHeader : ExecutionBlockMarker where
  blockNumber := header.number
  blockHash := hashes.hashSlow header
  timestamp := header.timestamp

def syncHeadFromHeader : SyncHead where
  blockNumber := header.number
  blockHash := hashes.hashSlow header
  timestamp := header.timestamp

/-! ## Validation -/

/-- Whether the optional fields of the RLP sequence are present in each place of the list. -/
def Header.optionalFields : List Bool :=
  [header.baseFeePerGas.isSome, header.withdrawalsRoot.isSome, header.blobGasUsed.isSome, header.excessBlobGas.isSome,
    header.parentBeaconBlockRoot.isSome, header.requestsHash.isSome]

/-- A header the catalog can encode: bounded extra data and no gap in its optional fields. -/
def Header.representable : Bool :=
  decide (header.extraData.length ≤ 32) &&
    (header.optionalFields.zip header.optionalFields.tail).all fun pair => !(!pair.1 && pair.2)

/-- Check storage encoding bounds and optional-field representability. -/
def validateCachedHeaders (headers : List Header) : Except String Unit := do
  rejectIf (maxCachedHeaders < headers.length) "cached header count exceeds 8192"
  rejectIf (headers.any fun header => !header.representable)
    "cached header has oversized extra data or a gap in its RLP field sequence"

/-- Neighbouring headers that do not follow one another. -/
def brokenWindow (headers : List Header) : Bool :=
  (headers.zip headers.tail).any fun pair =>
    checkedAdd pair.1.number 1 ≠ some pair.2.number || pair.2.parentHash ≠ hashes.hashSlow pair.1

/-- `CanonicalReorgIntent::validate`. -/
def CanonicalReorgIntent.validate (intent : CanonicalReorgIntent) (state : StorageState) : Except String Unit := do
  let headers := state.recentHeaders
  validateCachedHeaders headers
  rejectIf (intent.retainedHeaderCount = 0 ∨ headers.length ≤ intent.retainedHeaderCount)
    "canonical reorg must retain a nonempty strict header prefix"
  let retainedTip := (headers.take intent.retainedHeaderCount).getLast?
  rejectIf (intent.indexedHead.any fun anchor => retainedTip.all fun header =>
      anchor.blockNumber ≠ header.number || anchor.blockHash ≠ hashes.hashSlow header ||
        anchor.receiptsRoot ≠ header.receiptsRoot)
    "canonical reorg anchor differs from its retained tip"
  rejectIf (state.syncHead ≠ headers.getLast?.map (syncHeadFromHeader hashes) ∨ brokenWindow hashes headers)
    "canonical reorg source window is inconsistent"

/-- The coverage record agrees with the canonical progress around it. -/
def coverageMismatch (state : StorageState) (coverage : VerifiedLogCoverage) : Bool :=
  decide (coverage.stop.blockNumber < coverage.start.blockNumber) ||
    state.syncHead.all (fun head => head.blockNumber ≠ coverage.stop.blockNumber ||
      head.blockHash ≠ coverage.stop.blockHash || head.timestamp ≠ coverage.stop.timestamp) ||
    state.historicalFloorHeader.any fun floor => coverage.start.blockNumber < floor.number ||
      (floor.number = coverage.start.blockNumber && hashes.hashSlow floor ≠ coverage.start.blockHash)

/-- Completed sealed segments never append again and keep only their root; active segments and any supplied state are checked. -/
def NativeStorageCatalog.validateAppendState : Except String Unit :=
  if segment.kind = .hot ∨ some segment.id = catalog.activeHistoricalSegment ∨ segment.sourceState.isSome then
    validateState hashes.blake3 segment.sourceNamespace segment.rowCount segment.sourceCommitment segment.sourceState
  else .ok ()

/-- The table a bundled segment is pinned to holds as many rows as the catalog says. -/
def SegmentDescriptor.validateBundle : Except String Unit :=
  match segment.columnBundle with
  | some reference => do
    let _ ← reference.stop
    rejectIf (reference.rowCount ≠ segment.rowCount) "invalid catalog bundle checkpoint"
  | none => .ok ()

/-- The checks of one segment, after the identifiers seen before it. -/
def NativeStorageCatalog.validateSegment (seen : List Nat) (segment : SegmentDescriptor) : Except String Unit := do
  catalog.validateAppendState hashes segment
  segment.validateBundle
  rejectIf (segment.id ∈ seen ∨ catalog.nextSegmentId ≤ segment.id ∨ segment.relativePath ≠ segmentPath segment.id ∨
      segment.manifestRelativePath ≠ segmentManifestPath segment.id ∨ u32Max < segment.rowCount ∨
      (segment.sourceCommitment.isSome ∧ segment.sourceNamespace.isNone))
    "invalid catalog segment identity, path or row count"

def NativeStorageCatalog.validateSegments (hashes : Hashes) (catalog : NativeStorageCatalog) :
    List Nat → List SegmentDescriptor → Except String Unit
  | _, [] => .ok ()
  | seen, segment :: rest => do
    catalog.validateSegment hashes seen segment
    catalog.validateSegments hashes (segment.id :: seen) rest

/-- An active segment identifier that names no segment of its kind. -/
def NativeStorageCatalog.missingActive (active : Option Nat) (kind : SegmentKind) : Bool :=
  active.any fun id => !catalog.segments.any fun segment => segment.id = id && segment.kind = kind

/-- `NativeStorageCatalog::validate`. -/
def NativeStorageCatalog.validate (hashes : Hashes) (catalog : NativeStorageCatalog) : Except String Unit := do
  rejectIf (catalog.formatVersion ≠ catalogFormatVersion ∨ catalog.hotTargetRows = 0)
    "invalid catalog version or segment target"
  validateCachedHeaders catalog.state.recentHeaders
  rejectIf (catalog.state.verifiedLogCoverage.any (coverageMismatch hashes catalog.state))
    "verified event coverage does not match canonical progress"
  catalog.state.canonicalReorg.toList.forM fun intent => intent.validate hashes catalog.state
  (catalog.state.historicalFloorHeader.toList ++ catalog.state.historicalAnchorHeader.toList).forM
    fun header => validateCachedHeaders [header]
  catalog.validateSegments hashes [] catalog.segments
  rejectIf (catalog.missingActive catalog.activeHotSegment .hot ∨ catalog.missingActive catalog.activeHistoricalSegment .sealed)
    "invalid active catalog segment"
  rejectIf (catalog.segments.any fun segment => segment.kind = .hot && some segment.id ≠ catalog.activeHotSegment)
    "unowned hot catalog segment"

/-! ## Allocation -/

/-- The descriptor `allocate_segment` returns for an identifier, under a fresh namespace. -/
def SegmentDescriptor.fresh (id : Nat) (kind : SegmentKind) (namespaceId : FixedBytes 16) : SegmentDescriptor where
  id := id
  sourceNamespace := some namespaceId
  sourceCommitment := some ((PrefixState.empty namespaceId).commitment hashes.blake3)
  sourceState := some (PrefixState.empty namespaceId)
  kind := kind
  relativePath := segmentPath id
  manifestRelativePath := segmentManifestPath id

/-- `allocate_segment`, given the bytes `getrandom` filled in. -/
def NativeStorageCatalog.allocateSegment (kind : SegmentKind)
    (namespaceId : FixedBytes 16) : Except String (SegmentDescriptor × NativeStorageCatalog) := do
  let id := catalog.nextSegmentId
  let nextSegmentId ← okOr "catalog segment identifiers are exhausted" (checkedAdd id 1)
  return (.fresh hashes id kind namespaceId, { catalog with nextSegmentId })

/-- `register_segment`. -/
def NativeStorageCatalog.registerSegment (kind : SegmentKind)
    (namespaceId : FixedBytes 16) : Except String (SegmentDescriptor × NativeStorageCatalog) := do
  let (descriptor, catalog) ← catalog.allocateSegment hashes kind namespaceId
  let activeHotSegment := if kind = .hot then some descriptor.id else catalog.activeHotSegment
  return (descriptor, { catalog with activeHotSegment, segments := catalog.segments ++ [descriptor] })

def NativeStorageCatalog.segment? (id : Nat) : Option SegmentDescriptor :=
  catalog.segments.find? fun segment => segment.id = id

/-- `active_hot_segment()`. -/
def NativeStorageCatalog.activeHot : Option SegmentDescriptor :=
  catalog.activeHotSegment.bind catalog.segment?

/-- The catalog after a change to the descriptor found by its identifier. -/
def NativeStorageCatalog.modifySegment (id : Nat) (change : SegmentDescriptor → SegmentDescriptor) : NativeStorageCatalog :=
  { catalog with segments := catalog.segments.map fun segment => if segment.id = id then change segment else segment }

/-- `apply_row_bounds_to_descriptor`. -/
def SegmentDescriptor.applyRowBounds (descriptor : SegmentDescriptor) : Option RowBounds → SegmentDescriptor
  | none => descriptor
  | some bounds => { descriptor with
      minBlock := some (descriptor.minBlock.elim bounds.minBlock (min · bounds.minBlock))
      maxBlock := some (descriptor.maxBlock.elim bounds.maxBlock (max · bounds.maxBlock))
      minTimestamp := some (descriptor.minTimestamp.elim bounds.minTimestamp (min · bounds.minTimestamp))
      maxTimestamp := some (descriptor.maxTimestamp.elim bounds.maxTimestamp (max · bounds.maxTimestamp))
      rowCount := descriptor.rowCount + bounds.rowCount }

end Logex
