import Logex.Storage.Checkpoint

/-!
# The public operations of native storage

Metadata, unchecked and verified ingestion, generic row batches, canonical marking and reorgs, and maintenance, as
`native/storage.rs`, `native/verified.rs` and `native/reorg.rs` publish them. `StorageOp` is the union of those that change storage.
-/

namespace Logex

open Lib

variable (world : World)

/-! ## Metadata -/

def recordSyncHead (blockNumber : Nat) (blockHash : B256) (timestamp : Nat) : StorageM Unit := do
  ensureWritable
  hardenIngestion world
  let next : SyncHead := { blockNumber, blockHash, timestamp }
  let s ← get
  if s.catalog.state.syncHead = some next then pure ()
  else do
    requireUnverifiedStorage
    modifyState fun state => { state with syncHead := some next }
    persistCatalog world

def recordCanonicalState (header : Header) (recentHeaders : List Header) : StorageM Unit := do
  ensureWritable
  attempt (validateCachedHeaders recentHeaders)
  hardenIngestion world
  let next := syncHeadFromHeader world.hashes header
  let s ← get
  if s.catalog.state.syncHead = some next ∧ s.catalog.state.recentHeaders = recentHeaders then pure ()
  else do
    requireUnverifiedStorage
    modifyState fun state => { state with syncHead := some next, recentHeaders }
    persistCatalog world

def recordChainAnchors (anchors : ChainAnchors) : StorageM Unit := do
  ensureWritable
  hardenIngestion world
  let s ← get
  if s.catalog.anchors = anchors then pure ()
  else do
    modifyCatalog fun catalog => { catalog with anchors }
    persistCatalog world

def recordVerifiedCanonicalState (anchor : ExecutionAnchor) (header : Header) (recentHeaders : List Header) : StorageM Unit := do
  ensureWritable
  attempt (validateCachedHeaders recentHeaders)
  hardenIngestion world
  recordCanonicalState world header recentHeaders
  let s ← get
  recordChainAnchors world { s.catalog.anchors with indexedHead := some anchor }

/-- Set the floor, and the anchor where there is none yet. -/
def StorageState.setFloor (state : StorageState) (header : Header) : StorageState :=
  { state with historicalFloorHeader := some header
               historicalAnchorHeader := some (state.historicalAnchorHeader.getD header) }

def recordHistoricalFloor (header : Header) : StorageM Unit := do
  attempt (validateCachedHeaders [header])
  ensureWritable
  hardenIngestion world
  let s ← get
  if s.catalog.state.historicalFloorHeader.any fun current => current.number ≤ header.number then pure ()
  else do
    requireUnverifiedStorage
    modifyState fun state => state.setFloor header
    persistCatalog world

/-! ## Ingestion -/

/-- `advance_historical_floor`. -/
def StorageState.advanceHistoricalFloor (state : StorageState) (header : Header) : StorageState :=
  if state.historicalFloorHeader.all fun current => decide (header.number < current.number) then state.setFloor header else state

structure VerifiedAppendStart where
  active : Option (Nat × Nat)
  nextSegmentId : Nat
deriving DecidableEq, Repr

def captureVerifiedAppend (catalog : NativeStorageCatalog) (route : IngestRoute) : VerifiedAppendStart where
  active := ((catalog.activeSegment route).bind catalog.segment?).map fun segment => (segment.id, segment.rowCount)
  nextSegmentId := catalog.nextSegmentId

/-- The rows one segment received since a captured start, checked to be a prefix of what is expected. -/
def verifyAppendedSegment (disk : Disk) (start : VerifiedAppendStart) (segment : SegmentDescriptor) (expected : List LogRow) :
    Except String (List LogRow) := do
  let first := ((start.active.filter fun active => active.1 = segment.id).map (·.2)).getD 0
  rejectIf (segment.rowCount < first) "verified append shortened its original segment"
  rejectIf (expected.length < segment.rowCount - first) "verified append wrote unexpected extra rows"
  if segment.rowCount = first then return expected
  else do
    let dir := disk.segments segment.id
    rejectIf (dir.manifest.any (fun manifest => manifest.sourceNamespace = segment.sourceNamespace &&
      manifest.sourceCommitment = segment.sourceCommitment) = false) "verified append source identity mismatch"
    let rows ← dir.read
    let appended := (rows.take segment.rowCount).drop first
    rejectIf (rows.length < segment.rowCount ∨ appended.any fun stored => !stored.canonical)
      "verified append has missing canonical row positions"
    rejectIf (expected.take (segment.rowCount - first) ≠ appended.map (·.row)) "persisted events differ from authenticated input"
    return expected.drop (segment.rowCount - first)

/-- Read every newly written canonical row through the real storage decoder before publishing coverage. -/
def verifyAppendedEvents (start : VerifiedAppendStart) (expected : List LogRow) : StorageM Unit := do
  let s ← get
  let segments := s.catalog.segments.filter fun segment =>
    some segment.id = start.active.map (·.1) || decide (start.nextSegmentId ≤ segment.id)
  let rest ← attempt (segments.foldlM (fun expected segment => verifyAppendedSegment s.disk start segment expected) expected)
  failIf (rest ≠ []) "verified append did not persist all events"

variable (rows : List LogRow)

/-- `apply_canonical_batch`. -/
def applyCanonicalBatch (header : Header) (recentHeaders : List Header) (anchor : Option ExecutionAnchor)
    (verification : Option (Header × VerifiedLogCoverage)) : StorageM Unit := do
  attempt (validateCachedHeaders recentHeaders)
  let hash := world.hashes.hashSlow header
  failIf (recentHeaders.getLast? ≠ some header ∨ rows.any (fun row => decide (header.number < row.blockNumber)) ∨
      anchor.any fun anchor => anchor.blockNumber ≠ header.number || anchor.blockHash ≠ hash)
    "canonical ingestion progress does not match its batch"
  let s ← get
  let start := captureVerifiedAppend s.catalog .live
  beginIngestion world rows .live
  commitRowsToSegments world rows
  runIf (verification.isSome = true) (verifyAppendedEvents start rows)
  modifyState fun state => { state with
    syncHead := some (syncHeadFromHeader world.hashes header)
    recentHeaders
    verifiedLogCoverage := verification.map (·.2) }
  modifyState fun state => verification.elim state fun verification => state.advanceHistoricalFloor verification.1
  modifyCatalog fun catalog => anchor.elim catalog fun anchor => { catalog with
    anchors := { catalog.anchors with indexedHead := some anchor }
    state := catalog.state.advanceHistoricalFloor header }
  completeIngestionBatch world

/-- Unchecked legacy import of rows and their restart marker. -/
def ingestCanonicalBatch (header : Header) (recentHeaders : List Header) (anchor : Option ExecutionAnchor) : StorageM Unit := do
  requireUnverifiedStorage
  applyCanonicalBatch world rows header recentHeaders anchor none

/-- `apply_historical_batch`. -/
def applyHistoricalBatch (floor : Header) (verifyReadback : Bool) (coverage : Option VerifiedLogCoverage) : StorageM Unit := do
  attempt (validateCachedHeaders [floor])
  failIf (rows.any (fun row => decide (row.blockNumber < floor.number)) = true) "historical rows precede their ingestion floor"
  let s ← get
  let start := captureVerifiedAppend s.catalog .historical
  beginIngestion world rows .historical
  runIf (rows ≠ []) (discard (writeHistoricalRows world rows))
  runIf (verifyReadback = true) (verifyAppendedEvents start rows)
  modifyState fun state => { state.advanceHistoricalFloor floor with verifiedLogCoverage := coverage }
  completeIngestionBatch world

/-- Unchecked legacy import with progress metadata. -/
def ingestHistoricalBatch (floor : Header) : StorageM Unit := do
  requireUnverifiedStorage
  applyHistoricalBatch world rows floor false none

/-- Exact physical overlap guard: no canonical row of the range is stored. -/
def ensureCanonicalRangeEmpty (start stop : Nat) : StorageM Unit := do
  let s ← get
  let segments := s.catalog.segments.filter fun segment => segment.rowCount ≠ 0 &&
    segment.minBlock.all (fun min => decide (min ≤ stop)) && segment.maxBlock.all fun max => decide (start ≤ max)
  attempt (segments.forM fun segment => do
    let rows ← (s.disk.segments segment.id).read
    rejectIf (rows.length < segment.rowCount) "overlap check has missing canonical row positions"
    rejectIf ((rows.take segment.rowCount).any fun stored => stored.canonical &&
        decide (start ≤ stored.row.blockNumber ∧ stored.row.blockNumber ≤ stop))
      "verified block range already contains canonical events")

/-- The checked batch extends the stored tip, or starts from no canonical rows at all. -/
def requireExtendsTip (first : VerifiedBlockLogs world.hashes) : StorageM Unit := do
  let s ← get
  match s.catalog.state.syncHead with
  | some previous =>
    failIf (checkedAdd previous.blockNumber 1 ≠ some first.header.number ∨ previous.blockHash ≠ first.header.parentHash)
      "verified canonical batch does not extend stored tip"
  | none => ensureCanonicalRangeEmpty 0 u64Max

/-- Publish complete authenticated blocks only as a strict extension of the existing canonical tip. -/
def ingestVerifiedCanonicalBatch (blocks : List (VerifiedBlockLogs world.hashes))
    (recentHeaders : List Header) (anchor : Option ExecutionAnchor) : StorageM Unit := do
  ensureWritable
  let (first, last) ← attempt (VerifiedBlockLogs.verifyBatch blocks rows)
  failIf (brokenWindow world.hashes recentHeaders = true) "verified canonical header cache is not contiguous"
  failIf (anchor.any (fun anchor => anchor.receiptsRoot ≠ last.header.receiptsRoot) = true)
    "verified canonical anchor receipt root differs from header"
  requireExtendsTip world first
  ensureCanonicalRangeEmpty first.header.number last.header.number
  let s ← get
  let coverage : VerifiedLogCoverage :=
    { start := (s.catalog.state.verifiedLogCoverage.map (·.start)).getD first.marker, stop := last.marker }
  applyCanonicalBatch world rows last.header recentHeaders anchor (some (first.header, coverage))

/-- Never bridge an unaudited legacy gap between two checked ranges. -/
def extendCoverage (hashes : Hashes) (coverage : VerifiedLogCoverage) (child : Header) (first : VerifiedBlockLogs hashes) :
    VerifiedLogCoverage :=
  if coverage.start.blockNumber = child.number ∧ coverage.start.blockHash = hashes.hashSlow child then
    { coverage with start := first.marker }
  else coverage

/-- The full authenticated header sequence, including empty blocks, must immediately precede the persisted floor. -/
def ingestVerifiedHistoricalBatch (blocks : List (VerifiedBlockLogs world.hashes)) : StorageM Unit := do
  ensureWritable
  let (first, last) ← attempt (VerifiedBlockLogs.verifyBatch blocks rows)
  let s ← get
  let child ← attempt (okOr "verified history requires an authenticated starting floor" s.catalog.state.historicalFloorHeader)
  failIf (checkedAdd last.header.number 1 ≠ some child.number ∨ last.hash ≠ child.parentHash)
    "verified historical batch does not precede stored floor"
  ensureCanonicalRangeEmpty first.header.number last.header.number
  let coverage := s.catalog.state.verifiedLogCoverage.map fun coverage => extendCoverage world.hashes coverage child first
  applyHistoricalBatch world rows first.header true coverage

/-! ## Generic row batches -/

def writeBatch : StorageM Unit :=
  if rows = [] then pure ()
  else do
    requireUnverifiedStorage
    beginCheckpointBatch world rows .live
    commitRowsToSegments world rows
    completeCheckpointBatch world

/-- Preserve caller row order while recording exact bounds over every row. -/
def writeHistoricalBatch : StorageM (List PartitionMeta) := do
  ensureWritable
  if rows = [] then return []
  else do
    requireUnverifiedStorage
    beginCheckpointBatch world rows .historical
    let appended ← writeHistoricalRows world rows
    completeCheckpointBatch world
    return appended

def finalizeActiveHistoricalSegment : StorageM Bool := do
  ensureWritable
  setRecoveryRequired true
  let finalized ← finalizeHistoricalSegment world
  setRecoveryRequired false
  checkpoint world
  return finalized

/-! ## Canonical marking -/

variable (blockHashes : List B256)

/-- A stored row that a set of block hashes retires. -/
def StoredRow.retiredBy (stored : StoredRow) : Bool :=
  stored.canonical && decide (stored.row.blockHash ∈ blockHashes)

/-- The rows of a segment with those of some blocks retired. -/
def retireRows (rows : List StoredRow) : List StoredRow :=
  rows.map fun stored => if stored.retiredBy blockHashes then { stored with canonical := false } else stored

/-- The positions a retirement changes. -/
def retiredIds (rows : List StoredRow) : List Nat :=
  (rows.zipIdx.filter fun entry => entry.1.retiredBy blockHashes).map (·.2)

/-- Transient identity selection only; payloads are read after committed finish. -/
structure CanonicalReorgSelection where
  catalogIndex : Nat
  descriptor : SegmentDescriptor
  rowIds : List Nat
deriving DecidableEq, Repr

/-- Publish the new canonical bits of a segment: a new table of its bundle, or its bitmap file. -/
def publishCanonical (descriptor : SegmentDescriptor) (rows : List StoredRow) : StorageM SegmentDescriptor :=
  match descriptor.columnBundle with
  | some reference => do
    let s ← get
    let (reference, bundle) ← attempt (((s.disk.segments descriptor.id).bundles descriptor.generation).append world.codec reference
      [.replaceMetadata canonicalStream (world.bitmap (rows.map (·.canonical)))] reference.rowCount rows)
    let next := { descriptor with columnBundle := some reference }
    modifyCatalog fun catalog => catalog.modifySegment descriptor.id fun _ => next
    writeSegment world descriptor.id fun dir => { dir with bundles := Function.update dir.bundles descriptor.generation bundle }
    persistIngestManifest world next
    return next
  | none => do
    writeSegment world descriptor.id fun dir => { dir with rows }
    return descriptor

/-- Retire the rows of some blocks in one segment. -/
def retireSegment (entry : SegmentDescriptor × Nat) : StorageM (Option CanonicalReorgSelection) := do
  let descriptor := entry.1
  if descriptor.rowCount = 0 then return none
  else do
    let s ← get
    let dir := s.disk.segments descriptor.id
    failIf (dir.manifest.bind (·.columnBundle) ≠ descriptor.columnBundle)
      "canonical update manifest differs from catalog; reopen to restore metadata"
    failIf (dir.manifest.bind (·.sourceNamespace) ≠ descriptor.sourceNamespace)
      "canonical update source identity differs from catalog"
    let rows ← attempt dir.read
    failIf (rows.length ≠ descriptor.rowCount) "canonical update row boundary differs from catalog"
    let rowIds := retiredIds blockHashes rows
    if rowIds = [] then return none
    else do
      let descriptor ← publishCanonical world descriptor (retireRows blockHashes rows)
      return some { catalogIndex := entry.2, descriptor, rowIds }

/-- Retire the rows of some blocks in a list of segments. -/
def retireSegments (blockHashes : List B256) : List (SegmentDescriptor × Nat) → StorageM (List CanonicalReorgSelection)
  | [] => return []
  | entry :: rest => do
    let selection ← retireSegment world blockHashes entry
    let selections ← retireSegments blockHashes rest
    return selection.toList ++ selections

/-- `apply_non_canonical_hashes`: bundles are pinned together by one catalog publication at the end. -/
def applyNonCanonicalHashes : StorageM (List CanonicalReorgSelection) := do
  let s ← get
  let selections ← retireSegments world blockHashes s.catalog.segments.zipIdx
  runIf (selections.any (fun selection => selection.descriptor.columnBundle.isSome) = true) (persistCheckpointCatalog world)
  return selections

/-- The number of rows a list of selections retired. -/
def totalMarked (selections : List CanonicalReorgSelection) : Nat := (selections.map (·.rowIds.length)).sum

def markNonCanonical (blockHash : B256) : StorageM Nat := do
  requireUnverifiedStorage
  checkpointDurable world
  setRecoveryRequired true
  let selections ← applyNonCanonicalHashes world [blockHash]
  setRecoveryRequired false
  return totalMarked selections

/-! ## Reorgs -/

/-- Validate and durably admit an intent; `true` where there is one to finish. -/
def beginCanonicalReorg (revertedHashes : List B256) (retainedHeaders : List Header) (indexedHead : Option ExecutionAnchor) :
    StorageM Bool := do
  ensureWritable
  let s ← get
  let oldHeaders := s.catalog.state.recentHeaders
  failIf (¬retainedHeaders <+: oldHeaders ∨ oldHeaders.length - retainedHeaders.length ≠ revertedHashes.length ∨
      (oldHeaders.drop retainedHeaders.length).map world.hashes.hashSlow ≠ revertedHashes)
    "canonical reorg must retire exactly the persisted header suffix"
  if revertedHashes = [] then do
    failIf (s.catalog.anchors.indexedHead ≠ indexedHead) "an empty canonical reorg cannot change the indexed anchor"
    return false
  else do
    let intent : CanonicalReorgIntent := { retainedHeaderCount := retainedHeaders.length, indexedHead }
    attempt (intent.validate world.hashes s.catalog.state)
    checkpointDurable world
    setRecoveryRequired true
    modifyState fun state => { state with canonicalReorg := some intent }
    persistCatalog world
    return true

/-- The progress a finished reorg leaves. -/
def StorageState.rewound (hashes : Hashes) (state : StorageState) (intent : CanonicalReorgIntent) : StorageState :=
  let recentHeaders := state.recentHeaders.take intent.retainedHeaderCount
  let syncHead := recentHeaders.getLast?.map (syncHeadFromHeader hashes)
  { verifiedLogCoverage := do
      let coverage ← state.verifiedLogCoverage
      let head ← recentHeaders.getLast?
      if head.number < coverage.start.blockNumber then none
      else some { coverage with stop := executionMarkerFromHeader hashes head }
    canonicalReorg := none
    syncHead
    recentHeaders
    historicalFloorHeader := state.historicalFloorHeader.map fun floor =>
      recentHeaders.getLast?.elim floor fun retained => if retained.number < floor.number then retained else floor
    historicalAnchorHeader := state.historicalAnchorHeader.map fun anchor =>
      recentHeaders.getLast?.elim anchor fun retained => if retained.number < anchor.number then retained else anchor }

/-- The hashes an intent retires. -/
def revertedHashes (hashes : Hashes) (state : StorageState) (intent : CanonicalReorgIntent) : List B256 :=
  (state.recentHeaders.drop intent.retainedHeaderCount).map hashes.hashSlow

/-- Retire the rows of a pending intent and rewind progress with the publication that clears it. -/
def finishCanonicalReorg : StorageM (List CanonicalReorgSelection) := do
  let s ← get
  match s.catalog.state.canonicalReorg with
  | none => return []
  | some intent => do
    attempt (intent.validate world.hashes s.catalog.state)
    setRecoveryRequired true
    let selections ← applyNonCanonicalHashes world (revertedHashes world.hashes s.catalog.state intent)
    modifyCatalog fun catalog => { catalog with
      state := catalog.state.rewound world.hashes intent
      anchors := { catalog.anchors with indexedHead := intent.indexedHead } }
    persistCatalog world
    setRecoveryRequired false
    return selections

/-- The retired rows of one selection, read back after the commit. -/
def readRetired (retiredHashes : List B256) (selection : CanonicalReorgSelection) : StorageM (List LogRow) := do
  let s ← get
  let expected := selection.descriptor
  let descriptor ← attempt (okOr "retired source disappeared" s.catalog.segments[selection.catalogIndex]?)
  failIf (descriptor.id ≠ expected.id ∨ descriptor.generation ≠ expected.generation ∨
      descriptor.sourceNamespace ≠ expected.sourceNamespace ∨ descriptor.sourceCommitment ≠ expected.sourceCommitment ∨
      descriptor.rowCount ≠ expected.rowCount ∨ descriptor.columnBundle ≠ expected.columnBundle)
    "retired source identity changed"
  let dir := s.disk.segments descriptor.id
  let rows ← attempt dir.read
  failIf (dir.matchesCatalog descriptor = false ∨ rows.length ≠ descriptor.rowCount)
    "retired reader differs from committed source"
  let selected := selection.rowIds.filterMap (rows[·]?)
  failIf (selected.any (·.canonical) = true) "retired row is still canonical"
  failIf (selected.any (fun stored => decide (stored.row.blockHash ∉ retiredHashes)) = true)
    "retired row hash differs from selected suffix"
  return selected.map (·.row)

/-- The rows `publish_reorg_rows` hands to its callback, batch after batch. -/
def publishReorgRows (retiredHashes : List B256) : List CanonicalReorgSelection → StorageM (List LogRow)
  | [] => return []
  | selection :: rest => do
    let rows ← readRetired retiredHashes selection
    let others ← publishReorgRows retiredHashes rest
    return rows ++ others

/-- Commit retirement completely, then publish the exact rows it changed. -/
def finishWithNotifications (active : Bool) : StorageM (Nat × List LogRow) :=
  if active then do
    let s ← get
    let intent ← attempt (okOr "active reorg intent is missing" s.catalog.state.canonicalReorg)
    let retiredHashes := revertedHashes world.hashes s.catalog.state intent
    let selections ← finishCanonicalReorg world
    ensureWritable
    let notified ← publishReorgRows retiredHashes selections
    return (totalMarked selections, notified)
  else return (0, [])

def applyCanonicalReorg (revertedHashes : List B256) (retainedHeaders : List Header) (indexedHead : Option ExecutionAnchor) :
    StorageM Nat := do
  let active ← beginCanonicalReorg world revertedHashes retainedHeaders indexedHead
  if active then do
    let selections ← finishCanonicalReorg world
    return totalMarked selections
  else return 0

/-! ## Maintenance -/

/-- `head_block`. -/
def NativeStorageCatalog.headBlock (catalog : NativeStorageCatalog) : Option Nat :=
  (catalog.state.syncHead.map (·.blockNumber)).or ((catalog.segments.filterMap (·.maxBlock)).max?)

/-- `segment_is_compaction_candidate` with `should_compact_segment`. -/
def NativeStorage.isCompactionCandidate (s : NativeStorage) (segment : SegmentDescriptor) : Bool :=
  some segment.id ≠ s.catalog.activeHistoricalSegment &&
    !(s.pendingIngestion.any fun pending => pending.origin.includes segment.id) &&
    !(s.publishedIngestion.any fun pending => pending.origin.includes segment.id) &&
    !(s.pendingCheckpoint.any fun pending => segment.id = pending.journal.start.id ||
      decide (pending.journal.nextSegmentId ≤ segment.id)) &&
    segment.kind = .sealed && segment.rowCount ≠ 0 &&
    segment.maxBlock.any fun maxBlock => match s.catalog.anchors.finalizedHead with
      | some finalized => decide (maxBlock ≤ finalized.blockNumber)
      | none => s.catalog.headBlock.any fun head => decide (saturatingAdd maxBlock s.compactionSafetyMarginBlocks ≤ head)

/-- Compact the oldest eligible segments that do not use the current profile yet. -/
def compactEligibleSegmentsLimit (limit : Nat) : StorageM Nat := do
  checkpointDurable world
  let s ← get
  let eligible := (s.catalog.segments.filter fun segment =>
    s.isCompactionCandidate segment && !(s.disk.segments segment.id).usesCurrentProfile).take limit
  eligible.forM (compactIngestSegment world)
  return eligible.length

/-! ## Runs -/

/-- A public operation that changes storage, with its arguments. -/
inductive StorageOp where
  | recordSyncHead (blockNumber : Nat) (blockHash : B256) (timestamp : Nat)
  | recordCanonicalState (header : Header) (recentHeaders : List Header)
  | recordVerifiedCanonicalState (anchor : ExecutionAnchor) (header : Header) (recentHeaders : List Header)
  | recordHistoricalFloor (header : Header)
  | recordChainAnchors (anchors : ChainAnchors)
  | ingestCanonicalBatch (rows : List LogRow) (header : Header) (recentHeaders : List Header) (anchor : Option ExecutionAnchor)
  | ingestHistoricalBatch (rows : List LogRow) (floor : Header)
  | ingestVerifiedCanonicalBatch (rows : List LogRow) (blocks : List (VerifiedBlockLogs world.hashes))
      (recentHeaders : List Header) (anchor : Option ExecutionAnchor)
  | ingestVerifiedHistoricalBatch (rows : List LogRow) (blocks : List (VerifiedBlockLogs world.hashes))
  | writeBatch (rows : List LogRow)
  | writeHistoricalBatch (rows : List LogRow)
  | finalizeActiveHistoricalSegment
  | checkpoint
  | checkpointDurable
  | checkpointIfDue
  | markNonCanonical (blockHash : B256)
  | beginCanonicalReorg (revertedHashes : List B256) (retainedHeaders : List Header) (indexedHead : Option ExecutionAnchor)
  | applyCanonicalReorg (revertedHashes : List B256) (retainedHeaders : List Header) (indexedHead : Option ExecutionAnchor)
  | applyCanonicalReorgWithNotifications (revertedHashes : List B256) (retainedHeaders : List Header)
      (indexedHead : Option ExecutionAnchor)
  | compactEligibleSegmentsLimit (limit : Nat)

/-- Run an operation, dropping what it returns besides success. -/
def StorageOp.run : StorageOp world → StorageM Unit
  | recordSyncHead blockNumber blockHash timestamp => Logex.recordSyncHead world blockNumber blockHash timestamp
  | recordCanonicalState header recentHeaders => Logex.recordCanonicalState world header recentHeaders
  | recordVerifiedCanonicalState anchor header recentHeaders =>
    Logex.recordVerifiedCanonicalState world anchor header recentHeaders
  | recordHistoricalFloor header => Logex.recordHistoricalFloor world header
  | recordChainAnchors anchors => Logex.recordChainAnchors world anchors
  | ingestCanonicalBatch rows header recentHeaders anchor => Logex.ingestCanonicalBatch world rows header recentHeaders anchor
  | ingestHistoricalBatch rows floor => Logex.ingestHistoricalBatch world rows floor
  | ingestVerifiedCanonicalBatch rows blocks recentHeaders anchor =>
    Logex.ingestVerifiedCanonicalBatch world rows blocks recentHeaders anchor
  | ingestVerifiedHistoricalBatch rows blocks => Logex.ingestVerifiedHistoricalBatch world rows blocks
  | writeBatch rows => Logex.writeBatch world rows
  | writeHistoricalBatch rows => discard (Logex.writeHistoricalBatch world rows)
  | finalizeActiveHistoricalSegment => discard (Logex.finalizeActiveHistoricalSegment world)
  | checkpoint => Logex.checkpoint world
  | checkpointDurable => Logex.checkpointDurable world
  | checkpointIfDue => discard (Logex.checkpointIfDue world)
  | markNonCanonical blockHash => discard (Logex.markNonCanonical world blockHash)
  | beginCanonicalReorg revertedHashes retainedHeaders indexedHead =>
    discard (Logex.beginCanonicalReorg world revertedHashes retainedHeaders indexedHead)
  | applyCanonicalReorg revertedHashes retainedHeaders indexedHead =>
    discard (Logex.applyCanonicalReorg world revertedHashes retainedHeaders indexedHead)
  | applyCanonicalReorgWithNotifications revertedHashes retainedHeaders indexedHead => do
    let active ← Logex.beginCanonicalReorg world revertedHashes retainedHeaders indexedHead
    discard (Logex.finishWithNotifications world active)
  | compactEligibleSegmentsLimit limit => discard (Logex.compactEligibleSegmentsLimit world limit)

/-- An empty data directory. -/
def NativeStorage.empty (hotTargetRows compactionSafetyMarginBlocks : Nat) : NativeStorage where
  hotTargetRows := hotTargetRows
  compactionSafetyMarginBlocks := compactionSafetyMarginBlocks
  catalog := { hotTargetRows }
  disk := { catalog := { hotTargetRows }, segments := fun _ => {} }

/-- `NativeStorage::open` on an empty data directory: publish an empty catalog and allocate the hot segment. -/
def openFresh : StorageM Unit := do
  let s ← get
  attempt (s.catalog.validate world.hashes)
  writeDisk world fun disk => { disk with catalog := s.catalog }
  discard (ensureActiveHotSegment world)

end Logex
