import Logex.Page.Columns
import Logex.Storage.State

/-!
# Writing rows to segments

The routes of `native/storage.rs` from a batch of rows to segment files, with the segment writers of `native/segment.rs` they use:
the live route fills and seals the hot segment, the historical route writes dense batches as sealed segments of their own and
stages sparse ones in one segment until it is full or spans too many blocks.
-/

namespace Logex

open Lib

def maxPageRows : Nat := 16384

/-- `CANONICAL_STREAM`. -/
def canonicalStream : Nat := 32

def historicalStagingMaxBlockSpan : Nat := 65536

/-! ## Bundle files -/

/-- The writes of one publication, then `finish`. -/
def publishBundle (codec : BundleCodec) (writer : WriteState) (writes : List BundleWrite) (rowCount : Nat) :
    Except String (BundleReference × Bytes) := do
  let state ← writes.foldlM (WriteState.write codec) writer
  state.finish codec rowCount

/-- A new bundle file. -/
def BundleFile.create (codec : BundleCodec) (writes : List BundleWrite) (rowCount : Nat) (contents : List StoredRow) :
    Except String (BundleReference × BundleFile) := do
  let (reference, file) ← publishBundle codec .create writes rowCount
  return (reference, { file, snapshots := [(reference, contents)] })

/-- One more publication in a bundle file, from the snapshot of a reference. -/
def BundleFile.append (codec : BundleCodec) (bundle : BundleFile) (reference : BundleReference) (writes : List BundleWrite)
    (rowCount : Nat) (contents : List StoredRow) : Except String (BundleReference × BundleFile) := do
  let reader ← BundleReader.openAt codec bundle.file reference
  let writer ← WriteState.appendInspected bundle.file reader
  let (reference, file) ← publishBundle codec writer writes rowCount
  return (reference, { file, snapshots := (reference, contents) :: bundle.snapshots })

/-! ## Capacity -/

variable (world : World) (descriptor : SegmentDescriptor)

/-- Reserve worst-case compressed extents before writing any part of a batch. -/
def bundledRowCapacity (dir : SegmentDir) (reference : Option BundleReference) (generation : Nat)
    (rows : List LogRow) : Except String Nat := do
  let capacity ← match reference with
    | some reference => do
      let reader ← BundleReader.openAt world.codec (dir.bundles generation).file reference
      Page.remainingExtents reader.streams false
    | none => .ok fun _ => Fin.last maxExtents
  Page.capacityFromExtents world.compressBound capacity rows

/-! ## Segment files -/

/-- The directory after a manifest was written to it. -/
def SegmentDir.withManifest (dir : SegmentDir) (descriptor : SegmentDescriptor) (columns : ColumnLayout) : SegmentDir :=
  { dir with present := true, manifest := some (manifestWithColumns descriptor columns) }

/-- `persist_ingest_manifest_with_columns`. -/
def persistManifest (columns : ColumnLayout) : StorageM Unit :=
  writeSegment world descriptor.id fun dir => dir.withManifest descriptor columns

/-- The columns of the manifest on disk, or the raw ones of a new segment. -/
def SegmentDir.existingColumns (dir : SegmentDir) : ColumnLayout := (dir.manifest.map (·.columns)).getD .raw

/-- `persist_ingest_manifest`. -/
def persistIngestManifest : StorageM Unit := do
  let s ← get
  persistManifest world descriptor (s.disk.segments descriptor.id).existingColumns

/-- Start a segment with no committed rows as a bundle. -/
def writeBundledRows (id : Nat) (rows : List LogRow) : StorageM (Option BundleReference) := do
  let question ← ask
  let (reference, bundle) ← attempt (BundleFile.create world.codec
    (.replaceMetadata canonicalStream (world.bitmap (rows.map fun _ => true)) :: world.pages question [] rows) rows.length
    (storeRows rows))
  writeSegment world id fun dir => { dir with present := true, rows := [], bundles := Function.update dir.bundles 0 bundle }
  return some reference

variable (rows : List LogRow) (targetRows : Nat)

/-- Only new historical bundles may overlap hashing with column encoding; the exact empty origin is checked before. -/
def writeNewHistoricalBundle : StorageM (Option BundleReference × AppendRevision × Option RowBounds) := do
  failIf (descriptor.rowCount ≠ 0) "new historical bundle requires an identified empty prefix"
  let namespaceId ← attempt (okOr "new historical bundle requires an identified empty prefix" descriptor.sourceNamespace)
  let root ← attempt (okOr "new historical bundle requires an identified empty prefix" descriptor.sourceCommitment)
  let state ← attempt (okOr "new historical bundle requires an identified empty prefix" descriptor.sourceState)
  let bounds ← attempt (state.validateNewAppend world.hashes.blake3 namespaceId root rows)
  let reference ← writeBundledRows world descriptor.id rows
  let revision ← attempt (AppendRevision.new world.hashes.blake3 (some state) rows)
  return (reference, revision, bounds)

/-- `append_ingest_rows`: a raw prefix keeps its representation. -/
def appendIngestRows (id existingRows : Nat) (rows : List LogRow) : StorageM Unit :=
  writeSegment world id fun dir =>
    { dir with present := true, rows := (if existingRows = 0 then [] else dir.rows) ++ storeRows rows }

/-- The new table of a bundle, or nothing where rows are appended to page files. -/
def appendPages (id : Nat) (manifest : SegmentManifest) (previous : List StoredRow) (rows : List LogRow) :
    StorageM (Option BundleReference) :=
  match manifest.columnBundle with
  | none => do
    writeSegment world id fun dir => { dir with rows := previous ++ storeRows rows }
    return none
  | some reference => do
    let question ← ask
    let s ← get
    let flags := previous.map (·.canonical) ++ rows.map fun _ => true
    let (reference, bundle) ← attempt (((s.disk.segments id).bundles manifest.generation).append world.codec reference
      (.replaceMetadata canonicalStream (world.bitmap flags) :: world.pages question (previous.map (·.row)) rows)
      (manifest.rowCount + rows.length) (previous ++ storeRows rows))
    writeSegment world id fun dir => { dir with bundles := Function.update dir.bundles manifest.generation bundle }
    return some reference

/-- `append_compacted_rows_with_revision`. -/
def appendCompactedRows (id existingRows : Nat) (rows : List LogRow) (revision : AppendRevision) :
    StorageM (Option BundleReference) := do
  let s ← get
  let dir := s.disk.segments id
  let manifest ← attempt (okOr "missing append manifest" dir.manifest)
  failIf ((manifest.sourceCommitment.isSome ∧ manifest.sourceNamespace.isNone) ∨ u32Max < manifest.rowCount)
    "unsupported segment format or row bounds"
  failIf (manifest.rowCount ≠ existingRows) "segment append manifest changed"
  failIf (manifest.sourceCommitment ≠ revision.previous) "append prefix commitment changed"
  let previous ← attempt dir.read
  appendPages world id manifest previous rows

/-- `compact_ingest_segment`: the rows of a sealed raw segment move to page files of the current profile. -/
def compactIngestSegment : StorageM Unit :=
  if descriptor.kind ≠ .sealed ∨ descriptor.rowCount = 0 then persistIngestManifest world descriptor
  else persistManifest world descriptor .current

/-! ## Allocation, sealing and finalization -/

/-- Register a hot segment, create its directory and publish it. -/
def registerHotSegment : StorageM Nat := do
  let question ← ask
  let s ← get
  let (descriptor, catalog) ← attempt (s.catalog.registerSegment world.hashes .hot (world.fill question))
  modifyCatalog fun _ => catalog
  writeSegment world descriptor.id fun dir => { dir with present := true }
  persistIngestManifest world descriptor
  persistCatalog world
  return descriptor.id

def ensureActiveHotSegment : StorageM Nat := do
  let s ← get
  match s.catalog.activeHot with
  | some active => do
    failIf ((s.disk.segments active.id).present = false) "active hot segment directory is missing"
    return active.id
  | none => registerHotSegment world

def sealHotSegment : StorageM Unit := do
  let s ← get
  let hotId ← attempt (okOr "missing hot segment" s.catalog.activeHotSegment)
  modifyCatalog fun catalog => catalog.modifySegment hotId fun segment => { segment with kind := .sealed, sourceState := none }
  let s ← get
  (s.catalog.segment? hotId).toList.forM (persistIngestManifest world)
  modifyCatalog fun catalog => { catalog with activeHotSegment := none }
  let _ ← registerHotSegment world

/-- Allocate the segment a sparse historical batch is staged in. -/
def allocateHistoricalSegment : StorageM Nat := do
  modifyCatalog fun catalog => { catalog with activeHistoricalSegment := none }
  let question ← ask
  let s ← get
  let (descriptor, catalog) ← attempt (s.catalog.allocateSegment world.hashes .sealed (world.fill question))
  modifyCatalog fun _ => catalog
  writeSegment world descriptor.id fun _ => { present := true }
  modifyCatalog fun catalog =>
    { catalog with segments := catalog.segments ++ [descriptor], activeHistoricalSegment := some descriptor.id }
  return descriptor.id

def ensureActiveHistoricalSegment : StorageM Nat := do
  let s ← get
  let active := s.catalog.activeHistoricalSegment.bind fun id =>
    s.catalog.segments.find? fun segment => segment.id = id && segment.kind = .sealed
  match active with
  | some descriptor => do
    failIf ((s.disk.segments descriptor.id).present = false) "active historical segment directory is missing"
    return descriptor.id
  | none => allocateHistoricalSegment world

/-- Whether a segment already uses the current compaction profile. -/
def SegmentDir.usesCurrentProfile (dir : SegmentDir) : Bool := dir.manifest.any fun manifest => manifest.columns = .current

def SegmentDir.isCompacted (dir : SegmentDir) : Bool := dir.manifest.any fun manifest => manifest.columns ≠ .raw

/-- Close the active historical segment, if there is one. -/
def finalizeHistoricalSegment : StorageM Bool := do
  let s ← get
  match s.catalog.activeHistoricalSegment with
  | none => return false
  | some segmentId => do
    let descriptor ← findSegment segmentId "active historical segment is missing"
    runIf (0 < descriptor.rowCount ∧ (s.disk.segments segmentId).usesCurrentProfile = false)
      (compactIngestSegment world descriptor)
    modifyCatalog fun catalog =>
      { catalog.modifySegment segmentId (fun segment => { segment with sourceState := none }) with activeHistoricalSegment := none }
    persistCatalog world
    return true

/-! ## The live route -/

/-- The descriptor after a chunk was written to its segment. -/
def SegmentDescriptor.appended (bounds : Option RowBounds) (revision : AppendRevision)
    (columnBundle : Option BundleReference) : SegmentDescriptor :=
  { descriptor.applyRowBounds bounds with
    sourceCommitment := revision.next, sourceState := revision.state, columnBundle }

variable (bundled : Bool) (chunk : List LogRow)

/-- Write one chunk to the hot segment: as a bundle where it starts or continues one, else to its raw files. -/
def writeHotChunk (revision : AppendRevision) : StorageM (Option BundleReference) :=
  if bundled then
    if descriptor.rowCount = 0 then writeBundledRows world descriptor.id chunk
    else appendCompactedRows world descriptor.id descriptor.rowCount chunk revision
  else do
    appendIngestRows world descriptor.id descriptor.rowCount chunk
    return descriptor.columnBundle

/-- A bundle has a manifest of the current profile; raw files keep theirs. -/
def persistHotManifest : StorageM Unit :=
  if bundled then persistManifest world descriptor .current else persistIngestManifest world descriptor

/-- Write a chunk to the hot segment and publish its descriptor. -/
def commitChunk : StorageM Unit := do
  let revision ← attempt (AppendRevision.new world.hashes.blake3 descriptor.sourceState chunk)
  let columnBundle ← writeHotChunk world descriptor bundled chunk revision
  let next := descriptor.appended (RowBounds.fromRows chunk) revision columnBundle
  modifyCatalog fun catalog => catalog.modifySegment descriptor.id fun _ => next
  persistHotManifest world next bundled
  persistCatalog world

/-- How many rows the hot segment takes next. -/
def hotCapacity (candidate : List LogRow) : StorageM Nat := do
  let s ← get
  if bundled then
    attempt (bundledRowCapacity world (s.disk.segments descriptor.id) descriptor.columnBundle descriptor.generation candidate)
  else return candidate.length

/-- One turn of the loop of `commit_rows_to_segments`: the rows that remain. -/
def commitStep : StorageM (List LogRow) := do
  let hotId ← ensureActiveHotSegment world
  let descriptor ← findSegment hotId "active hot segment is missing"
  let s ← get
  let targetRows := max s.hotTargetRows 1
  let remainingCapacity := targetRows - descriptor.rowCount
  if remainingCapacity = 0 then do
    sealHotSegment world
    return rows
  else do
    let bundled := descriptor.columnBundle.isSome || (descriptor.rowCount = 0 && s.pendingIngestion.isSome)
    let take ← hotCapacity world descriptor bundled (rows.take remainingCapacity)
    if take = 0 then
      if descriptor.rowCount = 0 then throw "row exceeds bundle capacity"
      else do
        sealHotSegment world
        return rows
    else do
      commitChunk world descriptor bundled (rows.take take)
      runIf (targetRows ≤ descriptor.rowCount + (rows.take take).length) (sealHotSegment world)
      return rows.drop take

/-- A turn writes at least one row or seals the segment that could not take one, so the fuel is never used up. -/
def commitRowsToSegments : StorageM Unit := do
  let _ ← loop (fun rows => !rows.isEmpty) (commitStep world) "out of fuel" (2 * rows.length + 2) rows

/-! ## The historical route -/

structure PartitionMeta where
  id : Nat
  minBlock : Nat
  maxBlock : Nat
  minTimestamp : Option Nat
  maxTimestamp : Option Nat
  rowCount : Nat
  isSealed : Bool
  path : String
deriving DecidableEq, Repr

/-- `partition_meta`. -/
def partitionMeta : PartitionMeta where
  id := descriptor.id
  minBlock := descriptor.minBlock.getD u64Max
  maxBlock := descriptor.maxBlock.getD 0
  minTimestamp := descriptor.minTimestamp
  maxTimestamp := descriptor.maxTimestamp
  rowCount := descriptor.rowCount
  isSealed := descriptor.kind = .sealed
  path := segmentPath descriptor.id

def denseHistoricalBatchRowThreshold : Nat :=
  if targetRows ≤ 1024 then max targetRows 1 else max (targetRows / 4) 1

def compactedHistoricalRowPrefixLen (rowCount targetRows : Nat) : Nat :=
  if rowCount ≤ targetRows then rowCount
  else
    let remainder := rowCount % targetRows
    if 0 < remainder ∧ remainder < denseHistoricalBatchRowThreshold targetRows then rowCount - remainder else rowCount

def historicalSegmentWouldExceedBlockSpan (bounds : RowBounds) : Bool :=
  let minBlock := descriptor.minBlock.elim bounds.minBlock (min · bounds.minBlock)
  let maxBlock := descriptor.maxBlock.elim bounds.maxBlock (max · bounds.maxBlock)
  decide (historicalStagingMaxBlockSpan ≤ maxBlock - minBlock)

def historicalSegmentBlockSpan : Option Nat := do
  let maxBlock ← descriptor.maxBlock
  let minBlock ← descriptor.minBlock
  return maxBlock - minBlock

/-- One new sealed segment of a dense batch. -/
def compactedStep (progress : List PartitionMeta × List LogRow) : StorageM (List PartitionMeta × List LogRow) := do
  let question ← ask
  let s ← get
  let (descriptor, catalog) ← attempt (s.catalog.allocateSegment world.hashes .sealed (world.fill question))
  modifyCatalog fun _ => catalog
  let take ← attempt (bundledRowCapacity world {} none 0 (progress.2.take targetRows))
  failIf (take = 0) "row exceeds bundle capacity"
  let chunk := progress.2.take take
  let (columnBundle, revision, bounds) ← writeNewHistoricalBundle world descriptor chunk
  let next := { descriptor.appended bounds revision columnBundle with sourceState := none }
  persistManifest world next .current
  modifyCatalog fun catalog => { catalog with segments := catalog.segments ++ [next] }
  return (progress.1 ++ [partitionMeta next], progress.2.drop take)

def writeCompactedHistoricalSegments : StorageM (List PartitionMeta) := do
  let (appended, _) ← loop (fun progress => !progress.2.isEmpty) (compactedStep world targetRows) "out of fuel"
    (2 * rows.length + 2) ([], rows)
  runIf (appended ≠ []) (persistCatalog world)
  return appended

/-- Write one chunk to the staging segment. -/
def writeStagedChunk : StorageM (Option BundleReference × AppendRevision × Option RowBounds) :=
  if descriptor.rowCount = 0 then writeNewHistoricalBundle world descriptor chunk
  else do
    let revision ← attempt (AppendRevision.new world.hashes.blake3 descriptor.sourceState chunk)
    let s ← get
    runIf ((s.disk.segments descriptor.id).isCompacted = false) (compactIngestSegment world descriptor)
    let columnBundle ← appendCompactedRows world descriptor.id descriptor.rowCount chunk revision
    return (columnBundle, revision, RowBounds.fromRows chunk)

/-- Write a chunk to the staging segment, publish its descriptor, and finalize the segment when it is full. -/
def stageChunk (descriptor : SegmentDescriptor) (chunk : List LogRow) : StorageM Unit := do
  let (columnBundle, revision, bounds) ← writeStagedChunk world descriptor chunk
  let next := descriptor.appended bounds revision columnBundle
  modifyCatalog fun catalog => catalog.modifySegment descriptor.id fun _ => next
  persistManifest world next .current
  persistCatalog world
  runIf (targetRows ≤ next.rowCount ∨
      (historicalSegmentBlockSpan next).any (fun span => decide (historicalStagingMaxBlockSpan ≤ span)) = true)
    (discard (finalizeHistoricalSegment world))

/-- How many rows the staging segment takes next. -/
def stagedCapacity (candidate : List LogRow) : StorageM Nat := do
  let s ← get
  if descriptor.rowCount = 0 ∨ descriptor.columnBundle.isSome then
    attempt (bundledRowCapacity world (s.disk.segments descriptor.id) descriptor.columnBundle descriptor.generation candidate)
  else return candidate.length

/-- One turn of the loop of `write_staged_historical_rows`: the segments touched and the rows that remain. -/
def stagedStep (progress : List Nat × List LogRow) : StorageM (List Nat × List LogRow) := do
  let segmentId ← ensureActiveHistoricalSegment world
  let descriptor ← findSegment segmentId "active historical segment is missing"
  let remainingCapacity := targetRows - descriptor.rowCount
  if remainingCapacity = 0 then do
    let _ ← finalizeHistoricalSegment world
    return progress
  else do
    let take ← stagedCapacity world descriptor (progress.2.take remainingCapacity)
    let chunk := progress.2.take take
    if take = 0 then
      if descriptor.rowCount = 0 then throw "row exceeds bundle capacity"
      else do
        let _ ← finalizeHistoricalSegment world
        return progress
    else if 0 < descriptor.rowCount ∧
        (RowBounds.fromRows chunk).any (historicalSegmentWouldExceedBlockSpan descriptor) then do
      let _ ← finalizeHistoricalSegment world
      return progress
    else do
      stageChunk world targetRows descriptor chunk
      return (progress.1.insert segmentId, progress.2.drop take)

def writeStagedHistoricalRows : StorageM (List PartitionMeta) := do
  let (touched, _) ← loop (fun progress => !progress.2.isEmpty) (stagedStep world targetRows) "out of fuel"
    (2 * rows.length + 2) ([], rows)
  let s ← get
  return (touched.insertionSort (· ≤ ·)).filterMap fun id => (s.catalog.segment? id).map partitionMeta

def writeHistoricalRows : StorageM (List PartitionMeta) := do
  let s ← get
  let targetRows := max s.hotTargetRows 1
  if denseHistoricalBatchRowThreshold targetRows ≤ rows.length then do
    let _ ← finalizeHistoricalSegment world
    let compactedLen := compactedHistoricalRowPrefixLen rows.length targetRows
    let appended ← writeCompactedHistoricalSegments world (rows.take compactedLen) targetRows
    if compactedLen < rows.length then do
      let staged ← writeStagedHistoricalRows world (rows.drop compactedLen) targetRows
      return appended ++ staged
    else return appended
  else writeStagedHistoricalRows world rows targetRows

end Logex
