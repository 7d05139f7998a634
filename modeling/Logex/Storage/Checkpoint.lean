import Logex.Storage.Write

/-!
# Checkpoints

How rows and progress that were accepted in memory reach the catalog: the ingestion epoch of sync batches, whose catalog is
published with their segments, and the WAL-backed epoch of generic row batches, whose journal and log are retired after it.
-/

namespace Logex

open Lib

/-- `CHECKPOINT_INGEST_BYTES`. -/
def checkpointIngestBytes : Nat := 32 * 1024 * 1024

/-- Five seconds, in milliseconds. -/
def checkpointInterval : Nat := 5000

/-- `u32::checked_add`. -/
def checkedAddU32 (a b : Nat) : Option Nat := if a + b ≤ u32Max then some (a + b) else none

/-! ## Sparse bundles -/

def repackMinPages : Nat := 128

def repackMaxPayload : Nat := 8 * 1024 * 1024

def BundleReader.streamLen (reader : BundleReader) (id : StreamId) : Except String Nat := do
  let stream ← okOr "missing bundle stream" (reader.streams id)
  return stream.len

variable (world : World)

/-- Whether a bundle is small and fragmented enough to be written anew. -/
def repackCandidate (dir : SegmentDir) (descriptor : SegmentDescriptor) (reference : BundleReference) : Except String Bool := do
  let reader ← BundleReader.openAt world.codec (dir.bundles descriptor.generation).file reference
  let lengths ← ((List.finRange streamCount).take 14).mapM reader.streamLen
  let indexLength ← reader.streamLen 14
  return lengths.sum ≤ 16 * 1024 * 1024 && decide (repackMinPages ≤ indexLength / pageIndexEntryBytes)

/-- The reader of a segment agrees with the catalog about its identity. -/
def SegmentDir.matchesCatalog (dir : SegmentDir) (descriptor : SegmentDescriptor) : Bool :=
  dir.manifest.any fun manifest => manifest.columnBundle = descriptor.columnBundle &&
    manifest.generation = descriptor.generation && manifest.sourceNamespace = descriptor.sourceNamespace &&
    manifest.sourceCommitment = descriptor.sourceCommitment

variable (route : IngestRoute) (descriptor : SegmentDescriptor)

/-- Write the rows of a segment to a bundle file of the next generation. -/
def repackInto (contents : List StoredRow) : StorageM SegmentDescriptor := do
  let generation ← attempt (okOr "bundle generations exhausted" (checkedAdd descriptor.generation 1))
  let question ← ask
  let (reference, bundle) ← attempt (BundleFile.create world.codec
    (.replaceMetadata canonicalStream (world.bitmap (contents.map (·.canonical))) ::
      world.pages question [] (contents.map (·.row))) descriptor.rowCount contents)
  let next := { descriptor with generation, columnBundle := some reference }
  writeSegment world descriptor.id fun dir => { dir with bundles := Function.update dir.bundles generation bundle }
  persistManifest world next .current
  return next

/-- Rewrite the rows of a checked candidate. -/
def repackRows : StorageM (Option SegmentDescriptor) := do
  let s ← get
  let dir := s.disk.segments descriptor.id
  failIf (dir.matchesCatalog descriptor = false) "repack source differs from the catalog"
  let contents ← attempt dir.read
  if repackMaxPayload < (contents.map (·.row.dataLen)).sum then return none
  else do
    failIf (contents.length ≠ descriptor.rowCount) "repack source row boundary differs"
    let next ← repackInto world descriptor contents
    return some next

/-- Coalesce only small, heavily fragmented sources. -/
def repackSparseBundle : StorageM (Option SegmentDescriptor) :=
  match descriptor.columnBundle with
  | none => return none
  | some reference =>
    if reference.sequence < repackMinPages ∨ maxPageRows < descriptor.rowCount then return none
    else do
      let s ← get
      let candidate ← attempt (repackCandidate world (s.disk.segments descriptor.id) descriptor reference)
      if candidate then repackRows world descriptor else return none

def repackIncluded (origin : IngestionOrigin) (segment : SegmentDescriptor) : StorageM (Option SegmentDescriptor) :=
  if origin.includes segment.id then repackSparseBundle world segment else pure none

/-- Repack the segments of an epoch, collecting the generations they leave behind. -/
def repackSegments (world : World) (origin : IngestionOrigin) : List SegmentDescriptor → StorageM (List (Nat × Nat))
  | [] => return []
  | segment :: rest => do
    let replaced ← repackIncluded world origin segment
    match replaced with
    | none => repackSegments world origin rest
    | some next => do
      modifyCatalog fun catalog => catalog.modifySegment segment.id fun _ => next
      let retired ← repackSegments world origin rest
      return (segment.id, segment.generation) :: retired

/-! ## The ingestion epoch -/

/-- Whether one of some epochs has been open for five seconds. -/
def anyExpired (world : World) : List PendingIngestion → StorageM Bool
  | [] => return false
  | pending :: rest => do
    let now ← checkpointNow world
    if checkpointInterval ≤ now - pending.startedAt then return true else anyExpired world rest

/-- Include every published epoch since the last full flush. -/
def ingestionCheckpointDue (additionalBytes : Nat) : StorageM Bool := do
  let s ← get
  let epochs := s.pendingIngestion.toList ++ s.publishedIngestion.toList
  let expired ← anyExpired world epochs
  return expired || decide (checkpointIngestBytes ≤ additionalBytes + (epochs.map (·.bytes)).sum) ||
    decide (64 ≤ (epochs.map (·.batches)).sum)

/-- Merge an epoch into the published ones whose device flush is outstanding. -/
def mergePublished (pending : PendingIngestion) (published : Option PendingIngestion) : Except String PendingIngestion :=
  match published with
  | none => .ok pending
  | some published => do
    let bytes ← okOr "published ingestion byte count overflow" (checkedAdd published.bytes pending.bytes)
    let batches ← okOr "published ingestion batch count overflow" (checkedAddU32 published.batches pending.batches)
    return { published with bytes, batches }

/-- `checkpoint_ingestion`, for an epoch already taken out of the state. -/
def checkpointIngestion (pending : PendingIngestion) (progressDurable : Bool) : StorageM Unit := do
  setRecoveryRequired true
  let s ← get
  let repacked ← repackSegments world pending.origin s.catalog.segments
  let s ← get
  attempt (s.catalog.validate world.hashes)
  writeDisk world fun disk => { disk with catalog := s.catalog }
  if progressDurable = true ∨ repacked ≠ [] then do
    modify fun s => { s with publishedIngestion := none }
    repacked.forM fun retired =>
      writeSegment world retired.1 fun dir => { dir with bundles := Function.update dir.bundles retired.2 {} }
    setRecoveryRequired false
  else do
    let published ← attempt (mergePublished pending s.publishedIngestion)
    modify fun s => { s with publishedIngestion := some published }
    setRecoveryRequired false

/-! ## The WAL-backed epoch -/

def persistJournal (journal : RecoveryJournal) : StorageM Unit := do
  attempt (journal.validate world.hashes)
  writeDisk world fun disk => { disk with journal := some journal }

/-- `persist_checkpoint_catalog`. -/
def persistCheckpointCatalog : StorageM Unit := do
  let s ← get
  attempt (s.catalog.validate world.hashes)
  writeDisk world fun disk => { disk with catalog := s.catalog }

def finishWalBatch : StorageM Unit := do
  writeDisk world fun disk => { disk with wal := [] }
  writeDisk world fun disk => { disk with journal := none }
  setRecoveryRequired false

/-- Wait for the published catalog name to be durable. -/
def hardenPublished : StorageM Unit := do
  setRecoveryRequired true
  writeDisk world id
  modify fun s => { s with publishedIngestion := none }
  setRecoveryRequired false

/-- Retire a WAL-backed epoch: complete its journal, publish the catalog, clear the log, remove the journal. -/
def checkpointWal (pending : PendingCheckpoint) : StorageM Unit := do
  setRecoveryRequired true
  let journal ← attempt (pending.journal.completeCheckpoint world.hashes pending.rows (world.codec.crc32 pending.checksum))
  persistJournal world journal
  persistCheckpointCatalog world
  finishWalBatch world

/-- Publish a complete sync checkpoint, or retire WAL recovery metadata. -/
def checkpoint : StorageM Unit := do
  ensureWritable
  let progressDurable ← ingestionCheckpointDue world 0
  let s ← get
  match s.pendingIngestion, s.pendingCheckpoint with
  | some pending, _ => do
    modify fun s => { s with pendingIngestion := none }
    checkpointIngestion world pending progressDurable
  | none, some pending => do
    modify fun s => { s with pendingCheckpoint := none }
    checkpointWal world pending
  | none, none => runIf (progressDurable = true ∧ s.publishedIngestion.isSome) (hardenPublished world)

/-- Make the latest rows and progress durable, including the published sync catalog name. -/
def checkpointDurable : StorageM Unit := do
  ensureWritable
  let s ← get
  match s.pendingIngestion with
  | some pending => do
    modify fun s => { s with pendingIngestion := none }
    checkpointIngestion world pending true
  | none => do
    checkpoint world
    let s ← get
    runIf (s.publishedIngestion.isSome = true) (hardenPublished world)

/-- Let the runtime retire small pending epochs even when ingestion is idle. -/
def checkpointIfDue : StorageM Bool := do
  ensureWritable
  let s ← get
  let epochs := (s.pendingIngestion.map (·.startedAt)).toList ++ (s.pendingCheckpoint.map (·.startedAt)).toList ++
    (s.publishedIngestion.map (·.startedAt)).toList
  let now ← checkpointNow world
  if epochs.any fun startedAt => checkpointInterval ≤ now - startedAt then do
    checkpointDurable world
    return true
  else return false

/-- The checkpoint that metadata operations take before they change the catalog. -/
def hardenIngestion : StorageM Unit := do
  let s ← get
  runIf (s.pendingIngestion.isSome ∨ s.publishedIngestion.isSome) (checkpointDurable world)

/-! ## Beginning and completing a batch -/

/-- The segment a route appends to. -/
def NativeStorageCatalog.activeSegment (catalog : NativeStorageCatalog) : IngestRoute → Option Nat
  | .live => catalog.activeHotSegment
  | .historical => catalog.activeHistoricalSegment

/-- The segment an epoch starts from. -/
def ingestionStart (catalog : NativeStorageCatalog) (route : IngestRoute) : Except String (Option SegmentDescriptor) :=
  match catalog.activeSegment route with
  | none => .ok none
  | some id => do
    let start ← okOr "ingestion starting segment is missing" (catalog.segment? id)
    return some start

/-- Open an epoch where none is pending. -/
def openIngestion : StorageM PendingIngestion := do
  let s ← get
  match s.pendingIngestion with
  | some pending => return pending
  | none => do
    let start ← attempt (ingestionStart s.catalog route)
    let startedAt ← checkpointNow world
    return { origin := { route, start, nextSegmentId := s.catalog.nextSegmentId }, bytes := 0, batches := 0, startedAt }

/-- Whether a batch must wait for a checkpoint of what is pending. -/
def ingestionMustCheckpoint (bytes : Nat) (route : IngestRoute) : StorageM Bool := do
  let s ← get
  let due ← ingestionCheckpointDue world bytes
  return s.pendingCheckpoint.isSome || due ||
    (s.pendingIngestion.toList ++ s.publishedIngestion.toList).any fun pending => pending.origin.route ≠ route

def beginIngestion (rows : List LogRow) (route : IngestRoute) : StorageM Unit := do
  ensureWritable
  let bytes ← attempt (validatedPayloadLen rows)
  let must ← ingestionMustCheckpoint world bytes route
  runIf (must = true) (checkpointDurable world)
  setRecoveryRequired true
  let pending ← openIngestion world route
  let total ← attempt (okOr "ingestion byte count overflow" (checkedAdd pending.bytes bytes))
  modify fun s => { s with pendingIngestion := some { pending with bytes := total, batches := pending.batches + 1 } }

def completeIngestionBatch : StorageM Unit := do
  setRecoveryRequired false
  let due ← ingestionCheckpointDue world 0
  runIf (due = true) (checkpointDurable world)

/-- The segment a journal starts from. -/
def checkpointStartId : StorageM Nat := do
  let s ← get
  match route, s.catalog.activeHistoricalSegment with
  | .historical, some id => return id
  | _, _ => ensureActiveHotSegment world

/-- Open a WAL-backed epoch where none is pending. -/
def openCheckpoint : StorageM PendingCheckpoint := do
  let s ← get
  match s.pendingCheckpoint with
  | some pending => return pending
  | none => do
    failIf (s.disk.wal ≠ []) "WAL is not empty; reopen storage before beginning a checkpoint"
    let startId ← checkpointStartId world route
    let start ← findSegment startId "checkpoint starting segment missing"
    let s ← get
    let journal ← attempt (RecoveryJournal.newCheckpoint world.hashes start s.catalog.nextSegmentId route)
    persistJournal world journal
    let startedAt ← checkpointNow world
    let pending : PendingCheckpoint :=
      { journal, bytes := 0, rows := 0, checksum := EncodedWalBatch.checkpointChecksum, startedAt }
    modify fun s => { s with pendingCheckpoint := some pending }
    return pending

/-- Whether a pending epoch cannot take a batch. -/
def PendingCheckpoint.mustCheckpoint (pending : PendingCheckpoint) (batch : EncodedWalBatch) (route : IngestRoute) (now : Nat) :
    Bool :=
  pending.journal.route ≠ route || decide (checkpointIngestBytes < saturatingAdd pending.bytes batch.encodedLen) ||
    (checkedAddU32 pending.rows batch.rowCount).isNone || decide (checkpointInterval ≤ now - pending.startedAt)

def beginCheckpointBatch (rows : List LogRow) (route : IngestRoute) : StorageM Unit := do
  let batch ← attempt (EncodedWalBatch.new world.codec.crc32 rows)
  hardenIngestion world
  let now ← checkpointNow world
  let s ← get
  runIf (s.pendingCheckpoint.any (·.mustCheckpoint batch route now) = true) (checkpoint world)
  setRecoveryRequired true
  let pending ← openCheckpoint world route
  writeDisk world fun disk => { disk with wal := disk.wal ++ [rows] }
  let total ← attempt (okOr "checkpoint row count overflow" (checkedAddU32 pending.rows batch.rowCount))
  modify fun s => { s with pendingCheckpoint := some { pending with
    bytes := pending.bytes + batch.encodedLen, rows := total, checksum := batch.extendCheckpointChecksum pending.checksum } }

def completeCheckpointBatch : StorageM Unit := do
  setRecoveryRequired false
  let s ← get
  runIf (s.pendingCheckpoint.any (fun pending => decide (checkpointIngestBytes ≤ pending.bytes)) = true) (checkpoint world)

end Logex
