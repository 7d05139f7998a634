import Logex.VerifiedBlock
import Logex.Wal
import Logex.Lib.Stateful

/-!
# The state of native storage

`NativeStorage` with the directory it owns. An operation is a function on this state that may fail and then keeps what it changed,
as the source's methods on `&mut self` do. The world outside, third-party codecs, the clock, random bytes, the order in which column
workers write and the outcome of each file operation, is a parameter asked one question at a time.

A segment's files are kept as what they read back: the rows in raw or paged files, and for a bundle file the rows each of its
references selects. How columns and bitmaps become bytes is a parameter here.
-/

namespace Logex

open Lib

/-- What storage does not decide itself. The number a question carries tells one occasion from another. -/
structure World where
  hashes : Hashes
  codec : BundleCodec
  /-- `zstd_safe::compress_bound`. -/
  compressBound : Nat → Nat
  /-- `checkpoint_now`, in milliseconds. -/
  now : Nat → Nat
  /-- `getrandom::fill` of a source namespace. -/
  fill : Nat → FixedBytes 16
  /-- What the column workers write, in their order, when rows are appended to a prefix. -/
  pages : Nat → List LogRow → List LogRow → List BundleWrite
  /-- The bytes of a canonical bitmap in a bundle. -/
  bitmap : List Bool → Bytes
  /-- Whether a file operation fails. -/
  fails : Nat → Bool

/-! ## Files -/

/-- A row with its canonical bit. -/
structure StoredRow where
  row : LogRow
  canonical : Bool
deriving DecidableEq, Repr

/-- Rows as they are first written: all canonical. -/
def storeRows (rows : List LogRow) : List StoredRow := rows.map (StoredRow.mk · true)

/-- A bundle file with the rows its references select, newest first. -/
structure BundleFile where
  file : Bytes := []
  snapshots : List (BundleReference × List StoredRow) := []
deriving DecidableEq, Repr

def BundleFile.read (bundle : BundleFile) (reference : BundleReference) : Option (List StoredRow) :=
  (bundle.snapshots.find? fun snapshot => snapshot.1 = reference).map (·.2)

/-- Which files hold the columns of a manifest. -/
inductive ColumnLayout where
  | raw
  | outdated
  | current
deriving DecidableEq, Repr

/-- `segment.json`: derived metadata of a segment directory. -/
structure SegmentManifest where
  columnBundle : Option BundleReference
  segmentId : Nat
  sourceNamespace : Option (FixedBytes 16)
  sourceCommitment : Option B256
  generation : Nat
  kind : SegmentKind
  minBlock : Option Nat
  maxBlock : Option Nat
  minTimestamp : Option Nat
  maxTimestamp : Option Nat
  rowCount : Nat
  columns : ColumnLayout
deriving DecidableEq, Repr

/-- `manifest_with_columns`. -/
def manifestWithColumns (descriptor : SegmentDescriptor) (columns : ColumnLayout) : SegmentManifest where
  columnBundle := descriptor.columnBundle
  segmentId := descriptor.id
  sourceNamespace := descriptor.sourceNamespace
  sourceCommitment := descriptor.sourceCommitment
  generation := descriptor.generation
  kind := descriptor.kind
  minBlock := descriptor.minBlock
  maxBlock := descriptor.maxBlock
  minTimestamp := descriptor.minTimestamp
  maxTimestamp := descriptor.maxTimestamp
  rowCount := descriptor.rowCount
  columns := columns

structure SegmentDir where
  present : Bool := false
  manifest : Option SegmentManifest := none
  /-- What raw or paged files read back. -/
  rows : List StoredRow := []
  /-- The bundle file of each generation. -/
  bundles : Nat → BundleFile := fun _ => {}

/-- `SegmentReader::open`, reduced to the rows it reads. -/
def SegmentDir.read (dir : SegmentDir) : Except String (List StoredRow) :=
  match dir.manifest with
  | none => .ok dir.rows
  | some manifest => match manifest.columnBundle with
    | none => .ok dir.rows
    | some reference => okOr "bundle snapshot is truncated" ((dir.bundles manifest.generation).read reference)

/-- The data directory. -/
structure Disk where
  catalog : NativeStorageCatalog
  segments : Nat → SegmentDir
  journal : Option RecoveryJournal := none
  /-- Complete frames of `pending.wal`, oldest first. -/
  wal : List (List LogRow) := []

/-! ## Storage -/

structure IngestionOrigin where
  route : IngestRoute
  start : Option SegmentDescriptor
  nextSegmentId : Nat
deriving DecidableEq, Repr

def IngestionOrigin.includes (origin : IngestionOrigin) (id : Nat) : Bool :=
  (origin.start.any fun start => start.id = id) || decide (origin.nextSegmentId ≤ id)

structure PendingIngestion where
  origin : IngestionOrigin
  bytes : Nat
  batches : Nat
  startedAt : Nat
deriving DecidableEq, Repr

structure PendingCheckpoint where
  journal : RecoveryJournal
  bytes : Nat
  rows : Nat
  checksum : Bytes
  startedAt : Nat
deriving DecidableEq, Repr

structure NativeStorage where
  /-- `config.hot_target_rows`. -/
  hotTargetRows : Nat
  /-- `config.compaction_safety_margin_blocks`. -/
  compactionSafetyMarginBlocks : Nat
  catalog : NativeStorageCatalog
  disk : Disk
  recoveryRequired : Bool := false
  pendingCheckpoint : Option PendingCheckpoint := none
  pendingIngestion : Option PendingIngestion := none
  publishedIngestion : Option PendingIngestion := none
  /-- How many questions the world has answered. -/
  tick : Nat := 0

/-- An operation of storage. -/
abbrev StorageM := EStateM String NativeStorage

/-- The number of the next question to the world. -/
def ask : StorageM Nat := modifyGet fun s => (s.tick, { s with tick := s.tick + 1 })

variable (world : World)

/-- A file operation: it may fail and leave the disk as it was. -/
def writeDisk (change : Disk → Disk) : StorageM Unit := do
  let question ← ask
  failIf (world.fails question = true) "file operation failed"
  modify fun s => { s with disk := change s.disk }

def Disk.setSegment (disk : Disk) (id : Nat) (change : SegmentDir → SegmentDir) : Disk :=
  { disk with segments := Function.update disk.segments id (change (disk.segments id)) }

/-- A change to one segment directory. -/
def writeSegment (id : Nat) (change : SegmentDir → SegmentDir) : StorageM Unit :=
  writeDisk world fun disk => disk.setSegment id change

def checkpointNow : StorageM Nat := do
  let question ← ask
  return world.now question

def modifyCatalog (change : NativeStorageCatalog → NativeStorageCatalog) : StorageM Unit :=
  modify fun s => { s with catalog := change s.catalog }

def modifyState (change : StorageState → StorageState) : StorageM Unit :=
  modifyCatalog fun catalog => { catalog with state := change catalog.state }

def setRecoveryRequired (required : Bool) : StorageM Unit :=
  modify fun s => { s with recoveryRequired := required }

def ensureWritable : StorageM Unit := do
  let s ← get
  failIf (s.recoveryRequired = true) "storage has an unfinished transaction; close and reopen it before further writes"

/-- Unchecked import and metadata helpers must never weaken a certified dataset. -/
def requireUnverifiedStorage : StorageM Unit := do
  ensureWritable
  let s ← get
  failIf (s.catalog.state.verifiedLogCoverage.isSome = true) "unchecked mutation of verified event storage is forbidden"

/-- The descriptor of a segment that must exist. -/
def findSegment (id : Nat) (missing : String) : StorageM SegmentDescriptor := do
  let s ← get
  attempt (okOr missing (s.catalog.segment? id))

/-- Rows and progress remain at the durable catalog checkpoint until the containing operation is committed. -/
def persistCatalog : StorageM Unit := do
  let s ← get
  if s.pendingIngestion.isSome ∨ (s.pendingCheckpoint.isSome ∧ s.recoveryRequired = true) then pure ()
  else do
    attempt (s.catalog.validate world.hashes)
    writeDisk world fun disk => { disk with catalog := s.catalog }

end Logex
