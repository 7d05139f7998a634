import Logex.Catalog

/-!
# Write-ahead log frames

`wal.rs` and the journal of `native/recovery.rs`, as far as the writing side goes: the encoding of a row batch, whose length and
checksum bound and bind a checkpoint, and the record of where a checkpoint started. The log itself is kept as its complete frames.
-/

namespace Logex

open Lib

/-- `b"LXWL"`. -/
def walBinaryMagic : Bytes := [76, 88, 87, 76]

def walBinaryVersion : Nat := 1

def walMinRowBytes : Nat := 118

/-! ## Row payloads -/

def topicPresenceMask (row : LogRow) : UInt8 :=
  UInt8.ofNat ((if row.topic0.isSome then 1 else 0) + (if row.topic1.isSome then 2 else 0) +
    (if row.topic2.isSome then 4 else 0) + (if row.topic3.isSome then 8 else 0))

def writeOptionalB256 : Option B256 → Bytes
  | some value => FixedBytes.toBytes value
  | none => []

/-- The bytes of one row in the log. -/
def LogRow.walBytes (row : LogRow) : Bytes :=
  leBytes 8 row.blockNumber ++ FixedBytes.toBytes row.blockHash ++ leBytes 8 row.timestamp ++ FixedBytes.toBytes row.txHash ++
    leBytes 4 row.txIndex ++ leBytes 4 row.logIndex ++ FixedBytes.toBytes row.address ++ [topicPresenceMask row] ++
    row.topics.flatMap writeOptionalB256 ++ leBytes 4 row.dataLen ++ leBytes 4 row.dataLen ++ row.data ++ [row.source.toByte]

/-- The length of the payload with one more row. -/
def addPayloadRow (payloadLen : Nat) (row : LogRow) : Except String Nat := do
  rejectIf (row.dataLen ≠ row.data.length) "WAL row data_len does not match data bytes"
  let payloadLen := payloadLen + (walMinRowBytes + row.topicCount * 32) + row.data.length
  rejectIf (u32Max < payloadLen) "WAL payload exceeds u32 length"
  return payloadLen

/-- `validated_payload_len`. -/
def validatedPayloadLen (rows : List LogRow) : Except String Nat := do
  rejectIf (u32Max < rows.length) "too many ingestion rows"
  rows.foldlM addPayloadRow 8

def encodeRows (rows : List LogRow) : Except String Bytes := do
  let _ ← validatedPayloadLen rows
  return walBinaryMagic ++ leBytes 4 walBinaryVersion ++ rows.flatMap LogRow.walBytes

structure EncodedWalBatch where
  serialized : Bytes
  rowCount : Nat
  payloadLen : Nat
  checksum : UInt32
deriving DecidableEq, Repr

def EncodedWalBatch.encodedLen (batch : EncodedWalBatch) : Nat := batch.payloadLen + 12

/-- What `checkpoint_checksum` starts its hasher with; a hasher is the bytes it has absorbed. -/
def EncodedWalBatch.checkpointChecksum : Bytes := walBinaryMagic ++ leBytes 4 walBinaryVersion

/-- `extend_checkpoint_checksum`. -/
def EncodedWalBatch.extendCheckpointChecksum (batch : EncodedWalBatch) (checksum : Bytes) : Bytes :=
  checksum ++ batch.serialized.drop 8

/-- `EncodedWalBatch::new`. -/
def EncodedWalBatch.new (crc32 : Bytes → UInt32) (rows : List LogRow) : Except String EncodedWalBatch := do
  rejectIf (u32Max < rows.length) "too many rows for a WAL entry"
  let serialized ← encodeRows rows
  rejectIf (u32Max < serialized.length) "WAL payload exceeds u32 length"
  return { serialized, rowCount := rows.length, payloadLen := serialized.length, checksum := crc32 serialized }

/-! ## The recovery journal -/

inductive IngestRoute where
  | live
  | historical
deriving DecidableEq, Repr

structure CheckpointState where
  route : IngestRoute
  complete : Bool
deriving DecidableEq, Repr

/-- A WAL batch or checkpoint origin, ordered before the WAL or segments change. -/
structure RecoveryJournal where
  version : Nat
  start : SegmentDescriptor
  nextSegmentId : Nat
  rowCount : Nat
  payloadChecksum : UInt32
  checkpoint : Option CheckpointState
deriving DecidableEq, Repr

def journalVersion : Nat := 1

def checkpointJournalVersion : Nat := 2

namespace RecoveryJournal

/-- The version fits the checkpoint state, and the row count its completion. -/
def validShape (journal : RecoveryJournal) : Bool :=
  match journal.checkpoint with
  | none => journal.version = journalVersion && journal.start.kind = .hot && decide (0 < journal.rowCount)
  | some checkpoint => journal.version = checkpointJournalVersion &&
      (checkpoint.route = .historical || journal.start.kind = .hot) &&
      if checkpoint.complete then decide (0 < journal.rowCount) else journal.rowCount = 0 && journal.payloadChecksum = 0

def validate (hashes : Hashes) (journal : RecoveryJournal) : Except String Unit := do
  validateState hashes.blake3 journal.start.sourceNamespace journal.start.rowCount journal.start.sourceCommitment
    journal.start.sourceState
  rejectIf (!journal.validShape ∨ journal.nextSegmentId ≤ journal.start.id) "invalid or unsupported WAL recovery journal"

def newCheckpoint (hashes : Hashes) (start : SegmentDescriptor) (nextSegmentId : Nat) (route : IngestRoute) :
    Except String RecoveryJournal := do
  let journal : RecoveryJournal := {
    version := checkpointJournalVersion, start, nextSegmentId, rowCount := 0, payloadChecksum := 0
    checkpoint := some { route, complete := false } }
  journal.validate hashes
  return journal

def route (journal : RecoveryJournal) : IngestRoute := (journal.checkpoint.map (·.route)).getD .live

def completeCheckpoint (hashes : Hashes) (journal : RecoveryJournal) (rowCount : Nat) (checksum : UInt32) :
    Except String RecoveryJournal := do
  let checkpoint ← okOr "not a checkpoint journal" journal.checkpoint
  let journal : RecoveryJournal := { journal with
    checkpoint := some { checkpoint with complete := true }, rowCount, payloadChecksum := checksum }
  journal.validate hashes
  return journal

end RecoveryJournal

end Logex
