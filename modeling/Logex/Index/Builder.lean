import Logex.Index.Verification

/-!
# Builders and publication of derived indexes

The builders of `builder.rs` and `composite.rs`, and the publication that binds their files to the source they describe
(`index_checkpoint.rs`). A build withdraws the old publication before it touches a file and registers only files it verified.
-/

namespace Logex

open Lib

/-! ## B+ tree builders -/

/-- What every builder does once its columns are read: a row with a key is inserted under it. -/
def buildIndex (keySize : Nat) (columns : List (String × Nat)) (keys : List (Option Bytes)) (reader : SegmentReader)
    (fileId : FixedBytes 16) : Except String IndexFile := do
  validateSourceRows reader columns
  let insertions := keys.zipIdx.filterMap fun (key, rowId) => key.map fun key => (key, UInt32.ofNat rowId)
  (BTreeIndex.build keySize insertions).writeToFile fileId

section Builders

variable (reader : SegmentReader)

def buildAddressIndex : FixedBytes 16 → Except String IndexFile :=
  buildIndex 20 [("address", reader.readAddress.length)] (reader.readAddress.map fun addr => some addr.toBytes) reader

def buildTopic0Index : FixedBytes 16 → Except String IndexFile :=
  buildIndex 32 [("topic0", (reader.readTopic 0).length)] ((reader.readTopic 0).map fun topic => topic.map FixedBytes.toBytes) reader

def buildBlockNumberIndex : FixedBytes 16 → Except String IndexFile :=
  buildIndex 8 [("block_number", reader.readBlockNumber.length)] (reader.readBlockNumber.map fun block => some (toBeBytes block)) reader

def buildTimestampIndex : FixedBytes 16 → Except String IndexFile :=
  buildIndex 8 [("timestamp", reader.readTimestamp.length)] (reader.readTimestamp.map fun timestamp => some (toBeBytes timestamp)) reader

def buildBlockHashIndex : FixedBytes 16 → Except String IndexFile :=
  buildIndex 32 [("block_hash", reader.readBlockHash.length)] (reader.readBlockHash.map fun hash => some hash.toBytes) reader

def buildAddressTopic0 : FixedBytes 16 → Except String IndexFile :=
  buildIndex (20 + 32) [("address", reader.readAddress.length), ("topic0", (reader.readTopic 0).length)]
    ((reader.readAddress.zip (reader.readTopic 0)).map fun (addr, topic) => do
      let t ← topic
      return addr.toBytes ++ t.toBytes) reader

def buildAddressTopic0Block : FixedBytes 16 → Except String IndexFile :=
  buildIndex (20 + 32 + 8) [("address", reader.readAddress.length), ("topic0", (reader.readTopic 0).length),
      ("block_number", reader.readBlockNumber.length)]
    (((reader.readAddress.zip (reader.readTopic 0)).zip reader.readBlockNumber).map fun ((addr, topic), block) => do
      let t ← topic
      return addr.toBytes ++ t.toBytes ++ toBeBytes block) reader

/-- `build_address_topic0_topic1` and `build_address_topic0_topic2`. -/
def buildAddressTopic0Topic (position : Fin 4) : FixedBytes 16 → Except String IndexFile :=
  buildIndex (20 + 32 + 32) [("address", reader.readAddress.length), ("topic0", (reader.readTopic 0).length),
      (topicColumn position, (reader.readTopic position).length)]
    (((reader.readAddress.zip (reader.readTopic 0)).zip (reader.readTopic position)).map fun ((addr, topic0), topic) => do
      let topic0 ← topic0
      let topic ← topic
      return addr.toBytes ++ topic0.toBytes ++ topic.toBytes) reader

def buildAddressTopic0Topic1 : FixedBytes 16 → Except String IndexFile := buildAddressTopic0Topic reader 1

def buildAddressTopic0Topic2 : FixedBytes 16 → Except String IndexFile := buildAddressTopic0Topic reader 2

def buildTopic0Topic1 : FixedBytes 16 → Except String IndexFile :=
  buildIndex (32 + 32) [("topic0", (reader.readTopic 0).length), ("topic1", (reader.readTopic 1).length)]
    (((reader.readTopic 0).zip (reader.readTopic 1)).map fun (t0, t1) => do
      let t0 ← t0
      let t1 ← t1
      return t0.toBytes ++ t1.toBytes) reader

end Builders

/-! ## Publication state -/

/-- The segment state an index describes: `Identity`. -/
structure IndexIdentity where
  sourceNamespace : FixedBytes 16
  sourceCommitment : B256
  rows : Nat
  generation : Nat
  bundle : Option BundleReference
deriving DecidableEq, Repr

/-- An opened segment, with what identifies it. -/
structure IndexSource where
  reader : SegmentReader
  sourceNamespace : Option (FixedBytes 16)
  sourceCommitment : Option B256
  generation : Nat
  bundle : Option BundleReference

/-- `Identity::read`. -/
def IndexIdentity.read (source : IndexSource) : Except String IndexIdentity := do
  let sourceNamespace ← okOr "source identity is missing; complete a storage-owned rewrite before indexing" source.sourceNamespace
  let sourceCommitment ← okOr
    "source prefix commitment is missing; fresh storage or a storage-owned rewrite is required before indexing" source.sourceCommitment
  return ⟨sourceNamespace, sourceCommitment, source.reader.readRowCount, source.generation, source.bundle⟩

/-- The publication marker of an index directory. -/
structure IndexCheckpoint where
  identity : IndexIdentity
  artifacts : List (String × FixedBytes 16)
deriving DecidableEq, Repr

/-- An index directory. A marker that is absent, malformed or of an older version is none. -/
structure IndexDir where
  files : String → Option IndexFile := fun _ => none
  checkpoint : Option IndexCheckpoint := none
  /-- How many file identities have been drawn. -/
  drawn : Nat := 0

/-- What index builds do not decide themselves. -/
structure IndexWorld where
  hashes : BloomHashes
  codec : RoaringCodec
  /-- The identity of the next file. -/
  fileIds : Nat → FixedBytes 16
  /-- The length of a serialized checkpoint. -/
  payloadLen : IndexCheckpoint → Nat

/-- An operation on an index directory. -/
abbrev IndexM := EStateM String IndexDir

def IndexDir.remove (dir : IndexDir) (name : String) : IndexDir :=
  { dir with files := Function.update dir.files name none }

/-- A builder writes its file. -/
def writeArtifact (world : IndexWorld) (name : String) (build : FixedBytes 16 → Except String IndexFile) : IndexM Unit := do
  let drawn ← modifyGet fun dir => (dir.drawn, { dir with drawn := dir.drawn + 1 })
  let file ← attempt (build (world.fileIds drawn))
  modify fun dir => { dir with files := Function.update dir.files name (some file) }

/-- `is_file` before a build. -/
def writeMissing (world : IndexWorld) (name : String) (build : FixedBytes 16 → Except String IndexFile) : IndexM Unit := do
  let dir ← get
  runIf ((dir.files name).isNone = true) (writeArtifact world name build)

structure IndexBuildCheckpoint where
  identity : IndexIdentity
  reuseExisting : Bool
  previousArtifacts : List (String × FixedBytes 16)
  artifacts : List (String × FixedBytes 16)

def maxArtifacts : Nat := 12

/-- `validate_artifact_name`. -/
def validateArtifactName (name : String) : Except String Unit :=
  rejectIf (name = "" ∨ 64 < name.utf8ByteSize ∨ name = "." ∨ name = ".." ∨
      name.any (fun char => !(char.isAlphanum || char == '.' || char == '_' || char == '-')) = true)
    "invalid index artifact name"

namespace IndexBuildCheckpoint

/-- `begin_owned`: the old marker is withdrawn. -/
def beginOwned (identity : IndexIdentity) : IndexM IndexBuildCheckpoint := do
  let previous ← modifyGet fun dir => (dir.checkpoint, { dir with checkpoint := none })
  return {
    identity
    reuseExisting := previous.any fun checkpoint => checkpoint.identity = identity
    previousArtifacts := (previous.map IndexCheckpoint.artifacts).getD []
    artifacts := [] }

def previousArtifactId (checkpoint : IndexBuildCheckpoint) (name : String) : Option (FixedBytes 16) :=
  (checkpoint.previousArtifacts.find? fun binding => binding.1 = name).map Prod.snd

def registerArtifact (checkpoint : IndexBuildCheckpoint) (name : String) (fileId : FixedBytes 16) :
    Except String IndexBuildCheckpoint := do
  validateArtifactName name
  let known := checkpoint.artifacts.any fun binding => binding.1 = name
  rejectIf (maxArtifacts ≤ checkpoint.artifacts.length ∧ known = false) "too many index artifacts"
  rejectIf (known = true) "duplicate index artifact"
  return { checkpoint with artifacts := checkpoint.artifacts ++ [(name, fileId)] }

/-- If ingestion advanced while building, indexes stay unpublished. -/
def publish (world : IndexWorld) (current : IndexSource) (checkpoint : IndexBuildCheckpoint) : IndexM Unit := do
  let identity ← attempt (IndexIdentity.read current)
  failIf (identity ≠ checkpoint.identity) "segment changed while building indexes; retry the build"
  let marker := { identity := checkpoint.identity, artifacts := checkpoint.artifacts }
  failIf (4096 < world.payloadLen marker + 40) "index checkpoint exceeds size limit"
  modify fun dir => { dir with checkpoint := some marker }

end IndexBuildCheckpoint

/-! ## Builds -/

inductive IndexBuildProfile where
  | all
  | logQuery
  | events
  | erc20Transfer
deriving DecidableEq, Repr

def requiredIndexFiles : IndexBuildProfile → List String
  | .all => ["address.bptree", "topic0.bptree", "block_number.bptree", "timestamp.bptree", "block_hash.bptree", "address_topic0.bptree",
      "address_topic0_block.bptree", "topic0_topic1.bptree", "address_topic0_topic1.bptree", "address_topic0_topic2.bptree",
      eventBloomFile]
  | .logQuery => ["block_number.bptree", "timestamp.bptree", "address_topic0.bptree", "address_topic0_block.bptree",
      "topic0_topic1.bptree", "address_topic0_topic1.bptree", "address_topic0_topic2.bptree", eventBloomFile]
  | .events => [eventBloomFile, "address_topic0.bptree"]
  | .erc20Transfer => [erc20EventsBloomFile]

/-- Every file a build may find. -/
def knownArtifacts : List String := requiredIndexFiles .all ++ [erc20EventsBloomFile, transferBloomFile]

/-- `protected_file_id`. -/
def IndexFile.protectedFileId (file : IndexFile) : Except String (FixedBytes 16) :=
  okOr "index artifact has no publication identity" file.fileId

/-- `begin_publication`: unpublished, unregistered and replaced artifacts are never adopted merely because they exist. -/
def beginPublication (source : IndexSource) : IndexM IndexBuildCheckpoint := do
  let identity ← attempt (IndexIdentity.read source)
  let checkpoint ← IndexBuildCheckpoint.beginOwned identity
  knownArtifacts.forM fun name => do
    let dir ← get
    let reusable := checkpoint.reuseExisting && (checkpoint.previousArtifactId name).any fun expected =>
      (dir.files name).any fun file => file.fileId = some expected
    runIf (reusable = false) (modify fun dir => dir.remove name)
  return checkpoint

/-- `begin_fresh_at`: the build goes on in a directory that it creates once the source is known to be eligible. -/
def beginFreshAt (source : IndexSource) : IndexM IndexBuildCheckpoint := do
  let identity ← attempt (IndexIdentity.read source)
  modify fun dir => { drawn := dir.drawn }
  IndexBuildCheckpoint.beginOwned identity

/-- `verify_artifact`: nobody cancels it. -/
def verifyArtifact (world : IndexWorld) (source : IndexSource) (file : IndexFile) (name : String) (fileId : FixedBytes 16) :
    Except String Unit :=
  match verifyCapturedArtifact world.hashes world.codec source.reader file name fileId (fun _ => false) 0 with
  | .ok _ _ => .ok ()
  | .error error _ => .error error

/-- The loop of `publish_at`: every file that exists is verified and registered. -/
def publishArtifacts (world : IndexWorld) (source : IndexSource) (retireLegacyFilters : Bool) :
    List String → Bool → IndexBuildCheckpoint → IndexM IndexBuildCheckpoint
  | [], _, checkpoint => pure checkpoint
  | name :: names, generalVerified, checkpoint =>
    if retireLegacyFilters = true ∧ generalVerified = true ∧ (name = erc20EventsBloomFile ∨ name = transferBloomFile) then do
      -- The verified general filter supersedes both old key scopes.
      modify fun dir => dir.remove name
      publishArtifacts world source retireLegacyFilters names generalVerified checkpoint
    else do
      let dir ← get
      match dir.files name with
      | none => publishArtifacts world source retireLegacyFilters names generalVerified checkpoint
      | some file => do
        let fileId ← attempt file.protectedFileId
        attempt (verifyArtifact world source file name fileId)
        let checkpoint ← attempt (checkpoint.registerArtifact name fileId)
        publishArtifacts world source retireLegacyFilters names (generalVerified || name == eventBloomFile) checkpoint

/-- `publish_at`: the source is read again when the marker is written. -/
def publishAt (world : IndexWorld) (source current : IndexSource) (checkpoint : IndexBuildCheckpoint) (retireLegacyFilters : Bool) :
    IndexM Unit := do
  let checkpoint ← publishArtifacts world source retireLegacyFilters knownArtifacts false checkpoint
  checkpoint.publish world current

section Builds

variable (world : IndexWorld) (source : IndexSource)

def buildLogQueryPrimaryIndexesUnpublished : IndexM Unit := do
  writeArtifact world "block_number.bptree" (buildBlockNumberIndex source.reader)
  writeArtifact world "timestamp.bptree" (buildTimestampIndex source.reader)

def buildPrimaryIndexesUnpublished : IndexM Unit := do
  writeArtifact world "address.bptree" (buildAddressIndex source.reader)
  writeArtifact world "topic0.bptree" (buildTopic0Index source.reader)
  writeArtifact world "block_number.bptree" (buildBlockNumberIndex source.reader)
  writeArtifact world "timestamp.bptree" (buildTimestampIndex source.reader)
  writeArtifact world "block_hash.bptree" (buildBlockHashIndex source.reader)

/-- `CompositeIndexBuilder::build_log_query_indexes`. -/
def buildLogQueryIndexes : IndexM Unit := do
  writeArtifact world "address_topic0.bptree" (buildAddressTopic0 source.reader)
  writeArtifact world "address_topic0_block.bptree" (buildAddressTopic0Block source.reader)
  writeArtifact world "topic0_topic1.bptree" (buildTopic0Topic1 source.reader)
  writeArtifact world "address_topic0_topic1.bptree" (buildAddressTopic0Topic1 source.reader)
  writeArtifact world "address_topic0_topic2.bptree" (buildAddressTopic0Topic2 source.reader)

def buildIndexesUnpublished : IndexBuildProfile → IndexM Unit
  | .all => do
    buildPrimaryIndexesUnpublished world source
    buildLogQueryIndexes world source
    writeArtifact world eventBloomFile (EventBloom.build world.hashes · source.reader)
  | .logQuery => do
    buildLogQueryPrimaryIndexesUnpublished world source
    buildLogQueryIndexes world source
    writeArtifact world eventBloomFile (EventBloom.build world.hashes · source.reader)
  | .events => do
    writeArtifact world "address_topic0.bptree" (buildAddressTopic0 source.reader)
    writeArtifact world eventBloomFile (EventBloom.build world.hashes · source.reader)
  | .erc20Transfer => writeArtifact world erc20EventsBloomFile (Erc20EventBloom.build world.hashes · source.reader)

def buildMissingPrimaryIndexes (includeFullPrimary : Bool) : IndexM Unit := do
  runIf (includeFullPrimary = true) (writeMissing world "address.bptree" (buildAddressIndex source.reader))
  runIf (includeFullPrimary = true) (writeMissing world "topic0.bptree" (buildTopic0Index source.reader))
  writeMissing world "block_number.bptree" (buildBlockNumberIndex source.reader)
  writeMissing world "timestamp.bptree" (buildTimestampIndex source.reader)
  runIf (includeFullPrimary = true) (writeMissing world "block_hash.bptree" (buildBlockHashIndex source.reader))

def buildMissingEventIndexes : IndexM Unit := do
  writeMissing world "address_topic0.bptree" (buildAddressTopic0 source.reader)
  writeMissing world eventBloomFile (EventBloom.build world.hashes · source.reader)

def buildMissingLogQueryComposites : IndexM Unit := do
  writeMissing world "address_topic0_block.bptree" (buildAddressTopic0Block source.reader)
  writeMissing world "topic0_topic1.bptree" (buildTopic0Topic1 source.reader)
  writeMissing world "address_topic0_topic1.bptree" (buildAddressTopic0Topic1 source.reader)
  writeMissing world "address_topic0_topic2.bptree" (buildAddressTopic0Topic2 source.reader)
  buildMissingEventIndexes world source

def buildMissingIndexesUnpublished : IndexBuildProfile → IndexM Unit
  | .all => do
    buildMissingPrimaryIndexes world source true
    buildMissingLogQueryComposites world source
  | .logQuery => do
    buildMissingPrimaryIndexes world source false
    buildMissingLogQueryComposites world source
  | .events => buildMissingEventIndexes world source
  | .erc20Transfer => writeMissing world erc20EventsBloomFile (Erc20EventBloom.build world.hashes · source.reader)

variable (current : IndexSource)

/-- `build_indexes`. The source may have advanced when the build ends. -/
def buildIndexes (profile : IndexBuildProfile) : IndexM Unit := do
  let checkpoint ← beginPublication source
  buildIndexesUnpublished world source profile
  publishAt world source current checkpoint (decide (profile ≠ .erc20Transfer))

/-- `build_fresh_indexes_at`. -/
def buildFreshIndexesAt (profile : IndexBuildProfile) : IndexM Unit := do
  let checkpoint ← beginFreshAt source
  buildIndexesUnpublished world source profile
  publishAt world source current checkpoint (decide (profile ≠ .erc20Transfer))

/-- `build_missing_indexes`. -/
def buildMissingIndexes (profile : IndexBuildProfile) : IndexM Unit := do
  let checkpoint ← beginPublication source
  buildMissingIndexesUnpublished world source profile
  publishAt world source current checkpoint (decide (profile ≠ .erc20Transfer))

/-- `build_primary_indexes`. -/
def buildPrimaryIndexes : IndexM Unit := do
  let checkpoint ← beginPublication source
  buildPrimaryIndexesUnpublished world source
  publishAt world source current checkpoint false

/-- `build_log_query_primary_indexes`. -/
def buildLogQueryPrimaryIndexes : IndexM Unit := do
  let checkpoint ← beginPublication source
  buildLogQueryPrimaryIndexesUnpublished world source
  publishAt world source current checkpoint false

end Builds

/-! ## Published indexes -/

/-- `IndexReadCheckpoint::open_at`: a publication for another state of the source is no publication. -/
def openReadCheckpoint (dir : IndexDir) (source : IndexSource) : Except String (Option IndexCheckpoint) :=
  if source.sourceNamespace.isNone ∨ source.sourceCommitment.isNone then .ok none
  else match dir.checkpoint with
    | none => .ok none
    | some checkpoint => do
      let identity ← IndexIdentity.read source
      return if checkpoint.identity = identity then some checkpoint else none

inductive IndexVerificationError where
  | io (message : String)
  | limitExceeded (required limit : Nat)
deriving DecidableEq, Repr

/-- An I/O error with the words put before it. -/
def ioContext {α : Type} (context : String) (check : VerifyM α) : EStateM IndexVerificationError Nat α := fun asked =>
  match check asked with
  | .ok a asked => .ok a asked
  | .error error asked => .error (.io (context ++ error)) asked

/-- One artifact of `verify_captured_indexes`: what it adds to the logical bytes read so far. -/
def verifyPublishedArtifact (world : IndexWorld) (dir : IndexDir) (reader : SegmentReader) (maxTotalLogicalBytes : Nat)
    (cancelled : Nat → Bool) (logicalBytes : Nat) (name : String) (fileId : FixedBytes 16) :
    EStateM IndexVerificationError Nat Nat := do
  let context := s!"verify published index {name}: "
  let file ← ioContext context (attempt (okOr "No such file or directory" (dir.files name)))
  ioContext context (attempt (file.requireBound fileId))
  let total ← ioContext context (attempt (okOr "index logical byte sum overflow" (checkedAdd logicalBytes file.logicalLen)))
  attempt (rejectIf (maxTotalLogicalBytes < total) (.limitExceeded total maxTotalLogicalBytes))
  ioContext context (verifyCapturedArtifact world.hashes world.codec reader file name fileId cancelled)
  return total

/-- The loop of `verify_captured_indexes`. -/
def verifyPublishedArtifacts (world : IndexWorld) (dir : IndexDir) (reader : SegmentReader) (maxTotalLogicalBytes : Nat)
    (cancelled : Nat → Bool) : List (String × FixedBytes 16) → Nat → EStateM IndexVerificationError Nat Nat
  | [], logicalBytes => pure logicalBytes
  | (name, fileId) :: artifacts, logicalBytes => do
    ioContext "" (checkCancelled cancelled)
    ioContext "" (attempt (rejectIf (artifactFields name = none ∧ name ≠ eventBloomFile ∧ name ≠ erc20EventsBloomFile ∧
      name ≠ transferBloomFile) s!"unknown derived index {name}"))
    let logicalBytes ← verifyPublishedArtifact world dir reader maxTotalLogicalBytes cancelled logicalBytes name fileId
    verifyPublishedArtifacts world dir reader maxTotalLogicalBytes cancelled artifacts logicalBytes

/-- `verify_captured_indexes`: the verified artifacts, or none when there is no current publication with the required files. -/
def verifyCapturedIndexes (world : IndexWorld) (dir : IndexDir) (source : IndexSource) (required : IndexBuildProfile)
    (maxTotalLogicalBytes : Nat) (cancelled : Nat → Bool) :
    EStateM IndexVerificationError Nat (Option (List (String × FixedBytes 16))) := do
  ioContext "" (checkCancelled cancelled)
  ioContext "" (attempt (rejectIf (source.sourceNamespace = none) "captured source namespace is missing"))
  ioContext "" (attempt (rejectIf (source.sourceCommitment = none) "captured source commitment is missing"))
  match ← ioContext "" (attempt (openReadCheckpoint dir source)) with
  | none => return none
  | some checkpoint =>
    if (requiredIndexFiles required).any (fun name => checkpoint.artifacts.all fun binding => decide (binding.1 ≠ name)) = true then
      return none
    else do
      discard (verifyPublishedArtifacts world dir source.reader maxTotalLogicalBytes cancelled checkpoint.artifacts 0)
      ioContext "" (checkCancelled cancelled)
      return some checkpoint.artifacts

end Logex
