import Logex.ChainSpec
import Logex.Lib.Except
import Logex.Lib.Run

/-!
# The light client

The store of the consensus light client and the operations on it: `verifyValidLightClientUpdateAtSlot`,
`processLightClientUpdate` and `forceUpdateLightClientStore`, with the Merkle and signature checks they rest on. The hash
function, the SSZ tree hashing and the BLS library are parameters (`Crypto`); wire decoding is not part of the model, so the
operations start from decoded payloads.
-/

namespace Logex

open Lib

/-! ## Constants -/

/-- `SYNC_COMMITTEE_PUBKEYS`. -/
def syncCommitteePubkeys : Nat := 512

/-- `BLS_PUBKEY_BYTES`. -/
def blsPubkeyBytes : Nat := 48

/-- `EPOCHS_PER_SYNC_COMMITTEE_PERIOD`. -/
def epochsPerSyncCommitteePeriod : Nat := 256

/-- `UPDATE_TIMEOUT`. -/
def updateTimeout : Nat := slotsPerEpoch * epochsPerSyncCommitteePeriod

/-- `MIN_SYNC_COMMITTEE_PARTICIPANTS`. -/
def minSyncCommitteeParticipants : Nat := 1

/-- `ELECTRA_FORK_VERSION`. -/
def electraForkVersion : Nat := 0x05

/-- `SYNC_COMMITTEE_DOMAIN`. -/
def syncCommitteeDomain : List UInt8 := [7, 0, 0, 0]

/-- `SYNC_COMMITTEE_SIGNATURE_DST`. -/
def syncCommitteeSignatureDst : List UInt8 :=
  "BLS_SIG_BLS12381G2_XMD:SHA-256_SSWU_RO_POP_".toUTF8.toList

/-! ## Libraries -/

/-- The libraries the light client calls: SHA-256, the SSZ tree hashing of byte strings, and the BLS operations. -/
structure Crypto where
  PublicKey : Type
  Signature : Type
  sha256 : List UInt8 → B256
  /-- `tree_hash::merkle_root`, with the minimum number of leaves. -/
  merkleRoot : List UInt8 → Nat → B256
  /-- `tree_hash_root` of a compressed public key. -/
  pubkeyRoot : FixedBytes 48 → B256
  keyValidate : FixedBytes 48 → Except String PublicKey
  sigValidate : FixedBytes 96 → Except String Signature
  /-- `fast_aggregate_verify`, on the message, the domain separation tag and the keys. -/
  fastAggregateVerify : Signature → List UInt8 → List UInt8 → List PublicKey → Bool

/-! ## Data -/

inductive ConsensusDataFork where
  | capella
  | deneb
  | electra
  deriving Repr, DecidableEq

structure BeaconBlockHeaderSsz where
  slot : Nat
  proposerIndex : Nat
  parentRoot : B256
  stateRoot : B256
  bodyRoot : B256
  deriving Repr, DecidableEq

structure SyncCommitteeRaw where
  pubkeys : FixedBytes (512 * 48)
  aggregatePubkey : FixedBytes 48
  deriving DecidableEq

structure SyncCommitteeData where
  pubkeys : List (FixedBytes 48)
  aggregatePubkey : FixedBytes 48
  deriving Repr, DecidableEq

structure SyncAggregateRaw where
  syncCommitteeBits : FixedBytes 64
  syncCommitteeSignature : FixedBytes 96
  deriving Repr, DecidableEq

structure VerifiedExecutionPayloadHeader where
  blockNumber : Nat
  blockHash : B256
  receiptsRoot : B256
  deriving Repr, DecidableEq

structure VerifiedLightClientHeader where
  fork : ConsensusDataFork
  beacon : BeaconBlockHeaderSsz
  execution : Option VerifiedExecutionPayloadHeader
  deriving Repr, DecidableEq

structure VerifiedFinalizedCheckpoint where
  epoch : Nat
  root : B256
  deriving Repr, DecidableEq

structure VerifiedLightClientUpdate where
  attestedHeader : VerifiedLightClientHeader
  finalizedHeader : Option VerifiedLightClientHeader
  finalizedCheckpoint : Option VerifiedFinalizedCheckpoint
  nextSyncCommittee : Option SyncCommitteeData
  signatureSlot : Nat
  participants : Nat
  deriving Repr, DecidableEq

structure VerifiedLightClientStore where
  checkpointRoot : B256
  bootstrapSlot : Nat
  currentSyncCommittee : SyncCommitteeData
  nextSyncCommittee : Option SyncCommitteeData
  finalizedHeader : VerifiedLightClientHeader
  finalizedCheckpoint : Option VerifiedFinalizedCheckpoint
  optimisticHeader : VerifiedLightClientHeader
  bestValidUpdate : Option VerifiedLightClientUpdate
  previousMaxActiveParticipants : Nat
  currentMaxActiveParticipants : Nat
  deriving Repr, DecidableEq

structure WeakSubjectivityCheckpoint where
  beaconRoot : B256
  beaconSlot : Option Nat
  deriving Repr, DecidableEq

structure LightClientHeaderSummary where
  beaconSlot : Nat
  execution : Option VerifiedExecutionPayloadHeader
  deriving Repr, DecidableEq

structure LightClientOptimisticUpdateStatus where
  fork : ConsensusDataFork
  attestedHeader : LightClientHeaderSummary
  signatureSlot : Nat
  syncCommitteeParticipants : Nat
  deriving Repr, DecidableEq

structure LightClientFinalityUpdateStatus where
  fork : ConsensusDataFork
  attestedHeader : LightClientHeaderSummary
  finalizedHeader : LightClientHeaderSummary
  signatureSlot : Nat
  syncCommitteeParticipants : Nat
  finalityBranchDepth : Nat
  deriving Repr, DecidableEq

structure AppliedLightClientUpdate where
  store : VerifiedLightClientStore
  optimisticStatus : LightClientOptimisticUpdateStatus
  finalityStatus : Option LightClientFinalityUpdateStatus
  deriving Repr, DecidableEq

inductive LightClientVerificationError where
  | trustedCheckpointMismatch (expected actual : B256)
  | trustedCheckpointSlotMismatch (expected actual : Nat)
  | invalidExecutionHeader (slot : Nat) (reason : String)
  | invalidFinalityHeader (slot : Nat) (reason : String)
  | invalidExecutionProof (slot : Nat)
  | invalidCurrentSyncCommitteeProof (slot : Nat)
  | invalidFinalityProof (attestedSlot finalizedSlot : Nat)
  | noSyncCommitteeParticipants
  | invalidSlotOrdering (signatureSlot attestedSlot finalizedSlot : Nat)
  | signatureFromFuture (signatureSlot currentSlot : Nat)
  | unknownSyncCommitteePeriod (signaturePeriod storePeriod : Nat)
  | irrelevantUpdate (attestedSlot storeFinalizedSlot : Nat)
  | invalidNextSyncCommitteeProof (attestedSlot : Nat)
  | invalidCommitteeLength (actual : Nat)
  | invalidCommitteePublicKey (index : Nat) (details : String)
  | invalidSignature (details : String)
  | invalidSyncCommitteeSignature
  deriving Repr, DecidableEq

/-! ## Slots, forks and generalized indexes -/

def syncCommitteePeriodAtSlot (slot : Nat) : Nat :=
  mainnetConsensusChainSpec.epochForSlot slot / epochsPerSyncCommitteePeriod

def forkVersionAtSlot (slot : Nat) : Nat :=
  let epoch := mainnetConsensusChainSpec.epochForSlot slot
  ((mainnetConsensusChainSpec.forkVersionForEpoch epoch).headD 0).toNat

def usesElectraLightClientLayout (slot : Nat) : Bool :=
  decide (electraForkVersion ≤ forkVersionAtSlot slot)

def finalizedRootGindexAtSlot (slot : Nat) : Nat :=
  if usesElectraLightClientLayout slot then 169 else 105

def currentSyncCommitteeGindexAtSlot (slot : Nat) : Nat :=
  if usesElectraLightClientLayout slot then 86 else 54

def nextSyncCommitteeGindexAtSlot (slot : Nat) : Nat :=
  if usesElectraLightClientLayout slot then 87 else 55

def finalityBranchDepthAtSlot (slot : Nat) : Nat :=
  if usesElectraLightClientLayout slot then 7 else 6

/-! ## Merkle branches -/

variable (Γ : Crypto) (store : VerifiedLightClientStore) (update : VerifiedLightClientUpdate)

def hashConcat (left right : B256) : B256 :=
  Γ.sha256 (FixedBytes.toBytes left ++ FixedBytes.toBytes right)

def floorlog2 (value : Nat) : Nat := Nat.log2 value

def subtreeIndex (gindex : Nat) : Nat := gindex % 2 ^ floorlog2 gindex

/-- The loop of `is_valid_merkle_branch`: the node reached from `leaf` along the siblings. -/
def merkleWalk (Γ : Crypto) : B256 → Nat → List B256 → B256
  | leaf, _, [] => leaf
  | leaf, index, sibling :: branch =>
    merkleWalk Γ (if index % 2 = 0 then hashConcat Γ leaf sibling else hashConcat Γ sibling leaf) (index / 2) branch

def isValidMerkleBranch (leaf : B256) (branch : List B256) (depth index : Nat) (root : B256) : Bool :=
  if branch.length ≠ depth then false else decide (merkleWalk Γ leaf index branch = root)

def isValidNormalizedMerkleBranch (leaf : B256) (branch : List B256) (gindex : Nat) (root : B256) : Bool :=
  let depth := floorlog2 gindex
  let extra := branch.length - depth
  if (branch.take extra).any (fun item => decide (item ≠ 0)) then false
  else isValidMerkleBranch Γ leaf (branch.drop extra) depth (subtreeIndex gindex) root

/-! ## Roots of the SSZ containers -/

/-- `tree_hash_root` of a `u64`: its little-endian bytes, padded to a chunk. -/
def u64TreeHashRoot (x : Nat) : B256 := FixedBytes.ofBytes 32 (leBytes 8 x ++ List.replicate 24 0)

def containerRootFromRoots (fieldRoots : List B256) : B256 :=
  Γ.merkleRoot (fieldRoots.flatMap FixedBytes.toBytes) 0

def beaconBlockHeaderRoot (header : BeaconBlockHeaderSsz) : B256 :=
  containerRootFromRoots Γ [u64TreeHashRoot header.slot, u64TreeHashRoot header.proposerIndex, header.parentRoot,
    header.stateRoot, header.bodyRoot]

def VerifiedLightClientHeader.beaconRoot (header : VerifiedLightClientHeader) : B256 :=
  beaconBlockHeaderRoot Γ header.beacon

/-- The pieces `as_chunks` cuts a byte string of `n` pieces into. -/
def chunksOf (size : Nat) : Nat → List UInt8 → List (List UInt8)
  | 0, _ => []
  | n + 1, bytes => bytes.take size :: chunksOf size n (bytes.drop size)

variable (committee : SyncCommitteeRaw)

/-- The compressed keys of a committee, cut out of its key bytes. -/
def SyncCommitteeRaw.pubkeyList : List (FixedBytes 48) :=
  (chunksOf blsPubkeyBytes syncCommitteePubkeys (FixedBytes.toBytes committee.pubkeys)).map (FixedBytes.ofBytes 48)

def syncCommitteePubkeysRootFromBytes : B256 :=
  Γ.merkleRoot (committee.pubkeyList.flatMap fun pubkey => FixedBytes.toBytes (Γ.pubkeyRoot pubkey)) syncCommitteePubkeys

def SyncCommitteeRaw.treeHashRoot : B256 :=
  containerRootFromRoots Γ [syncCommitteePubkeysRootFromBytes Γ committee, Γ.pubkeyRoot committee.aggregatePubkey]

def syncCommitteeTreeHashRoot (committee : SyncCommitteeData) : B256 :=
  SyncCommitteeRaw.treeHashRoot Γ
    { pubkeys := FixedBytes.ofBytes (512 * 48) (committee.pubkeys.flatMap FixedBytes.toBytes)
      aggregatePubkey := committee.aggregatePubkey }

def SyncCommitteeRaw.toPersisted : SyncCommitteeData where
  pubkeys := committee.pubkeyList
  aggregatePubkey := committee.aggregatePubkey

def forkDataRoot (forkVersion : List UInt8) : B256 :=
  Γ.sha256 (forkVersion ++ List.replicate 28 0 ++ FixedBytes.toBytes mainnetConsensusChainSpec.genesisValidatorsRoot)

def computeSyncCommitteeDomain (signatureSlot : Nat) : B256 :=
  let epoch := mainnetConsensusChainSpec.epochForSlot (signatureSlot - 1)
  let forkVersion := mainnetConsensusChainSpec.forkVersionForEpoch epoch
  FixedBytes.ofBytes 32 (syncCommitteeDomain ++ (FixedBytes.toBytes (forkDataRoot Γ forkVersion)).take 28)

def computeSigningRoot (objectRoot domain : B256) : B256 := hashConcat Γ objectRoot domain

/-! ## Updates -/

namespace VerifiedLightClientUpdate

def finalizedSlot (update : VerifiedLightClientUpdate) : Nat :=
  match update.finalizedHeader with
  | some header => header.beacon.slot
  | none => 0

def hasSupermajority (update : VerifiedLightClientUpdate) : Bool :=
  decide (syncCommitteePubkeys * 2 ≤ update.participants * 3)

def hasRelevantSyncCommittee (update : VerifiedLightClientUpdate) : Bool :=
  update.nextSyncCommittee.isSome &&
    decide (syncCommitteePeriodAtSlot update.attestedHeader.beacon.slot = syncCommitteePeriodAtSlot update.signatureSlot)

def hasSyncCommitteeFinality (update : VerifiedLightClientUpdate) : Bool :=
  match update.finalizedHeader with
  | some header =>
    decide (syncCommitteePeriodAtSlot header.beacon.slot = syncCommitteePeriodAtSlot update.attestedHeader.beacon.slot)
  | none => false

end VerifiedLightClientUpdate

def isBetterUpdate (newUpdate oldUpdate : VerifiedLightClientUpdate) : Bool :=
  if newUpdate.hasSupermajority ≠ oldUpdate.hasSupermajority then newUpdate.hasSupermajority
  else if newUpdate.hasSupermajority = false ∧ newUpdate.participants ≠ oldUpdate.participants then
    decide (oldUpdate.participants < newUpdate.participants)
  else if newUpdate.hasRelevantSyncCommittee ≠ oldUpdate.hasRelevantSyncCommittee then
    newUpdate.hasRelevantSyncCommittee
  else if newUpdate.finalizedHeader.isSome ≠ oldUpdate.finalizedHeader.isSome then newUpdate.finalizedHeader.isSome
  else if newUpdate.finalizedHeader.isSome ∧ newUpdate.hasSyncCommitteeFinality ≠ oldUpdate.hasSyncCommitteeFinality then
    newUpdate.hasSyncCommitteeFinality
  else if newUpdate.participants ≠ oldUpdate.participants then decide (oldUpdate.participants < newUpdate.participants)
  else if newUpdate.attestedHeader.beacon.slot ≠ oldUpdate.attestedHeader.beacon.slot then
    decide (newUpdate.attestedHeader.beacon.slot < oldUpdate.attestedHeader.beacon.slot)
  else decide (newUpdate.signatureSlot < oldUpdate.signatureSlot)

/-! ## Verification -/

/-- The loop of `participant_public_keys`, from the key at `index` on. -/
def participantPublicKeysFrom (Γ : Crypto) (bits : FixedBytes 64) :
    Nat → List (FixedBytes 48) → Except LightClientVerificationError (List Γ.PublicKey)
  | _, [] => .ok []
  | index, pubkey :: rest =>
    if (FixedBytes.byte bits (index / 8)).toNat.testBit (index % 8) then
      match Γ.keyValidate pubkey with
      | .error details => .error (.invalidCommitteePublicKey index details)
      | .ok key => (participantPublicKeysFrom Γ bits (index + 1) rest).map (key :: ·)
    else participantPublicKeysFrom Γ bits (index + 1) rest

def SyncCommitteeData.participantPublicKeys (committee : SyncCommitteeData) (bits : FixedBytes 64) :
    Except LightClientVerificationError (List Γ.PublicKey) := do
  rejectIf (committee.pubkeys.length ≠ syncCommitteePubkeys) (.invalidCommitteeLength committee.pubkeys.length)
  participantPublicKeysFrom Γ bits 0 committee.pubkeys

def checkpointMatchesHeader (checkpoint : VerifiedFinalizedCheckpoint) (header : VerifiedLightClientHeader)
    (attestedSlot : Nat) : Bool :=
  match checkedMul checkpoint.epoch slotsPerEpoch with
  | none => false
  | some startSlot =>
    if attestedSlot < startSlot ∨ startSlot < header.beacon.slot then false
    else if header.beacon.slot = 0 then decide (checkpoint.epoch = 0) && decide (checkpoint.root = 0)
    else decide (checkpoint.root = header.beaconRoot Γ) && decide (checkpoint.root ≠ 0)

def verifyUpdateFinalityProof (branch : Option (List B256)) :
    Except LightClientVerificationError (Option VerifiedFinalizedCheckpoint) :=
  match branch with
  | none => .ok none
  | some branch => do
    let attestedSlot := update.attestedHeader.beacon.slot
    let invalid := LightClientVerificationError.invalidFinalityProof attestedSlot update.finalizedSlot
    let header ← okOr invalid update.finalizedHeader
    let gindex := finalizedRootGindexAtSlot attestedSlot
    -- The root is the right-hand leaf of `Checkpoint(epoch, root)`: its first sibling is the epoch chunk.
    let chunk ← okOr invalid branch[branch.length - floorlog2 gindex]?
    let chunkBytes := FixedBytes.toBytes chunk
    rejectIf ((chunkBytes.drop 8).any (fun byte => decide (byte ≠ 0)) = true) invalid
    let epoch := ofLeBytes (chunkBytes.take 8)
    let root := if header.beacon.slot = 0 then 0 else header.beaconRoot Γ
    let checkpoint : VerifiedFinalizedCheckpoint := { epoch, root }
    rejectIf (checkpointMatchesHeader Γ checkpoint header attestedSlot = false ∨
      isValidNormalizedMerkleBranch Γ root branch gindex update.attestedHeader.beacon.stateRoot = false) invalid
    .ok (some checkpoint)

def verifyUpdateNextCommitteeProof (branch : Option (List B256)) : Except LightClientVerificationError Unit :=
  match update.nextSyncCommittee with
  | none => .ok ()
  | some committee => do
    let attestedSlot := update.attestedHeader.beacon.slot
    let branch ← okOr (.invalidNextSyncCommitteeProof attestedSlot) branch
    rejectIf (isValidNormalizedMerkleBranch Γ (syncCommitteeTreeHashRoot Γ committee) branch
      (nextSyncCommitteeGindexAtSlot attestedSlot) update.attestedHeader.beacon.stateRoot = false)
      (.invalidNextSyncCommitteeProof attestedSlot)

namespace VerifiedLightClientStore

/-- The period of the finalized header. -/
def period (store : VerifiedLightClientStore) : Nat :=
  syncCommitteePeriodAtSlot store.finalizedHeader.beacon.slot

/-- The committee whose signature an update is checked against: the current one in the period of the finalized header, the
next one in the period after it. -/
def committeeFor (store : VerifiedLightClientStore) (signatureSlot : Nat) :
    Except LightClientVerificationError SyncCommitteeData :=
  let signaturePeriod := syncCommitteePeriodAtSlot signatureSlot
  if signaturePeriod = store.period then .ok store.currentSyncCommittee
  else if signaturePeriod = store.period + 1 then
    okOr (.unknownSyncCommitteePeriod signaturePeriod store.period) store.nextSyncCommittee
  else .error (.unknownSyncCommitteePeriod signaturePeriod store.period)

end VerifiedLightClientStore

/-- The update carries a next committee that differs from the one the store knows for the same period. -/
def contradictsKnownCommittee : Bool :=
  match update.nextSyncCommittee, store.nextSyncCommittee with
  | some committee, some known =>
    decide (syncCommitteePeriodAtSlot update.attestedHeader.beacon.slot = store.period) && decide (committee ≠ known)
  | _, _ => false

def verifyValidLightClientUpdateAtSlot
    (finalityBranch nextSyncCommitteeBranch : Option (List B256)) (syncAggregate : SyncAggregateRaw)
    (currentSlot : Nat) : Except LightClientVerificationError VerifiedLightClientUpdate := do
  rejectIf (update.participants < minSyncCommitteeParticipants) .noSyncCommitteeParticipants
  let finalizedSlot := update.finalizedSlot
  let attestedSlot := update.attestedHeader.beacon.slot
  rejectIf (currentSlot < update.signatureSlot) (.signatureFromFuture update.signatureSlot currentSlot)
  rejectIf (update.signatureSlot ≤ attestedSlot ∨ attestedSlot < finalizedSlot)
    (.invalidSlotOrdering update.signatureSlot attestedSlot finalizedSlot)
  let committee ← store.committeeFor update.signatureSlot
  let attestedPeriod := syncCommitteePeriodAtSlot attestedSlot
  let updateHasNextSyncCommittee := store.nextSyncCommittee.isNone && update.nextSyncCommittee.isSome &&
    decide (attestedPeriod = store.period)
  rejectIf (attestedSlot ≤ store.finalizedHeader.beacon.slot ∧ updateHasNextSyncCommittee = false)
    (.irrelevantUpdate attestedSlot store.finalizedHeader.beacon.slot)
  let finalizedCheckpoint ← verifyUpdateFinalityProof Γ update finalityBranch
  rejectIf (contradictsKnownCommittee store update = true) (.invalidNextSyncCommitteeProof attestedSlot)
  verifyUpdateNextCommitteeProof Γ update nextSyncCommitteeBranch
  let participantPubkeys ← committee.participantPublicKeys Γ syncAggregate.syncCommitteeBits
  let signature ← (Γ.sigValidate syncAggregate.syncCommitteeSignature).mapError .invalidSignature
  let message := computeSigningRoot Γ (beaconBlockHeaderRoot Γ update.attestedHeader.beacon)
    (computeSyncCommitteeDomain Γ update.signatureSlot)
  rejectIf (Γ.fastAggregateVerify signature (FixedBytes.toBytes message) syncCommitteeSignatureDst
    participantPubkeys = false) .invalidSyncCommitteeSignature
  .ok { update with finalizedCheckpoint := finalizedCheckpoint }

/-! ## Processing -/

def safetyThreshold : Nat :=
  max store.previousMaxActiveParticipants store.currentMaxActiveParticipants / 2

/-- The committees after an update: learn the next one, or rotate when the finalized period advances by one. -/
def rotateCommittees : VerifiedLightClientStore :=
  match store.nextSyncCommittee with
  | none => { store with nextSyncCommittee := update.nextSyncCommittee }
  | some next =>
    if syncCommitteePeriodAtSlot update.finalizedSlot = store.period + 1 then
      { store with
        currentSyncCommittee := next
        nextSyncCommittee := update.nextSyncCommittee
        previousMaxActiveParticipants := store.currentMaxActiveParticipants
        currentMaxActiveParticipants := 0 }
    else store

/-- The headers after an update: the finalized header advances, and the optimistic header is never behind it. -/
def advanceHeaders : VerifiedLightClientStore :=
  match update.finalizedHeader with
  | none => store
  | some header =>
    if store.finalizedHeader.beacon.slot < header.beacon.slot then
      { store with
        finalizedHeader := header
        optimisticHeader :=
          if store.optimisticHeader.beacon.slot < header.beacon.slot then header else store.optimisticHeader }
    else store

def applyValidatedLightClientUpdate : VerifiedLightClientStore :=
  advanceHeaders (rotateCommittees store update) update

/-- The best update seen since the last one applied. -/
def keepBetterUpdate : VerifiedLightClientStore :=
  match store.bestValidUpdate with
  | none => { store with bestValidUpdate := some update }
  | some best => if isBetterUpdate update best then { store with bestValidUpdate := some update } else store

def countParticipants : VerifiedLightClientStore :=
  { store with currentMaxActiveParticipants := max store.currentMaxActiveParticipants update.participants }

def advanceOptimistic : VerifiedLightClientStore :=
  if safetyThreshold store < update.participants ∧
      store.optimisticHeader.beacon.slot < update.attestedHeader.beacon.slot then
    { store with optimisticHeader := update.attestedHeader }
  else store

/-- The finalized checkpoint, which only an update with a supermajority advances. -/
def advanceCheckpoint : VerifiedLightClientStore :=
  match update.finalizedCheckpoint with
  | none => store
  | some checkpoint =>
    if update.hasSupermajority ∧ store.finalizedCheckpoint.all (fun known => decide (known.epoch < checkpoint.epoch)) then
      { store with finalizedCheckpoint := some checkpoint }
    else store

/-- What processing an update records before the update is applied. -/
def recordUpdate : VerifiedLightClientStore :=
  advanceCheckpoint (advanceOptimistic (countParticipants (keepBetterUpdate store update) update) update) update

/-- The condition under which an update is applied as it is processed. -/
def appliesAtOnce : Bool :=
  let updateHasFinalizedNextSyncCommittee := store.nextSyncCommittee.isNone && update.nextSyncCommittee.isSome &&
    update.finalizedHeader.isSome &&
    decide (syncCommitteePeriodAtSlot update.finalizedSlot =
      syncCommitteePeriodAtSlot update.attestedHeader.beacon.slot)
  decide (syncCommitteePubkeys * 2 ≤ update.participants * 3) &&
    (decide (store.finalizedHeader.beacon.slot < update.finalizedSlot) || updateHasFinalizedNextSyncCommittee)

def headerSummaryVerified (header : VerifiedLightClientHeader) : LightClientHeaderSummary where
  beaconSlot := header.beacon.slot
  execution := header.execution

/-- `process_light_client_update`: it never fails. -/
def processLightClientUpdate : AppliedLightClientUpdate :=
  let recorded := recordUpdate store update
  { store :=
      if appliesAtOnce recorded update then
        { applyValidatedLightClientUpdate recorded update with bestValidUpdate := none }
      else recorded
    optimisticStatus :=
      { fork := update.attestedHeader.fork
        attestedHeader := headerSummaryVerified update.attestedHeader
        signatureSlot := update.signatureSlot
        syncCommitteeParticipants := update.participants }
    finalityStatus := update.finalizedHeader.map fun finalizedHeader =>
      { fork := update.attestedHeader.fork
        attestedHeader := headerSummaryVerified update.attestedHeader
        finalizedHeader := headerSummaryVerified finalizedHeader
        signatureSlot := update.signatureSlot
        syncCommitteeParticipants := update.participants
        finalityBranchDepth := finalityBranchDepthAtSlot update.attestedHeader.beacon.slot } }

/-- The best update as the timeout applies it: its attested header stands in for a finalized header that is not newer. -/
def forcedUpdate (best : VerifiedLightClientUpdate) : VerifiedLightClientUpdate :=
  if best.finalizedSlot ≤ store.finalizedHeader.beacon.slot then
    { best with finalizedHeader := some best.attestedHeader }
  else best

/-- `force_update_light_client_store`, at the wall-clock slot `currentSlot`. -/
def forceUpdateLightClientStore (currentSlot : Nat) : Option VerifiedLightClientStore :=
  if currentSlot ≤ saturatingAdd store.finalizedHeader.beacon.slot updateTimeout then none
  else
    store.bestValidUpdate.map fun best =>
      { applyValidatedLightClientUpdate store (forcedUpdate store best) with bestValidUpdate := none }

/-! ## Bootstrap -/

/-- A decoded bootstrap: its header as the execution-header check returns it, the committee and its branch. -/
structure DecodedBootstrap where
  verifiedHeader : Except LightClientVerificationError VerifiedLightClientHeader
  currentSyncCommittee : SyncCommitteeRaw
  currentSyncCommitteeBranch : List B256

def verifyBootstrapPayload (decoded : DecodedBootstrap) (checkpoint : WeakSubjectivityCheckpoint) :
    Except LightClientVerificationError VerifiedLightClientStore := do
  let header ← decoded.verifiedHeader
  let beaconRoot := header.beaconRoot Γ
  rejectIf (beaconRoot ≠ checkpoint.beaconRoot) (.trustedCheckpointMismatch checkpoint.beaconRoot beaconRoot)
  let slot := header.beacon.slot
  rejectIf (checkpoint.beaconSlot.any (fun expected => decide (expected ≠ slot)) = true)
    (.trustedCheckpointSlotMismatch (checkpoint.beaconSlot.getD 0) slot)
  let leaf := decoded.currentSyncCommittee.treeHashRoot Γ
  rejectIf (isValidNormalizedMerkleBranch Γ leaf decoded.currentSyncCommitteeBranch
    (currentSyncCommitteeGindexAtSlot slot) header.beacon.stateRoot = false) (.invalidCurrentSyncCommitteeProof slot)
  .ok
    { finalizedCheckpoint := none
      checkpointRoot := checkpoint.beaconRoot
      bootstrapSlot := slot
      currentSyncCommittee := decoded.currentSyncCommittee.toPersisted
      nextSyncCommittee := none
      finalizedHeader := header
      optimisticHeader := header
      bestValidUpdate := none
      previousMaxActiveParticipants := 0
      currentMaxActiveParticipants := 0 }

/-! ## Runs -/

/-- One operation of the client: an update that is verified and processed at a slot, or the timeout at a slot. -/
inductive LightClientOp where
  | update (u : VerifiedLightClientUpdate) (finalityBranch nextSyncCommitteeBranch : Option (List B256))
      (syncAggregate : SyncAggregateRaw) (currentSlot : Nat)
  | force (currentSlot : Nat)

/-- The store after an operation: a rejected update and a timeout that does not fire leave it as it is. -/
def LightClientOp.run : LightClientOp → VerifiedLightClientStore
  | .update u finalityBranch nextBranch aggregate currentSlot =>
    match verifyValidLightClientUpdateAtSlot Γ store u finalityBranch nextBranch aggregate currentSlot with
    | .error _ => store
    | .ok verified => (processLightClientUpdate store verified).store
  | .force currentSlot => (forceUpdateLightClientStore store currentSlot).getD store

/-- The store after a run of operations. -/
def runLightClient (ops : List LightClientOp) : VerifiedLightClientStore :=
  runFrom (LightClientOp.run Γ) store ops

end Logex
