import Logex.LightClient

/-!
# Light-client payloads and the persisted store

The three ways a payload reaches the store, `apply_light_client_update_payload`, `apply_finality_update_payload_at_slot` and
`apply_optimistic_update_payload_at_slot`, from decoded payloads; the check `validate_persisted_state` that a store passes when it
is reopened; and the part of the consensus snapshot that the client's handlers keep it in. What the execution-header checks return
for a decoded header is a parameter, as for the bootstrap.
-/

namespace Logex

open Lib

/-! ## Decoded payloads -/

/-- The number of set bits of a byte. -/
def countOnes (byte : UInt8) : Nat := (List.range 8).countP fun i => byte.toNat.testBit i

def participantCount (syncAggregate : SyncAggregateRaw) : Nat :=
  ((FixedBytes.toBytes syncAggregate.syncCommitteeBits).map countOnes).sum

/-- `branch_has_nonzero`, on the pieces of a branch. -/
def branchHasNonzero (branch : List B256) : Bool := branch.any fun item => decide (item ≠ 0)

/-- A decoded light-client header: whether it is the default one, its summary, and what its verification returns. -/
structure DecodedHeader where
  isDefault : Bool
  summary : LightClientHeaderSummary
  verified : Except LightClientVerificationError VerifiedLightClientHeader

/-- A nonzero branch denotes finality, including the genesis checkpoint whose header is wholly default. -/
def validateFinalizedHeaderShape (isDefault : Bool) (slot : Nat) (hasFinality : Bool) : Except LightClientVerificationError Unit :=
  rejectIf (isDefault = false ∧ (hasFinality = false ∨ slot = 0))
    (.invalidFinalityHeader slot "absent finality and genesis finality require a default header")

/-- `verified_optional_capella_header` and `verified_optional_deneb_header`. -/
def verifiedOptionalHeader (header : DecodedHeader) (hasFinality : Bool) :
    Except LightClientVerificationError (Option VerifiedLightClientHeader) := do
  validateFinalizedHeaderShape header.isDefault header.summary.beaconSlot hasFinality
  if hasFinality then header.verified.map some else .ok none

/-- Presence follows the branch, not the committee bytes. -/
def verifiedOptionalSyncCommittee (committee : SyncCommitteeRaw) (branch : List B256) (attestedSlot : Nat) :
    Except LightClientVerificationError (Option SyncCommitteeData) :=
  match branchHasNonzero branch, decide (committee = ⟨0, 0⟩) with
  | false, true => .ok none
  | true, false => .ok (some committee.toPersisted)
  | _, _ => .error (.invalidNextSyncCommitteeProof attestedSlot)

structure DecodedUpdate where
  attestedHeader : DecodedHeader
  nextSyncCommittee : SyncCommitteeRaw
  nextSyncCommitteeBranch : List B256
  finalizedHeader : DecodedHeader
  finalityBranch : List B256
  syncAggregate : SyncAggregateRaw
  signatureSlot : Nat

structure DecodedFinalityUpdate where
  fork : ConsensusDataFork
  attestedHeader : DecodedHeader
  finalizedHeader : DecodedHeader
  finalityBranch : List B256
  syncAggregate : SyncAggregateRaw
  signatureSlot : Nat

structure DecodedOptimisticUpdate where
  attestedHeader : DecodedHeader
  syncAggregate : SyncAggregateRaw
  signatureSlot : Nat

/-- `finality_branch_for_verification` and `next_sync_committee_branch`: a branch of zeros counts as absent. -/
def branchForVerification (branch : List B256) : Option (List B256) :=
  if branchHasNonzero branch then some branch else none

def DecodedUpdate.verifiedUpdate (decoded : DecodedUpdate) : Except LightClientVerificationError VerifiedLightClientUpdate := do
  let attestedHeader ← decoded.attestedHeader.verified
  let finalizedHeader ← verifiedOptionalHeader decoded.finalizedHeader (branchHasNonzero decoded.finalityBranch)
  let nextSyncCommittee ← verifiedOptionalSyncCommittee decoded.nextSyncCommittee decoded.nextSyncCommitteeBranch
    decoded.attestedHeader.summary.beaconSlot
  return {
    attestedHeader, finalizedHeader, nextSyncCommittee
    finalizedCheckpoint := none
    signatureSlot := decoded.signatureSlot
    participants := participantCount decoded.syncAggregate }

def DecodedFinalityUpdate.status (decoded : DecodedFinalityUpdate) : LightClientFinalityUpdateStatus where
  fork := decoded.fork
  attestedHeader := decoded.attestedHeader.summary
  finalizedHeader := decoded.finalizedHeader.summary
  signatureSlot := decoded.signatureSlot
  syncCommitteeParticipants := participantCount decoded.syncAggregate
  finalityBranchDepth := match decoded.fork with
    | .electra => 7
    | _ => 6

/-! ## The apply paths -/

variable (Γ : Crypto)

def applyLightClientUpdatePayload (decoded : DecodedUpdate) (store : VerifiedLightClientStore) (currentSlot : Nat) :
    Except LightClientVerificationError AppliedLightClientUpdate := do
  let update ← decoded.verifiedUpdate
  let verified ← verifyValidLightClientUpdateAtSlot Γ store update (branchForVerification decoded.finalityBranch)
    (branchForVerification decoded.nextSyncCommitteeBranch) decoded.syncAggregate currentSlot
  return processLightClientUpdate store verified

def applyFinalityUpdatePayloadAtSlot (decoded : DecodedFinalityUpdate) (store : VerifiedLightClientStore)
    (currentSlot : Nat) : Except LightClientVerificationError
      (LightClientFinalityUpdateStatus × VerifiedLightClientStore × VerifiedLightClientHeader × VerifiedLightClientHeader) := do
  let attestedHeader ← decoded.attestedHeader.verified
  let finalizedHeader ← verifiedOptionalHeader decoded.finalizedHeader (branchHasNonzero decoded.finalityBranch)
  let update : VerifiedLightClientUpdate := {
    attestedHeader, finalizedHeader
    finalizedCheckpoint := none
    nextSyncCommittee := none
    signatureSlot := decoded.signatureSlot
    participants := participantCount decoded.syncAggregate }
  let verified ← verifyValidLightClientUpdateAtSlot Γ store update (branchForVerification decoded.finalityBranch) none
    decoded.syncAggregate currentSlot
  let applied := processLightClientUpdate store verified
  return (applied.finalityStatus.getD decoded.status, applied.store, attestedHeader,
    finalizedHeader.getD { fork := decoded.fork, beacon := ⟨0, 0, 0, 0, 0⟩, execution := none })

def applyOptimisticUpdatePayloadAtSlot (decoded : DecodedOptimisticUpdate) (store : VerifiedLightClientStore)
    (currentSlot : Nat) : Except LightClientVerificationError
      (LightClientOptimisticUpdateStatus × VerifiedLightClientStore × VerifiedLightClientHeader) := do
  let attestedHeader ← decoded.attestedHeader.verified
  let update : VerifiedLightClientUpdate := {
    attestedHeader
    finalizedHeader := none
    finalizedCheckpoint := none
    nextSyncCommittee := none
    signatureSlot := decoded.signatureSlot
    participants := participantCount decoded.syncAggregate }
  let verified ← verifyValidLightClientUpdateAtSlot Γ store update none none decoded.syncAggregate currentSlot
  let applied := processLightClientUpdate store verified
  return (applied.optimisticStatus, applied.store, attestedHeader)

/-! ## The persisted store -/

/-- The committee check of `validate_persisted_state`. -/
def validateCommittee (name : String) (committee : SyncCommitteeData) : Except String Unit :=
  rejectIf (committee.pubkeys.length ≠ syncCommitteePubkeys)
    s!"{name} committee has {committee.pubkeys.length} public keys; expected {syncCommitteePubkeys}"

/-- The participant count check of `validate_persisted_state`. -/
def validateParticipantCount (name : String) (count : Nat) : Except String Unit :=
  rejectIf (syncCommitteePubkeys < count) s!"{name} maximum participant count {count} exceeds {syncCommitteePubkeys}"

/-- The checkpoint check of `validate_persisted_state`. -/
def validateFinalizedCheckpoint (optimisticSlot : Nat) : Option VerifiedFinalizedCheckpoint → Except String Unit
  | none => .ok ()
  | some checkpoint => do
    let startSlot ← okOr "verified checkpoint epoch overflows slot range" (checkedMul checkpoint.epoch slotsPerEpoch)
    rejectIf (optimisticSlot < startSlot ∨ decide (checkpoint.root = 0) ≠ decide (checkpoint.epoch = 0))
      "verified checkpoint exceeds optimistic slot or has invalid genesis root"

/-- The best-update check of `validate_persisted_state`. -/
def validateBestUpdate : Option VerifiedLightClientUpdate → Except String Unit
  | none => .ok ()
  | some update => do
    rejectIf (update.finalizedCheckpoint.any (fun checkpoint => update.finalizedHeader.all fun header =>
      !checkpointMatchesHeader Γ checkpoint header update.attestedHeader.beacon.slot) = true)
      "best update checkpoint is inconsistent with its headers"
    rejectIf (update.participants < minSyncCommitteeParticipants ∨ syncCommitteePubkeys < update.participants)
      s!"best update participant count {update.participants} is outside {minSyncCommitteeParticipants}..={syncCommitteePubkeys}"
    update.nextSyncCommittee.elim (.ok ()) (validateCommittee "best update next")

/-- Reject impossible persisted structure without reauthenticating local trust inputs. -/
def VerifiedLightClientStore.validatePersistedState (store : VerifiedLightClientStore)
    (checkpoint : WeakSubjectivityCheckpoint) : Except String Unit := do
  rejectIf (store.checkpointRoot ≠ checkpoint.beaconRoot) "verified store checkpoint root differs from snapshot checkpoint"
  rejectIf (checkpoint.beaconSlot ≠ some store.bootstrapSlot)
    "verified store bootstrap slot differs from snapshot checkpoint slot"
  rejectIf (store.finalizedHeader.beacon.slot < store.bootstrapSlot) "verified store finalized slot precedes bootstrap slot"
  rejectIf (store.optimisticHeader.beacon.slot < store.finalizedHeader.beacon.slot)
    "verified store optimistic slot precedes finalized slot"
  validateFinalizedCheckpoint store.optimisticHeader.beacon.slot store.finalizedCheckpoint
  validateCommittee "current" store.currentSyncCommittee
  store.nextSyncCommittee.elim (.ok ()) (validateCommittee "next")
  validateParticipantCount "previous" store.previousMaxActiveParticipants
  validateParticipantCount "current" store.currentMaxActiveParticipants
  validateBestUpdate Γ store.bestValidUpdate

/-! ## The client -/

/-- The part of the consensus snapshot the light client works on, with the checkpoint the network was started with. -/
structure LightClientSnapshot where
  config : WeakSubjectivityCheckpoint
  checkpoint : WeakSubjectivityCheckpoint
  store : Option VerifiedLightClientStore
deriving DecidableEq

/-- A snapshot before the first bootstrap. -/
def LightClientSnapshot.initial (checkpoint : WeakSubjectivityCheckpoint) : LightClientSnapshot := ⟨checkpoint, checkpoint, none⟩

/-- What the client handles: a payload of each kind at a wall-clock slot, the update timeout, and closing and reopening. -/
inductive LightClientMessage where
  | bootstrap (decoded : DecodedBootstrap)
  | update (decoded : DecodedUpdate) (currentSlot : Nat)
  | finality (decoded : DecodedFinalityUpdate) (currentSlot : Nat)
  | optimistic (decoded : DecodedOptimisticUpdate) (currentSlot : Nat)
  | force (currentSlot : Nat)
  | reopen

/-- The sync aggregate of an update. -/
def LightClientMessage.syncAggregate? : LightClientMessage → Option SyncAggregateRaw
  | .update decoded _ => some decoded.syncAggregate
  | .finality decoded _ => some decoded.syncAggregate
  | .optimistic decoded _ => some decoded.syncAggregate
  | _ => none

namespace LightClientSnapshot

/-- `record_verified_bootstrap`: the delta that replaces the store and fills in the slot of the checkpoint. -/
def recordVerifiedBootstrap (snapshot : LightClientSnapshot) (store : VerifiedLightClientStore) : LightClientSnapshot :=
  { snapshot with checkpoint := { snapshot.checkpoint with beaconSlot := some store.bootstrapSlot }, store := some store }

/-- The handlers: updates wait for a verified bootstrap, a bootstrap is taken whenever it verifies. -/
def accept (Γ : Crypto) (snapshot : LightClientSnapshot) : LightClientMessage → Except String LightClientSnapshot
  | .bootstrap decoded =>
    match verifyBootstrapPayload Γ decoded snapshot.config with
    | .ok store => .ok (snapshot.recordVerifiedBootstrap store)
    | .error _ => .error "failed to verify light-client bootstrap payload"
  | .update decoded currentSlot =>
    match snapshot.store with
    | none => .error "ignoring light-client updates by range response until a verified bootstrap exists"
    | some store => match applyLightClientUpdatePayload Γ decoded store currentSlot with
      | .ok applied => .ok { snapshot with store := some applied.store }
      | .error _ => .error "failed to verify light-client update payload"
  | .finality decoded currentSlot =>
    match snapshot.store with
    | none => .error "ignoring light-client finality update response until a verified bootstrap exists"
    | some store => match applyFinalityUpdatePayloadAtSlot Γ decoded store currentSlot with
      | .ok (_, next, _, _) => .ok { snapshot with store := some next }
      | .error _ => .error "failed to verify light-client finality update payload"
  | .optimistic decoded currentSlot =>
    match snapshot.store with
    | none => .error "ignoring light-client optimistic update response until a verified bootstrap exists"
    | some store => match applyOptimisticUpdatePayloadAtSlot Γ decoded store currentSlot with
      | .ok (_, next, _) => .ok { snapshot with store := some next }
      | .error _ => .error "failed to verify light-client optimistic update payload"
  | .force currentSlot =>
    .ok { snapshot with store := snapshot.store.map fun store => (forceUpdateLightClientStore store currentSlot).getD store }
  | .reopen => do
    snapshot.store.elim (.ok ()) fun store => store.validatePersistedState Γ snapshot.checkpoint
    return { snapshot with config := snapshot.checkpoint }

/-- The snapshot after a message; what is not accepted leaves it as it is. -/
def handle (Γ : Crypto) (snapshot : LightClientSnapshot) (message : LightClientMessage) : LightClientSnapshot :=
  match snapshot.accept Γ message with
  | .ok next => next
  | .error _ => snapshot

end LightClientSnapshot

end Logex
