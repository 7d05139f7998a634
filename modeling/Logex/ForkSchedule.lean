import Logex.ChainSpec
import Logex.Lib.Wire

/-!
# Fork digests

The digest of an epoch (`chain.rs`): the fork version in force and, from Fulu on, the blob parameters. The two schedules are separate
lists, and three lookups search them in different ways. SHA-256 is a parameter.
-/

namespace Logex

open Lib

/-- An entry of the blob schedule; `BlobParameters` has the same two fields. -/
structure BlobParameters where
  epoch : Nat
  maxBlobsPerBlock : Nat
deriving DecidableEq, Repr

/-- `ConsensusChainSpec` with the fields that enter the digests. -/
structure ForkScheduleSpec extends ConsensusChainSpec where
  fuluForkEpoch : Nat
  electraMaxBlobsPerBlock : Nat
  blobSchedule : List BlobParameters
deriving DecidableEq, Repr

namespace ForkScheduleSpec

variable (sha256 : List UInt8 → B256) (spec : ForkScheduleSpec)

def forkDataRoot (version : List UInt8) : B256 :=
  sha256 (version ++ List.replicate (32 - version.length) 0 ++ FixedBytes.toBytes spec.genesisValidatorsRoot)

def plainForkDigestForVersion (version : List UInt8) : List UInt8 :=
  (FixedBytes.toBytes (spec.forkDataRoot sha256 version)).take 4

variable (epoch : Nat)

def blobParametersForEpoch : BlobParameters :=
  match spec.blobSchedule.reverse.find? fun scheduled => decide (scheduled.epoch ≤ epoch) with
  | some scheduled => scheduled
  | none =>
    { epoch := ((spec.forkSchedule.find? fun scheduled => decide (scheduled.version = [5, 0, 0, 0])).map (·.epoch)).getD 0
      maxBlobsPerBlock := spec.electraMaxBlobsPerBlock }

def forkDigestForEpoch : List UInt8 :=
  let forkDigest := (FixedBytes.toBytes (spec.forkDataRoot sha256 (spec.forkVersionForEpoch epoch))).take 4
  if epoch < spec.fuluForkEpoch then forkDigest
  else
    let blobParameters := spec.blobParametersForEpoch epoch
    let blobHash := sha256 (leBytes 8 blobParameters.epoch ++ leBytes 8 blobParameters.maxBlobsPerBlock)
    List.zipWith (· ^^^ ·) forkDigest (FixedBytes.toBytes blobHash)

def forkVersionForDigest (digest : List UInt8) : Option (List UInt8) :=
  if digest = spec.plainForkDigestForVersion sha256 spec.genesisForkVersion then some spec.genesisForkVersion
  else
    match spec.forkSchedule.find? fun scheduled => decide (digest = spec.plainForkDigestForVersion sha256 scheduled.version) with
    | some scheduled => some scheduled.version
    | none =>
      if digest = spec.forkDigestForEpoch sha256 0 then some (spec.forkVersionForEpoch 0)
      else
        match spec.forkSchedule.find? fun scheduled => decide (digest = spec.forkDigestForEpoch sha256 scheduled.epoch) with
        | some scheduled => some scheduled.version
        | none =>
          (spec.blobSchedule.find? fun scheduled => decide (digest = spec.forkDigestForEpoch sha256 scheduled.epoch)).map
            fun scheduled => spec.forkVersionForEpoch scheduled.epoch

def nextRegularForkForEpoch : Option ScheduledFork :=
  spec.forkSchedule.find? fun scheduled => decide (epoch < scheduled.epoch)

def nextScheduledEpochAfter : Option Nat :=
  let nextRegularEpoch := (spec.nextRegularForkForEpoch epoch).map (·.epoch)
  let nextBlobEpoch := (spec.blobSchedule.map (·.epoch)).find? fun scheduledEpoch => decide (epoch < scheduledEpoch)
  match nextRegularEpoch, nextBlobEpoch with
  | some regular, some blob => some (min regular blob)
  | some regular, none => some regular
  | none, some blob => some blob
  | none, none => none

end ForkScheduleSpec

end Logex
