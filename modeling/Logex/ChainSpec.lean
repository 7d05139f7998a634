import Logex.Primitives

/-!
# The consensus chain specification

The mainnet constants of the light client: the fork schedule, which decides the layout of the proofs and the signature
domain, and the genesis values that enter the domain.
-/

namespace Logex

/-- `SLOTS_PER_EPOCH`. -/
def slotsPerEpoch : Nat := 32

structure ScheduledFork where
  epoch : Nat
  version : List UInt8
  deriving Repr, DecidableEq

/-- The fields of `ConsensusChainSpec` that the light client reads. -/
structure ConsensusChainSpec where
  genesisTime : Nat
  genesisValidatorsRoot : B256
  genesisForkVersion : List UInt8
  forkSchedule : List ScheduledFork
  deriving Repr, DecidableEq

namespace ConsensusChainSpec

def epochForSlot (_ : ConsensusChainSpec) (slot : Nat) : Nat := slot / slotsPerEpoch

/-- The loop of `fork_version_for_epoch`: the schedule is read until an entry that is not active yet. -/
def forkVersionFrom (epoch : Nat) : List UInt8 → List ScheduledFork → List UInt8
  | version, [] => version
  | version, scheduled :: rest =>
    if scheduled.epoch ≤ epoch then forkVersionFrom epoch scheduled.version rest else version

def forkVersionForEpoch (spec : ConsensusChainSpec) (epoch : Nat) : List UInt8 :=
  forkVersionFrom epoch spec.genesisForkVersion spec.forkSchedule

end ConsensusChainSpec

/-- `MAINNET_CONSENSUS_CHAIN_SPEC`. -/
def mainnetConsensusChainSpec : ConsensusChainSpec where
  genesisTime := 1606824023
  genesisValidatorsRoot := 0x4b363db94e286120d76eb905340fdd4e54bfe9f06bf33ff6cf5ad27f511bfe95
  genesisForkVersion := [0x00, 0x00, 0x00, 0x00]
  forkSchedule :=
    [⟨74240, [0x01, 0x00, 0x00, 0x00]⟩, ⟨144896, [0x02, 0x00, 0x00, 0x00]⟩, ⟨194048, [0x03, 0x00, 0x00, 0x00]⟩,
      ⟨269568, [0x04, 0x00, 0x00, 0x00]⟩, ⟨364032, [0x05, 0x00, 0x00, 0x00]⟩, ⟨411392, [0x06, 0x00, 0x00, 0x00]⟩]

end Logex
