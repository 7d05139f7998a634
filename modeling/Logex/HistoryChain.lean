import Logex.LightClient
import Logex.Types

/-!
# The cached chain of beacon blocks

The walk over parent links from a target to the checkpoint (`network.rs`). The cache is filled from the network, so it is any map
from roots to blocks; each parent must have a smaller slot, which bounds the walk.
-/

namespace Logex

structure VerifiedBeaconBlock where
  fork : ConsensusDataFork
  beaconRoot : B256
  parentRoot : B256
  slot : Nat
  executionAnchor : ExecutionAnchor
deriving DecidableEq, Repr

abbrev VerifiedBeaconBlocks := B256 → Option VerifiedBeaconBlock

section Walk

variable {σ : Type} (verifiedBeaconBlocks : VerifiedBeaconBlocks) (checkpointRoot : B256) (visit : VerifiedBeaconBlock → σ → σ)

/-- The walk's loop, with the visitor's state. The slot is that of the child the root was reached from. -/
def visitFrom (checkpointBlock : VerifiedBeaconBlock) (currentRoot : B256) (childSlot : Option Nat) (state : σ) : Option Unit × σ :=
  match if currentRoot = checkpointRoot then some checkpointBlock else verifiedBeaconBlocks currentRoot with
  | none => (none, state)
  | some block =>
    if _hinvalid : block.beaconRoot ≠ currentRoot ∨ ∃ slot ∈ childSlot, slot ≤ block.slot then (none, state)
    else if currentRoot = checkpointRoot then (some (), visit block state)
    else visitFrom checkpointBlock block.parentRoot (some block.slot) (visit block state)
termination_by (if childSlot = none then 1 else 0, childSlot.getD 0)
decreasing_by
  cases childSlot with
  | none => exact Prod.Lex.left _ _ (by simp)
  | some slot =>
    refine Prod.Lex.right _ ?_
    have hslot : ¬slot ≤ block.slot := fun hle => _hinvalid (.inr ⟨slot, rfl, hle⟩)
    simpa using hslot

def visitCanonicalChainToRoot (checkpointSlot : Nat) (targetRoot : B256) (state : σ) : Option Unit × σ :=
  match verifiedBeaconBlocks checkpointRoot with
  | none => (none, state)
  | some checkpointBlock =>
    if checkpointBlock.slot ≠ checkpointSlot then (none, state)
    else visitFrom verifiedBeaconBlocks checkpointRoot visit checkpointBlock targetRoot none state

end Walk

def canonicalChainBlocksToRoot (verifiedBeaconBlocks : VerifiedBeaconBlocks) (checkpointRoot : B256) (checkpointSlot : Nat)
    (targetRoot : B256) : Option (List VerifiedBeaconBlock) :=
  match visitCanonicalChainToRoot verifiedBeaconBlocks checkpointRoot (fun block chain => chain ++ [block]) checkpointSlot
      targetRoot [] with
  | (some (), reverseChain) => some reverseChain.reverse
  | (none, _) => none

def canonicalChainIsComplete (verifiedBeaconBlocks : VerifiedBeaconBlocks) (checkpointRoot : B256) (checkpointSlot : Nat)
    (targetRoot : B256) : Bool :=
  (visitCanonicalChainToRoot verifiedBeaconBlocks checkpointRoot (fun _ (_ : Unit) => ()) checkpointSlot targetRoot ()).1.isSome

end Logex
