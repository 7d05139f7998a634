import Logex.Lib.Stateful
import Logex.Primitives

/-!
# Ranges of consensus history

The backward search for a missing parent (`history_range_scan.rs`), and the choice of the next forward range behind the cached path
and the ranges already requested (`network.rs`). Slots are 64-bit; plain subtraction is the source's saturating one unless a
theorem shows that it cannot underflow.
-/

namespace Logex

open Lib

structure BeaconBlocksByRangeRequest where
  startSlot : Nat
  count : Nat
  step : Nat
deriving DecidableEq, Repr

/-! ## The backward search -/

def maxScanBatch : Nat := 128

structure HistoryRangeScan where
  missingRoot : B256
  checkpointSlot : Nat
  batchLimit : Nat
  windowStart : Nat
  windowEnd : Nat
  nextStart : Option Nat
deriving DecidableEq, Repr

inductive ScanProgress where
  | continues
  | exhausted
deriving DecidableEq, Repr

inductive ScanAdvanceError where
  | unexpectedRequest
  | lastSlotOutsideRequest
deriving DecidableEq, Repr

namespace HistoryRangeScan

def new (missingRoot : B256) (childSlot checkpointSlot batchLimit : Nat) : Option HistoryRangeScan :=
  if childSlot ≤ checkpointSlot ∨ ¬(1 ≤ batchLimit ∧ batchLimit ≤ maxScanBatch) then none
  else
    let windowStart := max (childSlot - batchLimit) checkpointSlot
    some { missingRoot, checkpointSlot, batchLimit, windowStart, windowEnd := childSlot, nextStart := some windowStart }

def request (scan : HistoryRangeScan) (batchLimit : Nat) : Option BeaconBlocksByRangeRequest :=
  if ¬(1 ≤ batchLimit ∧ batchLimit ≤ maxScanBatch) then none
  else scan.nextStart.map fun startSlot => { startSlot, count := min (scan.windowEnd - startSlot) batchLimit, step := 1 }

/-- The slot after those an answer consumed: the greatest one it returned, or the whole request where it is empty. -/
def consumedTo (request : BeaconBlocksByRangeRequest) : Option Nat → Nat
  | some lastSlot => lastSlot + 1
  | none => request.startSlot + request.count

def advance (request : BeaconBlocksByRangeRequest) (lastSlot : Option Nat) :
    EStateM ScanAdvanceError HistoryRangeScan ScanProgress := do
  let scan ← get
  failIf (scan.nextStart ≠ some request.startSlot ∨ request.step ≠ 1 ∨ ¬(1 ≤ request.count ∧ request.count ≤ maxScanBatch) ∨
    scan.windowEnd - request.startSlot < request.count) .unexpectedRequest
  let requestEnd := request.startSlot + request.count
  failIf (∃ slot ∈ lastSlot, slot < request.startSlot ∨ requestEnd ≤ slot) .lastSlotOutsideRequest
  let nextStart := consumedTo request lastSlot
  if nextStart < scan.windowEnd then do
    set { scan with nextStart := some nextStart }
    return .continues
  else if scan.windowStart = scan.checkpointSlot then do
    set { scan with nextStart := none }
    return .exhausted
  else do
    let windowEnd := scan.windowStart
    let windowStart := max (windowEnd - scan.batchLimit) scan.checkpointSlot
    set { scan with windowStart, windowEnd, nextStart := some windowStart }
    return .continues

end HistoryRangeScan

/-! ## The next forward range -/

def forwardBeaconBlockRangeWindow : Nat := 16

/-- The cached path forward from the checkpoint. The target is a 64-bit slot. -/
@[ext] structure CachedForwardPathProgress where
  checkpointSlot : Nat
  targetSlot : Nat
  highestCachedSlot : Nat
  bounded : targetSlot ≤ u64Max := by decide
deriving DecidableEq, Repr

def nextForwardHistoryRangeRequestForProgress (progress : CachedForwardPathProgress) : Option BeaconBlocksByRangeRequest :=
  if progress.targetSlot ≤ progress.highestCachedSlot then none
  else
    let startSlot := max (saturatingAdd progress.highestCachedSlot 1) (saturatingAdd progress.checkpointSlot 1)
    if progress.targetSlot < startSlot then none
    else
      let endSlot := min progress.targetSlot (saturatingAdd startSlot (forwardBeaconBlockRangeWindow - 1))
      let count := saturatingAdd (endSlot - startSlot) 1
      if 0 < count then some { startSlot, count, step := 1 } else none

def historyRangeEndSlot (request : BeaconBlocksByRangeRequest) : Nat :=
  saturatingAdd request.startSlot (min (request.step * (request.count - 1)) u64Max)

/-- The first pending range that reaches over the slot. -/
def pendingAt (pendingRanges : List BeaconBlocksByRangeRequest) (slot : Nat) : Option BeaconBlocksByRangeRequest :=
  pendingRanges.find? fun request => decide (request.startSlot ≤ slot ∧ slot ≤ historyRangeEndSlot request)

/-- One turn of the loop: the cached slot moves to the end of a pending range. -/
def CachedForwardPathProgress.advanceTo (progress : CachedForwardPathProgress) (request : BeaconBlocksByRangeRequest) :
    CachedForwardPathProgress :=
  { progress with
    highestCachedSlot := min progress.targetSlot (max progress.highestCachedSlot (historyRangeEndSlot request)) }

theorem pendingAt_covers {pr : List BeaconBlocksByRangeRequest} {slot : Nat} {rq : BeaconBlocksByRangeRequest}
    (h : pendingAt pr slot = some rq) : rq ∈ pr ∧ rq.startSlot ≤ slot ∧ slot ≤ historyRangeEndSlot rq := by
  unfold pendingAt at h
  exact ⟨List.mem_of_find?_eq_some h, by simpa using List.find?_some h⟩

def forwardProgressWithPendingRanges (progress : CachedForwardPathProgress) (pendingRanges : List BeaconBlocksByRangeRequest) :
    CachedForwardPathProgress :=
  match _h : pendingAt pendingRanges (saturatingAdd progress.highestCachedSlot 1) with
  | none => progress
  | some request =>
    if _hmore : (progress.advanceTo request).targetSlot ≤ (progress.advanceTo request).highestCachedSlot then
      progress.advanceTo request
    else forwardProgressWithPendingRanges (progress.advanceTo request) pendingRanges
termination_by progress.targetSlot - progress.highestCachedSlot
decreasing_by
  have hcovers := (pendingAt_covers _h).2.2
  have hbounded := progress.bounded
  simp only [CachedForwardPathProgress.advanceTo, saturatingAdd] at _hmore hcovers ⊢
  omega

def rangeRequestContainsSlot (request : BeaconBlocksByRangeRequest) (slot : Nat) : Bool :=
  if request.count = 0 ∨ request.step = 0 ∨ slot < request.startSlot then false
  else
    match checkedSub slot request.startSlot, checkedMul request.step (request.count - 1) with
    | some relativeSlot, some maxRelativeSlot =>
      decide (relativeSlot ≤ maxRelativeSlot) && decide (relativeSlot % request.step = 0)
    | _, _ => false

end Logex
