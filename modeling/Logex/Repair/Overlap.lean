import Logex.Catalog
import Logex.Lib.Ranges

/-!
# Repair selection

`native/repair/overlap.rs`: from the segments an operator names, the block ranges to fetch again and the segments to rewrite. The
ranges are those of the named segments, merged; every segment that meets one of them has to be rewritten with them.
-/

namespace Logex.Repair

open Lib

structure Selection where
  segmentIds : List Nat
  blockRanges : List Range
deriving DecidableEq, Repr

def blockCount (start stop : Nat) : Except String Nat :=
  okOr "repair inclusive block count overflows" ((checkedSub stop start).bind fun span => checkedAdd span 1)

/-- The selected identifiers as a set. -/
def collectSeeds : Finset Nat → List Nat → Except String (Finset Nat)
  | seeds, [] => .ok seeds
  | seeds, id :: rest => do
    rejectIf (id ∈ seeds) "duplicate repair segment selection"
    collectSeeds (insert id seeds) rest

variable (segment : SegmentDescriptor) (segments : List SegmentDescriptor) (selectedIds : List Nat)

/-- The blocks of a segment, which has bounds exactly when it has rows. -/
def blockBounds : Except String (Option Range) :=
  match segment.rowCount, segment.minBlock, segment.maxBlock with
  | 0, none, none => .ok none
  | 0, _, _ => .error "empty segment has block bounds"
  | _ + 1, some start, some stop =>
    if start ≤ stop then .ok (some (start, stop)) else .error "nonempty segment has missing or inverted block bounds"
  | _ + 1, _, _ => .error "nonempty segment has missing or inverted block bounds"

/-- The scan of the catalog: the identifiers seen and the ranges of the seeds. -/
def scanSegments (seeds : Finset Nat) : Finset Nat → List SegmentDescriptor → Except String (Finset Nat × List Range)
  | seen, [] => .ok (seen, [])
  | seen, segment :: rest => do
    rejectIf (segment.id ∈ seen) "duplicate catalog segment ID"
    let bounds ← blockBounds segment
    let (seen, ranges) ← scanSegments seeds (insert segment.id seen) rest
    return (seen, if segment.id ∈ seeds then bounds.toList ++ ranges else ranges)

/-- One turn of the merging loop. -/
def mergeRange (blockRanges : List Range) (range : Range) : List Range :=
  match blockRanges.getLast? with
  | some last =>
    if range.1 ≤ last.2 ∨ checkedAdd last.2 1 = some range.1 then
      blockRanges.dropLast ++ [(last.1, max last.2 range.2)]
    else
      blockRanges ++ [range]
  | none => blockRanges ++ [range]

/-- The ranges in order, merged where they overlap or touch. -/
def mergeRanges (ranges : List Range) : List Range :=
  ((ranges.map toLex).insertionSort (· ≤ ·)).map ofLex |>.foldl mergeRange []

def checkBlockBudget (maxBlocks : Nat) : Nat → List Range → Except String Unit
  | _, [] => .ok ()
  | blocks, (start, stop) :: rest => do
    let count ← blockCount start stop
    let blocks ← okOr "repair block count overflow" (checkedAdd blocks count)
    rejectIf (maxBlocks < blocks) "repair selection exceeds block budget"
    checkBlockBudget maxBlocks blocks rest

/-- What owners are ordered by: nonempty ones by their first block, then the identifier. -/
abbrev OwnerKey := Bool ×ₗ Nat ×ₗ Nat ×ₗ Nat

/-- The key of a segment that is selected. -/
def ownerKey (seeds : Finset Nat) (blockRanges : List Range) (segment : SegmentDescriptor) : Option OwnerKey :=
  match segment.minBlock, segment.maxBlock with
  | some start, some stop =>
    -- Normalized ranges are ordered and disjoint: only the first that does not end before this owner is tested.
    let next := partitionIndex (fun range => decide (range.2 < start)) blockRanges
    if blockRanges[next]?.all fun range => decide (stop < range.1) then none
    else some (toLex (false, toLex (start, toLex (segment.id, stop))))
  | _, _ => if segment.id ∈ seeds then some (toLex (true, toLex (0, toLex (segment.id, 0)))) else none

def collectOwners (seeds : Finset Nat) (blockRanges : List Range) (maxSegments : Nat) :
    List OwnerKey → List SegmentDescriptor → Except String (List OwnerKey)
  | owners, [] => .ok owners
  | owners, segment :: rest =>
    match ownerKey seeds blockRanges segment with
    | none => collectOwners seeds blockRanges maxSegments owners rest
    | some key => do
      rejectIf (maxSegments ≤ owners.length) "repair selection exceeds segment budget"
      collectOwners seeds blockRanges maxSegments (owners ++ [key]) rest

def OwnerKey.id (key : OwnerKey) : Nat := (ofLex (ofLex (ofLex key).2).2).1

def selectSegments (maxSegments maxBlocks : Nat) : Except String Selection := do
  rejectIf (maxSegments < selectedIds.length) "repair selection exceeds segment budget"
  let seeds ← collectSeeds ∅ selectedIds
  let (seen, ranges) ← scanSegments seeds ∅ segments
  rejectIf (¬seeds ⊆ seen) "unknown repair segment selection"
  let blockRanges := mergeRanges ranges
  checkBlockBudget maxBlocks 0 blockRanges
  let owners ← collectOwners seeds blockRanges maxSegments [] segments
  return ⟨(owners.insertionSort (· ≤ ·)).map OwnerKey.id, blockRanges⟩

/-- `select`. -/
def select (catalog : NativeStorageCatalog) (selectedIds : List Nat) (maxSegments maxBlocks : Nat) : Except String Selection :=
  selectSegments catalog.segments selectedIds maxSegments maxBlocks

/-! ## What is to be selected -/

/-- Bounds that agree with the row count. -/
def WellBounded : Prop :=
  (segment.rowCount = 0 ∧ segment.minBlock = none ∧ segment.maxBlock = none) ∨
    (segment.rowCount ≠ 0 ∧ ∃ start stop, segment.minBlock = some start ∧ segment.maxBlock = some stop ∧ start ≤ stop)

/-- The blocks of a segment. -/
def segmentBlocks : Finset Nat :=
  match segment.minBlock, segment.maxBlock with
  | some start, some stop => Finset.Icc start stop
  | _, _ => ∅

/-- The blocks of the selected segments. -/
def seedBlocks : Finset Nat :=
  (segments.filter (·.id ∈ selectedIds)).foldr (fun segment blocks => segmentBlocks segment ∪ blocks) ∅

/-- A segment to rewrite: it has a block of the selected segments, or it is an empty segment that is selected itself. -/
def IsOwner (segment : SegmentDescriptor) : Prop :=
  (segmentBlocks segment ∩ seedBlocks segments selectedIds).Nonempty ∨ (segment.rowCount = 0 ∧ segment.id ∈ selectedIds)

instance (segments : List SegmentDescriptor) (selectedIds : List Nat) : DecidablePred (IsOwner segments selectedIds) :=
  fun _ => inferInstanceAs (Decidable (_ ∨ _))

/-- A selection that can be served: known and distinct seeds, a well-formed list of segments, and the budgets kept. -/
structure Admissible (segments : List SegmentDescriptor) (selectedIds : List Nat) (maxSegments maxBlocks : Nat) : Prop where
  seeds_distinct : selectedIds.Nodup
  seeds_known : ∀ id ∈ selectedIds, ∃ segment ∈ segments, segment.id = id
  ids_distinct : (segments.map SegmentDescriptor.id).Nodup
  bounds : ∀ segment ∈ segments, WellBounded segment
  seed_budget : selectedIds.length ≤ maxSegments
  owner_budget : (segments.filter (IsOwner segments selectedIds)).length ≤ maxSegments
  block_budget : (seedBlocks segments selectedIds).card ≤ maxBlocks

/-- What a selection has to be. -/
structure Exact (segments : List SegmentDescriptor) (selectedIds : List Nat) (selection : Selection) : Prop where
  normalized : Normalized selection.blockRanges
  union : ∀ block, InRanges selection.blockRanges block ↔
    ∃ segment ∈ segments, segment.id ∈ selectedIds ∧ block ∈ segmentBlocks segment
  ids_nodup : selection.segmentIds.Nodup
  mem_ids : ∀ id, id ∈ selection.segmentIds ↔ ∃ segment ∈ segments, segment.id = id ∧
    ((∃ block ∈ segmentBlocks segment, InRanges selection.blockRanges block) ∨ (segment.rowCount = 0 ∧ segment.id ∈ selectedIds))

end Logex.Repair
