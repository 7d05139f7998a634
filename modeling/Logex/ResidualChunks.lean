import Logex.Lib.Except

/-!
# Chunks of a body and receipt plan

Fetched chunks by the position of their first block, the contiguous prefix a completion returns and the chunks it keeps
(`requests.rs`), and the loop that ingests what is left of a batch (`anchored.rs`). A `BTreeMap` is the list of its entries in key
order. Request accounting and validation are left out.
-/

namespace Logex

open Lib

variable {α : Type}

/-- `BTreeMap<usize, Vec<T>>`. -/
abbrev Chunks (α : Type) := List (Nat × List α)

/-! ## Completing a plan -/

def contiguousFrom : Nat → Chunks α → Nat
  | expectedStart, [] => expectedStart
  | expectedStart, (start, chunkBlocks) :: rest =>
    if start ≠ expectedStart then expectedStart else contiguousFrom (expectedStart + chunkBlocks.length) rest

def contiguousChunkBlocks (chunks : Chunks α) : Nat := contiguousFrom 0 chunks

structure PrefixSplit (α : Type) where
  blocks : List α := []
  residualChunks : Chunks α := []
  expectedStart : Nat := 0

/-- One turn of the loop of `split_contiguous_prefix`. The entries come in key order, so an insertion is at the end. -/
def splitStep (returnBlocks targetBlocks : Nat) (s : PrefixSplit α) (entry : Nat × List α) : PrefixSplit α :=
  if entry.1 = s.expectedStart ∧ s.blocks.length < targetBlocks then
    -- A chunk within the remaining prefix is taken whole.
    let chunkBlocks := entry.2.take (targetBlocks - s.blocks.length)
    { s with expectedStart := s.expectedStart + chunkBlocks.length, blocks := s.blocks ++ chunkBlocks }
  else if targetBlocks ≤ entry.1 ∧ entry.1 < returnBlocks then
    { s with residualChunks := s.residualChunks ++ [(entry.1 - targetBlocks, entry.2.take (returnBlocks - entry.1))] }
  else s

def splitContiguousPrefix (returnBlocks : Nat) (chunks : Chunks α) : List α × Chunks α :=
  let targetBlocks := min (contiguousChunkBlocks chunks) returnBlocks
  let s := chunks.foldl (splitStep returnBlocks targetBlocks) {}
  (s.blocks, s.residualChunks)

def bodyReceiptMinAcceptedPrefix (returnBlocks : Nat) : Nat :=
  min returnBlocks (if returnBlocks ≤ 512 then 32 else 128)

def bodyReceiptCompletionMinAcceptedPrefix (returnBlocks : Nat) (minAcceptedPrefixOverride : Option Nat) (hasResidualChunks : Bool) :
    Nat :=
  match minAcceptedPrefixOverride with
  | some pre => min returnBlocks pre
  | none =>
    let default := bodyReceiptMinAcceptedPrefix returnBlocks
    if hasResidualChunks then min default (min returnBlocks 16) else default

structure BodyReceiptRequestOutcome (α : Type) where
  totalHashes : Nat
  returnBlocks : Nat
  completedPrefixBlocks : Nat
  chunks : Chunks α

def bodyReceiptCompletedPrefixBlocks (chunks : Chunks α) (returnBlocks : Nat) : Nat := min (contiguousChunkBlocks chunks) returnBlocks

/-- The outcome `execute_paired_plan_live` builds from what it fetched. -/
def planOutcome (totalHashes returnBlocks : Nat) (chunks : Chunks α) : BodyReceiptRequestOutcome α :=
  { totalHashes, returnBlocks, completedPrefixBlocks := bodyReceiptCompletedPrefixBlocks chunks returnBlocks, chunks }

def bodyReceiptCompletionReturnBlocks (returnBlocks completedPrefixBlocks totalHashes : Nat) : Nat :=
  min (min completedPrefixBlocks returnBlocks) totalHashes

structure BodyReceiptRequestCompletion (α : Type) where
  blocks : List α
  residualChunks : Chunks α

def completeBodiesAndReceiptsRequestWithMinPrefix (outcome : BodyReceiptRequestOutcome α) (minAcceptedPrefixOverride : Option Nat) :
    Except String (BodyReceiptRequestCompletion α) := do
  let returnBlocks :=
    bodyReceiptCompletionReturnBlocks outcome.returnBlocks outcome.completedPrefixBlocks outcome.totalHashes
  let (blocks, residualChunks) := splitContiguousPrefix returnBlocks outcome.chunks
  let minAccepted := bodyReceiptCompletionMinAcceptedPrefix returnBlocks minAcceptedPrefixOverride !residualChunks.isEmpty
  rejectIf (blocks.length < minAccepted)
    s!"body/receipt chunk pipeline completed {blocks.length}/{outcome.totalHashes} blocks below accepted prefix {minAccepted}"
  return { blocks, residualChunks := if minAcceptedPrefixOverride.isSome then residualChunks else [] }

def completeResidualBodiesAndReceiptsRequest (outcome : BodyReceiptRequestOutcome α) :
    Except String (BodyReceiptRequestCompletion α) :=
  completeBodiesAndReceiptsRequestWithMinPrefix outcome (some 16)

/-! ## Ingesting what is left -/

/-- `BTreeMap::remove`. -/
def removeChunk (start : Nat) : Chunks α → Option (List α × Chunks α)
  | [] => none
  | entry :: rest =>
    if entry.1 = start then some (entry.2, rest) else (removeChunk start rest).map fun found => (found.1, entry :: found.2)

/-- `BTreeMap::insert`. -/
def insertChunk (start : Nat) (chunk : List α) : Chunks α → Chunks α
  | [] => [(start, chunk)]
  | entry :: rest =>
    if start < entry.1 then (start, chunk) :: entry :: rest
    else if start = entry.1 then (start, chunk) :: rest
    else entry :: insertChunk start chunk rest

theorem length_removeChunk {start : Nat} {chunks : Chunks α} {found : List α × Chunks α}
    (h : removeChunk start chunks = some found) : found.2.length < chunks.length := by
  induction chunks generalizing found with
  | nil => nomatch h
  | cons entry rest ih =>
    rw [removeChunk] at h
    split at h
    · cases h
      simp
    · obtain ⟨later, hl, rfl⟩ := Option.map_eq_some_iff.mp h
      simpa using ih hl

/-- The loop of `take_prefetched_residual_prefix`; it ends with the chunk that reaches the limit. -/
def takePrefetchedFrom (limit : Nat) (blocks : List α) (prefetchedChunks : Chunks α) : List α × Chunks α :=
  if blocks.length < limit then
    match _h : removeChunk blocks.length prefetchedChunks with
    | none => (blocks, prefetchedChunks)
    | some (chunk, rest) =>
      let remaining := limit - blocks.length
      if remaining < chunk.length then (blocks ++ chunk.take remaining, insertChunk limit (chunk.drop remaining) rest)
      else takePrefetchedFrom limit (blocks ++ chunk) rest
  else (blocks, prefetchedChunks)
termination_by prefetchedChunks.length
decreasing_by exact length_removeChunk _h

def takePrefetchedResidualPrefix (prefetchedChunks : Chunks α) (limit : Nat) : List α × Chunks α :=
  takePrefetchedFrom limit [] prefetchedChunks

def shiftPrefetchedResidualChunksAfterConsumption (prefetchedChunks : Chunks α) (consumedBlocks : Nat) : Chunks α :=
  prefetchedChunks.filterMap fun entry => if consumedBlocks ≤ entry.1 then some (entry.1 - consumedBlocks, entry.2) else none

/-- A chunk already there stays. -/
def mergePrefetchedResidualChunks (prefetchedChunks newChunks : Chunks α) : Chunks α :=
  newChunks.foldl (fun chunks entry => if chunks.any (·.1 = entry.1) then chunks else insertChunk entry.1 entry.2 chunks)
    prefetchedChunks

structure ResidualIngest (α : Type) where
  remainingHeaders : Nat
  prefetchedChunks : Chunks α

/-- One turn of the loop of `ingest_historical_residual_batch` that ends in validated blocks: those handed to validation, taken from
the chunks kept or from the completion of a new plan. -/
def residualTurn (s : ResidualIngest α) (outcome : BodyReceiptRequestOutcome α) : Option (List α × ResidualIngest α) :=
  let (prefetched, kept) := takePrefetchedResidualPrefix s.prefetchedChunks s.remainingHeaders
  if prefetched ≠ [] then
    some (prefetched, ⟨s.remainingHeaders - prefetched.length,
      shiftPrefetchedResidualChunksAfterConsumption kept prefetched.length⟩)
  else
    match completeResidualBodiesAndReceiptsRequest outcome with
    | .error _ => none
    | .ok completion =>
      if completion.blocks ≠ [] ∧ completion.blocks.length ≤ s.remainingHeaders then
        some (completion.blocks, ⟨s.remainingHeaders - completion.blocks.length, mergePrefetchedResidualChunks
          (shiftPrefetchedResidualChunksAfterConsumption kept completion.blocks.length) completion.residualChunks⟩)
      else none

end Logex
