import Logex.Primitives

/-!
# Candidate metadata

The FIFO bookkeeping of `candidate_metadata.rs` for beacon metadata that nobody requires: a set of candidates and a queue whose
entries outlive them until they are trimmed.
-/

namespace Logex

structure CandidateMetadata where
  capacity : Nat
  candidates : Finset B256 := ∅
  queued : Finset B256 := ∅
  order : List B256 := []

namespace CandidateMetadata

variable (s : CandidateMetadata) (root : B256)

/-- A root queued before gets a new place. -/
def insert : CandidateMetadata :=
  if root ∈ s.candidates then s
  else { s with
    candidates := Insert.insert root s.candidates
    queued := Insert.insert root s.queued
    order := (if root ∈ s.queued then s.order.filter (· ≠ root) else s.order) ++ [root] }

def protect : CandidateMetadata := { s with candidates := s.candidates.erase root }

/-- The first loop of `trim`, with what it evicts. An empty queue panics. -/
def evict (capacity : Nat) (candidates queued : Finset B256) : List B256 → Option (CandidateMetadata × List B256)
  | [] => if capacity < candidates.card then none else some (⟨capacity, candidates, queued, []⟩, [])
  | root :: order =>
    if capacity < candidates.card then do
      let (s, evicted) ← evict capacity (candidates.erase root) (queued.erase root) order
      return (s, if root ∈ candidates then root :: evicted else evicted)
    else some (⟨capacity, candidates, queued, root :: order⟩, [])

/-- The second loop of `trim`: entries at the front that are no candidates. -/
def dropFront (candidates queued : Finset B256) : List B256 → Finset B256 × List B256
  | [] => (queued, [])
  | root :: order =>
    if root ∈ candidates then (queued, root :: order) else dropFront candidates (queued.erase root) order

def trim : Option (CandidateMetadata × List B256) := do
  let (s, evicted) ← evict s.capacity s.candidates s.queued s.order
  let (queued, order) := dropFront s.candidates s.queued s.order
  -- `saturating_mul`: a bound past `usize` is never exceeded.
  if min (s.capacity * 2) u64Max < order.length then
    return ({ s with queued := queued.filter (· ∈ s.candidates), order := order.filter (· ∈ s.candidates) }, evicted)
  else return ({ s with queued, order }, evicted)

end CandidateMetadata

inductive CandidateOp where
  | insert (root : B256)
  | protect (root : B256)
  | trim

def CandidateOp.apply (s : CandidateMetadata) : CandidateOp → Option CandidateMetadata
  | insert root => some (s.insert root)
  | protect root => some (s.protect root)
  | trim => Prod.fst <$> s.trim

/-- What the component is for: the candidates by latest admission, the oldest first, of which a trim keeps the newest. -/
def CandidateOp.admitted (capacity : Nat) (live : List B256) : CandidateOp → List B256
  | insert root => if root ∈ live then live else live ++ [root]
  | protect root => live.filter (· ≠ root)
  | trim => live.drop (live.length - capacity)

end Logex
