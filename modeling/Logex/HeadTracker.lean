import Logex.Types

/-!
# Head tracking

The window of recent headers (`head_tracker.rs`). The deque is the list of its headers from the newest on; a tracked header's hash
is recomputed.
-/

namespace Logex

structure ReorgInfo where
  forkBlock : Nat
  forkHash : B256
  revertedHashes : List B256
deriving DecidableEq, Repr

structure HeadTracker where
  recent : List Header := []
  maxDepth : Nat

namespace HeadTracker

def snapshot (t : HeadTracker) : List Header := t.recent.reverse

def snapshotWithAppend (t : HeadTracker) (headers : List Header) : List Header :=
  let retained := min (t.maxDepth - headers.length) t.recent.length
  (t.recent.take retained).reverse ++ headers.drop (headers.length - t.maxDepth)

def pushTracked (t : HeadTracker) (header : Header) : HeadTracker :=
  let recent := header :: t.recent
  { t with recent := if t.maxDepth < recent.length then recent.dropLast else recent }

def track (hashSlow : Header → B256) (t : HeadTracker) (header : Header) : Option ReorgInfo × HeadTracker :=
  match t.recent with
  | [] => (none, t.pushTracked header)
  | tip :: _ =>
    if header.parentHash = hashSlow tip then (none, t.pushTracked header)
    else
      -- The position counts from the newest header, as `rposition` finds it.
      match t.recent.span (hashSlow · ≠ header.parentHash) with
      | (reverted, fork :: older) =>
        (some ⟨fork.number, hashSlow fork, (reverted.map hashSlow).reverse⟩, pushTracked { t with recent := fork :: older } header)
      | (_, []) => (some ⟨0, 0, (t.recent.map hashSlow).reverse⟩, pushTracked { t with recent := [] } header)

end HeadTracker

end Logex
