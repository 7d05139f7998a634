import Logex.Lib.TreeHash
import Logex.Lib.Stateful
import Logex.Types

/-!
# Resumable stream hashing

`commitment/stream.rs`: the continuation state of a BLAKE3 stream, and the writer that extends it. The frontier covers all chunks
except the last, in descending power-of-two subtree order; the last chunk's bytes are kept, so that a chunk that may still be the
root is never finalized early.
-/

namespace Logex

open Lib

/-- `blake3::CHUNK_LEN`. -/
def chunkBytes : Nat := 1024

/-! ## The tree hash -/

/-- The compressions of BLAKE3: a chunk at its index and a parent of two values, each as an inner value and as the root. -/
structure Blake3 where
  chunkCv : Nat → Bytes → B256
  chunkRoot : Bytes → B256
  parentCv : B256 → B256 → B256
  parentRoot : B256 → B256 → B256

/-- Chunk `i` of an input. -/
def chunkAt (bytes : Bytes) (i : Nat) : Bytes := (bytes.drop (i * chunkBytes)).take chunkBytes

/-- How many chunks an input has; the empty input has one. -/
def chunkCount (len : Nat) : Nat := (len - 1) / chunkBytes + 1

namespace Blake3

/-- The inner value of chunk `i` of an input. -/
def leaf (core : Blake3) (bytes : Bytes) (i : Nat) : B256 := core.chunkCv i (chunkAt bytes i)

/-- `blake3::hash`: the standard tree over the chunks of the input, with its last compression as the root. -/
def hash (core : Blake3) (bytes : Bytes) : B256 :=
  let n := chunkCount bytes.length
  if n = 1 then
    core.chunkRoot bytes
  else
    let left := 2 ^ (n - 1).log2
    core.parentRoot (tree core.parentCv (core.leaf bytes) 0 left) (tree core.parentCv (core.leaf bytes) left (n - left))

end Blake3

variable (core : Blake3)

/-- `subtree_cv`: the hasher at an input offset, finalized as an inner node. -/
def subtreeCv (completed : Nat) (bytes : Bytes) : B256 :=
  tree core.parentCv (fun i => core.chunkCv (completed + i) (chunkAt bytes i)) 0 (chunkCount bytes.length)

/-! ## The state -/

def completedChunks (total : Nat) : Nat := (total - 1) / chunkBytes

def tailLen (total : Nat) : Nat := if total = 0 then 0 else (total - 1) % chunkBytes + 1

theorem tailLen_le (total : Nat) : tailLen total ≤ chunkBytes := by
  unfold tailLen chunkBytes
  split <;> omega

/-- The continuation state of a stream; its tail is at most one chunk. -/
structure StreamState where
  totalBytes : Nat
  frontier : List B256
  tail : Bytes
  tail_le : tail.length ≤ chunkBytes
deriving DecidableEq

def streamVersion : UInt8 := 1

def streamHeaderBytes : Nat := 1 + 8

def maxFrontier : Nat := 54

/-- `MAX_ENCODED_BYTES`. -/
def maxStreamBytes : Nat := streamHeaderBytes + maxFrontier * 32 + chunkBytes

namespace StreamState

def new : StreamState := ⟨0, [], [], Nat.zero_le _⟩

def digest (core : Blake3) (state : StreamState) : B256 :=
  match state.frontier with
  | [] => core.hash state.tail
  | first :: rest =>
    core.parentRoot first (rest.foldr core.parentCv (subtreeCv core (completedChunks state.totalBytes) state.tail))

/-- Version, little-endian byte count, descending frontier, final chunk bytes. -/
def toBytes (state : StreamState) : Bytes :=
  streamVersion :: leBytes 8 state.totalBytes ++ state.frontier.flatMap FixedBytes.toBytes ++ state.tail

/-- The frontier values of an encoded state. -/
def readFrontier : Nat → Bytes → List B256
  | 0, _ => []
  | count + 1, bytes => .ofBytes 32 (bytes.take 32) :: readFrontier count (bytes.drop 32)

def fromBytes (bytes : Bytes) : Except String StreamState := do
  rejectIf (¬(streamHeaderBytes ≤ bytes.length ∧ bytes.length ≤ maxStreamBytes)) "invalid stream state length"
  rejectIf (bytes.head? ≠ some streamVersion) "unsupported stream state version"
  let totalBytes := ofLeBytes ((bytes.drop 1).take 8)
  let count := popCount 64 (completedChunks totalBytes)
  let tailStart := streamHeaderBytes + count * 32
  if h : bytes.length = tailStart + tailLen totalBytes then
    return ⟨totalBytes, readFrontier count (bytes.drop streamHeaderBytes), bytes.drop tailStart, by
      rw [List.length_drop, h, Nat.add_sub_cancel_left]
      exact tailLen_le totalBytes⟩
  else
    throw "stream byte count, frontier and tail length disagree"

end StreamState

/-- `push_subtree`: binary carries merge adjacent subtree siblings of equal size. -/
def pushSubtree (cvs : List B256) (completed chunks : Nat) (cv : B256) : Except String (List B256) :=
  okOr "canonical stream frontier" ((carry core.parentCv cvs.reverse (completed / chunks) cv).map List.reverse)

/-! ## The writer -/

/-- `BUFFER_BYTES`. -/
def bufferBytes : Nat := 64 * chunkBytes + 1

/-- How many chunks the next subtree takes: a power of two that the input has and the global offset is aligned to. -/
def subtreeChunks (completed available : Nat) : Nat :=
  if completed ≠ 0 then min (2 ^ available.log2) (2 ^ trailingZeros completed) else 2 ^ available.log2

theorem subtreeChunks_pos (done ava : Nat) : 0 < subtreeChunks done ava := by
  have h1 := Nat.two_pow_pos ava.log2
  have h2 := Nat.two_pow_pos (trailingZeros done)
  unfold subtreeChunks
  split <;> omega

/-- The loop of `consume_nonfinal` over the bytes not yet consumed; what remains may be the final chunk. -/
def consumeSubtrees (core : Blake3) (completed : Nat) (cvs : List B256) (bytes : Bytes) :
    Except String (List B256 × { rest : Bytes // rest.length ≤ chunkBytes }) :=
  if h : bytes.length ≤ chunkBytes then
    .ok (cvs, ⟨bytes, h⟩)
  else
    let chunks := subtreeChunks completed ((bytes.length - 1) / chunkBytes)
    match pushSubtree core cvs completed chunks (subtreeCv core completed (bytes.take (chunks * chunkBytes))) with
    | .error e => .error e
    | .ok cvs => consumeSubtrees core (completed + chunks) cvs (bytes.drop (chunks * chunkBytes))
termination_by bytes.length
decreasing_by
  have hpos := subtreeChunks_pos completed ((bytes.length - 1) / chunkBytes)
  have hlen : chunkBytes ≤ chunks * chunkBytes := Nat.le_mul_of_pos_left _ hpos
  have hchunk : 0 < chunkBytes := by decide
  change (bytes.drop (chunks * chunkBytes)).length < bytes.length
  rw [List.length_drop]
  omega

/-- An unpublished append. The buffer starts with the bytes after the last committed chunk and always has room for one more. -/
structure StreamWriter where
  stream : StreamState
  buffer : Bytes
  accounted : Nat
  limit : Nat
  room : buffer.length < limit

namespace StreamWriter

def new (stream : StreamState) : StreamWriter where
  stream := stream
  buffer := stream.tail
  accounted := stream.tail.length
  -- Reach the next globally aligned 64-chunk start once, even when resuming at an arbitrary offset.
  limit := (64 - completedChunks stream.totalBytes % 64) * chunkBytes + 1
  room := by
    have h := stream.tail_le
    unfold chunkBytes at h ⊢
    omega

/-- Commit only complete nonfinal subtrees of the buffer. -/
def consumeNonfinal (core : Blake3) (stream : StreamState) (buffer : Bytes) (accounted : Nat) :
    Except String (StreamState × { rest : Bytes // rest.length ≤ chunkBytes }) := do
  let total ← okOr "stream byte count overflows u64" (checkedAdd stream.totalBytes (buffer.length - accounted))
  let (cvs, rest) ← consumeSubtrees core (completedChunks stream.totalBytes) stream.frontier buffer
  return ({ stream with totalBytes := total, frontier := cvs }, rest)

def putAcrossBoundary (core : Blake3) (writer : StreamWriter) (value : Bytes) : Except String StreamWriter :=
  if value = [] then
    .ok writer
  else
    let count := min value.length (writer.limit - writer.buffer.length)
    let buffer := writer.buffer ++ value.take count
    if hfull : buffer.length = writer.limit then
      match consumeNonfinal core writer.stream buffer writer.accounted with
      | .error e => .error e
      | .ok (stream, rest) =>
        let carried : StreamWriter := ⟨stream, rest.val.take 1, 1, bufferBytes, by
          rw [List.length_take]
          unfold bufferBytes chunkBytes
          omega⟩
        putAcrossBoundary core carried (value.drop count)
    else
      let filled : StreamWriter := ⟨writer.stream, buffer, writer.accounted, writer.limit, by
        have hroom := writer.room
        have hlen : buffer.length = writer.buffer.length + min count value.length := by simp [buffer]
        omega⟩
      putAcrossBoundary core filled (value.drop count)
termination_by value.length
decreasing_by
  all_goals
    have hroom := writer.room
    have hpos := List.length_pos_iff.mpr (by assumption : value ≠ [])
    rw [List.length_drop]
    omega

def put (core : Blake3) (writer : StreamWriter) (value : Bytes) : Except String StreamWriter :=
  if h : value.length < writer.limit - writer.buffer.length then
    .ok { writer with buffer := writer.buffer ++ value, room := by rw [List.length_append]; omega }
  else
    putAcrossBoundary core writer value

def finish (core : Blake3) (writer : StreamWriter) : Except String StreamState := do
  let (stream, rest) ← consumeNonfinal core writer.stream writer.buffer writer.accounted
  return { stream with tail := rest.val, tail_le := rest.property }

end StreamWriter

/-! ## Publications -/

/-- One append: a writer over a copy of the published state takes the writes, and its finished state is published. -/
def StreamState.append (state : StreamState) (writes : List Bytes) : Except String StreamState := do
  let writer ← writes.foldlM (StreamWriter.put core) (StreamWriter.new state)
  writer.finish core

/-- What happens to a published state: an append, or a restart from its encoding. -/
inductive StreamStep where
  | append (writes : List Bytes)
  | reload

/-- A step that fails leaves the published state as it was. -/
def StreamStep.run : StreamStep → EStateM String StreamState Unit
  | .append writes => do
    let state ← get
    let state ← attempt (state.append core writes)
    set state
  | .reload => do
    let state ← get
    let state ← attempt (StreamState.fromBytes state.toBytes)
    set state

end Logex
