import Logex.Catalog
import Logex.Lib.Stateful

/-!
# Verified blocks

`verified_block.rs`: the receipt-derived expectations carried to the storage publication boundary. A `VerifiedBlockLogs` can only
be obtained from a header that proves an empty block or from a complete transaction and receipt payload that matches its header;
what that guarantees is a field of the structure. Trie roots and Keccak are parameters.
-/

namespace Logex

open Lib

/-- `EMPTY_TRIE_ROOT`, `keccak256(rlp(""))`. -/
def emptyTrieRoot : B256 := 0x56e81f171bcc55a6ff8345e692c0f86e5b48e01b996cadc001622fb5e363b421

/-- The commitment to the events of one block. -/
def eventCommitment (hashes : Hashes) (rows : List LogRow) : Except String B256 := do
  let state ← PrefixState.fromRows eventNamespace rows
  return state.commitment hashes.blake3

/-- The rows belong to the block of a header. -/
def RowsOf (hashes : Hashes) (header : Header) (rows : List LogRow) : Prop :=
  ∀ row ∈ rows, row.blockNumber = header.number ∧ row.blockHash = hashes.hashSlow header ∧ row.timestamp = header.timestamp

structure VerifiedBlockLogs (hashes : Hashes) where
  header : Header
  hash : B256
  rows : Nat
  commitment : B256
  hash_eq : hash = hashes.hashSlow header
  certified : ∃ events, eventCommitment hashes events = .ok commitment ∧ events.length = rows ∧ RowsOf hashes header events

/-! ## Construction -/

/-- `alloy_primitives::Log`. -/
structure Log where
  address : Address
  topics : List B256
  data : Bytes
deriving DecidableEq, Repr

/-- A receipt as its trait methods show it. -/
structure Receipt where
  encoded2718 : Bytes
  cumulativeGasUsed : Nat
  bloom : FixedBytes 256
  logs : List Log
deriving DecidableEq, Repr

structure BlockContext where
  blockNumber : Nat
  blockHash : B256
  timestamp : Nat
deriving DecidableEq, Repr

/-- `alloy_consensus::proofs` and Keccak, on encoded transactions and receipts. -/
structure TrieProofs where
  calculateTransactionRoot : List Bytes → B256
  calculateReceiptRoot : List Bytes → B256
  keccak256 : Bytes → B256

/-- `LogRow::try_from_primitives_log`. -/
def LogRow.tryFromPrimitivesLog (log : Log) (context : BlockContext) (txHash : B256) (txIndex logIndex : Nat) :
    Except String LogRow := do
  rejectIf (4 < log.topics.length) s!"log has {log.topics.length} topics; at most 4 are supported"
  rejectIf (u32Max < log.data.length) s!"log data length {log.data.length} exceeds the u32 row limit"
  return {
    blockNumber := context.blockNumber
    blockHash := context.blockHash
    timestamp := context.timestamp
    txHash, txIndex, logIndex
    address := log.address
    topic0 := log.topics[0]?
    topic1 := log.topics[1]?
    topic2 := log.topics[2]?
    topic3 := log.topics[3]?
    data := log.data
    dataLen := log.data.length
    source := .receipt }

/-- The logs of a block in receipt order, each with the hash and index of its transaction. -/
def blockLogs (proofs : TrieProofs) (transactions : List Bytes) (receipts : List Receipt) : List (B256 × Nat × Log) :=
  ((transactions.zip receipts).zipIdx).flatMap fun entry =>
    entry.1.2.logs.map fun log => (proofs.keccak256 entry.1.1, entry.2, log)

def Header.blockContext (hashes : Hashes) (header : Header) : BlockContext where
  blockNumber := header.number
  blockHash := hashes.hashSlow header
  timestamp := header.timestamp

namespace VerifiedBlockLogs

variable {hashes : Hashes}

/-- The record of a block whose events are known. -/
def ofEvents (header : Header) (events : List LogRow) (commitment : B256)
    (hcommitment : eventCommitment hashes events = .ok commitment) (hrows : RowsOf hashes header events) :
    VerifiedBlockLogs hashes where
  header := header
  hash := hashes.hashSlow header
  rows := events.length
  commitment := commitment
  hash_eq := rfl
  certified := ⟨events, hcommitment, rfl, hrows⟩

/-- The loop over the logs of a block: each is converted and pushed, with its place since `start` as its log index. -/
def pushLogs (context : BlockContext) (start : Nat) : List (B256 × Nat × Log) → EStateM String (List LogRow) Unit
  | [] => pure ()
  | (txHash, txIndex, log) :: rest => do
    let rows ← get
    let row ← attempt
      (LogRow.tryFromPrimitivesLog log context txHash (txIndex % 2 ^ 32) ((rows.length - start) % 2 ^ 32))
    set (rows ++ [row])
    pushLogs context start rest

/-- The row the loop makes of a log and its place. -/
def Converts (context : BlockContext) (entry : (B256 × Nat × Log) × Nat) (row : LogRow) : Prop :=
  LogRow.tryFromPrimitivesLog entry.1.2.2 context entry.1.1 (entry.1.2.1 % 2 ^ 32) (entry.2 % 2 ^ 32) = .ok row

/-- The loop only adds rows; when it ends, they are the converted logs. -/
theorem pushLogs_cases (con : BlockContext) {a : Nat} (es : List (B256 × Nat × Log)) {rows : List LogRow}
    (h : a ≤ rows.length) :
    match pushLogs con a es rows with
    | .ok _ pus => ∃ evs, pus = rows ++ evs ∧
        List.Forall₂ (Converts con) (es.zipIdx (rows.length - a)) evs
    | .error _ pus => rows <+: pus := by
  induction es generalizing rows with
  | nil => exact ⟨[], (List.append_nil rows).symm, .nil⟩
  | cons entry es ih =>
    obtain ⟨th, txIndex, log⟩ := entry
    change match (attempt (LogRow.tryFromPrimitivesLog log con th (txIndex % 2 ^ 32) ((rows.length - a) % 2 ^ 32)) >>=
        fun row => set (rows ++ [row]) >>= fun _ => pushLogs con a es) rows with
      | .ok _ pus | .error _ pus => _
    cases hrow : LogRow.tryFromPrimitivesLog log con th (txIndex % 2 ^ 32) ((rows.length - a) % 2 ^ 32) with
    | error e => exact List.prefix_refl rows
    | ok row =>
      have hleh : (rows ++ [row]).length - a = rows.length - a + 1 := by
        rw [List.length_append, List.length_singleton]
        omega
      have hn := @ih (rows ++ [row]) (by rw [List.length_append]; omega)
      rw [hleh] at hn
      change match pushLogs con a es (rows ++ [row]) with
        | .ok _ pus | .error _ pus => _
      cases hpush : pushLogs con a es (rows ++ [row]) with
      | ok _ pus =>
        rw [hpush] at hn
        obtain ⟨evs, rfl, heve⟩ := hn
        refine ⟨row :: evs, by rw [List.append_assoc, List.singleton_append], ?_⟩
        rw [List.zipIdx_cons]
        exact .cons hrow heve
      | error e pus =>
        rw [hpush] at hn
        exact (List.prefix_append rows [row]).trans hn

theorem rowsOf_of_converts {hd : Header} {es : List ((B256 × Nat × Log) × Nat)} {rows : List LogRow}
    (h : List.Forall₂ (Converts (hd.blockContext hashes)) es rows) : RowsOf hashes hd rows := by
  intro row hrow
  induction h with
  | nil => exact absurd hrow List.not_mem_nil
  | cons hh _ ih =>
    rcases List.mem_cons.mp hrow with rfl | hrow
    · obtain ⟨-, hh⟩ := rejectIf_bind.mp hh
      obtain ⟨-, hh⟩ := rejectIf_bind.mp hh
      cases hh
      exact ⟨rfl, rfl, rfl⟩
    · exact ih hrow

theorem pushLogs_rowsOf {hd : Header} {es : List (B256 × Nat × Log)} {rows pus : List LogRow}
    (h : pushLogs (hd.blockContext hashes) rows.length es rows = .ok () pus) : RowsOf hashes hd (pus.drop rows.length) := by
  have hc := pushLogs_cases (hd.blockContext hashes) es (Nat.le_refl rows.length)
  rw [h] at hc
  obtain ⟨events, rfl, heve⟩ := hc
  rw [List.drop_left]
  exact rowsOf_of_converts heve

/-- The checks of the complete payload against the header. -/
def checkPayload (proofs : TrieProofs) (header : Header) (transactions : List Bytes) (receipts : List Receipt) :
    Except String Unit := do
  rejectIf (transactions.length ≠ receipts.length) "transaction/receipt count mismatch"
  rejectIf (proofs.calculateTransactionRoot transactions ≠ header.transactionsRoot) "transaction root mismatch"
  rejectIf (proofs.calculateReceiptRoot (receipts.map (·.encoded2718)) ≠ header.receiptsRoot) "receipt root mismatch"
  rejectIf ((receipts.getLast?.elim 0 (·.cumulativeGasUsed)) ≠ header.gasUsed) "receipt cumulative gas mismatch"
  rejectIf (receipts.foldl (fun bloom receipt => bloom ||| receipt.bloom) 0 ≠ header.logsBloom) "receipt bloom mismatch"
  let count ← okOr "block event count overflow" (receipts.foldlM (fun count receipt => checkedAdd count receipt.logs.length) 0)
  rejectIf (u32Max < count - 1 ∨ u32Max < transactions.length - 1) "block event or transaction index exceeds u32"

/-- The closure that pushes the rows and commits to them; when it fails, the rows it pushed are cut off again. -/
def pushAndCommit (hashes : Hashes) (proofs : TrieProofs) (header : Header) (transactions : List Bytes)
    (receipts : List Receipt) : EStateM String (List LogRow) (VerifiedBlockLogs hashes) := fun rows =>
  match hpush : pushLogs (header.blockContext hashes) rows.length (blockLogs proofs transactions receipts) rows with
  | .error error pushed => .error error (pushed.take rows.length)
  | .ok () pushed =>
    match hcommitment : eventCommitment hashes (pushed.drop rows.length) with
    | .error error => .error error (pushed.take rows.length)
    | .ok commitment =>
      .ok (ofEvents header (pushed.drop rows.length) commitment hcommitment (pushLogs_rowsOf hpush)) pushed

/-- `verify_and_append` on the caller's rows. -/
def verifyAndAppendRows (hashes : Hashes) (proofs : TrieProofs) (header : Header) (transactions : List Bytes)
    (receipts : List Receipt) : EStateM String (List LogRow) (VerifiedBlockLogs hashes) := do
  attempt (checkPayload proofs header transactions receipts)
  pushAndCommit hashes proofs header transactions receipts

/-! ## Batches -/

/-- `VerifiedLogCoverage::from_blocks`. -/
def marker (block : VerifiedBlockLogs hashes) : ExecutionBlockMarker where
  blockNumber := block.header.number
  blockHash := block.hash
  timestamp := block.header.timestamp

/-- A `BTreeMap` of the blocks by number: no number twice, in ascending order. -/
def byNumber (blocks : List (VerifiedBlockLogs hashes)) : Except String (List (VerifiedBlockLogs hashes)) := do
  rejectIf (¬(blocks.map (·.header.number)).Nodup) "duplicate block in verified batch"
  return blocks.insertionSort fun a b => a.header.number ≤ b.header.number

/-- A block that follows another. -/
def follows (parent block : VerifiedBlockLogs hashes) : Bool :=
  checkedAdd parent.header.number 1 = some block.header.number && parent.hash = block.header.parentHash

/-- One group of consecutive rows of a block is exactly the events of that block. -/
def verifyGroup (sorted : List (VerifiedBlockLogs hashes)) (observed : List Nat) (number : Nat) (group : List LogRow) :
    Except String (List Nat) := do
  let block ← okOr "row has no verified block" (sorted.find? fun block => block.header.number = number)
  let commitment ← eventCommitment hashes group
  rejectIf (number ∈ observed ∨ block.rows ≠ group.length ∨ commitment ≠ block.commitment)
    "stored event sequence differs from verified receipts"
  return number :: observed

/-- The maximal runs of rows of one block number, in order. -/
def rowGroups (rows : List LogRow) : List (List LogRow) :=
  rows.splitBy fun a b => a.blockNumber == b.blockNumber

/-- The loop over the groups, returning the block numbers seen. -/
def verifyGroups (sorted : List (VerifiedBlockLogs hashes)) : List Nat → List (List LogRow) → Except String (List Nat)
  | observed, [] => .ok observed
  | observed, group :: rest => do
    let observed ← verifyGroup sorted observed ((group.head?.map (·.blockNumber)).getD 0) group
    verifyGroups sorted observed rest

/-- Check every block and every row without deduplicating or ignoring extras. Blocks can arrive in either direction; each block's
events retain their canonical receipt order. -/
def verifyBatch (blocks : List (VerifiedBlockLogs hashes)) (rows : List LogRow) :
    Except String (VerifiedBlockLogs hashes × VerifiedBlockLogs hashes) := do
  let sorted ← byNumber blocks
  let first ← okOr "empty verified block batch" sorted.head?
  let last ← okOr "empty verified block batch" sorted.getLast?
  rejectIf ((sorted.zip sorted.tail).any fun pair => !follows pair.1 pair.2)
    "verified block batch has a gap or divergent parent"
  let observed ← verifyGroups sorted [] (rowGroups rows)
  rejectIf (sorted.any fun block => block.rows ≠ 0 && block.header.number ∉ observed)
    "verified block events are missing from batch"
  return (first, last)

end VerifiedBlockLogs

end Logex
