import Logex.Lemmas.VerifiedBlock

/-!
# Verified batches

`verify_batch` accepts exactly the chains whose rows are the event lists of their blocks, and `verify_and_append` adds exactly the
events of a block or nothing.
-/

namespace Logex

open Lib List

namespace VerifiedBlockLogs

variable {hashes : Hashes} {proofs : TrieProofs} {header : Header} {transactions : List Bytes} {receipts : List Receipt}

/-! ## Batches -/

/-- The blocks, in some order, form a chain. -/
def FormsChain (blocks : List (VerifiedBlockLogs hashes)) : Prop :=
  ∃ chain : List (VerifiedBlockLogs hashes), chain.Perm blocks ∧ chain ≠ [] ∧ chain.IsChain Parent

/-- The rows are the event lists of the blocks that have events, each once, in some order. -/
def Concatenates (blocks : List (VerifiedBlockLogs hashes)) (events : VerifiedBlockLogs hashes → List LogRow) (rows : List LogRow) :
    Prop :=
  ∃ order : List (VerifiedBlockLogs hashes), order.Perm (blocks.filter fun block => block.rows ≠ 0) ∧ rows = order.flatMap events

variable {blocks : List (VerifiedBlockLogs hashes)} {rows : List LogRow} {events : VerifiedBlockLogs hashes → List LogRow}

/-- The rows of an accepted batch. -/
theorem concatenates_of_verifyBatch {ends : VerifiedBlockLogs hashes × VerifiedBlockLogs hashes}
    (hbin : ∀ blo ∈ blocks, ∀ gro, gro <:+: rows → gro.length = blo.rows →
      eventCommitment hashes gro = .ok blo.commitment → gro = events blo)
    (h : verifyBatch blocks rows = .ok ends) : Concatenates blocks events rows := by
  obtain ⟨sorted, hsrt, h⟩ := bind_eq_ok.mp h
  obtain ⟨hn, hsrt⟩ := rejectIf_bind.mp hsrt
  rw [not_not] at hn
  cases hsrt
  obtain ⟨head, -, h⟩ := bind_eq_ok.mp h
  obtain ⟨tail, -, h⟩ := bind_eq_ok.mp h
  obtain ⟨-, h⟩ := rejectIf_bind.mp h
  obtain ⟨observed, hgro, h⟩ := bind_eq_ok.mp h
  obtain ⟨hall, -⟩ := rejectIf_bind.mp h
  have hfla := flatten_splitBy (fun a b : LogRow => a.blockNumber == b.blockNumber) rows
  have hpi : ∀ gro ∈ rowGroups rows, gro <:+: rows := by
    intro gro hg
    have hmem := infix_of_mem_flatten hg
    rwa [rowGroups, hfla] at hmem
  have hp := perm_insertionSort (fun a b : VerifiedBlockLogs hashes => a.header.number ≤ b.header.number) blocks
  obtain ⟨ord, hor, hsub, hnon, rfl, horN, -⟩ := verifyGroups_order
    (fun blo hb gro hg => hbin blo (hp.mem_iff.mp hb) gro (hpi gro hg))
    (nil_notMem_splitBy _ rows) hgro
  refine ⟨ord, ?_, ?_⟩
  · -- Both lists are free of repetitions and hold the same blocks.
    refine (perm_ext_iff_of_nodup (List.Nodup.of_map _ horN) ((List.Nodup.of_map _ hn).filter _)).mpr ?_
    intro blo
    rw [mem_filter, decide_eq_true_eq]
    constructor
    · intro hb
      exact ⟨hp.mem_iff.mp (hsub hb), hnon blo hb⟩
    · rintro ⟨hb, hr⟩
      have hs : blo.header.number ∈ ord.map (·.header.number) := by
        have hmem := hp.mem_iff.mpr hb
        by_contra hmis
        refine hall (any_eq_true.mpr ⟨blo, hmem, ?_⟩)
        simp only [Bool.and_eq_true, decide_eq_true_eq, append_nil, mem_reverse]
        exact ⟨hr, hmis⟩
      obtain ⟨other, hother, hnum⟩ := mem_map.mp hs
      rwa [← eq_of_number_eq hn (hp.mem_iff.mp (hsub hother)) hb hnum]
  · rw [flatMap_def, ← hor, rowGroups, hfla]

/-- A batch of chained blocks with the rows of their events is accepted. -/
theorem verifyBatch_of_concatenates (ht : ∀ blo ∈ blocks, blo.header.number ≤ u64Max)
    (hcer : ∀ blo ∈ blocks, blo.Certifies (events blo)) (hlin : FormsChain blocks)
    (hr : Concatenates blocks events rows) : ∃ ends, verifyBatch blocks rows = .ok ends := by
  obtain ⟨ch, hp, hne, hc⟩ := hlin
  obtain ⟨ord, hor, rfl⟩ := hr
  have hchN : (ch.map (·.header.number)).Nodup := by
    refine List.Pairwise.map _ ?_ (chain_pairwise_lt hc)
    intro a b h
    exact ne_of_lt h
  have hmem : ∀ blo ∈ ord, blo ∈ blocks ∧ blo.rows ≠ 0 := by
    intro blo hbl
    have hflt := hor.mem_iff.mp hbl
    rwa [mem_filter, decide_eq_true_eq] at hflt
  have heve : ∀ blo ∈ ord, events blo ≠ [] := by
    intro blo hbl hnil
    have hleh := (hcer blo (hmem blo hbl).1).length
    rw [hnil] at hleh
    exact (hmem blo hbl).2 hleh.symm
  have hceO : ∀ blo ∈ ord, blo.Certifies (events blo) := fun blo hbl =>
    hcer blo (hmem blo hbl).1
  have horN : (ord.map (·.header.number)).Nodup := by
    have hbls : (blocks.map (·.header.number)).Nodup := (hp.map _).nodup_iff.mp hchN
    refine (hor.map _).nodup_iff.mpr (hbls.sublist ?_)
    exact filter_sublist.map _
  obtain ⟨fst, hf⟩ : ∃ fst, ch.head? = some fst := Option.isSome_iff_exists.mp (isSome_head?.mpr hne)
  obtain ⟨last, hl⟩ : ∃ last, ch.getLast? = some last := ⟨_, getLast?_eq_some_getLast hne⟩
  have hgro := verifyGroups_of_order hchN (fun blo hbl => hp.mem_iff.mpr (hmem blo hbl).1) hceO
    heve horN fun _ _ (hin : _ ∈ ([] : List Nat)) => absurd hin not_mem_nil
  rw [← rowGroups_flatMap heve (fun blo hbl => (hceO blo hbl).rows) horN] at hgro
  refine ⟨(fst, last), bind_eq_ok.mpr ⟨ch, byNumber_eq_ok hc hp, bind_eq_ok.mpr ⟨fst, okOr_eq_ok.mpr hf,
    bind_eq_ok.mpr ⟨last, okOr_eq_ok.mpr hl, rejectIf_bind.mpr ⟨?_, bind_eq_ok.mpr ⟨_, hgro,
      rejectIf_bind.mpr ⟨?_, rfl⟩⟩⟩⟩⟩⟩⟩
  · rw [Bool.not_eq_true]
    refine (@any_zip_tail_eq_false _ (fun a b => !follows a b) ch).mpr (hc.imp_of_mem_imp fun a b _ hb hpar => ?_)
    exact follows_of_parent hpar (ht b (hp.mem_iff.mp hb))
  · intro hmis
    obtain ⟨blo, hbl, hch⟩ := any_eq_true.mp hmis
    simp only [Bool.and_eq_true, decide_eq_true_eq, append_nil, mem_reverse] at hch
    refine hch.2 (mem_map_of_mem (hor.mem_iff.mpr ?_))
    rw [mem_filter, decide_eq_true_eq]
    exact ⟨hp.mem_iff.mp hbl, hch.1⟩

/-! ## Appending one block -/

/-- The row of a log at its place in a block. -/
structure Records (context : BlockContext) (txHash : B256) (txIndex logIndex : Nat) (log : Log) (row : LogRow) : Prop where
  blockNumber : row.blockNumber = context.blockNumber
  blockHash : row.blockHash = context.blockHash
  timestamp : row.timestamp = context.timestamp
  txHash : row.txHash = txHash
  txIndex : row.txIndex = txIndex
  logIndex : row.logIndex = logIndex
  address : row.address = log.address
  topics : row.topics = log.topics.map some ++ List.replicate (4 - log.topics.length) none
  data : row.data = log.data
  dataLen : row.dataLen = log.data.length
  source : row.source = .receipt

theorem records_of_tryFrom {con : BlockContext} {th : B256} {ti li : Nat} {log : Log} {row : LogRow}
    (h : LogRow.tryFromPrimitivesLog log con th ti li = .ok row) : Records con th ti li log row := by
  obtain ⟨htop, h⟩ := rejectIf_bind.mp h
  obtain ⟨-, h⟩ := rejectIf_bind.mp h
  cases h
  refine ⟨rfl, rfl, rfl, rfl, rfl, rfl, rfl, ?_, rfl, rfl, rfl⟩
  obtain ⟨address, topics, data⟩ := log
  match topics with
  | [] | [_] | [_, _] | [_, _, _] | [_, _, _, _] => rfl
  | _ :: _ :: _ :: _ :: _ :: _ => exact absurd htop (by simp)

/-- The rows are the logs of a body in receipt order: transaction indexes follow the receipts, log indexes count from zero. -/
def RecordsBody (proofs : TrieProofs) (context : BlockContext) (transactions : List Bytes) (receipts : List Receipt)
    (rows : List LogRow) : Prop :=
  List.Forall₂ (fun entry row => Records context entry.1.1 entry.1.2.1 entry.2 entry.1.2.2 row)
    (blockLogs proofs transactions receipts).zipIdx rows

theorem sum_of_checked {receipts : List Receipt} {a n : Nat}
    (h : receipts.foldlM (fun n rec => checkedAdd n rec.logs.length) a = some n) :
    n = a + (receipts.map (·.logs.length)).sum := by
  induction receipts generalizing a with
  | nil => exact (Option.some.inj h).symm
  | cons rec receipts ih =>
    obtain ⟨mid, hmid, h⟩ := Option.bind_eq_some_iff.mp h
    obtain ⟨rfl, -⟩ := checkedAdd_eq_some.mp hmid
    rw [ih h, map_cons, sum_cons, Nat.add_assoc]

theorem length_blockLogs (h : transactions.length = receipts.length) :
    (blockLogs proofs transactions receipts).length = (receipts.map (·.logs.length)).sum := by
  have hsum : ∀ a, (((transactions.zip receipts).zipIdx a).flatMap fun e =>
      e.1.2.logs.map fun log => (proofs.keccak256 e.1.1, e.2, log)).length = (receipts.map (·.logs.length)).sum := by
    intro a
    induction transactions generalizing receipts a with
    | nil =>
      obtain rfl := eq_nil_of_length_eq_zero h.symm
      rfl
    | cons tra transactions ih =>
      cases receipts with
      | nil => exact absurd h (by simp)
      | cons receipt receipts =>
        rw [zip_cons_cons, zipIdx_cons, flatMap_cons, length_append, length_map, map_cons, sum_cons, ih (Nat.succ.inj h)]
  exact hsum 0

theorem txIndex_lt {e : B256 × Nat × Log} (h : e ∈ blockLogs proofs transactions receipts) : e.2.1 < transactions.length := by
  obtain ⟨pair, hp, hlog⟩ := mem_flatMap.mp h
  obtain ⟨log, -, rfl⟩ := mem_map.mp hlog
  have hlt := snd_lt_of_mem_zipIdx hp
  rw [length_zip, Nat.add_zero] at hlt
  exact Nat.lt_of_lt_of_le hlt (Nat.min_le_left _ _)

/-- What the checks of a payload establish. -/
theorem checkPayload_eq_ok (h : checkPayload proofs header transactions receipts = .ok ()) :
    proofs.calculateTransactionRoot transactions = header.transactionsRoot ∧
      proofs.calculateReceiptRoot (receipts.map (·.encoded2718)) = header.receiptsRoot ∧
      (blockLogs proofs transactions receipts).length ≤ 2 ^ 32 ∧ transactions.length ≤ 2 ^ 32 := by
  obtain ⟨hleh, h⟩ := rejectIf_bind.mp h
  obtain ⟨htra, h⟩ := rejectIf_bind.mp h
  obtain ⟨hrec, h⟩ := rejectIf_bind.mp h
  obtain ⟨-, h⟩ := rejectIf_bind.mp h
  obtain ⟨-, h⟩ := rejectIf_bind.mp h
  obtain ⟨count, hc, h⟩ := bind_eq_ok.mp h
  have hind := rejectIf_eq_ok.mp h
  rw [not_not] at hleh htra hrec
  have hsum := sum_of_checked (okOr_eq_ok.mp hc)
  rw [Nat.zero_add, ← @length_blockLogs proofs transactions receipts hleh] at hsum
  unfold u32Max at hind
  refine ⟨htra, hrec, ?_, ?_⟩ <;> omega

section

variable (hl : (blockLogs proofs transactions receipts).length ≤ 2 ^ 32)

include hl

/-- Indexes that fit are not cut. -/
theorem recordsBody_of_converts {con : BlockContext} {rows : List LogRow} (htra : transactions.length ≤ 2 ^ 32)
    (h : List.Forall₂ (Converts con) (blockLogs proofs transactions receipts).zipIdx rows) :
    RecordsBody proofs con transactions receipts rows := by
  obtain ⟨hleh, hall⟩ := List.forall₂_iff_zip.mp h
  refine List.forall₂_iff_zip.mpr ⟨hleh, ?_⟩
  intro entry row hmem
  obtain ⟨hen, -⟩ := of_mem_zip hmem
  have hp := snd_lt_of_mem_zipIdx hen
  have htx := txIndex_lt (fst_mem_of_mem_zipIdx hen)
  have hcon := hall hmem
  unfold Converts at hcon
  rw [Nat.mod_eq_of_lt (by omega), Nat.mod_eq_of_lt (by omega)] at hcon
  exact records_of_tryFrom hcon

/-- The rows are pushed and committed to, or cut off again. -/
theorem wp_pushAndCommit (htra : transactions.length ≤ 2 ^ 32) (rows : List LogRow) :
    wp (pushAndCommit hashes proofs header transactions receipts)
      (fun b aft => ∃ events, aft = rows ++ events ∧ b.header = header ∧ b.Certifies events ∧
        RecordsBody proofs (header.blockContext hashes) transactions receipts events) (fun aft => aft = rows) rows := by
  have hc := pushLogs_cases (header.blockContext hashes) (blockLogs proofs transactions receipts) (le_refl rows.length)
  unfold wp
  generalize hrun : pushAndCommit hashes proofs header transactions receipts rows = result
  unfold pushAndCommit at hrun
  split at hrun
  · next error pus hpu =>
    rw [hpu] at hc
    subst hrun
    exact (prefix_iff_eq_take.mp hc).symm
  · next pus hpu =>
    rw [hpu] at hc
    obtain ⟨events, rfl, heve⟩ := hc
    rw [Nat.sub_self] at heve
    split at hrun
    · subst hrun
      exact take_left
    · next com hcom =>
      subst hrun
      rw [drop_left] at hcom
      refine ⟨events, rfl, rfl, ⟨hcom, ?_, rowsOf_of_converts heve⟩, recordsBody_of_converts hl htra heve⟩
      change events.length = ((rows ++ events).drop rows.length).length
      rw [drop_left]

end

/-- Appending a block adds the logs of its payload, which match the roots of the header, or leaves the rows alone. -/
theorem wp_verifyAndAppendRows (hashes : Hashes) (proofs : TrieProofs) (header : Header) (transactions : List Bytes)
    (receipts : List Receipt) (rows : List LogRow) : wp (verifyAndAppendRows hashes proofs header transactions receipts)
      (fun b aft => ∃ events, aft = rows ++ events ∧ b.header = header ∧ b.Certifies events ∧
        proofs.calculateTransactionRoot transactions = header.transactionsRoot ∧
        proofs.calculateReceiptRoot (receipts.map (·.encoded2718)) = header.receiptsRoot ∧
        RecordsBody proofs (header.blockContext hashes) transactions receipts events) (fun aft => aft = rows) rows := by
  unfold verifyAndAppendRows
  rw [wp_bind, wp_attempt]
  refine ⟨?_, fun _ _ => rfl⟩
  rintro _ hc
  obtain ⟨htra, hrec, hl, hind⟩ := checkPayload_eq_ok hc
  refine wp_imp (wp_pushAndCommit hl hind rows) ?_
  rintro b aft ⟨events, ha, hhdr, hcer, hr⟩
  exact ⟨events, ha, hhdr, hcer, htra, hrec, hr⟩

end VerifiedBlockLogs

open VerifiedBlockLogs

/-- A batch is accepted exactly when its blocks form a chain and its rows are the event lists of the blocks that have events, each
once and in one piece, provided no piece of the rows collides with a block's commitment; and a block is appended with exactly the
logs of its body, numbered through the block, or not at all, provided the roots bind the body. -/
theorem verified_batches_are_exact (hashes : Hashes) (proofs : TrieProofs) :
    (∀ (blocks : List (VerifiedBlockLogs hashes)) (rows : List LogRow) (events : VerifiedBlockLogs hashes → List LogRow),
      (∀ block ∈ blocks, block.header.number ≤ u64Max) → (∀ block ∈ blocks, block.Certifies (events block)) →
      (∀ block ∈ blocks, ∀ group, group <:+: rows → group.length = block.rows →
        eventCommitment hashes group = .ok block.commitment → group = events block) →
      ((∃ ends, verifyBatch blocks rows = .ok ends) ↔ FormsChain blocks ∧ Concatenates blocks events rows)) ∧
      ∀ (header : Header) (transactions bodyTransactions : List Bytes) (receipts bodyReceipts : List Receipt) (rows : List LogRow),
        proofs.calculateTransactionRoot bodyTransactions = header.transactionsRoot →
        proofs.calculateReceiptRoot (bodyReceipts.map (·.encoded2718)) = header.receiptsRoot →
        (proofs.calculateTransactionRoot transactions = proofs.calculateTransactionRoot bodyTransactions →
          transactions = bodyTransactions) →
        (proofs.calculateReceiptRoot (receipts.map (·.encoded2718)) =
            proofs.calculateReceiptRoot (bodyReceipts.map (·.encoded2718)) → receipts = bodyReceipts) →
        wp (verifyAndAppendRows hashes proofs header transactions receipts)
          (fun block after => ∃ events, after = rows ++ events ∧ block.header = header ∧ block.Certifies events ∧
            RecordsBody proofs (header.blockContext hashes) bodyTransactions bodyReceipts events)
          (fun after => after = rows) rows := by
  constructor
  · intro blocks rows events ht hcer hbin
    constructor
    · rintro ⟨ends, h⟩
      obtain ⟨ch, hp, hh, -, hc⟩ := verifyBatch_chain h
      refine ⟨⟨ch, hp, ?_, hc⟩, concatenates_of_verifyBatch hbin h⟩
      rintro rfl
      exact absurd hh (by simp)
    · rintro ⟨hlin, hr⟩
      exact verifyBatch_of_concatenates ht hcer hlin hr
  · intro header transactions bodyTransactions receipts bodyReceipts rows htra hrec hbiT hbiR
    refine wp_imp (wp_verifyAndAppendRows hashes proofs header transactions receipts rows) ?_
    rintro block after ⟨events, ha, hhdr, hces, htra', hrec', hre⟩
    obtain rfl := hbiT (htra'.trans htra.symm)
    obtain rfl := hbiR (hrec'.trans hrec.symm)
    exact ⟨events, ha, hhdr, hces, hre⟩

end Logex
