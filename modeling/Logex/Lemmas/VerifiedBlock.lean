import Logex.VerifiedBlock

/-!
# What a verified batch is

`verify_batch` sorts the blocks it is given and accepts them only as a chain, each block the parent of the next. The rows are cut
at every change of the block number; since the rows of a block carry its number and numbers do not repeat, the pieces are the event
lists of the blocks exactly when the rows are a concatenation of them.
-/

namespace Logex

open Lib List

/-- No neighbouring pair fails a test exactly when the list is a chain of it. -/
theorem any_zip_tail_eq_false {α : Type} {bad : α → α → Bool} {list : List α} :
    (list.zip list.tail).any (fun pair => bad pair.1 pair.2) = false ↔ list.IsChain fun a b => bad a b = false := by
  induction list with
  | nil => simp
  | cons a list ih =>
    cases list with
    | nil => simp
    | cons b list =>
      simp only [tail_cons, zip_cons_cons, any_cons, Bool.or_eq_false_iff, isChain_cons_cons]
      exact and_congr_right fun _ => ih

namespace VerifiedBlockLogs

variable {hashes : Hashes} {bks : List (VerifiedBlockLogs hashes)} {rows : List LogRow} {fst last : VerifiedBlockLogs hashes}

/-- A block is the parent of another. -/
def Parent (parent block : VerifiedBlockLogs hashes) : Prop :=
  parent.header.number + 1 = block.header.number ∧ parent.hash = block.header.parentHash

variable {par b : VerifiedBlockLogs hashes} {list : List (VerifiedBlockLogs hashes)}
  {sor : List (VerifiedBlockLogs hashes)} {evs : VerifiedBlockLogs hashes → List LogRow}

theorem parent_of_follows (h : (!follows par b) = false) : Parent par b := by
  simp only [follows, Bool.not_eq_false', Bool.and_eq_true, decide_eq_true_eq] at h
  exact ⟨(checkedAdd_eq_some.mp h.1).1.symm, h.2⟩

/-- The blocks of an accepted batch in order. -/
theorem verifyBatch_chain (h : verifyBatch bks rows = .ok (fst, last)) :
    ∃ sor : List (VerifiedBlockLogs hashes), sor.Perm bks ∧ sor.head? = some fst ∧ sor.getLast? = some last ∧
      sor.IsChain Parent := by
  obtain ⟨sor, hsrt, h⟩ := bind_eq_ok.mp h
  obtain ⟨-, hsrt⟩ := rejectIf_bind.mp hsrt
  cases hsrt
  obtain ⟨head, hh, h⟩ := bind_eq_ok.mp h
  obtain ⟨tail, ht, h⟩ := bind_eq_ok.mp h
  obtain ⟨hc, h⟩ := rejectIf_bind.mp h
  obtain ⟨observed, -, h⟩ := bind_eq_ok.mp h
  obtain ⟨-, h⟩ := rejectIf_bind.mp h
  cases h
  rw [okOr_eq_ok] at hh ht
  refine ⟨_, perm_insertionSort _ _, hh, ht, ?_⟩
  rw [Bool.not_eq_true] at hc
  exact (any_zip_tail_eq_false.mp hc).imp fun _ _ h => parent_of_follows h

/-- Along a chain numbers grow. -/
theorem chain_number_le {fst last : VerifiedBlockLogs hashes} (hc : list.IsChain Parent)
    (hh : list.head? = some fst) (hl : list.getLast? = some last) : fst.header.number ≤ last.header.number := by
  induction list generalizing fst with
  | nil => cases hh
  | cons block list ih =>
    cases hh
    cases list with
    | nil =>
      cases hl
      exact le_rfl
    | cons next list =>
      rw [isChain_cons_cons] at hc
      have := ih hc.2 rfl (by rwa [getLast?_cons_cons] at hl)
      have := hc.1.1
      omega

theorem verifyBatch_le (h : verifyBatch bks rows = .ok (fst, last)) : fst.header.number ≤ last.header.number := by
  obtain ⟨sorted, -, hh, hl, hc⟩ := verifyBatch_chain h
  exact chain_number_le hc hh hl

/-! ## Blocks in order -/

/-- The events a block certifies. -/
structure Certifies (block : VerifiedBlockLogs hashes) (events : List LogRow) : Prop where
  commitment : eventCommitment hashes events = .ok block.commitment
  length : events.length = block.rows
  rows : RowsOf hashes block.header events

theorem chain_pairwise_lt (h : list.IsChain Parent) : list.Pairwise fun a b => a.header.number < b.header.number := by
  refine isChain_iff_pairwise.mp (h.imp fun a b hpar => ?_)
  have := hpar.1
  omega

theorem eq_of_number_eq (h : (list.map (·.header.number)).Nodup)
    {a b : VerifiedBlockLogs hashes} (ha : a ∈ list) (hb : b ∈ list) (hnum : a.header.number = b.header.number) : a = b :=
  inj_on_of_nodup_map h ha hb hnum

/-- Sorting the blocks of a chain gives the chain. -/
theorem byNumber_eq_ok (hc : sor.IsChain Parent) (hp : sor.Perm bks) : byNumber bks = .ok sor := by
  have hlt := chain_pairwise_lt hc
  have hn : (sor.map (·.header.number)).Nodup := by
    refine List.Pairwise.map _ ?_ hlt
    intro a b h
    exact ne_of_lt h
  have hbls : (bks.map (·.header.number)).Nodup := (hp.map _).nodup_iff.mp hn
  have hs : (bks.insertionSort fun a b => a.header.number ≤ b.header.number).Perm sor :=
    (perm_insertionSort _ bks).trans hp.symm
  have heq : (bks.insertionSort fun a b => a.header.number ≤ b.header.number) = sor := by
    refine List.Perm.eq_of_pairwise ?_ (pairwise_insertionSort (fun a b => a.header.number ≤ b.header.number) bks)
      (hlt.imp le_of_lt) hs
    intro a b ha hb hab hba
    exact eq_of_number_eq hn (hs.mem_iff.mp ha) hb (Nat.le_antisymm hab hba)
  refine rejectIf_bind.mpr ⟨not_not.mpr hbls, ?_⟩
  rw [heq]
  rfl

theorem follows_of_parent (h : Parent par b) (ht : b.header.number ≤ u64Max) : (!follows par b) = false := by
  have hle : par.header.number + 1 ≤ u64Max := by
    have := h.1
    omega
  simp only [follows, Bool.not_eq_false', Bool.and_eq_true, decide_eq_true_eq]
  exact ⟨checkedAdd_eq_some.mpr ⟨h.1.symm, hle⟩, h.2⟩

/-! ## Groups of rows -/

theorem head_blockNumber {b : VerifiedBlockLogs hashes} {evs : List LogRow} (h : RowsOf hashes b.header evs)
    (hne : evs ≠ []) : (evs.head?.map (·.blockNumber)).getD 0 = b.header.number := by
  cases evs with
  | nil => exact absurd rfl hne
  | cons row rest => exact (h row mem_cons_self).1

/-- Event lists of distinct blocks are cut apart again. -/
theorem rowGroups_flatMap {ord : List (VerifiedBlockLogs hashes)}
    (hne : ∀ blo ∈ ord, evs blo ≠ []) (hr : ∀ blo ∈ ord, RowsOf hashes blo.header (evs blo))
    (hn : (ord.map (·.header.number)).Nodup) : rowGroups (ord.flatMap evs) = ord.map evs := by
  refine splitBy_flatten ?_ ?_ ?_
  · intro hnil
    obtain ⟨blo, hbl, hem⟩ := mem_map.mp hnil
    exact hne blo hbl hem
  · intro group hg
    obtain ⟨blo, hbl, rfl⟩ := mem_map.mp hg
    refine List.Pairwise.isChain (pairwise_of_forall_mem_list fun a ha b hb => ?_)
    rw [beq_iff_eq, (hr blo hbl a ha).1, (hr blo hbl b hb).1]
  · rw [isChain_map]
    have hdis : ord.Pairwise fun a b => a.header.number ≠ b.header.number := pairwise_map.mp hn
    refine List.Pairwise.isChain (hdis.imp_of_mem fun {a b} ha hb hab => ?_)
    refine ⟨hne a ha, hne b hb, ?_⟩
    rw [beq_eq_false_iff_ne, (hr a ha _ (getLast_mem _)).1, (hr b hb _ (head_mem _)).1]
    exact hab

/-- A group passes exactly when it belongs to a block not seen yet and commits to its events. -/
theorem verifyGroup_eq_ok {obs obs' : List Nat} {num : Nat} {gro : List LogRow} : verifyGroup sor obs num gro = .ok obs' ↔
      obs' = num :: obs ∧ num ∉ obs ∧
        ∃ block, (sor.find? fun block => block.header.number = num) = some block ∧ block.rows = gro.length ∧
          eventCommitment hashes gro = .ok block.commitment := by
  constructor
  · intro h
    obtain ⟨block, hb, h⟩ := bind_eq_ok.mp h
    obtain ⟨com, hcom, h⟩ := bind_eq_ok.mp h
    obtain ⟨hche, h⟩ := rejectIf_bind.mp h
    simp only [not_or, not_not] at hche
    obtain ⟨hnew, hr, hs⟩ := hche
    exact ⟨(Except.ok.inj h).symm, hnew, block, okOr_eq_ok.mp hb, hr, hs ▸ hcom⟩
  · rintro ⟨rfl, hnew, block, hb, hr, hcom⟩
    refine bind_eq_ok.mpr ⟨block, okOr_eq_ok.mpr hb, bind_eq_ok.mpr ⟨_, hcom, rejectIf_bind.mpr ⟨?_, rfl⟩⟩⟩
    simp only [not_or, not_not]
    exact ⟨hnew, hr, trivial⟩

/-- Groups that pass are the events of distinct blocks, in some order. -/
theorem verifyGroups_order
    {gro : List (List LogRow)} {obs obs' : List Nat} (hbin : ∀ block ∈ sor, ∀ grp ∈ gro, grp.length = block.rows →
      eventCommitment hashes grp = .ok block.commitment → grp = evs block)
    (hne : [] ∉ gro) (h : verifyGroups sor obs gro = .ok obs') :
    ∃ ord : List (VerifiedBlockLogs hashes), gro = ord.map evs ∧ ord ⊆ sor ∧ (∀ block ∈ ord, block.rows ≠ 0) ∧
      obs' = (ord.map (·.header.number)).reverse ++ obs ∧ (ord.map (·.header.number)).Nodup ∧
      ∀ block ∈ ord, block.header.number ∉ obs := by
  induction gro generalizing obs with
  | nil =>
    cases h
    exact ⟨[], rfl, nil_subset _, fun _ hb => absurd hb not_mem_nil, rfl, .nil, fun _ hb => absurd hb not_mem_nil⟩
  | cons grp gro ih =>
    obtain ⟨mid, hgr, hre⟩ := bind_eq_ok.mp h
    obtain ⟨rfl, hnew, block, hf, hr, hcom⟩ := verifyGroup_eq_ok.mp hgr
    obtain ⟨hgro, hne⟩ := forall_mem_cons.mp (fun g hg (hnil : g = []) => hne (hnil ▸ hg) : ∀ g ∈ grp :: gro, g ≠ [])
    have hmem := mem_of_find?_eq_some hf
    have hnum : block.header.number = (grp.head?.map (·.blockNumber)).getD 0 := by
      simpa using find?_some hf
    obtain ⟨ord, rfl, hsub, hnon, rfl, hn, hfr⟩ :=
      ih (fun b hb g hg => hbin b hb g (mem_cons_of_mem _ hg)) (fun hnil => hne [] hnil rfl) hre
    have heve := hbin block hmem grp mem_cons_self hr.symm hcom
    refine ⟨block :: ord, by rw [map_cons, heve], cons_subset.mpr ⟨hmem, hsub⟩, ?_, ?_, ?_, ?_⟩
    · refine forall_mem_cons.mpr ⟨?_, hnon⟩
      rw [hr]
      exact length_pos_iff.mpr hgro |>.ne'
    · rw [map_cons, reverse_cons, List.append_assoc, singleton_append, hnum]
    · refine nodup_cons.mpr ⟨?_, hn⟩
      intro hin
      obtain ⟨b, hb, hbnu⟩ := mem_map.mp hin
      refine hfr b hb (mem_cons.mpr (.inl ?_))
      exact hbnu.trans hnum
    · refine forall_mem_cons.mpr ⟨hnum ▸ hnew, fun b hb hin => ?_⟩
      exact hfr b hb (mem_cons_of_mem _ hin)

/-- The events of distinct blocks pass. -/
theorem verifyGroups_of_order {sor ord : List (VerifiedBlockLogs hashes)}
    {obs : List Nat} (hsrt : (sor.map (·.header.number)).Nodup) (hsub : ord ⊆ sor)
    (hcer : ∀ block ∈ ord, block.Certifies (evs block)) (hne : ∀ block ∈ ord, evs block ≠ [])
    (hn : (ord.map (·.header.number)).Nodup) (hf : ∀ block ∈ ord, block.header.number ∉ obs) :
    verifyGroups sor obs (ord.map evs) = .ok ((ord.map (·.header.number)).reverse ++ obs) := by
  induction ord generalizing obs with
  | nil => rfl
  | cons block ord ih =>
    rw [forall_mem_cons] at hcer hne hf
    rw [map_cons, nodup_cons] at hn
    obtain ⟨hmem, hsub⟩ := cons_subset.mp hsub
    have hfi : (sor.find? fun b => b.header.number = block.header.number) = some block := by
      cases hfo : sor.find? fun b => b.header.number = block.header.number with
      | none => exact absurd (find?_eq_none.mp hfo block hmem) (by simp)
      | some b =>
        have hnum : b.header.number = block.header.number := by simpa using find?_some hfo
        rw [eq_of_number_eq hsrt (mem_of_find?_eq_some hfo) hmem hnum]
    have hnum := head_blockNumber hcer.1.rows hne.1
    rw [map_cons, verifyGroups, hnum]
    refine bind_eq_ok.mpr ⟨_, verifyGroup_eq_ok.mpr ⟨rfl, hf.1, block, hfi, hcer.1.length.symm, hcer.1.commitment⟩, ?_⟩
    rw [ih hsub hcer.2 hne.2 hn.2]
    · rw [map_cons, reverse_cons, List.append_assoc, singleton_append]
    · intro b hb hin
      rcases mem_cons.mp hin with hs | hin
      · exact hn.1 (hs ▸ mem_map_of_mem hb)
      · exact hf.2 b hb hin

end VerifiedBlockLogs

end Logex
