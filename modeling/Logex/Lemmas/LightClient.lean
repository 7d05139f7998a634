import Logex.LightClient

/-!
# Lemmas on the light client

What a verified update says about the store it was verified against, what each operation leaves unchanged, and what applying
an update does to the finalized period and the two committees.
-/

namespace Logex

open Lib

variable {store : VerifiedLightClientStore}

/-! ## Periods -/

theorem syncCommitteePeriodAtSlot_mono {a b : Nat} (h : a ≤ b) : syncCommitteePeriodAtSlot a ≤ syncCommitteePeriodAtSlot b := by
  unfold syncCommitteePeriodAtSlot ConsensusChainSpec.epochForSlot
  exact Nat.div_le_div_right (Nat.div_le_div_right h)

/-! ## Verification -/

/-- The signing committee of a verified update is the current one, in the period of the finalized header, or the next one, in
the period after it. -/
theorem committeeFor_eq_ok {slot : Nat} {com : SyncCommitteeData} (h : store.committeeFor slot = .ok com) :
    (syncCommitteePeriodAtSlot slot = store.period ∧ com = store.currentSyncCommittee) ∨
      (syncCommitteePeriodAtSlot slot = store.period + 1 ∧ store.nextSyncCommittee = some com) := by
  unfold VerifiedLightClientStore.committeeFor at h
  simp only at h
  split at h
  · rename_i hp
    exact Or.inl ⟨hp, (Except.ok.inj h).symm⟩
  · split at h
    · rename_i hp
      exact Or.inr ⟨hp, okOr_eq_ok.mp h⟩
    · nomatch h

/-- What verification establishes, apart from the proofs and the signature themselves. -/
structure VerifiedFacts (store : VerifiedLightClientStore) (update verified : VerifiedLightClientUpdate) : Prop where
  attestedHeader : verified.attestedHeader = update.attestedHeader
  finalizedHeader : verified.finalizedHeader = update.finalizedHeader
  nextSyncCommittee : verified.nextSyncCommittee = update.nextSyncCommittee
  signatureSlot : verified.signatureSlot = update.signatureSlot
  finalized_le : update.finalizedSlot ≤ update.attestedHeader.beacon.slot
  attested_lt : update.attestedHeader.beacon.slot < update.signatureSlot
  signed : ∃ committee, store.committeeFor update.signatureSlot = .ok committee
  relevant : store.finalizedHeader.beacon.slot < update.attestedHeader.beacon.slot ∨
    (store.nextSyncCommittee = none ∧ syncCommitteePeriodAtSlot update.attestedHeader.beacon.slot = store.period)
  consistent : contradictsKnownCommittee store update = false

theorem verify_facts {Γ : Crypto} {u ver : VerifiedLightClientUpdate}
    {fb nb : Option (List B256)} {agg : SyncAggregateRaw} {cs : Nat}
    (h : verifyValidLightClientUpdateAtSlot Γ store u fb nb agg cs = .ok ver) : VerifiedFacts store u ver := by
  unfold verifyValidLightClientUpdateAtSlot at h
  obtain ⟨-, h⟩ := rejectIf_bind.mp h
  obtain ⟨-, h⟩ := rejectIf_bind.mp h
  obtain ⟨hord, h⟩ := rejectIf_bind.mp h
  obtain ⟨com, hcom, h⟩ := bind_eq_ok.mp h
  obtain ⟨hrel, h⟩ := rejectIf_bind.mp h
  obtain ⟨checkpoint, -, h⟩ := bind_eq_ok.mp h
  obtain ⟨hcon, h⟩ := rejectIf_bind.mp h
  obtain ⟨-, -, h⟩ := bind_eq_ok.mp h
  obtain ⟨keys, -, h⟩ := bind_eq_ok.mp h
  obtain ⟨sig, -, h⟩ := bind_eq_ok.mp h
  obtain ⟨-, h⟩ := rejectIf_bind.mp h
  have hv := Except.ok.inj h
  subst hv
  refine ⟨rfl, rfl, rfl, rfl, by omega, by omega, ⟨com, hcom⟩, ?_, by simpa using hcon⟩
  rcases lt_or_ge store.finalizedHeader.beacon.slot u.attestedHeader.beacon.slot with hlt | hge
  · exact Or.inl hlt
  · right
    have hn : (store.nextSyncCommittee.isNone && u.nextSyncCommittee.isSome &&
        decide (syncCommitteePeriodAtSlot u.attestedHeader.beacon.slot = store.period)) = true := by
      by_contra hf
      exact hrel ⟨hge, Bool.eq_false_iff.mpr hf⟩
    simp only [Bool.and_eq_true, decide_eq_true_eq, Option.isNone_iff_eq_none] at hn
    exact ⟨hn.1.1, hn.2⟩

/-- The finalized slot of a verified update is the one it was sent with. -/
theorem VerifiedFacts.finalizedSlot {u ver : VerifiedLightClientUpdate}
    (h : VerifiedFacts store u ver) : ver.finalizedSlot = u.finalizedSlot := by
  simp only [VerifiedLightClientUpdate.finalizedSlot, h.finalizedHeader]

/-! ## Frames -/

/-- The parts of the store that decide which committee signs: recording an update leaves them alone. -/
structure SameChain (store store' : VerifiedLightClientStore) : Prop where
  finalizedHeader : store'.finalizedHeader = store.finalizedHeader
  current : store'.currentSyncCommittee = store.currentSyncCommittee
  next : store'.nextSyncCommittee = store.nextSyncCommittee

theorem SameChain.period {store st' : VerifiedLightClientStore} (h : SameChain store st') : st'.period = store.period := by
  simp only [VerifiedLightClientStore.period, h.finalizedHeader]

theorem SameChain.trans {a b c : VerifiedLightClientStore} (h : SameChain a b) (h' : SameChain b c) : SameChain a c :=
  ⟨h'.finalizedHeader.trans h.finalizedHeader, h'.current.trans h.current, h'.next.trans h.next⟩

section

variable (store) (u : VerifiedLightClientUpdate)

theorem keepBetterUpdate_sameChain : SameChain store (keepBetterUpdate store u) := by
  unfold keepBetterUpdate
  split
  · exact ⟨rfl, rfl, rfl⟩
  · split <;> exact ⟨rfl, rfl, rfl⟩

theorem keepBetterUpdate_best : (keepBetterUpdate store u).bestValidUpdate = store.bestValidUpdate ∨
      (keepBetterUpdate store u).bestValidUpdate = some u := by
  unfold keepBetterUpdate
  split
  · exact Or.inr rfl
  · split
    · exact Or.inr rfl
    · exact Or.inl rfl

/-- The optimistic header and the best update are independent, and neither decides which committee signs. -/
theorem advanceOptimistic_frame : SameChain store (advanceOptimistic store u) ∧
      (advanceOptimistic store u).bestValidUpdate = store.bestValidUpdate := by
  unfold advanceOptimistic
  split <;> exact ⟨⟨rfl, rfl, rfl⟩, rfl⟩

theorem advanceCheckpoint_frame : SameChain store (advanceCheckpoint store u) ∧
      (advanceCheckpoint store u).bestValidUpdate = store.bestValidUpdate := by
  unfold advanceCheckpoint
  split
  · exact ⟨⟨rfl, rfl, rfl⟩, rfl⟩
  · split <;> exact ⟨⟨rfl, rfl, rfl⟩, rfl⟩

/-- Recording an update touches neither committee nor the finalized header. -/
theorem recordUpdate_sameChain : SameChain store (recordUpdate store u) := by
  have hc : SameChain (keepBetterUpdate store u) (countParticipants (keepBetterUpdate store u) u) :=
    ⟨rfl, rfl, rfl⟩
  exact (((keepBetterUpdate_sameChain store u).trans hc).trans (advanceOptimistic_frame _ u).1).trans
    (advanceCheckpoint_frame _ u).1

/-- After an update is recorded the best update is the one before it or the update itself. -/
theorem recordUpdate_best : (recordUpdate store u).bestValidUpdate = store.bestValidUpdate ∨
      (recordUpdate store u).bestValidUpdate = some u := by
  unfold recordUpdate
  rw [(advanceCheckpoint_frame _ _).2, (advanceOptimistic_frame _ _).2]
  exact keepBetterUpdate_best store u

/-! ## Applying an update -/

/-- The finalized slot of a store after an update with the given finalized header. -/
theorem advanceHeaders_finalizedSlot :
    (advanceHeaders store u).finalizedHeader.beacon.slot = max store.finalizedHeader.beacon.slot u.finalizedSlot := by
  unfold advanceHeaders VerifiedLightClientUpdate.finalizedSlot
  cases u.finalizedHeader with
  | none => simp
  | some header =>
    simp only
    split
    · rename_i hlt
      exact (max_eq_right (le_of_lt hlt)).symm
    · rename_i hge
      exact (max_eq_left (Nat.le_of_not_lt hge)).symm

/-- Advancing the headers leaves the committees alone. -/
theorem advanceHeaders_committees : (advanceHeaders store u).currentSyncCommittee = store.currentSyncCommittee ∧
      (advanceHeaders store u).nextSyncCommittee = store.nextSyncCommittee := by
  unfold advanceHeaders
  split
  · exact ⟨rfl, rfl⟩
  · split <;> exact ⟨rfl, rfl⟩

/-- Rotating the committees leaves the finalized header alone. -/
theorem rotateCommittees_finalizedHeader : (rotateCommittees store u).finalizedHeader = store.finalizedHeader := by
  unfold rotateCommittees
  split
  · rfl
  · split <;> rfl

/-- The finalized slot after an update is applied. -/
theorem apply_finalizedSlot : (applyValidatedLightClientUpdate store u).finalizedHeader.beacon.slot =
      max store.finalizedHeader.beacon.slot u.finalizedSlot := by
  rw [applyValidatedLightClientUpdate, advanceHeaders_finalizedSlot, rotateCommittees_finalizedHeader]

/-- The committees after an update is applied: only the rotation changes them. -/
theorem apply_committees :
    (applyValidatedLightClientUpdate store u).currentSyncCommittee = (rotateCommittees store u).currentSyncCommittee ∧
      (applyValidatedLightClientUpdate store u).nextSyncCommittee = (rotateCommittees store u).nextSyncCommittee :=
  advanceHeaders_committees _ _

end

end Logex
