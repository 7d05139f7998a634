import Logex.Lemmas.LightClient

/-!
# The order of light-client updates

`is_better_update` compares two updates criterion by criterion, some of them only where earlier ones are met. All of it is one
lexicographic comparison of a rank, so it is a strict weak order, and the best update a store keeps is maximal.
-/

namespace Logex

open Lib List

variable {a b c update : VerifiedLightClientUpdate} {store : VerifiedLightClientStore}

namespace VerifiedLightClientUpdate

/-- What is compared, in order. A smaller slot is better, so slots count negatively. -/
def rank (update : VerifiedLightClientUpdate) : List Int :=
  [update.hasSupermajority.toNat, if update.hasSupermajority then 0 else update.participants,
    update.hasRelevantSyncCommittee.toNat, update.finalizedHeader.isSome.toNat, update.hasSyncCommitteeFinality.toNat,
    update.participants, -update.attestedHeader.beacon.slot, -update.signatureSlot]

theorem hasSyncCommitteeFinality_of_none (h : update.finalizedHeader.isSome = false) :
    update.hasSyncCommitteeFinality = false := by
  cases hh : update.finalizedHeader with
  | none => simp [hasSyncCommitteeFinality, hh]
  | some header => simp [hh] at h

end VerifiedLightClientUpdate

namespace UpdateOrderAux

open VerifiedLightClientUpdate

variable {rest : Bool} {p : Prop}

theorem flag_step {x y : Bool} (h : x = y → (rest = true ↔ p)) :
    (if x ≠ y then x else rest) = true ↔ (y.toNat : Int) < x.toNat ∨ (y.toNat : Int) = x.toNat ∧ p := by
  cases x <;> cases y <;> simp [h]

theorem count_step {x y : Nat} (h : rest = true ↔ p) :
    (if x ≠ y then decide (y < x) else rest) = true ↔ (y : Int) < x ∨ (y : Int) = x ∧ p := by
  by_cases hxy : x = y
  · simp [hxy, h]
  · rw [if_pos hxy, decide_eq_true_eq]
    omega

theorem slot_step {x y : Nat} (h : rest = true ↔ p) :
    (if x ≠ y then decide (x < y) else rest) = true ↔ -(y : Int) < -x ∨ -(y : Int) = -x ∧ p := by
  by_cases hxy : x = y
  · simp [hxy, h]
  · rw [if_pos hxy, decide_eq_true_eq]
    omega

/-- The criteria from the relevance of the committee on. -/
theorem better_tail : (if a.hasRelevantSyncCommittee ≠ b.hasRelevantSyncCommittee then a.hasRelevantSyncCommittee
      else if a.finalizedHeader.isSome ≠ b.finalizedHeader.isSome then a.finalizedHeader.isSome
      else if a.finalizedHeader.isSome ∧ a.hasSyncCommitteeFinality ≠ b.hasSyncCommitteeFinality then a.hasSyncCommitteeFinality
      else if a.participants ≠ b.participants then decide (b.participants < a.participants)
      else if a.attestedHeader.beacon.slot ≠ b.attestedHeader.beacon.slot then
        decide (a.attestedHeader.beacon.slot < b.attestedHeader.beacon.slot)
      else decide (a.signatureSlot < b.signatureSlot)) = true ↔ b.rank.drop 2 < a.rank.drop 2 := by
  simp only [rank, drop_succ_cons, drop_zero, cons_lt_cons_iff]
  refine flag_step fun _ => flag_step fun hf => ?_
  have hl : (if a.participants ≠ b.participants then decide (b.participants < a.participants)
      else if a.attestedHeader.beacon.slot ≠ b.attestedHeader.beacon.slot then
        decide (a.attestedHeader.beacon.slot < b.attestedHeader.beacon.slot)
      else decide (a.signatureSlot < b.signatureSlot)) = true ↔ _ :=
    count_step (slot_step (by simp : _ ↔ -(b.signatureSlot : Int) < -a.signatureSlot ∨
      -(b.signatureSlot : Int) = -a.signatureSlot ∧ ([] : List Int) < []))
  cases hs : a.finalizedHeader.isSome with
  | true =>
    simp only [true_and]
    exact flag_step fun _ => hl
  | false =>
    rw [hasSyncCommitteeFinality_of_none hs, hasSyncCommitteeFinality_of_none (hf.symm.trans hs)]
    simpa using hl

/-- One update is better than another where its rank is greater. -/
theorem isBetterUpdate_iff : isBetterUpdate a b = true ↔ b.rank < a.rank := by
  have ht : ∀ x : VerifiedLightClientUpdate, x.rank = (x.hasSupermajority.toNat : Int) ::
      (if x.hasSupermajority then 0 else (x.participants : Int)) :: x.rank.drop 2 := fun x => rfl
  rw [ht a, ht b, cons_lt_cons_iff, cons_lt_cons_iff]
  refine flag_step fun hs => ?_
  cases hm : a.hasSupermajority with
  | true =>
    rw [← hs, hm]
    simpa using better_tail
  | false =>
    rw [← hs, hm]
    simpa using count_step (x := a.participants) (y := b.participants) better_tail

theorem not_isBetterUpdate_iff : isBetterUpdate a b = false ↔ a.rank ≤ b.rank := by
  rw [← Bool.not_eq_true, isBetterUpdate_iff, not_lt]

/-- Recording an update keeps it or an update that is at least as good. -/
theorem recordUpdate_keeps (store : VerifiedLightClientStore) (update : VerifiedLightClientUpdate) :
    ∃ best, (recordUpdate store update).bestValidUpdate = some best ∧ best ∈ store.bestValidUpdate.toList ++ [update] ∧
      ∀ seen ∈ store.bestValidUpdate.toList ++ [update], seen.rank ≤ best.rank := by
  rw [recordUpdate, (advanceCheckpoint_frame _ _).2, (advanceOptimistic_frame _ _).2]
  simp only [countParticipants, keepBetterUpdate]
  cases hbe : store.bestValidUpdate with
  | none => exact ⟨update, rfl, by simp, by simp⟩
  | some best =>
    cases hb : isBetterUpdate update best with
    | true => exact ⟨update, by simp [hb], by simp, by simp [(isBetterUpdate_iff.mp hb).le]⟩
    | false => exact ⟨best, by simp [hb, hbe], by simp, by simp [not_isBetterUpdate_iff.mp hb]⟩

end UpdateOrderAux

/-- Neither of two updates is better than the other. -/
def Incomparable (a b : VerifiedLightClientUpdate) : Prop := isBetterUpdate a b = false ∧ isBetterUpdate b a = false

/-- The store after some updates. -/
def processUpdates (store : VerifiedLightClientStore) (updates : List VerifiedLightClientUpdate) : VerifiedLightClientStore :=
  runFrom (fun store update => (processLightClientUpdate store update).store) store updates

/-- No update is applied as it is processed, so the best update is never dropped. -/
def NeverApplies (store : VerifiedLightClientStore) (updates : List VerifiedLightClientUpdate) : Prop :=
  ∀ pre update, pre ++ [update] <+: updates → appliesAtOnce (recordUpdate (processUpdates store pre) update) update = false

namespace UpdateOrderAux

/-- The best update kept is one of those seen, and none of them ranks higher. -/
theorem processUpdates_best {upd : List VerifiedLightClientUpdate} (h : NeverApplies store upd) :
    ∀ pre, pre <+: upd → store.bestValidUpdate.toList ++ pre ≠ [] →
      ∃ best ∈ store.bestValidUpdate.toList ++ pre, (processUpdates store pre).bestValidUpdate = some best ∧
        ∀ seen ∈ store.bestValidUpdate.toList ++ pre, seen.rank ≤ best.rank := by
  intro pre
  induction pre using List.reverseRecOn with
  | nil =>
    intro _ hne
    cases hb : store.bestValidUpdate with
    | none => simp [hb] at hne
    | some best => exact ⟨best, by simp, hb, by simp⟩
  | append_singleton pre update ih =>
    intro hpre _
    obtain ⟨best, hb, hmem, hmax⟩ := recordUpdate_keeps (processUpdates store pre) update
    have hr : (processUpdates store (pre ++ [update])).bestValidUpdate = some best := by
      have hno : ¬appliesAtOnce (recordUpdate (processUpdates store pre) update) update = true := by
        rw [h pre update hpre]
        exact Bool.false_ne_true
      rw [processUpdates, runFrom_concat, ← hb, processLightClientUpdate]
      exact congrArg _ (if_neg hno)
    by_cases hn : store.bestValidUpdate.toList ++ pre = []
    · obtain ⟨hnil, rfl⟩ := append_eq_nil_iff.mp hn
      have hst : (processUpdates store []).bestValidUpdate.toList = [] := hnil
      rw [hst] at hmem hmax
      exact ⟨best, by simpa [hnil] using hmem, hr, by simpa [hnil] using hmax⟩
    · obtain ⟨last, hl, hk, hov⟩ := ih ((prefix_append _ _).trans hpre) hn
      rw [hk] at hmem hmax
      refine ⟨best, ?_, hr, ?_⟩
      · rcases mem_append.mp hmem with hmem | hmem
        · obtain rfl : best = last := by simpa using hmem
          simp only [← List.append_assoc, mem_append] at hl ⊢
          exact .inl hl
        · simpa [← List.append_assoc] using .inr (by simpa using hmem)
      · intro seen hs
        rw [← List.append_assoc] at hs
        rcases mem_append.mp hs with hs | hs
        · exact (hov seen hs).trans (hmax last (by simp))
        · exact hmax seen (by simp [mem_singleton.mp hs])

end UpdateOrderAux

open UpdateOrderAux in
/-- `is_better_update` is a strict weak order, and the update a store keeps is maximal among those it saw since the last one it
applied, in whatever order they came. -/
theorem best_valid_update_is_maximal : (∀ a, isBetterUpdate a a = false) ∧
    (∀ a b, isBetterUpdate a b = true → isBetterUpdate b a = false) ∧
    (∀ a b c, isBetterUpdate a b = true → isBetterUpdate b c = true → isBetterUpdate a c = true) ∧
    (∀ a b c, Incomparable a b → Incomparable b c → Incomparable a c) ∧
    ∀ store updates, NeverApplies store updates → store.bestValidUpdate.toList ++ updates ≠ [] →
      ∃ best ∈ store.bestValidUpdate.toList ++ updates, (processUpdates store updates).bestValidUpdate = some best ∧
        (∀ seen ∈ store.bestValidUpdate.toList ++ updates, isBetterUpdate seen best = false) ∧
        ∀ reordered, reordered.Perm updates → NeverApplies store reordered →
          ∃ best', (processUpdates store reordered).bestValidUpdate = some best' ∧ Incomparable best best' := by
  refine ⟨fun a => not_isBetterUpdate_iff.mpr le_rfl, fun a b h => ?_, fun a b c h h' => ?_, fun a b c h h' => ?_, ?_⟩
  · exact not_isBetterUpdate_iff.mpr (isBetterUpdate_iff.mp h).le
  · exact isBetterUpdate_iff.mpr ((isBetterUpdate_iff.mp h').trans (isBetterUpdate_iff.mp h))
  · simp only [Incomparable, not_isBetterUpdate_iff] at h h' ⊢
    exact ⟨h.1.trans h'.1, h'.2.trans h.2⟩
  · intro store updates h hne
    obtain ⟨best, hmem, hb, hmax⟩ := processUpdates_best h updates (prefix_refl _) hne
    refine ⟨best, hmem, hb, fun seen hs => not_isBetterUpdate_iff.mpr (hmax seen hs), ?_⟩
    intro reordered hp h'
    have hs := List.Perm.append_left store.bestValidUpdate.toList hp
    obtain ⟨best', hmem', hb', hmax'⟩ := processUpdates_best h' reordered (prefix_refl _)
      fun hnil => hne (nil_perm.mp (hnil ▸ hs))
    exact ⟨best', hb', not_isBetterUpdate_iff.mpr (hmax' best (hs.mem_iff.mpr hmem)),
      not_isBetterUpdate_iff.mpr (hmax best' (hs.mem_iff.mp hmem'))⟩

end Logex
