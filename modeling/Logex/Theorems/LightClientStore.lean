import Logex.LightClientPayload
import Logex.Lemmas.LightClient

/-!
# The light-client store moves forward and can be reopened

Over runs of payloads, timeouts and reopenings every store the client holds passes the check made when it is reopened. The
finalized slot, the optimistic slot and the epoch of the finalized checkpoint only grow, as long as no bootstrap is taken while a
store is held: the handler of a bootstrap response does not look whether there is one, and replaces it.
-/

namespace Logex

open Lib List
open FixedBytes (toBytes)
open LightClientSnapshot (accept handle)

variable {store' : VerifiedLightClientStore} {message : LightClientMessage} {cs : Nat}
  {aggregate : SyncAggregateRaw}

/-! ## What a store keeps -/

/-- One store is at least as far as another from the same bootstrap. -/
structure Advances (store store' : VerifiedLightClientStore) : Prop where
  checkpointRoot : store'.checkpointRoot = store.checkpointRoot
  bootstrapSlot : store'.bootstrapSlot = store.bootstrapSlot
  finalized : store.finalizedHeader.beacon.slot ≤ store'.finalizedHeader.beacon.slot
  optimistic : store.optimisticHeader.beacon.slot ≤ store'.optimisticHeader.beacon.slot
  checkpoint : ∀ known, store.finalizedCheckpoint = some known →
    ∃ next, store'.finalizedCheckpoint = some next ∧ known.epoch ≤ next.epoch

/-- The slots of a store are in order: bootstrap, finalized, optimistic, and the start of the finalized checkpoint's epoch is not
after the optimistic slot. -/
structure SlotsOrdered (store : VerifiedLightClientStore) : Prop where
  bootstrap : store.bootstrapSlot ≤ store.finalizedHeader.beacon.slot
  finalized : store.finalizedHeader.beacon.slot ≤ store.optimisticHeader.beacon.slot
  checkpoint : ∀ known, store.finalizedCheckpoint = some known → known.epoch * slotsPerEpoch ≤ store.optimisticHeader.beacon.slot

namespace StoreAux

variable {Γ : Crypto} {store : VerifiedLightClientStore} {update : VerifiedLightClientUpdate}

/-- A change that leaves headers and checkpoint alone. -/
theorem advances_still (hr : store'.checkpointRoot = store.checkpointRoot)
    (hs : store'.bootstrapSlot = store.bootstrapSlot) (hfin : store'.finalizedHeader = store.finalizedHeader)
    (hopt : store'.optimisticHeader = store.optimisticHeader)
    (hchk : store'.finalizedCheckpoint = store.finalizedCheckpoint) : Advances store store' :=
  ⟨hr, hs, hfin ▸ le_rfl, hopt ▸ le_rfl, fun k h => ⟨k, hchk.trans h, le_rfl⟩⟩

theorem advances_refl (store : VerifiedLightClientStore) : Advances store store :=
  advances_still rfl rfl rfl rfl rfl

variable {a b c : VerifiedLightClientStore} {checkpoint : VerifiedFinalizedCheckpoint}

theorem advances_trans (h : Advances a b) (h' : Advances b c) : Advances a c := by
  refine ⟨h'.checkpointRoot.trans h.checkpointRoot, h'.bootstrapSlot.trans h.bootstrapSlot, h.finalized.trans h'.finalized,
    h.optimistic.trans h'.optimistic, fun k hk => ?_⟩
  obtain ⟨next, hn, hle⟩ := h.checkpoint k hk
  obtain ⟨last, hl, hle'⟩ := h'.checkpoint next hn
  exact ⟨last, hl, hle.trans hle'⟩

/-- What verification leaves true of an update, and the check of a persisted best update asks. -/
structure UpdateValid (Γ : Crypto) (update : VerifiedLightClientUpdate) : Prop where
  checkpoint : ∀ checkpoint, update.finalizedCheckpoint = some checkpoint → ∃ header, update.finalizedHeader = some header ∧
    checkpointMatchesHeader Γ checkpoint header update.attestedHeader.beacon.slot = true
  participants : minSyncCommitteeParticipants ≤ update.participants ∧ update.participants ≤ syncCommitteePubkeys
  committee : ∀ committee, update.nextSyncCommittee = some committee → committee.pubkeys.length = syncCommitteePubkeys

/-- What the check of a persisted store asks, beyond the checkpoint the store was started from. -/
structure StoreValid (Γ : Crypto) (store : VerifiedLightClientStore) : Prop where
  slots : SlotsOrdered store
  checkpoint : ∀ known, store.finalizedCheckpoint = some known →
    known.epoch * slotsPerEpoch ≤ u64Max ∧ (known.root = 0 ↔ known.epoch = 0)
  current : store.currentSyncCommittee.pubkeys.length = syncCommitteePubkeys
  next : ∀ committee, store.nextSyncCommittee = some committee → committee.pubkeys.length = syncCommitteePubkeys
  participants : store.previousMaxActiveParticipants ≤ syncCommitteePubkeys ∧
    store.currentMaxActiveParticipants ≤ syncCommitteePubkeys
  best : ∀ update, store.bestValidUpdate = some update → UpdateValid Γ update

theorem checkpointMatchesHeader_facts {hd : VerifiedLightClientHeader}
    {as : Nat} (h : checkpointMatchesHeader Γ checkpoint hd as = true) :
    checkpoint.epoch * slotsPerEpoch ≤ u64Max ∧ checkpoint.epoch * slotsPerEpoch ≤ as ∧
      (checkpoint.root = 0 ↔ checkpoint.epoch = 0) := by
  unfold checkpointMatchesHeader checkedMul at h
  by_cases hmax : checkpoint.epoch * slotsPerEpoch ≤ u64Max
  · rw [if_pos hmax] at h
    simp only at h
    split at h
    · nomatch h
    · next hr =>
      refine ⟨hmax, by omega, ?_⟩
      split at h
      · next hgen =>
        rw [Bool.and_eq_true, decide_eq_true_eq, decide_eq_true_eq] at h
        exact ⟨fun _ => h.1, fun _ => h.2⟩
      · next hs =>
        rw [Bool.and_eq_true, decide_eq_true_eq, decide_eq_true_eq] at h
        refine ⟨fun hro => absurd hro h.2, fun hep => ?_⟩
        rw [hep] at hr
        omega
  · rw [if_neg hmax] at h
    nomatch h

/-! ## The persisted check -/

theorem validateCommittee_ok {name : String} {com : SyncCommitteeData} (h : com.pubkeys.length = syncCommitteePubkeys) :
    validateCommittee name com = .ok () :=
  rejectIf_eq_ok.mpr (not_not.mpr h)

theorem validateCommittee_elim_ok {name : String} {com : Option SyncCommitteeData}
    (h : ∀ c, com = some c → c.pubkeys.length = syncCommitteePubkeys) : com.elim (.ok ()) (validateCommittee name) = .ok () := by
  cases com with
  | none => rfl
  | some c => exact validateCommittee_ok (h c rfl)

theorem UpdateValid.validate (h : UpdateValid Γ update) : validateBestUpdate Γ (some update) = .ok () := by
  refine rejectIf_bind.mpr ⟨?_, rejectIf_bind.mpr ⟨?_, validateCommittee_elim_ok h.committee⟩⟩
  · cases hchk : update.finalizedCheckpoint with
    | none => exact Bool.noConfusion
    | some checkpoint =>
      obtain ⟨header, hhdr, hm⟩ := h.checkpoint checkpoint hchk
      rw [hhdr, Option.any_some, Option.all_some, hm]
      exact Bool.noConfusion
  · have := h.participants
    omega

/-- A valid store passes the check with the checkpoint it was started from. -/
theorem StoreValid.validate (h : StoreValid Γ store) {checkpoint : WeakSubjectivityCheckpoint}
    (hr : store.checkpointRoot = checkpoint.beaconRoot) (hs : checkpoint.beaconSlot = some store.bootstrapSlot) :
    store.validatePersistedState Γ checkpoint = .ok () := by
  have hfin : validateFinalizedCheckpoint store.optimisticHeader.beacon.slot store.finalizedCheckpoint = .ok () := by
    cases hk : store.finalizedCheckpoint with
    | none => rfl
    | some k =>
      obtain ⟨hmax, hgen⟩ := h.checkpoint k hk
      refine bind_eq_ok.mpr ⟨k.epoch * slotsPerEpoch, okOr_eq_ok.mpr (if_pos hmax), rejectIf_eq_ok.mpr ?_⟩
      rintro (hlt | hne)
      · exact absurd (h.slots.checkpoint k hk) (not_le.mpr hlt)
      · exact hne (decide_eq_decide.mpr hgen)
  have hb : validateBestUpdate Γ store.bestValidUpdate = .ok () := by
    cases hupd : store.bestValidUpdate with
    | none => rfl
    | some update => exact (h.best update hupd).validate
  refine rejectIf_bind.mpr ⟨not_not.mpr hr, rejectIf_bind.mpr ⟨not_not.mpr hs, ?_⟩⟩
  refine rejectIf_bind.mpr ⟨not_lt.mpr h.slots.bootstrap, rejectIf_bind.mpr ⟨not_lt.mpr h.slots.finalized, ?_⟩⟩
  refine check_bind_eq_ok.mpr ⟨hfin, check_bind_eq_ok.mpr ⟨validateCommittee_ok h.current, ?_⟩⟩
  refine check_bind_eq_ok.mpr ⟨validateCommittee_elim_ok h.next, ?_⟩
  refine check_bind_eq_ok.mpr ⟨rejectIf_eq_ok.mpr (not_lt.mpr h.participants.1), ?_⟩
  exact check_bind_eq_ok.mpr ⟨rejectIf_eq_ok.mpr (not_lt.mpr h.participants.2), hb⟩

/-! ## Verified updates -/

theorem countOnes_le (byte : UInt8) : countOnes byte ≤ 8 := by
  simpa [countOnes] using countP_le_length (l := List.range 8) (p := fun i => byte.toNat.testBit i)

/-- No more participants than the committee has members. -/
theorem participantCount_le (aggregate : SyncAggregateRaw) : participantCount aggregate ≤ syncCommitteePubkeys := by
  have hsum : ∀ bs : List UInt8, (bs.map countOnes).sum ≤ 8 * bs.length := by
    intro bs
    induction bs with
    | nil => exact le_rfl
    | cons byte bs ih =>
      have := countOnes_le byte
      simp only [map_cons, sum_cons, length_cons]
      omega
  have := hsum (toBytes aggregate.syncCommitteeBits)
  simpa [toBytes, participantCount, syncCommitteePubkeys] using this

theorem length_chunksOf (size n : Nat) (bs : List UInt8) : (chunksOf size n bs).length = n := by
  induction n generalizing bs with
  | zero => rfl
  | succ n ih => rw [chunksOf, length_cons, ih]

theorem toPersisted_length (com : SyncCommitteeRaw) : com.toPersisted.pubkeys.length = syncCommitteePubkeys := by
  rw [SyncCommitteeRaw.toPersisted, SyncCommitteeRaw.pubkeyList, length_map, length_chunksOf]

/-- A finality proof yields a checkpoint that matches the finalized header. -/
theorem verifyUpdateFinalityProof_facts {bra : Option (List B256)}
    (h : verifyUpdateFinalityProof Γ update bra = .ok (some checkpoint)) : ∃ hd, update.finalizedHeader = some hd ∧
      checkpointMatchesHeader Γ checkpoint hd update.attestedHeader.beacon.slot = true := by
  cases bra with
  | none => nomatch h
  | some bra =>
    obtain ⟨hd, hhdr, h⟩ := bind_eq_ok.mp h
    obtain ⟨chunk, -, h⟩ := bind_eq_ok.mp h
    obtain ⟨-, h⟩ := rejectIf_bind.mp h
    obtain ⟨hm, h⟩ := rejectIf_bind.mp h
    obtain rfl := Option.some.inj (Except.ok.inj h)
    exact ⟨hd, okOr_eq_ok.mp hhdr, Bool.not_eq_false _ ▸ fun hf => hm (.inl hf)⟩

/-- An update built from a payload is valid once it is verified. -/
theorem verified_valid {sent : VerifiedLightClientUpdate} {fb nb : Option (List B256)}
    (h : verifyValidLightClientUpdateAtSlot Γ store sent fb nb aggregate cs = .ok update)
    (hpar : sent.participants = participantCount aggregate)
    (hcom : ∀ com, sent.nextSyncCommittee = some com → com.pubkeys.length = syncCommitteePubkeys) :
    UpdateValid Γ update ∧ update.participants = participantCount aggregate := by
  obtain ⟨hmin, h⟩ := rejectIf_bind.mp h
  obtain ⟨-, h⟩ := rejectIf_bind.mp h
  obtain ⟨-, h⟩ := rejectIf_bind.mp h
  obtain ⟨_, _, h⟩ := bind_eq_ok.mp h
  obtain ⟨-, h⟩ := rejectIf_bind.mp h
  obtain ⟨checkpoint, hchk, h⟩ := bind_eq_ok.mp h
  obtain ⟨-, h⟩ := rejectIf_bind.mp h
  obtain ⟨_, _, h⟩ := bind_eq_ok.mp h
  obtain ⟨_, _, h⟩ := bind_eq_ok.mp h
  obtain ⟨_, _, h⟩ := bind_eq_ok.mp h
  obtain ⟨-, h⟩ := rejectIf_bind.mp h
  cases h
  refine ⟨⟨fun c hc => ?_, ⟨not_lt.mp hmin, hpar ▸ participantCount_le aggregate⟩, hcom⟩, hpar⟩
  obtain rfl : checkpoint = some c := hc
  exact verifyUpdateFinalityProof_facts hchk

/-! ## Steps -/

/-- One step: the store stays valid, and is at least as far as before. -/
def Kept (Γ : Crypto) (store store' : VerifiedLightClientStore) : Prop := StoreValid Γ store' ∧ Advances store store'

section

variable (h : StoreValid Γ store)

include h

theorem keepBetterUpdate_kept (hu : UpdateValid Γ update) : Kept Γ store (keepBetterUpdate store update) := by
  obtain ⟨h1, h2, h3, h4, h5, h6⟩ := h
  have hk : Kept Γ store { store with bestValidUpdate := some update } :=
    ⟨⟨⟨h1.bootstrap, h1.finalized, h1.checkpoint⟩, h2, h3, h4, h5, fun u hb => Option.some.inj hb ▸ hu⟩,
      advances_still rfl rfl rfl rfl rfl⟩
  unfold keepBetterUpdate
  split
  · exact hk
  · split
    · exact hk
    · exact ⟨⟨h1, h2, h3, h4, h5, h6⟩, advances_refl store⟩

theorem countParticipants_kept (hu : UpdateValid Γ update) : Kept Γ store (countParticipants store update) := by
  obtain ⟨h1, h2, h3, h4, h5, h6⟩ := h
  exact ⟨⟨⟨h1.bootstrap, h1.finalized, h1.checkpoint⟩, h2, h3, h4, ⟨h5.1, Nat.max_le.mpr ⟨h5.2, hu.participants.2⟩⟩, h6⟩,
    advances_still rfl rfl rfl rfl rfl⟩

theorem advanceOptimistic_kept : Kept Γ store (advanceOptimistic store update) := by
  unfold advanceOptimistic
  split
  · next hadv =>
    obtain ⟨⟨h1, h1', h1''⟩, h2, h3, h4, h5, h6⟩ := h
    refine ⟨⟨⟨h1, h1'.trans (le_of_lt hadv.2), fun k hk => (h1'' k hk).trans (le_of_lt hadv.2)⟩, h2, h3, h4, h5,
      h6⟩, rfl, rfl, le_rfl, le_of_lt hadv.2, fun k hk => ⟨k, hk, le_rfl⟩⟩
  · exact ⟨h, advances_refl store⟩

/-- A supermajority exceeds the safety threshold, so the optimistic header is not behind what it attested. -/
theorem attested_le_optimistic (hs : update.hasSupermajority = true) :
    update.attestedHeader.beacon.slot ≤ (advanceOptimistic store update).optimisticHeader.beacon.slot := by
  have hthr : safetyThreshold store < update.participants := by
    have hmax := Nat.max_le.mpr h.participants
    have hpar := of_decide_eq_true hs
    unfold safetyThreshold
    unfold syncCommitteePubkeys at hmax hpar
    omega
  unfold advanceOptimistic
  split
  · exact le_rfl
  · next hbeh => exact not_lt.mp fun hlt => hbeh ⟨hthr, hlt⟩

theorem advanceCheckpoint_kept (hu : UpdateValid Γ update)
    (hatt : update.hasSupermajority = true → update.attestedHeader.beacon.slot ≤ store.optimisticHeader.beacon.slot) :
    Kept Γ store (advanceCheckpoint store update) := by
  unfold advanceCheckpoint
  split
  · exact ⟨h, advances_refl store⟩
  · next checkpoint hchk =>
    split
    · next hadv =>
      obtain ⟨header, -, hm⟩ := hu.checkpoint checkpoint hchk
      obtain ⟨hmax, hs, hgen⟩ := checkpointMatchesHeader_facts hm
      obtain ⟨⟨h1, h1', -⟩, -, h3, h4, h5, h6⟩ := h
      refine ⟨⟨⟨h1, h1', fun k hk => ?_⟩, fun k hk => ?_, h3, h4, h5, h6⟩, rfl, rfl, le_rfl, le_rfl,
        fun k hk => ⟨checkpoint, rfl, ?_⟩⟩
      · cases hk
        exact hs.trans (hatt hadv.1)
      · cases hk
        exact ⟨hmax, hgen⟩
      · have hl := hadv.2
        rw [hk, Option.all_some, decide_eq_true_eq] at hl
        exact le_of_lt hl
    · exact ⟨h, advances_refl store⟩

theorem rotateCommittees_kept (hcom : ∀ com, update.nextSyncCommittee = some com → com.pubkeys.length = syncCommitteePubkeys) :
    Kept Γ store (rotateCommittees store update) := by
  obtain ⟨⟨h1, h1', h1''⟩, h2, h3, h4, h5, h6⟩ := h
  unfold rotateCommittees
  split
  · exact ⟨⟨⟨h1, h1', h1''⟩, h2, h3, hcom, h5, h6⟩, advances_still rfl rfl rfl rfl rfl⟩
  · next next hn =>
    split
    · exact ⟨⟨⟨h1, h1', h1''⟩, h2, h4 next hn, hcom, ⟨h5.2, Nat.zero_le _⟩, h6⟩, advances_still rfl rfl rfl rfl rfl⟩
    · exact ⟨⟨⟨h1, h1', h1''⟩, h2, h3, h4, h5, h6⟩, advances_refl store⟩

theorem advanceHeaders_kept : Kept Γ store (advanceHeaders store update) := by
  unfold advanceHeaders
  split
  · exact ⟨h, advances_refl store⟩
  · next hd hhdr =>
    split
    · next hadv =>
      obtain ⟨⟨h1, h1', h1''⟩, h2, h3, h4, h5, h6⟩ := h
      have hopt : ∀ slot, slot ≤ store.optimisticHeader.beacon.slot →
          slot ≤ (if store.optimisticHeader.beacon.slot < hd.beacon.slot then hd
            else store.optimisticHeader).beacon.slot := fun slot hs => by
        split
        · next hlt => exact hs.trans (le_of_lt hlt)
        · exact hs
      refine ⟨⟨⟨h1.trans (le_of_lt hadv), ?_, fun k hk => hopt _ (h1'' k hk)⟩, h2, h3, h4, h5, h6⟩, rfl, rfl,
        le_of_lt hadv, hopt _ le_rfl, fun k hk => ⟨k, hk, le_rfl⟩⟩
      split
      · exact le_rfl
      · next hge => exact not_lt.mp hge
    · exact ⟨h, advances_refl store⟩

end

theorem Kept.then (h : Kept Γ a b) (h' : StoreValid Γ b → Kept Γ b c) : Kept Γ a c :=
  ⟨(h' h.1).1, advances_trans h.2 (h' h.1).2⟩

/-- Applying an update and dropping the best update kept so far. -/
theorem apply_kept (h : StoreValid Γ store)
    (hcom : ∀ com, update.nextSyncCommittee = some com → com.pubkeys.length = syncCommitteePubkeys) :
    Kept Γ store { applyValidatedLightClientUpdate store update with bestValidUpdate := none } := by
  have ha : Kept Γ store (applyValidatedLightClientUpdate store update) :=
    (rotateCommittees_kept h hcom).then advanceHeaders_kept
  obtain ⟨⟨⟨h1, h1', h1''⟩, h2, h3, h4, h5, -⟩, hadv⟩ := ha
  obtain ⟨a1, a2, a3, a4, a5⟩ := hadv
  exact ⟨⟨⟨h1, h1', h1''⟩, h2, h3, h4, h5, nofun⟩, a1, a2, a3, a4, a5⟩

theorem recordUpdate_kept (h : StoreValid Γ store) (hu : UpdateValid Γ update) : Kept Γ store (recordUpdate store update) := by
  have hcou : Kept Γ store (countParticipants (keepBetterUpdate store update) update) :=
    (keepBetterUpdate_kept h hu).then fun hk => countParticipants_kept hk hu
  have hopt : Kept Γ store (advanceOptimistic (countParticipants (keepBetterUpdate store update) update) update) :=
    hcou.then advanceOptimistic_kept
  exact hopt.then fun hk => advanceCheckpoint_kept hk hu (attested_le_optimistic hcou.1)

theorem process_kept (h : StoreValid Γ store) (hu : UpdateValid Γ update) :
    Kept Γ store (processLightClientUpdate store update).store := by
  have hrec := recordUpdate_kept h hu
  unfold processLightClientUpdate
  dsimp only
  split
  · exact hrec.then fun hk => apply_kept hk hu.committee
  · exact hrec

/-- The checkpoint of an applied update's store is the one before. -/
theorem apply_checkpoint (store : VerifiedLightClientStore) (update : VerifiedLightClientUpdate) :
    (applyValidatedLightClientUpdate store update).finalizedCheckpoint = store.finalizedCheckpoint := by
  have hrot : (rotateCommittees store update).finalizedCheckpoint = store.finalizedCheckpoint := by
    unfold rotateCommittees
    split
    · rfl
    · split <;> rfl
  rw [← hrot, applyValidatedLightClientUpdate, advanceHeaders]
  split
  · rfl
  · split <;> rfl

/-- Without a supermajority an update leaves the checkpoint. -/
theorem process_checkpoint (hs : update.hasSupermajority = false) :
    (processLightClientUpdate store update).store.finalizedCheckpoint = store.finalizedCheckpoint := by
  have hrec : (recordUpdate store update).finalizedCheckpoint = store.finalizedCheckpoint := by
    have hk : (keepBetterUpdate store update).finalizedCheckpoint = store.finalizedCheckpoint := by
      unfold keepBetterUpdate
      split
      · rfl
      · split <;> rfl
    rw [← hk, recordUpdate, advanceCheckpoint]
    have hopt : ∀ s : VerifiedLightClientStore, (advanceOptimistic s update).finalizedCheckpoint = s.finalizedCheckpoint := by
      intro s
      unfold advanceOptimistic
      split <;> rfl
    split
    · exact hopt _
    · rw [if_neg (by rw [hs]; exact fun h => Bool.noConfusion h.1)]
      exact hopt _
  unfold processLightClientUpdate
  dsimp only
  split
  · exact (apply_checkpoint _ _).trans hrec
  · exact hrec

theorem forcedUpdate_nextSyncCommittee (store : VerifiedLightClientStore) (best : VerifiedLightClientUpdate) :
    (forcedUpdate store best).nextSyncCommittee = best.nextSyncCommittee := by
  unfold forcedUpdate
  split <;> rfl

/-- The timeout applies the best update, whose checkpoint it does not read. -/
theorem force_kept (h : StoreValid Γ store) {forced : VerifiedLightClientStore}
    (hf : forceUpdateLightClientStore store cs = some forced) :
    Kept Γ store forced ∧ forced.finalizedCheckpoint = store.finalizedCheckpoint := by
  unfold forceUpdateLightClientStore at hf
  split at hf
  · nomatch hf
  · obtain ⟨best, hb, rfl⟩ := Option.map_eq_some_iff.mp hf
    refine ⟨apply_kept h fun committee hc => ?_, apply_checkpoint _ _⟩
    exact (h.best best hb).committee committee ((forcedUpdate_nextSyncCommittee store best) ▸ hc)

/-! ## Messages -/

/-- A bootstrap that verifies gives a valid store of its checkpoint. -/
theorem verifyBootstrapPayload_valid {dec : DecodedBootstrap} {checkpoint : WeakSubjectivityCheckpoint}
    (h : verifyBootstrapPayload Γ dec checkpoint = .ok store) :
    StoreValid Γ store ∧ store.checkpointRoot = checkpoint.beaconRoot := by
  unfold verifyBootstrapPayload at h
  obtain ⟨header, -, h⟩ := bind_eq_ok.mp h
  obtain ⟨-, h⟩ := rejectIf_bind.mp h
  obtain ⟨-, h⟩ := rejectIf_bind.mp h
  obtain ⟨-, h⟩ := rejectIf_bind.mp h
  cases h
  exact ⟨⟨⟨le_rfl, le_rfl, nofun⟩, nofun, toPersisted_length _, nofun, ⟨Nat.zero_le _, Nat.zero_le _⟩, nofun⟩, rfl⟩

theorem verifiedOptionalSyncCommittee_length {raw : SyncCommitteeRaw} {branch : List B256} {attestedSlot : Nat}
    {next : Option SyncCommitteeData} (h : verifiedOptionalSyncCommittee raw branch attestedSlot = .ok next) :
    ∀ committee, next = some committee → committee.pubkeys.length = syncCommitteePubkeys := by
  unfold verifiedOptionalSyncCommittee at h
  split at h
  · rintro committee rfl
    nomatch h
  · rintro committee rfl
    rw [← Option.some.inj (Except.ok.inj h)]
    exact toPersisted_length raw
  · nomatch h

/-- An update message that is accepted processes a valid update with the participants of its aggregate. -/
def Processes (Γ : Crypto) (store store' : VerifiedLightClientStore) (aggregate : SyncAggregateRaw) : Prop :=
  ∃ update, UpdateValid Γ update ∧ update.participants = participantCount aggregate ∧
    store' = (processLightClientUpdate store update).store

theorem applyLightClientUpdatePayload_processes {decoded : DecodedUpdate} {applied : AppliedLightClientUpdate}
    (h : applyLightClientUpdatePayload Γ decoded store cs = .ok applied) :
    Processes Γ store applied.store decoded.syncAggregate := by
  obtain ⟨sent, hs, h⟩ := bind_eq_ok.mp h
  obtain ⟨verified, hver, h⟩ := bind_eq_ok.mp h
  cases h
  obtain ⟨_, -, hs⟩ := bind_eq_ok.mp hs
  obtain ⟨_, -, hs⟩ := bind_eq_ok.mp hs
  obtain ⟨_, hn, hs⟩ := bind_eq_ok.mp hs
  cases hs
  obtain ⟨hv, hpar⟩ := verified_valid hver rfl (verifiedOptionalSyncCommittee_length hn)
  exact ⟨verified, hv, hpar, rfl⟩

theorem applyFinalityUpdatePayloadAtSlot_processes {dec : DecodedFinalityUpdate}
    {sta : LightClientFinalityUpdateStatus} {next : VerifiedLightClientStore} {attested fin : VerifiedLightClientHeader}
    (h : applyFinalityUpdatePayloadAtSlot Γ dec store cs = .ok (sta, next, attested, fin)) :
    Processes Γ store next dec.syncAggregate := by
  obtain ⟨_, -, h⟩ := bind_eq_ok.mp h
  obtain ⟨_, -, h⟩ := bind_eq_ok.mp h
  obtain ⟨ver, hver, h⟩ := bind_eq_ok.mp h
  obtain ⟨hv, hpar⟩ := verified_valid hver rfl nofun
  obtain ⟨-, rfl, -, -⟩ := Prod.mk.injEq _ _ _ _ ▸ Except.ok.inj h
  exact ⟨ver, hv, hpar, rfl⟩

theorem applyOptimisticUpdatePayloadAtSlot_processes {dec : DecodedOptimisticUpdate}
    {sta : LightClientOptimisticUpdateStatus} {next : VerifiedLightClientStore} {att : VerifiedLightClientHeader}
    (h : applyOptimisticUpdatePayloadAtSlot Γ dec store cs = .ok (sta, next, att)) :
    Processes Γ store next dec.syncAggregate := by
  obtain ⟨_, -, h⟩ := bind_eq_ok.mp h
  obtain ⟨ver, hver, h⟩ := bind_eq_ok.mp h
  obtain ⟨hv, hpar⟩ := verified_valid hver rfl nofun
  obtain ⟨-, rfl, -⟩ := Prod.mk.injEq _ _ _ _ ▸ Except.ok.inj h
  exact ⟨ver, hv, hpar, rfl⟩

/-- A processed update keeps the store, and moves the checkpoint only with two thirds of the committee. -/
theorem Processes.kept (h : Processes Γ store store' aggregate)
    (hs : StoreValid Γ store) : Kept Γ store store' ∧ (store'.finalizedCheckpoint ≠ store.finalizedCheckpoint →
      syncCommitteePubkeys * 2 ≤ participantCount aggregate * 3) := by
  obtain ⟨update, hv, hpar, rfl⟩ := h
  refine ⟨process_kept hs hv, fun hne => ?_⟩
  by_contra hl
  refine hne (process_checkpoint ?_)
  rw [VerifiedLightClientUpdate.hasSupermajority, hpar]
  exact decide_eq_false hl

/-- What every snapshot the client reaches satisfies. -/
structure SnapshotValid (Γ : Crypto) (snapshot : LightClientSnapshot) : Prop where
  config : snapshot.config.beaconRoot = snapshot.checkpoint.beaconRoot
  store : ∀ store, snapshot.store = some store → StoreValid Γ store ∧ store.checkpointRoot = snapshot.checkpoint.beaconRoot ∧
    snapshot.checkpoint.beaconSlot = some store.bootstrapSlot

variable {snapshot next : LightClientSnapshot}

theorem SnapshotValid.validate (h : SnapshotValid Γ snapshot) (hs : snapshot.store = some store) :
    store.validatePersistedState Γ snapshot.checkpoint = .ok () := by
  obtain ⟨hv, hr, hsl⟩ := h.store store hs
  exact hv.validate hr hsl

/-- A store that advanced replaces the one before it. -/
theorem SnapshotValid.advance (h : SnapshotValid Γ snapshot) (hst : snapshot.store = some store)
    (hk : Kept Γ store store') : SnapshotValid Γ { snapshot with store := some store' } := by
  refine ⟨h.config, fun s hs => ?_⟩
  cases hs
  obtain ⟨-, hr, hsl⟩ := h.store store hst
  exact ⟨hk.1, hk.2.checkpointRoot.trans hr, hsl.trans (congrArg some hk.2.bootstrapSlot.symm)⟩

/-- What an accepted message that is not a bootstrap does to the store. -/
structure Moved (Γ : Crypto) (message : LightClientMessage) (store store' : VerifiedLightClientStore) : Prop where
  kept : Kept Γ store store'
  checkpoint : store'.finalizedCheckpoint ≠ store.finalizedCheckpoint →
    ∃ aggregate, message.syncAggregate? = some aggregate ∧ syncCommitteePubkeys * 2 ≤ participantCount aggregate * 3

theorem Processes.moved
    (h : Processes Γ store store' aggregate) (hmes : message.syncAggregate? = some aggregate) (hs : StoreValid Γ store) :
    Moved Γ message store store' :=
  ⟨(h.kept hs).1, fun hne => ⟨aggregate, hmes, (h.kept hs).2 hne⟩⟩

/-- The cases of an accepted message: a bootstrap, a message that moves the store, or one that finds none to move. -/
theorem accept_cases (h : SnapshotValid Γ snapshot) (hacc : snapshot.accept Γ message = .ok next) :
    (∃ decoded store, message = .bootstrap decoded ∧ verifyBootstrapPayload Γ decoded snapshot.config = .ok store ∧
        next = snapshot.recordVerifiedBootstrap store) ∨
      (∃ store store', snapshot.store = some store ∧ Moved Γ message store store' ∧
        (next = { snapshot with store := some store' } ∨ next = { snapshot with config := snapshot.checkpoint } ∧ store' = store)) ∨
      (snapshot.store = none ∧ next.store = none ∧ next.checkpoint = snapshot.checkpoint ∧
        (next.config = snapshot.config ∨ next.config = snapshot.checkpoint)) := by
  have hpro : ∀ {store store' : VerifiedLightClientStore} {aggregate : SyncAggregateRaw}, snapshot.store = some store →
      message.syncAggregate? = some aggregate → Processes Γ store store' aggregate → next = { snapshot with store := some store' } →
      ∃ store store', snapshot.store = some store ∧ Moved Γ message store store' ∧
        (next = { snapshot with store := some store' } ∨ next = { snapshot with config := snapshot.checkpoint } ∧ store' = store) :=
    fun hs hmes hprs hn =>
      ⟨_, _, hs, hprs.moved hmes (h.store _ hs).1, .inl hn⟩
  cases message with
  | bootstrap decoded =>
    rw [accept] at hacc
    split at hacc
    · next store hver => exact .inl ⟨decoded, store, rfl, hver, (Except.ok.inj hacc).symm⟩
    · nomatch hacc
  | update decoded cs =>
    rw [accept] at hacc
    split at hacc
    · nomatch hacc
    · next store hs =>
      split at hacc
      · next applied ha =>
        exact .inr (.inl (hpro hs rfl (applyLightClientUpdatePayload_processes ha) (Except.ok.inj hacc).symm))
      · nomatch hacc
  | finality decoded cs =>
    rw [accept] at hacc
    split at hacc
    · nomatch hacc
    · next store hs =>
      split at hacc
      · next ha =>
        exact .inr (.inl (hpro hs rfl (applyFinalityUpdatePayloadAtSlot_processes ha) (Except.ok.inj hacc).symm))
      · nomatch hacc
  | optimistic decoded cs =>
    rw [accept] at hacc
    split at hacc
    · nomatch hacc
    · next store hs =>
      split at hacc
      · next ha =>
        exact .inr (.inl (hpro hs rfl (applyOptimisticUpdatePayloadAtSlot_processes ha) (Except.ok.inj hacc).symm))
      · nomatch hacc
  | force cs =>
    cases hacc
    right
    cases hs : snapshot.store with
    | none => exact .inr ⟨rfl, rfl, rfl, .inl rfl⟩
    | some store =>
      refine .inl ⟨store, (forceUpdateLightClientStore store cs).getD store, rfl, ?_, .inl rfl⟩
      cases hf : forceUpdateLightClientStore store cs with
      | none => exact ⟨⟨(h.store store hs).1, advances_refl store⟩, fun hne => absurd rfl hne⟩
      | some forced =>
        obtain ⟨hk, hsa⟩ := force_kept (h.store store hs).1 hf
        exact ⟨hk, fun hne => absurd hsa hne⟩
  | reopen =>
    right
    rw [accept] at hacc
    obtain ⟨-, hacc⟩ := check_bind_eq_ok.mp hacc
    cases hacc
    cases hs : snapshot.store with
    | none => exact .inr ⟨rfl, rfl, rfl, .inr rfl⟩
    | some store =>
      exact .inl ⟨store, store, rfl, ⟨⟨(h.store store hs).1, advances_refl store⟩, fun hne => absurd rfl hne⟩, .inr ⟨rfl, rfl⟩⟩

theorem initial_valid (checkpoint : WeakSubjectivityCheckpoint) : SnapshotValid Γ (.initial checkpoint) :=
  ⟨rfl, fun store hs => nomatch show none = some store from hs⟩

variable (h : SnapshotValid Γ snapshot)

include h

/-- An accepted message leaves a valid snapshot. -/
theorem accept_valid (hacc : snapshot.accept Γ message = .ok next) : SnapshotValid Γ next := by
  rcases accept_cases h hacc with ⟨decoded, store, -, hver, rfl⟩ | ⟨store, store', hst, hm, rfl | ⟨rfl, -⟩⟩ |
    ⟨-, hn, hchk, hcon⟩
  · obtain ⟨hv, hr⟩ := verifyBootstrapPayload_valid hver
    refine ⟨h.config, fun s hs => ?_⟩
    cases hs
    exact ⟨hv, hr.trans h.config, rfl⟩
  · exact h.advance hst hm.kept
  · exact ⟨rfl, h.store⟩
  · refine ⟨?_, fun s hs => nomatch hn.symm.trans hs⟩
    rw [hchk]
    rcases hcon with hcon | hcon
    · rw [hcon, h.config]
    · rw [hcon]

theorem handle_valid (message : LightClientMessage) : SnapshotValid Γ (snapshot.handle Γ message) := by
  unfold handle
  split
  · next hacc => exact accept_valid h hacc
  · exact h

/-- A message that is no second bootstrap moves the store forward. -/
theorem handle_moved (hst : snapshot.store = some store) (hb : ∀ dec, message ≠ .bootstrap dec) :
    ∃ store', (snapshot.handle Γ message).store = some store' ∧ Moved Γ message store store' := by
  unfold handle
  split
  · next hacc =>
    rcases accept_cases h hacc with ⟨dec, _, hmes, -⟩ | ⟨s, store', hs, hm, hn⟩ | ⟨hno, -⟩
    · exact absurd hmes (hb dec)
    · obtain rfl := Option.some.inj (hs.symm.trans hst)
      rcases hn with rfl | ⟨rfl, rfl⟩
      · exact ⟨store', rfl, hm⟩
      · exact ⟨_, hst, hm⟩
    · exact nomatch hno.symm.trans hst
  · exact ⟨store, hst, ⟨(h.store store hst).1, advances_refl store⟩, fun hne => absurd rfl hne⟩

end StoreAux

/-- Every store the client reaches has its slots in order and is accepted when it is reopened. Where no bootstrap is taken while a
store is held, slots and checkpoint epoch never decrease, and the checkpoint changes only through an update signed by two thirds
of the committee. -/
theorem light_client_store_moves_forward (Γ : Crypto) (checkpoint : WeakSubjectivityCheckpoint) (messages : List LightClientMessage)
    (hboot : ∀ pre decoded, pre ++ [.bootstrap decoded] <+: messages →
      (runFrom (LightClientSnapshot.handle Γ) (.initial checkpoint) pre).store = none) :
    (∀ pre, pre <+: messages → ∀ store, (runFrom (LightClientSnapshot.handle Γ) (.initial checkpoint) pre).store = some store →
      SlotsOrdered store ∧ store.validatePersistedState Γ
        (runFrom (LightClientSnapshot.handle Γ) (.initial checkpoint) pre).checkpoint = .ok ()) ∧
    (∀ pre post, pre ++ post <+: messages → ∀ store,
      (runFrom (LightClientSnapshot.handle Γ) (.initial checkpoint) pre).store = some store →
      ∃ store', (runFrom (LightClientSnapshot.handle Γ) (.initial checkpoint) (pre ++ post)).store = some store' ∧
        Advances store store') ∧
    ∀ pre message, pre ++ [message] <+: messages → ∀ store store',
      (runFrom (LightClientSnapshot.handle Γ) (.initial checkpoint) pre).store = some store →
      (runFrom (LightClientSnapshot.handle Γ) (.initial checkpoint) (pre ++ [message])).store = some store' →
      store'.finalizedCheckpoint ≠ store.finalizedCheckpoint →
      ∃ aggregate, message.syncAggregate? = some aggregate ∧ syncCommitteePubkeys * 2 ≤ participantCount aggregate * 3 := by
  have hv : ∀ pre, pre <+: messages → StoreAux.SnapshotValid Γ (runFrom (handle Γ) (.initial checkpoint) pre) :=
    runFrom_inv (StoreAux.SnapshotValid Γ) (StoreAux.initial_valid checkpoint) fun _ message _ h => StoreAux.handle_valid h message
  have hm : ∀ pre message, pre ++ [message] <+: messages → ∀ store,
      (runFrom (handle Γ) (.initial checkpoint) pre).store = some store →
      ∃ store', (runFrom (handle Γ) (.initial checkpoint) (pre ++ [message])).store = some store' ∧
        StoreAux.Moved Γ message store store' := by
    intro pre message hpre store hs
    rw [runFrom_concat]
    refine StoreAux.handle_moved (hv pre ((prefix_append _ _).trans hpre)) hs fun decoded hmes => ?_
    subst hmes
    exact nomatch (hboot pre decoded hpre).symm.trans hs
  refine ⟨fun pre hpre store hs => ?_, fun pre post => ?_, fun pre message hpre store store' hs hs' hne => ?_⟩
  · exact ⟨((hv pre hpre).store store hs).1.slots, (hv pre hpre).validate hs⟩
  · induction post using List.reverseRecOn with
    | nil => exact fun _ store hs => ⟨store, by rwa [append_nil], StoreAux.advances_refl store⟩
    | append_singleton post message ih =>
      intro hp store hs
      rw [← List.append_assoc] at hp ⊢
      obtain ⟨mid, hmid, hadv⟩ := ih ((prefix_append _ _).trans hp) store hs
      obtain ⟨last, hl, hst⟩ := hm (pre ++ post) message hp mid hmid
      exact ⟨last, hl, StoreAux.advances_trans hadv hst.kept.2⟩
  · obtain ⟨last, hl, hst⟩ := hm pre message hpre store hs
    obtain rfl := Option.some.inj (hl.symm.trans hs')
    exact hst.checkpoint hne

namespace StoreWitness

/-- SHA-256 at the inputs of the run below, keyed by the number the 64 bytes spell: the committee branch of the bootstrap, the
finality branch of the update, the fork data and the signing root. -/
def sha256Table : List (Nat × B256) :=
  [(0xc04d569dbf0c6323f685ac7791d132bcf7d8134fb0538ff5ef32352006f06dd0000000000000000000000000000000000000000000000000000000000000000,
      0x36a474c6f8edea0995d073698d1e2a064ec7ebf0245e51d40fccd616b6d635fd),
    (0x36a474c6f8edea0995d073698d1e2a064ec7ebf0245e51d40fccd616b6d635fd,
      0x130f22d42364867707e8128286ee5d523c41e8a59510d1f09008a31ea87afae7),
    (0x130f22d42364867707e8128286ee5d523c41e8a59510d1f09008a31ea87afae7,
      0x272dd53db37b7e2d1e7602e8a4a7a2e0fb4e69dd8c3ceebd47a03512a2c79182),
    (0x272dd53db37b7e2d1e7602e8a4a7a2e0fb4e69dd8c3ceebd47a03512a2c791820000000000000000000000000000000000000000000000000000000000000000,
      0xf656f0a5768e636fd07848b2bc217d478ab53b67b0b22c8ff4b7cb2004f3f3e7),
    (0xf656f0a5768e636fd07848b2bc217d478ab53b67b0b22c8ff4b7cb2004f3f3e7,
      0x120184a6f85231c3c7542cdf2c2c845290c9b18a0a618d6c67c8d8362fa607e4),
    (0x81380100000000000000000000000000000000000000000000000000000000000369a927655fb2e61d92eada1125607ea2a8a0f4dc4e30f787dc776f4ca16d25,
      0x47d18456589c53e40a4a4d6611bbeec7e8f5f34f5fbf588e5f3b2f37c573e8b8),
    (0x47d18456589c53e40a4a4d6611bbeec7e8f5f34f5fbf588e5f3b2f37c573e8b80000000000000000000000000000000000000000000000000000000000000000,
      0x0b8ecc4fa691bf2c58ac0e0f820122089f1578a444e11d09b3cc0b785acf84b5),
    (0xb8ecc4fa691bf2c58ac0e0f820122089f1578a444e11d09b3cc0b785acf84b50000000000000000000000000000000000000000000000000000000000000000,
      0x59b3f0abedd18cf6a3058591ebc2ac41d03ab5e77f463687ff6ab15fcd3f6e07),
    (0x59b3f0abedd18cf6a3058591ebc2ac41d03ab5e77f463687ff6ab15fcd3f6e07,
      0xaa4e149be9c31ed8990b637cbc91d764cf1c4e9c5a90574eaf260e1ccdf61676),
    (0xaa4e149be9c31ed8990b637cbc91d764cf1c4e9c5a90574eaf260e1ccdf616760000000000000000000000000000000000000000000000000000000000000000,
      0x37eb7427ddd4e1975640af75297c0a5f9a1e828404afd3c515f78bd0b83a6b2e),
    (0x37eb7427ddd4e1975640af75297c0a5f9a1e828404afd3c515f78bd0b83a6b2e,
      0x928c57e3bc76df72efebf86d8fdd3d108e79dea1182d92a6cbaba651ba5a9568),
    (0x1000000000000000000000000000000000000000000000000000000000000004b363db94e286120d76eb905340fdd4e54bfe9f06bf33ff6cf5ad27f511bfe95,
      0xafcaaba0efab1ca832a15152469bb09bb84641c405171dfa2d3fb45f2bd8ddb9),
    (0x12ee2e247e918b3ae614c374e0e8d1309e3db72583040c0f69c12fc246620ac07000000afcaaba0efab1ca832a15152469bb09bb84641c405171dfa2d3fb45f,
      0x8296d5fe5a93437a94b41b5ac9d87b53f827d011aa0e7b8e5738e8cb0e64049f)]

/-- The compressed G1 generator, the public key of the secret key 1. -/
def pubkey : FixedBytes 48 := 0x97f1d3a73197d7942695638c4fa9ac0fc3688c4f9774b905a14e3a3f171bac586c55e83ff97a1aeffb3af00adb22c6bb

/-- The sum of 512 such signatures over the attested header of the update. -/
def signature : FixedBytes 96 :=
  0x8e6f7284d8514bb2f2e390ad83b59711f0b351dc1b8b6ae9cac7edd6c2e664d290fd8555e33ff454f835143740523a4904ab8853aacdad74a5c69f4c4deb87a5a5524e8d2097e97859f8977133ba6117e9e2e70f267635e9b64917a162b15963

def bootstrapHeader : VerifiedLightClientHeader where
  fork := .capella
  beacon :=
    { slot := 2560000, proposerIndex := 0, parentRoot := 0
      stateRoot := 0x120184a6f85231c3c7542cdf2c2c845290c9b18a0a618d6c67c8d8362fa607e4, bodyRoot := 0 }
  execution := none

def finalizedHeader : VerifiedLightClientHeader where
  fork := .capella
  beacon := { slot := 2560032, proposerIndex := 0, parentRoot := 0, stateRoot := 0, bodyRoot := 0 }
  execution := none

def attestedHeader : VerifiedLightClientHeader where
  fork := .capella
  beacon :=
    { slot := 2560096, proposerIndex := 0, parentRoot := 0
      stateRoot := 0x928c57e3bc76df72efebf86d8fdd3d108e79dea1182d92a6cbaba651ba5a9568, bodyRoot := 0 }
  execution := none

/-- The libraries at the inputs of the run below. -/
def libraries : Crypto where
  PublicKey := Unit
  Signature := Unit
  sha256 bytes := (sha256Table.lookup (bytes.foldl (fun acc b => acc * 256 + b.toNat) 0)).getD 0
  merkleRoot bytes leaves :=
    if leaves = 512 then 0x91a59b59feaaa817c685087f98f0fda225c861cb02660b2231d6e0718312d55b
    else if bytes.length = 64 then 0x0c04d569dbf0c6323f685ac7791d132bcf7d8134fb0538ff5ef32352006f06dd
    else if bytes.take 8 = leBytes 8 2560000 then 0x69a8180baf93ead874c3cd85945300a679436c3aec33c198991886d01722e4d8
    else if bytes.take 8 = leBytes 8 2560032 then 0x0369a927655fb2e61d92eada1125607ea2a8a0f4dc4e30f787dc776f4ca16d25
    else 0x012ee2e247e918b3ae614c374e0e8d1309e3db72583040c0f69c12fc246620ac
  pubkeyRoot key :=
    if key = pubkey then 0xacceed0da52e987a6acc75353ca0496f3732176494d25d2ac122721c6a99885c
    else 0x702a69edd8bca65701fb0a64667b3d08177ad90940e3cd5876f74b1862f81f19
  keyValidate key := if key = pubkey then .ok () else .error "BLST_BAD_ENCODING"
  sigValidate bytes := if bytes = signature then .ok () else .error "BLST_BAD_ENCODING"
  fastAggregateVerify _ message dst keys :=
    decide (message = FixedBytes.toBytes (n := 32) 0x8296d5fe5a93437a94b41b5ac9d87b53f827d011aa0e7b8e5738e8cb0e64049f) &&
      decide (dst = syncCommitteeSignatureDst) && decide (keys.length = 512)

/-- A committee of 512 equal keys. -/
def committee : SyncCommitteeRaw where
  pubkeys := FixedBytes.ofBytes (512 * 48) (List.replicate 512 (FixedBytes.toBytes pubkey)).flatten
  aggregatePubkey := 0xa9843dc6497bb8028cdbaea5c085b8e8c28bb5182ce691fa9ab5303b6792b2f5af0fc8fe52abb92c07ad5f4cf586c400

def decodedBootstrap : DecodedBootstrap where
  verifiedHeader := .ok bootstrapHeader
  currentSyncCommittee := committee
  currentSyncCommitteeBranch := [0, 0, 0, 0, 0]

def checkpoint : WeakSubjectivityCheckpoint where
  beaconRoot := 0x69a8180baf93ead874c3cd85945300a679436c3aec33c198991886d01722e4d8
  beaconSlot := some 2560000

/-- The store of the bootstrap. -/
def store : VerifiedLightClientStore where
  checkpointRoot := checkpoint.beaconRoot
  bootstrapSlot := 2560000
  currentSyncCommittee := ⟨List.replicate 512 pubkey, committee.aggregatePubkey⟩
  nextSyncCommittee := none
  finalizedHeader := bootstrapHeader
  finalizedCheckpoint := none
  optimisticHeader := bootstrapHeader
  bestValidUpdate := none
  previousMaxActiveParticipants := 0
  currentMaxActiveParticipants := 0

def decodedHeader (header : VerifiedLightClientHeader) : DecodedHeader where
  isDefault := false
  summary := headerSummaryVerified header
  verified := .ok header

/-- An update signed by the whole committee that finalizes the checkpoint of epoch 80001. -/
def finality : LightClientMessage :=
  .finality
    { fork := .capella
      attestedHeader := decodedHeader attestedHeader
      finalizedHeader := decodedHeader finalizedHeader
      finalityBranch := [0x8138010000000000000000000000000000000000000000000000000000000000, 0, 0, 0, 0, 0]
      syncAggregate := { syncCommitteeBits := BitVec.allOnes (8 * 64), syncCommitteeSignature := signature }
      signatureSlot := 2560097 } 2560100

theorem chunksOf_flatten_replicate {size : Nat} {pc : List UInt8} (h : pc.length = size) (n : Nat) :
    chunksOf size n (List.replicate n pc).flatten = List.replicate n pc := by
  induction n with
  | zero => rfl
  | succ n ih =>
    rw [replicate_succ, flatten_cons, chunksOf, take_left' h, drop_left' h, ih]

theorem committee_pubkeyList : committee.pubkeyList = List.replicate 512 pubkey := by
  unfold SyncCommitteeRaw.pubkeyList committee
  have hp : (toBytes pubkey).length = 48 := by simp [toBytes]
  have hleh : (List.replicate 512 (toBytes pubkey)).flatten.length = 512 * 48 := by
    rw [List.length_flatten, map_replicate, hp]
    decide +kernel
  rw [FixedBytes.toBytes_ofBytes hleh, blsPubkeyBytes, syncCommitteePubkeys, chunksOf_flatten_replicate hp, map_replicate,
    show FixedBytes.ofBytes 48 (toBytes pubkey) = pubkey by decide +kernel]

theorem branch_valid : isValidNormalizedMerkleBranch libraries (committee.treeHashRoot libraries) [0, 0, 0, 0, 0]
    (currentSyncCommitteeGindexAtSlot bootstrapHeader.beacon.slot) bootstrapHeader.beacon.stateRoot = true := by
  rw [SyncCommitteeRaw.treeHashRoot, syncCommitteePubkeysRootFromBytes, committee_pubkeyList]
  decide +kernel

theorem bootstrap_verified : verifyBootstrapPayload libraries decodedBootstrap checkpoint = .ok store := by
  unfold verifyBootstrapPayload
  refine bind_eq_ok.mpr ⟨bootstrapHeader, rfl, rejectIf_bind.mpr ⟨by decide +kernel, ?_⟩⟩
  refine rejectIf_bind.mpr ⟨by decide, rejectIf_bind.mpr ⟨?_, ?_⟩⟩
  · exact fun hinv => Bool.noConfusion (branch_valid.symm.trans hinv)
  · rw [show decodedBootstrap.currentSyncCommittee.toPersisted = ⟨List.replicate 512 pubkey, committee.aggregatePubkey⟩ from
      congrArg (SyncCommitteeData.mk · _) committee_pubkeyList]
    rfl

/-- The bootstrap is taken at any snapshot of its checkpoint. -/
theorem handle_bootstrap {snapshot : LightClientSnapshot} (h : snapshot.config = checkpoint) :
    snapshot.handle libraries (.bootstrap decodedBootstrap) = snapshot.recordVerifiedBootstrap store := by
  simp only [handle, accept, h, bootstrap_verified]

end StoreWitness

open StoreWitness in
/-- Two bootstrap requests are out; the response to the second arrives after an update and sets the finalized slot back. -/
theorem light_client_second_bootstrap_sets_back :
    (runFrom (LightClientSnapshot.handle libraries) (.initial checkpoint) [.bootstrap decodedBootstrap, finality]).store.map
        (·.finalizedHeader.beacon.slot) = some 2560032 ∧
      (runFrom (LightClientSnapshot.handle libraries) (.initial checkpoint)
        [.bootstrap decodedBootstrap, finality, .bootstrap decodedBootstrap]).store.map (·.finalizedHeader.beacon.slot) =
          some 2560000 := by
  have hf : handle libraries (.initial checkpoint) (.bootstrap decodedBootstrap) =
      ⟨checkpoint, checkpoint, some store⟩ := handle_bootstrap rfl
  have hfin : ((LightClientSnapshot.mk checkpoint checkpoint (some store)).handle libraries finality).store.map
      (·.finalizedHeader.beacon.slot) = some 2560032 := by decide +kernel
  have hcon : ((LightClientSnapshot.mk checkpoint checkpoint (some store)).handle libraries finality).config = checkpoint := by
    decide +kernel
  refine ⟨?_, ?_⟩
  · simpa only [runFrom, foldl_cons, foldl_nil, hf] using hfin
  · simp only [runFrom, foldl_cons, foldl_nil, hf, handle_bootstrap hcon]
    rfl

open StoreWitness in
/-- With one bootstrap the same update only moves the store forward. -/
theorem light_client_store_moves_forward_one_update :
    ∃ store', (runFrom (LightClientSnapshot.handle libraries) (.initial checkpoint) [.bootstrap decodedBootstrap, finality]).store =
      some store' ∧ Advances store store' := by
  have hf : handle libraries (.initial checkpoint) (.bootstrap decodedBootstrap) =
      ⟨checkpoint, checkpoint, some store⟩ := handle_bootstrap rfl
  have hs : (runFrom (handle libraries) (.initial checkpoint) [.bootstrap decodedBootstrap]).store =
      some store := by
    simp only [runFrom, foldl_cons, foldl_nil, hf]
  refine (light_client_store_moves_forward libraries checkpoint [.bootstrap decodedBootstrap, finality] ?_).2.1
    [.bootstrap decodedBootstrap] [finality] (prefix_refl _) store hs
  intro pre decoded hpre
  rcases pre with - | ⟨first, - | ⟨second, rest⟩⟩
  · rfl
  · obtain ⟨-, hr⟩ := cons_prefix_cons.mp hpre
    have heq := (cons_prefix_cons.mp hr).1
    cases heq
  · exact absurd hpre.length_le (by simp)

end Logex
