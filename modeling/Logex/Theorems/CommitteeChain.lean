import Logex.Theorems.LightClientStore

/-!
# The sync-committee chain

Along every run from a verified bootstrap the store's current committee is the committee of the finalized header's period and
its next committee, when known, is that of the period after it. The consensus specification asserts that the finalized period
stays the store's while the next committee is unknown; the client has no such assertion, and the fact is recovered here from
the update filter (`Admissible`). The saved best update stays admissible until it is applied because every application
forgets it.
-/

namespace Logex

open Lib

variable {u : VerifiedLightClientUpdate}

namespace CommitteeAux

variable {Γ : Crypto} {C : Nat → SyncCommitteeData}

/-- What the update filter leaves of an update, relative to a store: it is attested in the store's period or in the one after
it, the latter only when the next committee is known, and the committee it carries is that of the period after it. -/
structure Admissible (C : Nat → SyncCommitteeData) (store : VerifiedLightClientStore)
    (update : VerifiedLightClientUpdate) : Prop where
  finalized_le : update.finalizedSlot ≤ update.attestedHeader.beacon.slot
  period_le : store.period ≤ syncCommitteePeriodAtSlot update.attestedHeader.beacon.slot
  le_period : syncCommitteePeriodAtSlot update.attestedHeader.beacon.slot ≤ store.period + 1
  known : syncCommitteePeriodAtSlot update.attestedHeader.beacon.slot ≠ store.period → store.nextSyncCommittee.isSome
  carries : ∀ c, update.nextSyncCommittee = some c →
    c = C (syncCommitteePeriodAtSlot update.attestedHeader.beacon.slot + 1)

/-- The committees of a store are those of its finalized period and the period after it, and the saved update is admissible. -/
structure OnChain (C : Nat → SyncCommitteeData) (store : VerifiedLightClientStore) : Prop where
  current : store.currentSyncCommittee = C store.period
  next : ∀ c, store.nextSyncCommittee = some c → c = C (store.period + 1)
  best : ∀ u, store.bestValidUpdate = some u → Admissible C store u

/-- The finalized period stays or advances by one, and advances only when the next committee was known. -/
def PeriodStep (store store' : VerifiedLightClientStore) : Prop :=
  store.period ≤ store'.period ∧ store'.period ≤ store.period + 1 ∧
    (store'.period ≠ store.period → store.nextSyncCommittee.isSome)

theorem PeriodStep.refl (store : VerifiedLightClientStore) : PeriodStep store store :=
  ⟨le_rfl, Nat.le_succ _, fun h => absurd rfl h⟩

/-- Admissibility depends only on the finalized header and on the next committee. -/
theorem Admissible.sameChain {store st' : VerifiedLightClientStore}
    (h : Admissible C store u) (hs : SameChain store st') : Admissible C st' u where
  finalized_le := h.finalized_le
  period_le := by rw [hs.period]; exact h.period_le
  le_period := by rw [hs.period]; exact h.le_period
  known := by rw [hs.period, hs.next]; exact h.known
  carries := h.carries

/-! ## Verification -/

/-- The signature and the committee proof are sound for one verified update: signed by the committee of the period it is
attested in, it carries the committee of the period after it. -/
def SoundUpdate (C : Nat → SyncCommitteeData) (store : VerifiedLightClientStore) (verified : VerifiedLightClientUpdate) : Prop :=
  ∀ p, store.committeeFor verified.signatureSlot = .ok (C p) →
    syncCommitteePeriodAtSlot verified.attestedHeader.beacon.slot = p →
    ∀ c, verified.nextSyncCommittee = some c → c = C (p + 1)

variable {store : VerifiedLightClientStore}

/-- An update attested in the store's period that does not contradict the known next committee carries that committee. -/
theorem eq_known_of_consistent {upd : VerifiedLightClientUpdate}
    {c k : SyncCommitteeData} (h : contradictsKnownCommittee store upd = false)
    (hc : upd.nextSyncCommittee = some c) (hk : store.nextSyncCommittee = some k)
    (hp : syncCommitteePeriodAtSlot upd.attestedHeader.beacon.slot = store.period) : c = k := by
  simpa [contradictsKnownCommittee, hc, hk, hp] using h

/-- A verified update is admissible. -/
theorem admissible_of_verified {upd ver : VerifiedLightClientUpdate} (hon : OnChain C store) (hf : VerifiedFacts store upd ver)
    (hs : SoundUpdate C store ver) : Admissible C store ver := by
  have hatt := hf.attestedHeader
  have hlow : store.period ≤ syncCommitteePeriodAtSlot upd.attestedHeader.beacon.slot := by
    rcases hf.relevant with hlt | ⟨-, heq⟩
    · exact syncCommitteePeriodAtSlot_mono (le_of_lt hlt)
    · exact le_of_eq heq.symm
  have hsp := syncCommitteePeriodAtSlot_mono (le_of_lt hf.attested_lt)
  obtain ⟨com, hcom⟩ := hf.signed
  have hca := committeeFor_eq_ok hcom
  unfold SoundUpdate at hs
  rw [hf.signatureSlot, hatt, hf.nextSyncCommittee] at hs
  refine ⟨?_, ?_, ?_, ?_, ?_⟩
  · rw [hf.finalizedSlot, hatt]
    exact hf.finalized_le
  · rw [hatt]
    exact hlow
  · rw [hatt]
    rcases hca with ⟨hp, -⟩ | ⟨hp, -⟩ <;> omega
  · rw [hatt]
    intro hne
    rcases hca with ⟨hp, -⟩ | ⟨-, hn⟩
    · omega
    · simp [hn]
  · rw [hatt, hf.nextSyncCommittee]
    intro c hc
    rcases hca with ⟨hp, hcur⟩ | ⟨hp, hn⟩
    · -- Signed by the current committee, so attested in the store's period.
      have hap : syncCommitteePeriodAtSlot upd.attestedHeader.beacon.slot = store.period := by omega
      rw [hap]
      exact hs store.period (by rw [hcom, hcur, hon.current]) hap c hc
    · by_cases hap : syncCommitteePeriodAtSlot upd.attestedHeader.beacon.slot = store.period
      · -- Signed after the boundary, attested before it: the committee is the known one.
        rw [hap, eq_known_of_consistent hf.consistent hc hn hap]
        exact hon.next com hn
      · have hap' : syncCommitteePeriodAtSlot upd.attestedHeader.beacon.slot = store.period + 1 := by omega
        rw [hap']
        exact hs (store.period + 1) (by rw [hcom, hon.next com hn]) hap' c hc

/-! ## Applying an update -/

/-- The period of the finalized header after an admissible update is applied. -/
theorem apply_period (store : VerifiedLightClientStore) (u : VerifiedLightClientUpdate) :
    (applyValidatedLightClientUpdate store u).period = max store.period (syncCommitteePeriodAtSlot u.finalizedSlot) := by
  unfold VerifiedLightClientStore.period
  rw [apply_finalizedSlot]
  rcases le_total store.finalizedHeader.beacon.slot u.finalizedSlot with h | h
  · rw [max_eq_right h, max_eq_right (syncCommitteePeriodAtSlot_mono h)]
  · rw [max_eq_left h, max_eq_left (syncCommitteePeriodAtSlot_mono h)]

/-- Applying an admissible update moves the period by at most one, and only to a known committee. -/
theorem apply_periodStep (h : Admissible C store u) : PeriodStep store (applyValidatedLightClientUpdate store u) := by
  have hfin := syncCommitteePeriodAtSlot_mono h.finalized_le
  have hle := h.le_period
  unfold PeriodStep
  rw [apply_period]
  refine ⟨le_max_left _ _, by omega, fun hne => h.known ?_⟩
  omega

/-- Applying an admissible update keeps the committees on the chain. -/
theorem apply_onChain (hcur : store.currentSyncCommittee = C store.period)
    (hnt : ∀ c, store.nextSyncCommittee = some c → c = C (store.period + 1)) (h : Admissible C store u) :
    OnChain C { applyValidatedLightClientUpdate store u with bestValidUpdate := none } := by
  have hfin := syncCommitteePeriodAtSlot_mono h.finalized_le
  have hh := h.le_period
  have hper := apply_period store u
  suffices hm : (applyValidatedLightClientUpdate store u).currentSyncCommittee =
      C (applyValidatedLightClientUpdate store u).period ∧
      ∀ c, (applyValidatedLightClientUpdate store u).nextSyncCommittee = some c →
        c = C ((applyValidatedLightClientUpdate store u).period + 1) from
    ⟨hm.1, hm.2, nofun⟩
  cases hn : store.nextSyncCommittee with
  | none =>
    -- The next committee is unknown, so the update is attested in the store's period.
    have hatt : syncCommitteePeriodAtSlot u.attestedHeader.beacon.slot = store.period := by
      by_contra hne
      have := h.known hne
      simp [hn] at this
    obtain ⟨hc, hx⟩ := apply_committees store u
    simp only [rotateCommittees, hn] at hc hx
    have hs : (applyValidatedLightClientUpdate store u).period = store.period := by omega
    rw [hc, hx, hs]
    refine ⟨hcur, fun c hcs => ?_⟩
    rw [h.carries c hcs, hatt]
  | some next =>
    by_cases hrot : syncCommitteePeriodAtSlot u.finalizedSlot = store.period + 1
    · obtain ⟨hc, hx⟩ := apply_committees store u
      simp only [rotateCommittees, hn, hrot, if_true] at hc hx
      have hatt : syncCommitteePeriodAtSlot u.attestedHeader.beacon.slot = store.period + 1 := by omega
      have hadv : (applyValidatedLightClientUpdate store u).period = store.period + 1 := by omega
      rw [hc, hx, hadv]
      refine ⟨hnt next hn, fun c hcs => ?_⟩
      rw [h.carries c hcs, hatt]
    · obtain ⟨hc, hx⟩ := apply_committees store u
      simp only [rotateCommittees, hn, hrot, if_false] at hc hx
      have hs : (applyValidatedLightClientUpdate store u).period = store.period := by omega
      rw [hc, hx, hs]
      refine ⟨hcur, fun c hcs => ?_⟩
      rw [← Option.some.inj hcs]
      exact hnt next hn

/-! ## The operations -/

/-- The update the timeout applies is admissible when the saved one is. -/
theorem forcedUpdate_admissible {best : VerifiedLightClientUpdate}
    (h : Admissible C store best) : Admissible C store (forcedUpdate store best) := by
  unfold forcedUpdate
  split
  · exact ⟨le_rfl, h.period_le, h.le_period, h.known, h.carries⟩
  · exact h

/-- Processing an admissible update keeps the store on the chain. -/
theorem process_onChain (hon : OnChain C store) (h : Admissible C store u) :
    OnChain C (processLightClientUpdate store u).store ∧ PeriodStep store (processLightClientUpdate store u).store := by
  have hs := recordUpdate_sameChain store u
  have hrec : Admissible C (recordUpdate store u) u := h.sameChain hs
  have hcur : (recordUpdate store u).currentSyncCommittee = C (recordUpdate store u).period := by
    rw [hs.current, hs.period]
    exact hon.current
  have hn : ∀ c, (recordUpdate store u).nextSyncCommittee = some c → c = C ((recordUpdate store u).period + 1) := by
    rw [hs.next, hs.period]
    exact hon.next
  unfold processLightClientUpdate
  simp only
  split
  · refine ⟨apply_onChain hcur hn hrec, ?_⟩
    have hst := apply_periodStep hrec
    unfold PeriodStep at hst
    rw [hs.period, hs.next] at hst
    exact hst
  · refine ⟨⟨hcur, hn, fun best hb => ?_⟩, ?_⟩
    · rcases recordUpdate_best store u with heq | heq
      · exact (hon.best best (heq ▸ hb)).sameChain hs
      · rw [heq] at hb
        rw [← Option.some.inj hb]
        exact hrec
    · unfold PeriodStep
      rw [hs.period]
      exact PeriodStep.refl store

/-- The timeout keeps the store on the chain. -/
theorem force_onChain {store store' : VerifiedLightClientStore} {slot : Nat} (hon : OnChain C store)
    (h : forceUpdateLightClientStore store slot = some store') : OnChain C store' ∧ PeriodStep store store' := by
  unfold forceUpdateLightClientStore at h
  split at h
  · nomatch h
  · obtain ⟨best, hb, hs⟩ := Option.map_eq_some_iff.mp h
    subst hs
    have hadm := forcedUpdate_admissible (hon.best best hb)
    exact ⟨apply_onChain hon.current hon.next hadm, apply_periodStep hadm⟩

/-- BLS and Merkle soundness for one operation at the store it meets: an update that passes verification, signed by the
committee of the period it is attested in, carries the committee of the period after it. -/
def SoundAt (Γ : Crypto) (C : Nat → SyncCommitteeData) (store : VerifiedLightClientStore) : LightClientOp → Prop
  | .update u finalityBranch nextBranch aggregate currentSlot =>
    ∀ verified, verifyValidLightClientUpdateAtSlot Γ store u finalityBranch nextBranch aggregate currentSlot = .ok verified →
      SoundUpdate C store verified
  | .force _ => True

/-- Every operation keeps the store on the chain. -/
theorem op_onChain {op : LightClientOp} (hon : OnChain C store)
    (hs : SoundAt Γ C store op) : OnChain C (op.run Γ store) ∧ PeriodStep store (op.run Γ store) := by
  cases op with
  | update u fb nb agg cs =>
    simp only [LightClientOp.run]
    split
    · exact ⟨hon, PeriodStep.refl store⟩
    · rename_i verified hv
      exact process_onChain hon (admissible_of_verified hon (verify_facts hv) (hs verified hv))
  | force cs =>
    simp only [LightClientOp.run]
    cases hf : forceUpdateLightClientStore store cs with
    | none => exact ⟨hon, PeriodStep.refl store⟩
    | some store' => exact force_onChain hon hf

/-- A verified bootstrap whose committee is that of its period starts on the chain. -/
theorem bootstrap_onChain {dec : DecodedBootstrap} {checkpoint : WeakSubjectivityCheckpoint}
    {store : VerifiedLightClientStore} (h : verifyBootstrapPayload Γ dec checkpoint = .ok store)
    (hC : store.currentSyncCommittee = C store.period) : OnChain C store := by
  obtain ⟨header, -, h⟩ := bind_eq_ok.mp h
  obtain ⟨-, h⟩ := rejectIf_bind.mp h
  obtain ⟨-, h⟩ := rejectIf_bind.mp h
  obtain ⟨-, h⟩ := rejectIf_bind.mp h
  have hst := Except.ok.inj h
  refine ⟨hC, fun c hc => ?_, fun u hu => ?_⟩
  · rw [← hst] at hc
    nomatch hc
  · rw [← hst] at hu
    nomatch hu

end CommitteeAux

open CommitteeAux

/-- Sync-committee chain safety. From a verified bootstrap whose committee is `C` of its period, along any run whose verified
updates are sound, after every step the current committee is `C` of the finalized period and the next one, when known, is `C`
of the period after it; every step moves the finalized period by at most one, and only when the next committee was known; and
at every point a timeout, whatever update was saved, leaves committees of their own periods. -/
theorem committee_chain_safety (Γ : Crypto) (C : Nat → SyncCommitteeData) (decoded : DecodedBootstrap)
    (checkpoint : WeakSubjectivityCheckpoint) (store₀ : VerifiedLightClientStore)
    (hboot : verifyBootstrapPayload Γ decoded checkpoint = .ok store₀) (hC : store₀.currentSyncCommittee = C store₀.period)
    (ops : List LightClientOp) (hsound : ∀ pre op, pre ++ [op] <+: ops → SoundAt Γ C (runLightClient Γ store₀ pre) op) :
    (∀ pre, pre <+: ops →
      (runLightClient Γ store₀ pre).currentSyncCommittee = C (runLightClient Γ store₀ pre).period ∧
      ∀ c, (runLightClient Γ store₀ pre).nextSyncCommittee = some c → c = C ((runLightClient Γ store₀ pre).period + 1)) ∧
    (∀ pre op, pre ++ [op] <+: ops →
      (runLightClient Γ store₀ pre).period ≤ (runLightClient Γ store₀ (pre ++ [op])).period ∧
      (runLightClient Γ store₀ (pre ++ [op])).period ≤ (runLightClient Γ store₀ pre).period + 1 ∧
      ((runLightClient Γ store₀ (pre ++ [op])).period ≠ (runLightClient Γ store₀ pre).period →
        (runLightClient Γ store₀ pre).nextSyncCommittee.isSome)) ∧
    (∀ pre slot forced, pre <+: ops → forceUpdateLightClientStore (runLightClient Γ store₀ pre) slot = some forced →
      forced.currentSyncCommittee = C forced.period ∧
      ∀ c, forced.nextSyncCommittee = some c → c = C (forced.period + 1)) := by
  have hinv : ∀ pre, pre <+: ops → OnChain C (runLightClient Γ store₀ pre) :=
    runFrom_inv (OnChain C) (bootstrap_onChain hboot hC)
      (fun pre op hpre hon => (op_onChain hon (hsound pre op hpre)).1)
  refine ⟨fun pre hpre => ⟨(hinv pre hpre).current, (hinv pre hpre).next⟩, fun pre op hpre => ?_,
    fun pre slot forced hpre hf => ?_⟩
  · have hon := hinv pre ((List.prefix_append pre [op]).trans hpre)
    have hs := (op_onChain hon (hsound pre op hpre)).2
    rw [show runLightClient Γ store₀ (pre ++ [op]) = op.run Γ (runLightClient Γ store₀ pre) from runFrom_concat _ _ _ _]
    exact hs
  · have hfor := (force_onChain (hinv pre hpre) hf).1
    exact ⟨hfor.current, hfor.next⟩

namespace CommitteeWitness

open StoreWitness (bootstrapHeader checkpoint committee decodedBootstrap finalizedHeader pubkey store)

/-- SHA-256 at the inputs of the run below, keyed by the number the 64 bytes spell: besides those of the bootstrap, the branches of
the two updates and their signing roots. -/
def sha256Table : List (Nat × B256) :=
  StoreWitness.sha256Table ++
  [(0xc04d569dbf0c6323f685ac7791d132bcf7d8134fb0538ff5ef32352006f06ddf776150fb8fd434665232174122226c65701fa0eb5fc0193bf9e16a4ac15aa2b,
      0xca0dba4f336d40510fdc76cbbdba932bd15900dcb7ec095a2d9ef5a34e4d15dc),
    (0xb8ecc4fa691bf2c58ac0e0f820122089f1578a444e11d09b3cc0b785acf84b5ca0dba4f336d40510fdc76cbbdba932bd15900dcb7ec095a2d9ef5a34e4d15dc,
      0xa0840790fca8ddea77c9af1ed153220dd1c945acce7fc56fd9474b9530657c36),
    (0xa0840790fca8ddea77c9af1ed153220dd1c945acce7fc56fd9474b9530657c36,
      0x3f9202f5826da95d2c5ea98927f5943af15483bcce468443f44834a3a22940bb),
    (0x3f9202f5826da95d2c5ea98927f5943af15483bcce468443f44834a3a22940bb0000000000000000000000000000000000000000000000000000000000000000,
      0xc342688ade642952664b2b600b38b45c1b5ebeb6f4c217c1375c976da3bf822f),
    (0xc342688ade642952664b2b600b38b45c1b5ebeb6f4c217c1375c976da3bf822f,
      0x273d1d53afe5e6e23b992a89d89bd3a397cc4aa794be3f244c85499f9bf684f6),
    (0xd94ee417de1621accd167dbda54af41a9beaaf50183f817217b40c08151c11b707000000afcaaba0efab1ca832a15152469bb09bb84641c405171dfa2d3fb45f,
      0x33300754d188bec5f84366f3b79af94c32e548d035c144923db010af24273341),
    (0x13901000000000000000000000000000000000000000000000000000000000029ad66074659ea0fbd2877e30975d7c3609003dc67ca097aa846e9e5c2207dbd,
      0x7e9bb4296e6900c13ce1516fb897498980210c174a19e7478cf31f09f81319eb),
    (0x7e9bb4296e6900c13ce1516fb897498980210c174a19e7478cf31f09f81319eb0000000000000000000000000000000000000000000000000000000000000000,
      0xa0a0dd63dd3b9ebc952da55851286832ba51c14dedbcc402090cfb0f5d0ddb24),
    (0xa0a0dd63dd3b9ebc952da55851286832ba51c14dedbcc402090cfb0f5d0ddb240000000000000000000000000000000000000000000000000000000000000000,
      0x5afca3ad6a282184bfed07a3be2f2143120af924ead7e7db49a5618e49e67390),
    (0x5afca3ad6a282184bfed07a3be2f2143120af924ead7e7db49a5618e49e67390,
      0x57eb15f2c44c030364b378d6acaace488807f34fe9a1b896283a7f9eb1053bca),
    (0x57eb15f2c44c030364b378d6acaace488807f34fe9a1b896283a7f9eb1053bca0000000000000000000000000000000000000000000000000000000000000000,
      0xd307a8c6ee4a767cd58ddf49c2ca0ea6edfb70da563332f0f1b4b666f4647c9d),
    (0xd307a8c6ee4a767cd58ddf49c2ca0ea6edfb70da563332f0f1b4b666f4647c9d,
      0xb277c9ef6c95cad2db3c05d58fdd4ee5fc67e8bfdccd778f516641853911ccd6),
    (0xfd086433811285e1525efc16a2e84bbd9e7572974bd942254a5bf88c0d1effd507000000afcaaba0efab1ca832a15152469bb09bb84641c405171dfa2d3fb45f,
      0x7eb7ec303cc6e6022cb5bbc2a9a8e2c646a9e9b02af985354c837f80e4b3e6a6)]

/-- The public key of the secret key 2. -/
def nextPubkey : FixedBytes 48 := 0xa572cbea904d67468808c8eb50a9450c9721db309128012543902d0ac358a62ae28f75bb8f1c7c42c39a8c5529bf0f4e

/-- The committee of the next period: 512 such keys. -/
def nextCommittee : SyncCommitteeData :=
  ⟨List.replicate 512 nextPubkey, 0xae0031515253249cc68e8ff6381c85231781f9ba5c251f8d663d634b461bc6a35ecccd2938704d36cfd7eb7bcf843b82⟩

/-- The aggregate signature of each committee over the attested header of its update. -/
def signature : FixedBytes 96 :=
  0xa5b62e709fbc8ad6dac2125f14511d4d1e97f9b8e65a3de12dbb38c06628e120d6904be840df1915386cf48a8a9b2b8110824604d9391f15de1a7e44a2d6ab33d68f3fca74db67e37cf9269257143682fc15c2d798cd5b7d463cfb6b0db08362

@[inherit_doc signature]
def nextSignature : FixedBytes 96 :=
  0xaee49c74d9f224642e471c170100492003d2a71d592c11d1d982b3c57df553982ec7a12ee64b15243fa1d356a349db3b0d8b7a949ffe4d0ed46f29a12396479dd768169343a14cb102818d6fe3e700fc4a124b6b06171b887a3aa5a89776aceb

/-- The roots of the five headers, by their slots. -/
def headerRoots : List (Nat × B256) :=
  [(2560000, 0x69a8180baf93ead874c3cd85945300a679436c3aec33c198991886d01722e4d8),
    (2560032, 0x0369a927655fb2e61d92eada1125607ea2a8a0f4dc4e30f787dc776f4ca16d25),
    (2560096, 0xd94ee417de1621accd167dbda54af41a9beaaf50183f817217b40c08151c11b7),
    (2564128, 0x29ad66074659ea0fbd2877e30975d7c3609003dc67ca097aa846e9e5c2207dbd),
    (2564192, 0xfd086433811285e1525efc16a2e84bbd9e7572974bd942254a5bf88c0d1effd5)]

/-- The libraries at the inputs of the run below. -/
def libraries : Crypto where
  PublicKey := FixedBytes 48
  Signature := FixedBytes 96
  sha256 bytes := (sha256Table.lookup (bytes.foldl (fun acc b => acc * 256 + b.toNat) 0)).getD 0
  merkleRoot bytes leaves :=
    let first := FixedBytes.ofBytes 32 (bytes.take 32)
    if leaves = 512 then
      if first = 0xacceed0da52e987a6acc75353ca0496f3732176494d25d2ac122721c6a99885c then
        0x91a59b59feaaa817c685087f98f0fda225c861cb02660b2231d6e0718312d55b
      else 0xf6281a79774e0b22323e9f5cb736f2de83c0319d9c475ab90b59acdf86f42f7c
    else if bytes.length = 64 then
      if first = 0x91a59b59feaaa817c685087f98f0fda225c861cb02660b2231d6e0718312d55b then
        0x0c04d569dbf0c6323f685ac7791d132bcf7d8134fb0538ff5ef32352006f06dd
      else 0xf776150fb8fd434665232174122226c65701fa0eb5fc0193bf9e16a4ac15aa2b
    else (headerRoots.lookup (ofLeBytes (bytes.take 8))).getD 0
  pubkeyRoot key :=
    if key = pubkey then 0xacceed0da52e987a6acc75353ca0496f3732176494d25d2ac122721c6a99885c
    else if key = nextPubkey then 0x069d5c840f4d06a1c68aeca08e2fa5cf07586b12821ff648926762a266795ddd
    else if key = nextCommittee.aggregatePubkey then 0x7636dd03114532614ba366ea837a1366d0be54bba9eba6912588d0034a6b90b7
    else 0x702a69edd8bca65701fb0a64667b3d08177ad90940e3cd5876f74b1862f81f19
  keyValidate key := if key = pubkey ∨ key = nextPubkey then .ok key else .error "BLST_BAD_ENCODING"
  sigValidate bytes := if bytes = signature ∨ bytes = nextSignature then .ok bytes else .error "BLST_BAD_ENCODING"
  fastAggregateVerify sig message dst keys :=
    decide (dst = syncCommitteeSignatureDst) &&
      (decide (sig = signature ∧ keys = List.replicate 512 pubkey ∧
          message = FixedBytes.toBytes (n := 32) 0x33300754d188bec5f84366f3b79af94c32e548d035c144923db010af24273341) ||
        decide (sig = nextSignature ∧ keys = List.replicate 512 nextPubkey ∧
          message = FixedBytes.toBytes (n := 32) 0x7eb7ec303cc6e6022cb5bbc2a9a8e2c646a9e9b02af985354c837f80e4b3e6a6))

/-- A header without an execution payload. -/
def headerAt (slot : Nat) (stateRoot : B256) : VerifiedLightClientHeader where
  fork := .capella
  beacon := { slot, proposerIndex := 0, parentRoot := 0, stateRoot, bodyRoot := 0 }
  execution := none

/-- An update of period 312 by its committee that finalizes a header and proves the next committee, and one of period 313 by the
next committee that finalizes a header there. -/
def ops : List LightClientOp :=
  [.update
    { attestedHeader := headerAt 2560096 0x273d1d53afe5e6e23b992a89d89bd3a397cc4aa794be3f244c85499f9bf684f6
      finalizedHeader := some finalizedHeader
      finalizedCheckpoint := none
      nextSyncCommittee := some nextCommittee
      signatureSlot := 2560097
      participants := 512 }
    (some [0x8138010000000000000000000000000000000000000000000000000000000000, 0,
      0xca0dba4f336d40510fdc76cbbdba932bd15900dcb7ec095a2d9ef5a34e4d15dc, 0, 0, 0])
    (some [0x0c04d569dbf0c6323f685ac7791d132bcf7d8134fb0538ff5ef32352006f06dd,
      0x0b8ecc4fa691bf2c58ac0e0f820122089f1578a444e11d09b3cc0b785acf84b5, 0, 0, 0])
    { syncCommitteeBits := BitVec.allOnes (8 * 64), syncCommitteeSignature := signature } 2560100,
  .update
    { attestedHeader := headerAt 2564192 0xb277c9ef6c95cad2db3c05d58fdd4ee5fc67e8bfdccd778f516641853911ccd6
      finalizedHeader := some (headerAt 2564128 0)
      finalizedCheckpoint := none
      nextSyncCommittee := none
      signatureSlot := 2564193
      participants := 512 }
    (some [0x0139010000000000000000000000000000000000000000000000000000000000, 0, 0, 0, 0, 0]) none
    { syncCommitteeBits := BitVec.allOnes (8 * 64), syncCommitteeSignature := nextSignature } 2564200]

/-- The committees of the chain. -/
def committees (period : Nat) : SyncCommitteeData := if period = 312 then store.currentSyncCommittee else nextCommittee

theorem branch_valid : isValidNormalizedMerkleBranch libraries (committee.treeHashRoot libraries) [0, 0, 0, 0, 0]
    (currentSyncCommitteeGindexAtSlot bootstrapHeader.beacon.slot) bootstrapHeader.beacon.stateRoot = true := by
  rw [SyncCommitteeRaw.treeHashRoot, syncCommitteePubkeysRootFromBytes, StoreWitness.committee_pubkeyList]
  decide +kernel

theorem bootstrap_verified : verifyBootstrapPayload libraries decodedBootstrap checkpoint = .ok store := by
  unfold verifyBootstrapPayload
  refine bind_eq_ok.mpr ⟨bootstrapHeader, rfl, rejectIf_bind.mpr ⟨by decide +kernel, ?_⟩⟩
  refine rejectIf_bind.mpr ⟨by decide, rejectIf_bind.mpr ⟨?_, ?_⟩⟩
  · exact fun hinv => Bool.noConfusion (branch_valid.symm.trans hinv)
  · rw [show decodedBootstrap.currentSyncCommittee.toPersisted = ⟨List.replicate 512 pubkey, committee.aggregatePubkey⟩ from
      congrArg (SyncCommitteeData.mk · _) StoreWitness.committee_pubkeyList]
    rfl

/-- Only the update of period 312 carries a committee, that of the next period. -/
theorem ops_sound (pre : List LightClientOp) (op : LightClientOp) (hpre : pre ++ [op] <+: ops) :
    SoundAt libraries committees (runLightClient libraries store pre) op := by
  have hmem : op ∈ ops := hpre.subset (by simp)
  rcases List.mem_cons.mp hmem with rfl | hmem
  · intro verified hv p _ hp c hc
    rw [(verify_facts hv).nextSyncCommittee] at hc
    rw [(verify_facts hv).attestedHeader] at hp
    cases hc
    subst hp
    exact (if_neg (by decide +kernel)).symm
  · obtain rfl := List.mem_singleton.mp hmem
    intro verified hv p _ _ c hc
    rw [(verify_facts hv).nextSyncCommittee] at hc
    nomatch hc

theorem period_after : (runLightClient libraries store ops).period = 313 := by decide +kernel

end CommitteeWitness

open CommitteeWitness StoreWitness in
/-- The first update is accepted and teaches the next committee, the second is accepted and hands over to it. -/
theorem committee_chain_safety_rotation : store.period = 312 ∧ (runLightClient CommitteeWitness.libraries store ops).period = 313 ∧
    (runLightClient CommitteeWitness.libraries store ops).currentSyncCommittee = nextCommittee := by
  refine ⟨by decide +kernel, period_after, ?_⟩
  have hcurrent := ((committee_chain_safety CommitteeWitness.libraries committees decodedBootstrap checkpoint store
    CommitteeWitness.bootstrap_verified (if_pos (by decide +kernel)).symm ops ops_sound).1 ops (List.prefix_refl ops)).1
  rwa [period_after] at hcurrent

end Logex
