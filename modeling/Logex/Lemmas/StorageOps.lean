import Logex.Lemmas.Catalog

/-!
# What the public operations do

`Did` says what an operation left that returned. One lemma for each operation gives its guards and its effect, or that it failed and
either closed storage or changed nothing.
-/

namespace Logex

open Lib

variable {recentHeaders : List Header} {anchor : Option ExecutionAnchor} {header : Header}

/-- What an operation leaves: well-formed storage with this progress, its settings kept and its segments still valid. -/
structure Did (hashes : Hashes) (s s' : NativeStorage) (state : StorageState) : Prop where
  wf : StorageWf s'
  state : s'.catalog.state = state
  settings : s'.catalog.formatVersion = s.catalog.formatVersion ∧ s'.catalog.hotTargetRows = s.catalog.hotTargetRows
  valid : SegmentsValid hashes s → SegmentsValid hashes s'

/-- A failed operation closed storage, or stored nothing and left the progress as it was. -/
def Refused (hashes : Hashes) (s s' : NativeStorage) : Prop :=
  s'.recoveryRequired = true ∨ Did hashes s s' s.catalog.state

theorem Upkeep.settings {hashes : Hashes} {s s' : NativeStorage} (h : Upkeep hashes s s') :
    s'.catalog.formatVersion = s.catalog.formatVersion ∧ s'.catalog.hotTargetRows = s.catalog.hotTargetRows := by
  induction h with
  | quiet _ cat _ => rw [cat]; exact ⟨rfl, rfl⟩
  | run run => exact ⟨run.same.formatVersion, run.same.catalogTarget⟩
  | trans _ _ ih₁ ih₂ => exact ⟨ih₂.1.trans ih₁.1, ih₂.2.trans ih₁.2⟩

namespace Did

variable {hashes : Hashes} {s s' s'' : NativeStorage} {rows : List LogRow} {state st' : StorageState}

theorem of_upkeep (h : Upkeep hashes s s') (hs : StorageWf s) : Did hashes s s' s.catalog.state :=
  ⟨h.wf hs, h.state, h.settings, h.valid hs⟩

theorem of_run (h : SegmentRun hashes s s' rows) (hs : StorageWf s) (hp : rows ≠ [] → s.pendingIngestion.isSome = true) :
    Did hashes s s' s.catalog.state :=
  ⟨h.wf hs, h.same.state, ⟨h.same.formatVersion, h.same.catalogTarget⟩, fun hv => h.valid hs hv hp⟩

theorem trans (h : Did hashes s s' state) (h' : Did hashes s' s'' st') :
    Did hashes s s'' st' := by
  exact ⟨h'.wf, h'.state, ⟨h'.settings.1.trans h.settings.1, h'.settings.2.trans h.settings.2⟩,
    fun hv => h'.valid (h.valid hv)⟩

/-- Upkeep after an operation belongs to it. -/
theorem then_upkeep (h : Did hashes s s' state) (h' : Upkeep hashes s' s'') : Did hashes s s'' state := by
  have := h.trans (Did.of_upkeep h' h.wf)
  rwa [h.state] at this

/-- New progress and anchors leave rows and segments alone. -/
theorem restate (h : Did hashes s s' state) {anchors : ChainAnchors} (hcat : s''.catalog = { s'.catalog with state := st', anchors })
    (hd : s''.disk.segments = s'.disk.segments) : Did hashes s s'' st' := by
  obtain ⟨⟨⟨h1, h2, h3, h4, h5⟩, hh⟩, -, hset, hva⟩ := h
  refine ⟨⟨⟨?_, ?_, ?_, ?_, ?_⟩, ?_⟩, by rw [hcat], by rwa [hcat], fun hv => ?_⟩
  iterate 5 rwa [hcat]
  · rwa [hcat, hd]
  · obtain ⟨hv1, hv2⟩ := hva hv
    exact ⟨by rwa [hcat], by rwa [hcat]⟩

end Did

theorem Refused.nothing {hashes : Hashes} {s : NativeStorage} (hs : StorageWf s) : Refused hashes s s :=
  .inr (.of_upkeep (.refl _ s) hs)

variable {w : World} {s : NativeStorage}

/-! ## Metadata -/

variable {Q : Unit → NativeStorage → Prop}

theorem wp_requireUnverifiedStorage {E : NativeStorage → Prop} : wp requireUnverifiedStorage Q E s ↔
      (¬s.recoveryRequired = true → s.catalog.state.verifiedLogCoverage = none → Q () s) ∧
        (s.recoveryRequired = true ∨ s.catalog.state.verifiedLogCoverage ≠ none → E s) := by
  simp only [requireUnverifiedStorage, wp_bind, wp_ensureWritable, wp_get, wp_failIf, Option.isSome_iff_ne_none]
  constructor
  · rintro ⟨hop, hclo⟩
    refine ⟨fun h hn => (hop h).1 (not_not.mpr hn), fun h => ?_⟩
    by_cases hr : s.recoveryRequired = true
    · exact hclo hr
    · exact (hop hr).2 (h.resolve_left hr)
  · rintro ⟨hok, herr⟩
    exact ⟨fun hr => ⟨fun hn => hok hr (not_not.mp hn), fun hs => herr (.inr hs)⟩, fun hr => herr (.inl hr)⟩

/-- A metadata operation left progress alone, or recorded its own where no coverage stands. -/
def Noted (hashes : Hashes) (s s' : NativeStorage) (next : StorageState) : Prop :=
  Did hashes s s' s.catalog.state ∨ s.catalog.state.verifiedLogCoverage = none ∧ Did hashes s s' next

section

variable (hs : StorageWf s)

include hs

/-- The common tail of the metadata operations. -/
theorem wp_note {s₁ : NativeStorage} (h₁ : Upkeep w.hashes s s₁) {unc : Prop} [Decidable unc] {ch : StorageState → StorageState} :
    wp (if unc then pure () else do
        requireUnverifiedStorage
        modifyState ch
        persistCatalog w)
      (fun _ s' => Noted w.hashes s s' (ch s.catalog.state))
      (fun s' => s'.recoveryRequired = true ∨ Noted w.hashes s s' (ch s.catalog.state)) s₁ := by
  have hdid : Did w.hashes s s₁ s.catalog.state := .of_upkeep h₁ hs
  rw [wp_ite]
  refine ⟨fun _ => .inl hdid, fun _ => ?_⟩
  rw [wp_bind, wp_requireUnverifiedStorage]
  refine ⟨fun _ hn => ?_, fun _ => .inr (.inl hdid)⟩
  rw [h₁.state] at hn
  rw [wp_bind, wp_modifyState]
  have hres : ∀ s₂ : NativeStorage, Still { s₁ with catalog := { s₁.catalog with state := ch s₁.catalog.state } } s₂ →
      Did w.hashes s s₂ (ch s.catalog.state) := fun s₂ h₂ =>
    hdid.restate (by rw [h₂.catalog, h₁.state]) h₂.segments
  exact wp_mono wp_persistCatalog (fun _ s₂ h₂ => .inr ⟨hn, hres s₂ h₂⟩) fun s₂ h₂ => .inr (.inr ⟨hn, hres s₂ h₂⟩)

theorem wp_recordSyncHead {blockNumber timestamp : Nat} {blockHash : B256} : wp (recordSyncHead w blockNumber blockHash timestamp)
      (fun _ s' => Noted w.hashes s s' { s.catalog.state with syncHead := some { blockNumber, blockHash, timestamp } })
      (fun s' => s'.recoveryRequired = true ∨
        Noted w.hashes s s' { s.catalog.state with syncHead := some { blockNumber, blockHash, timestamp } }) s := by
  unfold recordSyncHead
  rw [wp_bind, wp_ensureWritable]
  refine ⟨fun hop => ?_, fun hclo => .inl hclo⟩
  refine wp_seq (wp_hardenIngestion hs (Bool.eq_false_iff.mpr hop)) (fun _ s₁ h₁ => ?_) fun _ h => .inl h
  rw [wp_bind, wp_get]
  exact wp_note hs h₁.upkeep

theorem wp_recordCanonicalState : wp (recordCanonicalState w header recentHeaders)
      (fun _ s' => validateCachedHeaders recentHeaders = .ok () ∧ Noted w.hashes s s'
        { s.catalog.state with syncHead := some (syncHeadFromHeader w.hashes header), recentHeaders })
      (fun s' => s'.recoveryRequired = true ∨ Noted w.hashes s s' s.catalog.state ∨
        validateCachedHeaders recentHeaders = .ok () ∧ Noted w.hashes s s'
          { s.catalog.state with syncHead := some (syncHeadFromHeader w.hashes header), recentHeaders }) s := by
  unfold recordCanonicalState
  rw [wp_bind, wp_ensureWritable]
  refine ⟨fun hop => ?_, fun hclo => .inl hclo⟩
  rw [wp_bind, wp_attempt]
  refine ⟨fun _ hv => ?_, fun _ _ => .inr (.inl (.inl (.of_upkeep (.refl _ s) hs)))⟩
  refine wp_seq (wp_hardenIngestion hs (Bool.eq_false_iff.mpr hop)) (fun _ s₁ h₁ => ?_) fun _ h => .inl h
  rw [wp_bind, wp_get]
  exact wp_mono (wp_note hs h₁.upkeep) (fun _ s' h => ⟨hv, h⟩) fun _ h => h.imp_right fun h => .inr ⟨hv, h⟩

theorem wp_recordHistoricalFloor : wp (recordHistoricalFloor w header)
      (fun _ s' => header.representable = true ∧ Noted w.hashes s s' (s.catalog.state.setFloor header))
      (fun s' => s'.recoveryRequired = true ∨ Noted w.hashes s s' s.catalog.state ∨
        header.representable = true ∧ Noted w.hashes s s' (s.catalog.state.setFloor header)) s := by
  unfold recordHistoricalFloor
  rw [wp_bind, wp_attempt]
  refine ⟨fun _ hv => ?_, fun _ _ => .inr (.inl (.inl (.of_upkeep (.refl _ s) hs)))⟩
  have hv := validateCachedHeaders_singleton.mp hv
  rw [wp_bind, wp_ensureWritable]
  refine ⟨fun hop => ?_, fun hclo => .inl hclo⟩
  refine wp_seq (wp_hardenIngestion hs (Bool.eq_false_iff.mpr hop)) (fun _ s₁ h₁ => ?_) fun _ h => .inl h
  rw [wp_bind, wp_get]
  exact wp_mono (wp_note hs h₁.upkeep) (fun _ s' h => ⟨hv, h⟩) fun _ h => h.imp_right fun h => .inr ⟨hv, h⟩

theorem wp_recordChainAnchors {anchors : ChainAnchors} :
    wp (recordChainAnchors w anchors) (fun _ s' => Did w.hashes s s' s.catalog.state) (Refused w.hashes s) s := by
  unfold recordChainAnchors
  rw [wp_bind, wp_ensureWritable]
  refine ⟨fun hop => ?_, fun hclo => .inl hclo⟩
  refine wp_seq (wp_hardenIngestion hs (Bool.eq_false_iff.mpr hop)) (fun _ s₁ h₁ => ?_) fun _ h => .inl h
  have hdid : Did w.hashes s s₁ s.catalog.state := .of_upkeep h₁.upkeep hs
  rw [wp_bind, wp_get, wp_ite]
  refine ⟨fun _ => hdid, fun _ => ?_⟩
  rw [wp_bind, wp_modifyCatalog]
  have hres : ∀ s₂ : NativeStorage, Still { s₁ with catalog := { s₁.catalog with anchors } } s₂ →
      Did w.hashes s s₂ s.catalog.state := fun s₂ h₂ =>
    hdid.restate (by rw [h₂.catalog, ← hdid.state]) h₂.segments
  exact wp_mono wp_persistCatalog (fun _ s₂ h₂ => hres s₂ h₂) fun s₂ h₂ => .inr (hres s₂ h₂)

end

/-! ## Ingestion -/

/-- The progress a canonical batch leaves. -/
def StorageState.afterCanonical (state : StorageState) (hashes : Hashes) (header : Header) (recentHeaders : List Header)
    (anchor : Option ExecutionAnchor) (verification : Option (Header × VerifiedLogCoverage)) : StorageState :=
  let moved := { state with
    syncHead := some (syncHeadFromHeader hashes header), recentHeaders, verifiedLogCoverage := verification.map (·.2) }
  let floored := verification.elim moved fun verification => moved.advanceHistoricalFloor verification.1
  anchor.elim floored fun _ => floored.advanceHistoricalFloor header

variable {rows : List LogRow} {bks : List (VerifiedBlockLogs w.hashes)}

/-- Reading rows back changes nothing. -/
theorem wp_verifyAppendedEvents {a : VerifiedAppendStart} :
    wp (verifyAppendedEvents a rows) (fun _ s' => s' = s) (· = s) s := by
  unfold verifyAppendedEvents
  rw [wp_bind, wp_get, wp_bind, wp_attempt]
  refine ⟨fun rest _ => ?_, fun _ _ => rfl⟩
  rw [wp_failIf]
  exact ⟨fun _ => rfl, fun _ => rfl⟩

/-- What was checked before a canonical batch was written. -/
structure CanonicalGuards (hashes : Hashes) (rows : List LogRow) (header : Header) (recentHeaders : List Header)
    (anchor : Option ExecutionAnchor) : Prop where
  cached : validateCachedHeaders recentHeaders = .ok ()
  last : recentHeaders.getLast? = some header
  bounded : ∀ row ∈ rows, row.blockNumber ≤ header.number

theorem wp_completeDid {s₁ : NativeStorage} {state : StorageState} (h : Did w.hashes s s₁ state) :
    wp (completeIngestionBatch w) (fun _ s' => Did w.hashes s s' state) (·.recoveryRequired = true) s₁ :=
  wp_imp (wp_completeIngestionBatch h.wf) fun _ _ h' => h.then_upkeep h'.1

/-- Rows are written and read back between the checks of a batch and its progress. -/
theorem wp_ingestRows (hs : StorageWf s) {route : IngestRoute} {write progress : StorageM Unit} {c : Prop} [Decidable c]
    (hw : ∀ s₁, StorageWf s₁ → wp write (fun _ s' => SegmentRun w.hashes s₁ s' rows) (Same s₁) s₁)
    (hp : ∀ s₂, Did w.hashes s s₂ s.catalog.state → wp progress Q (·.recoveryRequired = true) s₂) :
    wp (do
        beginIngestion w rows route
        write
        runIf c (verifyAppendedEvents (captureVerifiedAppend s.catalog route) rows)
        progress) Q (Refused w.hashes s) s := by
  refine wp_seq (wp_beginIngestion hs) ?_ fun _ h => h.imp_right fun hup => .of_upkeep hup hs
  rintro _ s₁ ⟨hb, hpre⟩
  have hdid₁ : Did w.hashes s s₁ s.catalog.state := .of_upkeep hb.upkeep hs
  refine wp_seq (hw s₁ hdid₁.wf) (fun _ s₂ hrun => ?_) fun _ h => .inl (h.recoveryRequired.trans hb.closed)
  have hdid₂ := hdid₁.trans (.of_run hrun hdid₁.wf fun _ => hpre)
  rw [hdid₁.state] at hdid₂
  have hver : wp (runIf c (verifyAppendedEvents (captureVerifiedAppend s.catalog route) rows))
      (fun _ s' => s' = s₂) (· = s₂) s₂ := by
    rw [wp_runIf]
    exact ⟨fun _ => wp_verifyAppendedEvents, fun _ => rfl⟩
  refine wp_seq hver ?_ fun _ h => .inl (h ▸ hrun.same.recoveryRequired.trans hb.closed)
  rintro _ _ rfl
  exact wp_mono (hp _ hdid₂) (fun _ _ h => h) fun _ h => .inl h

theorem wp_applyCanonicalBatch (hs : StorageWf s) {ver : Option (Header × VerifiedLogCoverage)} :
    wp (applyCanonicalBatch w rows header recentHeaders anchor ver)
      (fun _ s' => CanonicalGuards w.hashes rows header recentHeaders anchor ∧ Did w.hashes s s'
        (s.catalog.state.afterCanonical w.hashes header recentHeaders anchor ver)) (Refused w.hashes s) s := by
  unfold applyCanonicalBatch
  rw [wp_bind, wp_attempt]
  refine ⟨fun _ hv => ?_, fun _ _ => .nothing hs⟩
  rw [wp_bind, wp_failIf]
  refine ⟨fun hm => ?_, fun _ => .nothing hs⟩
  rw [wp_bind, wp_get]
  refine wp_ingestRows hs (fun s₁ hs₁ => wp_commitRowsToSegments hs₁) fun s₂ hdid₂ => ?_
  rw [wp_bind, wp_modifyState, wp_bind, wp_modifyState, wp_bind, wp_modifyCatalog]
  simp only [not_or, not_not, Bool.not_eq_true, List.any_eq_false, decide_eq_true_eq, not_lt] at hm
  have hgua : CanonicalGuards w.hashes rows header recentHeaders anchor := ⟨hv, hm.1, hm.2.1⟩
  refine wp_imp (wp_completeDid ?_) fun _ s' h => ⟨hgua, h⟩
  cases anchor with
  | none | some anchor => exact hdid₂.restate (by rw [← hdid₂.state]; rfl) rfl

theorem wp_ingestCanonicalBatch (hs : StorageWf s) : wp (ingestCanonicalBatch w rows header recentHeaders anchor)
      (fun _ s' => s.catalog.state.verifiedLogCoverage = none ∧ CanonicalGuards w.hashes rows header recentHeaders anchor ∧
        Did w.hashes s s' (s.catalog.state.afterCanonical w.hashes header recentHeaders anchor none))
      (Refused w.hashes s) s := by
  unfold ingestCanonicalBatch
  rw [wp_bind, wp_requireUnverifiedStorage]
  refine ⟨fun _ hn => ?_, fun _ => .inr (.of_upkeep (.refl _ s) hs)⟩
  exact wp_imp (wp_applyCanonicalBatch hs) fun _ s' h => ⟨hn, h⟩

theorem wp_applyHistoricalBatch (hs : StorageWf s) {flo : Header} {vr : Bool}
    {cov : Option VerifiedLogCoverage} : wp (applyHistoricalBatch w rows flo vr cov)
      (fun _ s' => flo.representable = true ∧ (∀ row ∈ rows, flo.number ≤ row.blockNumber) ∧
        Did w.hashes s s' { s.catalog.state.advanceHistoricalFloor flo with verifiedLogCoverage := cov })
      (Refused w.hashes s) s := by
  unfold applyHistoricalBatch
  rw [wp_bind, wp_attempt]
  refine ⟨fun _ hv => ?_, fun _ _ => .nothing hs⟩
  rw [wp_bind, wp_failIf]
  refine ⟨fun hm => ?_, fun _ => .nothing hs⟩
  rw [wp_bind, wp_get]
  refine wp_ingestRows hs (fun s₁ hs₁ => ?_) fun s₂ hdid₂ => ?_
  · rw [wp_runIf, wp_discard]
    refine ⟨fun _ => wp_writeHistoricalRows hs₁, fun hem => ?_⟩
    rw [not_not.mp hem]
    exact .refl _ s₁
  · rw [wp_bind, wp_modifyState]
    simp only [Bool.not_eq_true, List.any_eq_false, decide_eq_true_eq, not_lt] at hm
    refine wp_imp (wp_completeDid ?_) fun _ s' h => ⟨validateCachedHeaders_singleton.mp hv, hm, h⟩
    exact hdid₂.restate (by rw [← hdid₂.state]) rfl

theorem wp_ingestHistoricalBatch (hs : StorageWf s) {flo : Header} : wp (ingestHistoricalBatch w rows flo)
      (fun _ s' => s.catalog.state.verifiedLogCoverage = none ∧ flo.representable = true ∧
        (∀ row ∈ rows, flo.number ≤ row.blockNumber) ∧
        Did w.hashes s s' { s.catalog.state.advanceHistoricalFloor flo with verifiedLogCoverage := none })
      (Refused w.hashes s) s := by
  unfold ingestHistoricalBatch
  rw [wp_bind, wp_requireUnverifiedStorage]
  refine ⟨fun _ hn => ?_, fun _ => .inr (.of_upkeep (.refl _ s) hs)⟩
  exact wp_imp (wp_applyHistoricalBatch hs) fun _ s' h => ⟨hn, h⟩

/-! ## Verified ingestion -/

theorem wp_ensureCanonicalRangeEmpty {a stop : Nat} : wp (ensureCanonicalRangeEmpty a stop) (fun _ s' => s' = s) (· = s) s := by
  unfold ensureCanonicalRangeEmpty
  rw [wp_bind, wp_get, wp_attempt]
  exact ⟨fun _ _ => rfl, fun _ _ => rfl⟩

/-- The stored tip a verified canonical batch extends. -/
def ExtendsTip (s : NativeStorage) (first : Header) : Prop :=
  match s.catalog.state.syncHead with
  | some previous => previous.blockNumber + 1 = first.number ∧ previous.blockHash = first.parentHash
  | none => True

theorem wp_requireExtendsTip {fst : VerifiedBlockLogs w.hashes} :
    wp (requireExtendsTip w fst) (fun _ s' => s' = s ∧ ExtendsTip s fst.header) (· = s) s := by
  unfold requireExtendsTip ExtendsTip
  rw [wp_bind, wp_get]
  cases s.catalog.state.syncHead with
  | none => exact wp_imp wp_ensureCanonicalRangeEmpty fun _ _ h => ⟨h, trivial⟩
  | some previous =>
    rw [wp_failIf]
    refine ⟨fun hex => ⟨rfl, ?_⟩, fun _ => rfl⟩
    simp only [not_or, not_not] at hex
    exact ⟨(checkedAdd_eq_some.mp hex.1).1.symm, hex.2⟩

/-- The coverage a verified canonical batch leaves. -/
def canonicalCoverage (hashes : Hashes) (state : StorageState) (first last : VerifiedBlockLogs hashes) : VerifiedLogCoverage where
  start := (state.verifiedLogCoverage.map (·.start)).getD first.marker
  stop := last.marker

theorem wp_ingestVerifiedCanonicalBatch (hs : StorageWf s) : wp (ingestVerifiedCanonicalBatch w rows bks recentHeaders anchor)
      (fun _ s' => ∃ fst last, VerifiedBlockLogs.verifyBatch bks rows = .ok (fst, last) ∧
        brokenWindow w.hashes recentHeaders = false ∧ ExtendsTip s fst.header ∧
        CanonicalGuards w.hashes rows last.header recentHeaders anchor ∧
        Did w.hashes s s' (s.catalog.state.afterCanonical w.hashes last.header recentHeaders anchor
          (some (fst.header, canonicalCoverage w.hashes s.catalog.state fst last)))) (Refused w.hashes s) s := by
  unfold ingestVerifiedCanonicalBatch
  rw [wp_bind, wp_ensureWritable]
  refine ⟨fun _ => ?_, fun hclo => .inl hclo⟩
  rw [wp_bind, wp_attempt]
  refine ⟨?_, fun _ _ => .nothing hs⟩
  rintro ⟨fst, last⟩ hb
  rw [wp_bind, wp_failIf]
  refine ⟨fun hwin => ?_, fun _ => .nothing hs⟩
  rw [wp_bind, wp_failIf]
  refine ⟨fun _ => ?_, fun _ => .nothing hs⟩
  refine wp_seq wp_requireExtendsTip ?_ fun | _, rfl => .nothing hs
  rintro _ _ ⟨rfl, htip⟩
  refine wp_seq wp_ensureCanonicalRangeEmpty ?_ fun | _, rfl => .nothing hs
  rintro _ _ rfl
  rw [wp_bind, wp_get]
  exact wp_imp (wp_applyCanonicalBatch hs)
    fun _ s' h => ⟨fst, last, hb, Bool.not_eq_true _ ▸ hwin, htip, h.1, h.2⟩

theorem wp_ingestVerifiedHistoricalBatch (hs : StorageWf s) : wp (ingestVerifiedHistoricalBatch w rows bks)
      (fun _ s' => ∃ fst last child, VerifiedBlockLogs.verifyBatch bks rows = .ok (fst, last) ∧
        s.catalog.state.historicalFloorHeader = some child ∧ last.header.number + 1 = child.number ∧ last.hash = child.parentHash ∧
        fst.header.representable = true ∧
        Did w.hashes s s' { s.catalog.state.advanceHistoricalFloor fst.header with
          verifiedLogCoverage := s.catalog.state.verifiedLogCoverage.map
            fun cov => extendCoverage w.hashes cov child fst }) (Refused w.hashes s) s := by
  unfold ingestVerifiedHistoricalBatch
  rw [wp_bind, wp_ensureWritable]
  refine ⟨fun _ => ?_, fun hclo => .inl hclo⟩
  rw [wp_bind, wp_attempt]
  refine ⟨?_, fun _ _ => .nothing hs⟩
  rintro ⟨fst, last⟩ hb
  rw [wp_bind, wp_get, wp_bind, wp_attempt]
  refine ⟨fun child hc => ?_, fun _ _ => .nothing hs⟩
  rw [okOr_eq_ok] at hc
  rw [wp_bind, wp_failIf]
  refine ⟨fun hpre => ?_, fun _ => .nothing hs⟩
  simp only [not_or, not_not] at hpre
  refine wp_seq wp_ensureCanonicalRangeEmpty ?_ fun | _, rfl => .nothing hs
  rintro _ _ rfl
  exact wp_imp (wp_applyHistoricalBatch hs) fun _ s' h => ⟨fst, last, child, hb, hc, (checkedAdd_eq_some.mp hpre.1).1.symm,
    hpre.2, h.1, h.2.2⟩

end Logex
