import Logex.Lemmas.StorageOps
import Logex.Lemmas.VerifiedBlock
import Logex.Lib.Run
import Logex.Theorems.BundleSnapshots

/-!
# The catalog stays valid

Over runs of metadata and ingestion operations from a new data directory the catalog in memory passes the validation its next
checkpoint makes, on one condition: the first verified batch must agree with a floor recorded at its own height, and its first
header must be one the catalog can encode where it becomes the floor. Neither is checked by the source before the batch is
acknowledged.
-/

namespace Logex

open Lib List
open VerifiedBlockLogs (marker verifyBatch verifyBatch_le)

variable {state : StorageState} {rows : List LogRow} {header : Header}

/-! ## Runs -/

/-- The state an operation leaves, whether it returned or failed. -/
def StorageOp.next (world : World) (s : NativeStorage) (op : StorageOp world) : NativeStorage :=
  match op.run world s with
  | .ok _ s' => s'
  | .error _ s' => s'

/-- The operations that record metadata, ingest batches or checkpoint them. -/
def StorageOp.recordsProgress {world : World} : StorageOp world → Prop
  | .recordSyncHead _ _ _ | .recordCanonicalState _ _ | .recordVerifiedCanonicalState _ _ _ | .recordHistoricalFloor _
  | .recordChainAnchors _ | .ingestCanonicalBatch _ _ _ _ | .ingestHistoricalBatch _ _ | .ingestVerifiedCanonicalBatch _ _ _ _
  | .ingestVerifiedHistoricalBatch _ _ | .checkpoint | .checkpointDurable | .checkpointIfDue => True
  | _ => False

/-- A batch that starts coverage agrees with the floor at its height, and its first header can be encoded where it becomes one. -/
def StorageOp.agreesWithFloor {world : World} (s : NativeStorage) : StorageOp world → Prop
  | .ingestVerifiedCanonicalBatch rows blocks _ _ => ∀ first last, VerifiedBlockLogs.verifyBatch blocks rows = .ok (first, last) →
      s.catalog.state.verifiedLogCoverage = none →
        (∀ floor, s.catalog.state.historicalFloorHeader = some floor → floor.number = first.header.number →
          world.hashes.hashSlow floor = first.hash) ∧
        ((∀ floor, s.catalog.state.historicalFloorHeader = some floor → first.header.number < floor.number) →
          first.header.representable = true)
  | _ => True

/-- Verified coverage ends at the sync head, starts no later than it ends and no earlier than the floor, with equal hashes at
equal heights. -/
structure CoverageInProgress (hashes : Hashes) (state : StorageState) (coverage : VerifiedLogCoverage) : Prop where
  stop : state.syncHead = some ⟨coverage.stop.blockNumber, coverage.stop.blockHash, coverage.stop.timestamp⟩
  order : coverage.start.blockNumber ≤ coverage.stop.blockNumber
  floor : ∀ floor, state.historicalFloorHeader = some floor → floor.number ≤ coverage.start.blockNumber ∧
    (floor.number = coverage.start.blockNumber → hashes.hashSlow floor = coverage.start.blockHash)

namespace CatalogAux

variable {hashes : Hashes}

theorem coverageMismatch_eq_false {cov : VerifiedLogCoverage} :
    coverageMismatch hashes state cov = false ↔ CoverageInProgress hashes state cov := by
  obtain ⟨start, stop⟩ := cov
  obtain ⟨sn, stopHash, st⟩ := stop
  have hh : (state.syncHead.all fun head => decide (head.blockNumber ≠ sn) || decide (head.blockHash ≠ stopHash) ||
      decide (head.timestamp ≠ st)) = false ↔ state.syncHead = some ⟨sn, stopHash, st⟩ := by
    cases state.syncHead with
    | none => simp
    | some head =>
      obtain ⟨number, hash, time⟩ := head
      simp [and_assoc]
  simp only [coverageMismatch, Bool.or_eq_false_iff, decide_eq_false_iff_not, not_lt, hh, Option.any_eq_false,
    Bool.and_eq_false_imp, decide_eq_true_eq, not_not]
  exact ⟨fun ⟨⟨h1, h2⟩, h3⟩ => ⟨h2, h1, h3⟩, fun ⟨h2, h1, h3⟩ => ⟨⟨h1, h2⟩, h3⟩⟩

/-- The part of a valid catalog's progress these operations keep: there is no pending reorg, and coverage comes with a floor. -/
structure Progress (hashes : Hashes) (state : StorageState) : Prop where
  recentHeaders : validateCachedHeaders state.recentHeaders = .ok ()
  coverage : ∀ coverage, state.verifiedLogCoverage = some coverage → CoverageInProgress hashes state coverage
  floored : state.verifiedLogCoverage.isSome = true → state.historicalFloorHeader.isSome = true
  canonicalReorg : state.canonicalReorg = none
  floor : ∀ header, state.historicalFloorHeader = some header → header.representable = true
  anchor : ∀ header, state.historicalAnchorHeader = some header → header.representable = true

theorem Progress.valid (h : Progress hashes state) : ProgressValid hashes state :=
  ⟨h.recentHeaders, fun cov hc => coverageMismatch_eq_false.mpr (h.coverage cov hc),
    fun _ hi => absurd (h.canonicalReorg.symm.trans hi) (Option.some_ne_none _).symm, h.floor, h.anchor⟩

/-- Setting the floor to a header that can be encoded. -/
theorem setFloor_representable (hhdr : header.representable = true)
    (hanc : ∀ anc, state.historicalAnchorHeader = some anc → anc.representable = true) :
    (∀ flo, (state.setFloor header).historicalFloorHeader = some flo → flo.representable = true) ∧
      ∀ anc, (state.setFloor header).historicalAnchorHeader = some anc → anc.representable = true := by
  refine ⟨fun flo h => Option.some.inj h ▸ hhdr, fun anc h => ?_⟩
  cases ha : state.historicalAnchorHeader with
  | none =>
    rw [StorageState.setFloor, ha] at h
    exact Option.some.inj h ▸ hhdr
  | some old =>
    rw [StorageState.setFloor, ha] at h
    exact Option.some.inj h ▸ hanc old ha

/-- The floor moves down to a header below it, or stays. -/
theorem advanceHistoricalFloor_cases (state : StorageState) (header : Header) :
    (∀ flo, state.historicalFloorHeader = some flo → header.number < flo.number) ∧
        state.advanceHistoricalFloor header = state.setFloor header ∨
      (∃ flo, state.historicalFloorHeader = some flo ∧ flo.number ≤ header.number) ∧
        state.advanceHistoricalFloor header = state := by
  unfold StorageState.advanceHistoricalFloor
  cases hf : state.historicalFloorHeader with
  | none => exact .inl ⟨fun _ h => (nomatch h), rfl⟩
  | some flo =>
    by_cases hlt : header.number < flo.number
    · refine .inl ⟨fun _ h => Option.some.inj h ▸ hlt, ?_⟩
      simp [hlt]
    · refine .inr ⟨⟨flo, rfl, not_lt.mp hlt⟩, ?_⟩
      simp [hlt]

/-- Progress without coverage asks only for headers that can be encoded. -/
theorem Progress.uncovered {state st' : StorageState} (h : Progress hashes state)
    (hrec : validateCachedHeaders st'.recentHeaders = .ok ()) (hn : st'.verifiedLogCoverage = none)
    (hr : st'.canonicalReorg = state.canonicalReorg) (hf : ∀ flo, st'.historicalFloorHeader = some flo → flo.representable = true)
    (hanc : ∀ anc, st'.historicalAnchorHeader = some anc → anc.representable = true) : Progress hashes st' := by
  refine ⟨hrec, fun coverage hc => ?_, fun hs => ?_, hr.trans h.canonicalReorg, hf, hanc⟩
  · rw [hn] at hc
    cases hc
  · rw [hn] at hs
    cases hs

theorem representable_of_mem {hds : List Header} (h : validateCachedHeaders hds = .ok ())
    (hmem : header ∈ hds) : header.representable = true := by
  obtain ⟨-, h⟩ := rejectIf_bind.mp h
  have := rejectIf_eq_ok.mp h
  rw [Bool.not_eq_true, any_eq_false] at this
  simpa using this header hmem

section

variable (h : Progress hashes state)

include h

theorem Progress.advance (hn : state.verifiedLogCoverage = none)
    (hhdr : header.representable = true) : Progress hashes (state.advanceHistoricalFloor header) := by
  rcases advanceHistoricalFloor_cases state header with ⟨-, heq⟩ | ⟨-, heq⟩
  · rw [heq]
    obtain ⟨hf, hanc⟩ := setFloor_representable hhdr h.anchor
    exact h.uncovered h.recentHeaders hn rfl hf hanc
  · rw [heq]
    exact h

/-- An unchecked canonical batch. -/
theorem Progress.canonical
    {recentHeaders : List Header} {anc : Option ExecutionAnchor} (hgua : CanonicalGuards hashes rows header recentHeaders anc) :
    Progress hashes (state.afterCanonical hashes header recentHeaders anc none) := by
  have hhdr := representable_of_mem hgua.cached (mem_of_getLast? hgua.last)
  have hm : Progress hashes { state with
      syncHead := some (syncHeadFromHeader hashes header), recentHeaders, verifiedLogCoverage := none } :=
    h.uncovered hgua.cached rfl rfl h.floor h.anchor
  cases anc with
  | none => exact hm
  | some anc => exact hm.advance rfl hhdr

/-- An unchecked historical batch. -/
theorem Progress.historical (hn : state.verifiedLogCoverage = none) {flo : Header} (hf : flo.representable = true) :
    Progress hashes { state.advanceHistoricalFloor flo with verifiedLogCoverage := none } := by
  obtain ⟨h1, h2, h3, h4, h5, h6⟩ := h.advance hn hf
  exact ⟨h1, nofun, nofun, h4, h5, h6⟩

/-- A verified canonical batch moves the end of coverage to its last block; the first one starts it. -/
theorem Progress.verifiedCanonical {blocks : List (VerifiedBlockLogs hashes)} {first last : VerifiedBlockLogs hashes}
    (hba : verifyBatch blocks rows = .ok (first, last)) {recentHeaders : List Header}
    {anchor : Option ExecutionAnchor} (hgua : CanonicalGuards hashes rows last.header recentHeaders anchor)
    (htip : ∀ previous, state.syncHead = some previous → previous.blockNumber + 1 = first.header.number)
    (hagr : state.verifiedLogCoverage = none →
      (∀ floor, state.historicalFloorHeader = some floor → floor.number = first.header.number → hashes.hashSlow floor = first.hash) ∧
      ((∀ floor, state.historicalFloorHeader = some floor → first.header.number < floor.number) → first.header.representable = true)) :
    Progress hashes (state.afterCanonical hashes last.header recentHeaders anchor
      (some (first.header, canonicalCoverage hashes state first last))) := by
  have hle := verifyBatch_le hba
  have hs : some (syncHeadFromHeader hashes last.header) = some (⟨last.marker.blockNumber, last.marker.blockHash,
      last.marker.timestamp⟩ : SyncHead) := by
    rw [marker, last.hash_eq]
    rfl
  let moved : StorageState := { state with
    syncHead := some (syncHeadFromHeader hashes last.header), recentHeaders
    verifiedLogCoverage := some (canonicalCoverage hashes state first last) }
  have hflo : Progress hashes (moved.advanceHistoricalFloor first.header) ∧
      ∃ floor, (moved.advanceHistoricalFloor first.header).historicalFloorHeader = some floor ∧ floor.number ≤ first.header.number := by
    cases hcov : state.verifiedLogCoverage with
    | none =>
      obtain ⟨hh, hrep⟩ := hagr hcov
      have hcan : canonicalCoverage hashes state first last = ⟨first.marker, last.marker⟩ := by
        rw [canonicalCoverage, hcov]
        rfl
      rcases advanceHistoricalFloor_cases moved first.header with ⟨hab, heq⟩ | ⟨⟨floor, hfl, hb⟩, heq⟩
      · rw [heq]
        obtain ⟨hf, ha⟩ := setFloor_representable (hrep hab) h.anchor
        refine ⟨⟨hgua.cached, fun coverage hc => ?_, fun _ => rfl, h.canonicalReorg, hf, ha⟩, first.header, rfl, le_rfl⟩
        obtain rfl := hcan ▸ Option.some.inj hc
        refine ⟨hs, hle, fun floor hfl => ?_⟩
        cases hfl
        exact ⟨le_rfl, fun _ => first.hash_eq.symm⟩
      · rw [heq]
        refine ⟨⟨hgua.cached, fun coverage hc => ?_, fun _ => ?_, h.canonicalReorg, h.floor, h.anchor⟩, floor, hfl, hb⟩
        · obtain rfl := hcan ▸ Option.some.inj hc
          refine ⟨hs, hle, fun floor' hf' => ?_⟩
          obtain rfl := Option.some.inj (hfl.symm.trans hf')
          exact ⟨hb, hh floor hfl⟩
        · exact Option.isSome_iff_exists.mpr ⟨floor, hfl⟩
    | some old =>
      -- The batch lies above everything covered so far, so the floor stays.
      have hold := h.coverage old hcov
      have hn : old.stop.blockNumber + 1 = first.header.number := htip _ hold.stop
      obtain ⟨floor, hfl⟩ := Option.isSome_iff_exists.mp (h.floored (by rw [hcov]; rfl))
      obtain ⟨hflL, hflH⟩ := hold.floor floor hfl
      have hor := hold.order
      have hcan : canonicalCoverage hashes state first last = ⟨old.start, last.marker⟩ := by
        rw [canonicalCoverage, hcov]
        rfl
      have hb : floor.number ≤ first.header.number := by omega
      rcases advanceHistoricalFloor_cases moved first.header with ⟨hab, -⟩ | ⟨-, heq⟩
      · exact absurd (hab floor hfl) (not_lt.mpr hb)
      · rw [heq]
        refine ⟨⟨hgua.cached, fun coverage hc => ?_, fun _ => ?_, h.canonicalReorg, h.floor, h.anchor⟩, floor, hfl, hb⟩
        · obtain rfl := hcan ▸ Option.some.inj hc
          refine ⟨hs, ?_, fun floor' hf' => ?_⟩
          · change old.start.blockNumber ≤ last.header.number
            omega
          · obtain rfl := Option.some.inj (hfl.symm.trans hf')
            exact ⟨hflL, hflH⟩
        · exact Option.isSome_iff_exists.mpr ⟨floor, hfl⟩
  obtain ⟨hp, floor, hfl, hb⟩ := hflo
  cases anchor with
  | none => exact hp
  | some anchor =>
    change Progress hashes ((moved.advanceHistoricalFloor first.header).advanceHistoricalFloor last.header)
    rcases advanceHistoricalFloor_cases (moved.advanceHistoricalFloor first.header) last.header with ⟨hab, -⟩ | ⟨-, heq⟩
    · exact absurd (hab floor hfl) (by omega)
    · rw [heq]
      exact hp

/-- A verified historical batch moves the floor down, and the start of coverage with it where they met. -/
theorem Progress.verifiedHistorical {bks : List (VerifiedBlockLogs hashes)} {fst last : VerifiedBlockLogs hashes}
    (hb : verifyBatch bks rows = .ok (fst, last)) {chi : Header}
    (hch : state.historicalFloorHeader = some chi) (hpre : last.header.number + 1 = chi.number)
    (hfi : fst.header.representable = true) : Progress hashes { state.advanceHistoricalFloor fst.header with
      verifiedLogCoverage := state.verifiedLogCoverage.map fun cov => extendCoverage hashes cov chi fst } := by
  have hle := verifyBatch_le hb
  have hadv : state.advanceHistoricalFloor fst.header = state.setFloor fst.header := by
    rcases advanceHistoricalFloor_cases state fst.header with ⟨-, heq⟩ | ⟨⟨flo, hfl, hbe⟩, -⟩
    · exact heq
    · obtain rfl := Option.some.inj (hch.symm.trans hfl)
      omega
  rw [hadv]
  obtain ⟨hf, ha⟩ := setFloor_representable hfi h.anchor
  refine ⟨h.recentHeaders, fun cov hc => ?_, fun _ => rfl, h.canonicalReorg, hf, ha⟩
  obtain ⟨old, hold, rfl⟩ := Option.map_eq_some_iff.mp hc
  obtain ⟨hs, hor, hfl⟩ := h.coverage old hold
  obtain ⟨hchL, hchH⟩ := hfl chi hch
  unfold extendCoverage
  split
  · next hm =>
    refine ⟨hs, ?_, fun flo hfl => ?_⟩
    · change fst.header.number ≤ old.stop.blockNumber
      omega
    · cases hfl
      exact ⟨le_rfl, fun _ => fst.hash_eq.symm⟩
  · next happ =>
    have hab : chi.number < old.start.blockNumber := by
      refine Nat.lt_of_le_of_ne hchL fun heq => happ ⟨heq.symm, (hchH heq).symm⟩
    refine ⟨hs, hor, fun flo hfl => ?_⟩
    cases hfl
    exact ⟨by omega, fun heq => by omega⟩

end

/-! ## Whole storage -/

/-- Storage whose catalog passes validation, with what these operations need to keep it so. -/
structure Good (world : World) (s : NativeStorage) : Prop where
  wf : StorageWf s
  segments : SegmentsValid world.hashes s
  progress : Progress world.hashes s.catalog.state
  settings : s.catalog.formatVersion = catalogFormatVersion ∧ s.catalog.hotTargetRows ≠ 0

variable {world : World} {s s' : NativeStorage}

theorem Good.validate (h : Good world s) : s.catalog.validate world.hashes = .ok () :=
  validate_eq_ok.mpr ⟨h.settings, h.progress.valid, h.wf.catalog, h.segments.valid⟩

theorem Good.did (h : Good world s) (hdid : Did world.hashes s s' state)
    (hp : Progress world.hashes state) : Good world s' :=
  ⟨hdid.wf, hdid.valid h.segments, by rw [hdid.state]; exact hp, by rw [hdid.settings.1, hdid.settings.2]; exact h.settings⟩

theorem Good.upkeep (h : Good world s) (hup : Upkeep world.hashes s s') : Good world s' :=
  h.did (.of_upkeep hup h.wf) h.progress

/-- What a metadata operation notes keeps storage good, where no coverage stands. -/
theorem Good.noted (h : Good world s) {next : StorageState} (hn : Noted world.hashes s s' next)
    (hne : s.catalog.state.verifiedLogCoverage = none → Progress world.hashes next) : Good world s' := by
  rcases hn with hdid | ⟨hno, hdid⟩
  · exact h.did hdid h.progress
  · exact h.did hdid (hne hno)

/-- Storage that is closed, or good. -/
def Safe (world : World) (s : NativeStorage) : Prop := s.recoveryRequired = true ∨ Good world s

variable {op : StorageOp world}

/-- Every operation keeps good storage good or closes it. -/
theorem wp_run_good (h : Good world s) (hop : op.recordsProgress) (hfl : op.agreesWithFloor s) :
    wp (op.run world) (fun _ s' => Good world s') (Safe world) s := by
  have hfai : ∀ s', Refused world.hashes s s' → Safe world s' :=
    fun s' hs' => hs'.imp_right fun hdid => h.did hdid h.progress
  have hcaS : ∀ {t : NativeStorage} {header : Header} {rhs : List Header}, Good world t →
      wp (recordCanonicalState world header rhs) (fun _ s' => Good world s') (Safe world) t := by
    intro t header rhs ht
    refine wp_mono (wp_recordCanonicalState ht.wf) ?_ ?_
    · rintro _ s' ⟨hcac, hn⟩
      exact ht.noted hn fun hno => ht.progress.uncovered hcac hno rfl ht.progress.floor ht.progress.anchor
    · rintro s' (hclo | hn | ⟨hcac, hn⟩)
      · exact .inl hclo
      · exact .inr (ht.noted hn fun _ => ht.progress)
      · exact .inr (ht.noted hn fun hno => ht.progress.uncovered hcac hno rfl ht.progress.floor ht.progress.anchor)
  have hanc : ∀ {t : NativeStorage} {ans : ChainAnchors}, Good world t →
      wp (recordChainAnchors world ans) (fun _ s' => Good world s') (Safe world) t := fun ht =>
    wp_mono (wp_recordChainAnchors ht.wf) (fun _ s' hdid => ht.did hdid ht.progress)
      fun s' hs' => hs'.imp_right fun hdid => ht.did hdid ht.progress
  cases op with
  | recordSyncHead blockNumber blockHash timestamp =>
    have hne : s.catalog.state.verifiedLogCoverage = none → Progress world.hashes
        { s.catalog.state with syncHead := some { blockNumber, blockHash, timestamp } } := fun hno =>
      h.progress.uncovered h.progress.recentHeaders hno rfl h.progress.floor h.progress.anchor
    exact wp_mono (wp_recordSyncHead h.wf) (fun _ s' hn => h.noted hn hne) fun s' hs' => hs'.imp_right fun hn => h.noted hn hne
  | recordCanonicalState header rhs => exact hcaS h
  | recordVerifiedCanonicalState anc header rhs =>
    change wp (Logex.recordVerifiedCanonicalState world anc header rhs) _ _ s
    unfold recordVerifiedCanonicalState
    rw [wp_bind, wp_ensureWritable]
    refine ⟨fun hon => ?_, fun hclo => .inl hclo⟩
    rw [wp_bind, wp_attempt]
    refine ⟨fun _ _ => ?_, fun _ _ => .inr h⟩
    refine wp_seq (wp_hardenIngestion h.wf (Bool.eq_false_iff.mpr hon)) (fun _ s₁ h₁ => ?_) fun _ hclo => .inl hclo
    refine wp_then (hcaS (h.upkeep h₁.upkeep)) fun _ s₂ h₂ => ?_
    exact hanc h₂
  | recordHistoricalFloor header =>
    have hne : header.representable = true → s.catalog.state.verifiedLogCoverage = none →
        Progress world.hashes (s.catalog.state.setFloor header) := fun hhdr hno => by
      obtain ⟨hf, ha⟩ := setFloor_representable hhdr h.progress.anchor
      exact h.progress.uncovered h.progress.recentHeaders hno rfl hf ha
    refine wp_mono (wp_recordHistoricalFloor h.wf) (fun _ s' hs' => h.noted hs'.2 (hne hs'.1)) ?_
    rintro s' (hclo | hn | ⟨hhdr, hn⟩)
    · exact .inl hclo
    · exact .inr (h.noted hn fun _ => h.progress)
    · exact .inr (h.noted hn (hne hhdr))
  | recordChainAnchors ans => exact hanc h
  | ingestCanonicalBatch rows header rhs anc =>
    refine wp_mono (wp_ingestCanonicalBatch h.wf) ?_ hfai
    rintro _ s' ⟨-, hgua, hdid⟩
    exact h.did hdid (h.progress.canonical hgua)
  | ingestHistoricalBatch rows floor =>
    refine wp_mono (wp_ingestHistoricalBatch h.wf) ?_ hfai
    rintro _ s' ⟨hno, hrep, -, hdid⟩
    exact h.did hdid (h.progress.historical hno hrep)
  | ingestVerifiedCanonicalBatch rows bks rhs anc =>
    refine wp_mono (wp_ingestVerifiedCanonicalBatch h.wf) ?_ hfai
    rintro _ s' ⟨fst, last, hb, -, htip, hgua, hdid⟩
    refine h.did hdid (h.progress.verifiedCanonical hb hgua (fun previous hp => ?_) (hfl fst last hb))
    rw [ExtendsTip, hp] at htip
    exact htip.1
  | ingestVerifiedHistoricalBatch rows bks =>
    refine wp_mono (wp_ingestVerifiedHistoricalBatch h.wf) ?_ hfai
    rintro _ s' ⟨fst, last, child, hb, hch, hpre, -, hrep, hdid⟩
    exact h.did hdid (h.progress.verifiedHistorical hb hch hpre hrep)
  | checkpoint => exact wp_mono (wp_checkpoint h.wf) (fun _ s' hc => h.upkeep hc.upkeep) fun _ hclo => .inl hclo
  | checkpointDurable => exact wp_mono (wp_checkpointDurable h.wf) (fun _ s' hc => h.upkeep hc.upkeep) fun _ hclo => .inl hclo
  | checkpointIfDue =>
    change wp (discard (Logex.checkpointIfDue world)) _ _ s
    rw [wp_discard]
    exact wp_mono (wp_checkpointIfDue h.wf) (fun _ s' hup => h.upkeep hup) fun _ hclo => .inl hclo
  | _ => cases hop

/-- Closed storage refuses every operation and stays as it is. -/
theorem wp_run_closed (h : s.recoveryRequired = true) (hop : op.recordsProgress) :
    wp (op.run world) (fun _ _ => False) (· = s) s := by
  have hwri : ∀ {α : Type} {f : Unit → StorageM α},
      wp (ensureWritable >>= f) (fun _ _ => False) (· = s) s := fun {α f} => by
    rw [wp_bind, wp_ensureWritable]
    exact ⟨fun hon => absurd h hon, fun _ => rfl⟩
  have hunv : ∀ {α : Type} {f : Unit → StorageM α},
      wp (requireUnverifiedStorage >>= f) (fun _ _ => False) (· = s) s := fun {α f} => by
    rw [wp_bind, wp_requireUnverifiedStorage]
    exact ⟨fun hon => absurd h hon, fun _ => rfl⟩
  cases op with
  | recordHistoricalFloor header =>
    change wp (Logex.recordHistoricalFloor world header) _ _ s
    unfold recordHistoricalFloor
    rw [wp_bind, wp_attempt]
    exact ⟨fun _ _ => hwri, fun _ _ => rfl⟩
  | checkpointIfDue =>
    change wp (discard (Logex.checkpointIfDue world)) _ _ s
    rw [wp_discard]
    exact hwri
  | ingestCanonicalBatch rows header rhs anc | ingestHistoricalBatch rows floor => exact hunv
  | recordSyncHead bn bh tim | recordCanonicalState header rhs | recordVerifiedCanonicalState anc header rhs
  | recordChainAnchors anchors | ingestVerifiedCanonicalBatch rows bks rhs anc
  | ingestVerifiedHistoricalBatch rows bks | checkpoint | checkpointDurable => exact hwri
  | _ => cases hop

/-- One step of a run: what returned is good, and closed storage stays closed. -/
theorem wp_run_safe (h : Safe world s) (hop : op.recordsProgress) (hf : op.agreesWithFloor s) :
    wp (op.run world) (fun _ s' => Good world s') (Safe world) s := by
  rcases h with hclo | hg
  · refine wp_mono (wp_run_closed hclo hop) (fun _ _ hfa => hfa.elim) fun s' heq => ?_
    exact heq ▸ .inl hclo
  · exact wp_run_good hg hop hf

theorem Safe.next (h : Safe world s) {op : StorageOp world} (hop : op.recordsProgress) (hf : op.agreesWithFloor s) :
    Safe world (op.next world s) := by
  have hrun := wp_run_safe h hop hf
  unfold StorageOp.next
  cases hres : op.run world s with
  | ok _ s' =>
    have hg := wp_ok hrun hres
    exact .inr hg
  | error _ s' => exact wp_error hrun hres

/-- A new data directory. -/
theorem openFresh_good {htr mar : Nat} (hop : openFresh world (.empty htr mar) = .ok () s) : Good world s := by
  have hwf : StorageWf (.empty htr mar) :=
    ⟨⟨nodup_nil, nofun, nofun, nofun, nofun⟩,
      nofun⟩
  have hrun : wp (openFresh world) (fun _ s' => Good world s') (fun _ => True) (.empty htr mar) := by
    unfold openFresh
    rw [wp_bind, wp_get, wp_bind, wp_attempt]
    refine ⟨fun _ hv => ?_, fun _ _ => trivial⟩
    obtain ⟨hset, -⟩ := validate_eq_ok.mp hv
    have hg : Good world (.empty htr mar) :=
      ⟨hwf, ⟨nofun, nofun⟩,
        ⟨rfl, fun _ hc => (nomatch hc), fun hc => (nomatch hc), rfl, fun _ hf => (nomatch hf), fun _ ha => (nomatch ha)⟩, hset⟩
    have hall : ∀ t : NativeStorage, Upkeep world.hashes (.empty htr mar) t →
        wp (discard (ensureActiveHotSegment world)) (fun _ s' => Good world s') (fun _ => True) t := fun t ht => by
      rw [wp_discard]
      exact wp_mono (wp_ensureActiveHotSegment (hg.upkeep ht).wf)
        (fun _ s' h' => (hg.upkeep ht).upkeep (.run h'.1)) fun _ _ => trivial
    rw [wp_bind, wp_writeDisk]
    exact ⟨fun _ => hall _ (.quiet rfl rfl rfl), fun _ => trivial⟩
  have hg := wp_ok hrun hop
  exact hg

/-- Repacking, the part of a checkpoint before its validation, keeps storage good. -/
theorem Good.repack (h : Good world s) {ori : IngestionOrigin} {ret : List (Nat × Nat)}
    (hrep : repackSegments world ori s.catalog.segments s = .ok ret s') : Good world s' :=
  h.upkeep (.run (wp_ok (wp_repackSegments ori s.catalog.segments s h.wf (fun _ hd => hd) h.wf.catalog.nodup) hrep).1)

end CatalogAux

/-- The run keeps the catalog valid: after every operation that returned, the catalog in memory passes the validation of a
checkpoint, also after the repacking that a checkpoint does first, and coverage stands as the validation wants it. -/
theorem catalog_stays_valid (world : World) (hotTargetRows margin : Nat) (s₀ : NativeStorage)
    (hopen : openFresh world (.empty hotTargetRows margin) = .ok () s₀) (ops : List (StorageOp world))
    (hops : ∀ op ∈ ops, op.recordsProgress)
    (hfloor : ∀ pre op, pre ++ [op] <+: ops → op.agreesWithFloor (runFrom (fun s op => op.next world s) s₀ pre))
    (pre : List (StorageOp world)) (op : StorageOp world) (hpre : pre ++ [op] <+: ops) (s : NativeStorage)
    (hrun : op.run world (runFrom (fun s op => op.next world s) s₀ pre) = .ok () s) : s.catalog.validate world.hashes = .ok () ∧
      (∀ origin t retired t', t.catalog = s.catalog → t.disk.segments = s.disk.segments → t.hotTargetRows = s.hotTargetRows →
        repackSegments world origin t.catalog.segments t = .ok retired t' → t'.catalog.validate world.hashes = .ok ()) ∧
      ∀ coverage, s.catalog.state.verifiedLogCoverage = some coverage → CoverageInProgress world.hashes s.catalog.state coverage := by
  have hmem : ∀ pre op, pre ++ [op] <+: ops → op.recordsProgress := fun pre op hpre =>
    hops op (hpre.subset (mem_append_right _ mem_cons_self))
  have hs := runFrom_inv (CatalogAux.Safe world) (.inr (CatalogAux.openFresh_good hopen))
    (fun pre op hpre h => CatalogAux.Safe.next h (hmem pre op hpre) (hfloor pre op hpre)) pre ((prefix_append _ _).trans hpre)
  have hg := wp_ok (CatalogAux.wp_run_safe hs (hmem pre op hpre) (hfloor pre op hpre)) hrun
  refine ⟨hg.validate, fun origin t retired t' hcat hse htgt hrep => ?_, hg.progress.coverage⟩
  have ht : CatalogAux.Good world t := hg.upkeep (.quiet htgt hcat hse)
  exact (ht.repack hrep).validate

namespace CatalogWitness

/-- A floor header at height 5. -/
def floorHeader : Header := { number := 5, timestamp := 1 }

/-- Another header of that height, of an empty block. -/
def tipHeader : Header := { number := 5, timestamp := 2, transactionsRoot := emptyTrieRoot, receiptsRoot := emptyTrieRoot }

/-- Keccak-256 of the two headers' RLP. -/
def hashSlow (header : Header) : B256 :=
  if header = floorHeader then 0x07d5226902871cff515bd987d98ac9c41ff70a3ed23d76167ae6d9d209f36155
  else if header = tipHeader then 0xed1a87841c35244953c81502e62214ab8a7f23a747b70ddf45b9db4cb88c40b0
  else 0

/-- BLAKE3 of the empty stream and of the two empty prefixes of the run. -/
def blake3 (bytes : Bytes) : B256 :=
  if bytes = [] then 0xaf1349b9f5f9a1a6a0404dea36dcc9499bcb25c9adc112b7cc9a93cae41f3262
  else if (bytes.drop prefixDomain.length).take 16 = FixedBytes.toBytes eventNamespace then
    0x5a2ff60cfc356544b3472f583b82d4c666d8b0d568af330afa82816ff91166b0
  else 0x60289b8a29b46e48c844cc23fd95702d1b6a6745f9be1af70263e4eb999ba55e

/-- A world in which no file operation fails and no time passes. -/
def world : World where
  hashes := ⟨hashSlow, blake3⟩
  codec := BundleWitness.codec
  compressBound := fun n => n + n / 256 + 64
  now := fun _ => 0
  fill := fun _ => 0
  pages := fun _ _ _ => []
  bitmap := fun _ => []
  fails := fun _ => false

/-- The verified record of an empty block. -/
def emptyBlock (header : Header) : VerifiedBlockLogs world.hashes where
  header
  hash := hashSlow header
  rows := 0
  commitment := (PrefixState.empty eventNamespace).commitment world.hashes.blake3
  hash_eq := rfl
  certified := ⟨[], rfl, rfl, nofun⟩

def ingestTip : StorageOp world := .ingestVerifiedCanonicalBatch [] [emptyBlock tipHeader] [tipHeader] none

/-- Storage just opened. -/
def opened : NativeStorage := match openFresh world (.empty 1000 2048) with
  | .ok _ s => s
  | .error _ s => s

theorem openFresh_eq : openFresh world (.empty 1000 2048) = .ok () opened := by
  rfl

def returns (op : StorageOp world) (s : NativeStorage) : Bool := match op.run world s with
  | .ok _ _ => true
  | .error _ _ => false

/-- The batch of one block agrees with a floor recorded from its header. -/
theorem ingestTip_agrees {s : NativeStorage} (hfl : s.catalog.state.historicalFloorHeader = some tipHeader) :
    ingestTip.agreesWithFloor s := by
  intro first last hb _
  obtain ⟨rfl, rfl⟩ : emptyBlock tipHeader = first ∧ emptyBlock tipHeader = last := by
    have hone : verifyBatch [emptyBlock tipHeader] [] = .ok (emptyBlock tipHeader, emptyBlock tipHeader) := rfl
    exact Prod.mk.inj (Except.ok.inj (hone.symm.trans hb))
  refine ⟨fun floor hf _ => ?_, fun _ => by decide⟩
  obtain rfl := Option.some.inj (hfl.symm.trans hf)
  rfl

theorem run_eq_of_returns {op : StorageOp world} {s : NativeStorage} (h : returns op s = true) :
    op.run world s = .ok () (op.next world s) := by
  unfold returns at h
  unfold StorageOp.next
  cases hrun : op.run world s with
  | ok _ s' => rfl
  | error _ s' =>
    rw [hrun] at h
    cases h

end CatalogWitness

/-- The floor was recorded from one header and the first verified batch starts at another of the same height: both operations
return, and the catalog in memory is one that the next checkpoint refuses. -/
theorem catalog_validity_floor_mismatch : ∃ s₁ s₂ : NativeStorage,
      StorageOp.run CatalogWitness.world (.recordHistoricalFloor CatalogWitness.floorHeader) CatalogWitness.opened = .ok () s₁ ∧
      CatalogWitness.ingestTip.run CatalogWitness.world s₁ = .ok () s₂ ∧
      s₂.catalog.validate CatalogWitness.world.hashes = .error "verified event coverage does not match canonical progress" :=
  ⟨_, _, CatalogWitness.run_eq_of_returns (by decide +kernel), CatalogWitness.run_eq_of_returns (by decide +kernel), by decide +kernel⟩

/-- With the floor recorded from the batch's own first header the catalog stays valid. -/
theorem catalog_stays_valid_same_header : ∃ s : NativeStorage, CatalogWitness.ingestTip.run CatalogWitness.world
        (StorageOp.next CatalogWitness.world CatalogWitness.opened (.recordHistoricalFloor CatalogWitness.tipHeader)) = .ok () s ∧
      s.catalog.validate CatalogWitness.world.hashes = .ok () := by
  have hret : CatalogWitness.returns CatalogWitness.ingestTip
      (StorageOp.next CatalogWitness.world CatalogWitness.opened (.recordHistoricalFloor CatalogWitness.tipHeader)) = true := by
    decide +kernel
  have hrun := CatalogWitness.run_eq_of_returns hret
  refine ⟨_, hrun, (catalog_stays_valid CatalogWitness.world 1000 2048 _ CatalogWitness.openFresh_eq
    [.recordHistoricalFloor CatalogWitness.tipHeader, CatalogWitness.ingestTip] ?_ ?_ [_] _ (prefix_refl _) _ hrun).1⟩
  · intro op hop
    simp only [mem_cons, not_mem_nil, or_false] at hop
    rcases hop with rfl | rfl <;> exact trivial
  · intro pre op hpre
    rcases pre with - | ⟨first, - | ⟨second, rest⟩⟩
    · obtain ⟨rfl, -⟩ := cons_prefix_cons.mp hpre
      exact trivial
    · obtain ⟨rfl, hr⟩ := cons_prefix_cons.mp hpre
      obtain ⟨rfl, -⟩ := cons_prefix_cons.mp hr
      exact CatalogWitness.ingestTip_agrees (by decide +kernel)
    · exact absurd hpre.length_le (by simp)

end Logex
