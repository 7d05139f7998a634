import Logex.Lemmas.StorageCheckpoint

/-!
# What validation asks of a catalog

`validate_eq_ok` takes the validation of a catalog apart: its segments are identified and each is valid on its own, its active
segments exist, and its canonical progress agrees with itself. Writing rows and checkpoints keep the part about segments.
-/

namespace Logex

open Lib List SegmentDescriptor NativeStorageCatalog

variable {cat : NativeStorageCatalog} {d : SegmentDescriptor} {act : Option Nat} {s s' : NativeStorage}
  {chu : List LogRow} {rows : Nat}

variable {hashes : Hashes}

/-- What validation asks of one segment, besides its place in the catalog. -/
structure SegmentValid (hashes : Hashes) (activeHistorical : Option Nat) (d : SegmentDescriptor) : Prop where
  appendState : d.kind = .hot ∨ some d.id = activeHistorical ∨ d.sourceState.isSome = true →
    validateState hashes.blake3 d.sourceNamespace d.rowCount d.sourceCommitment d.sourceState = .ok ()
  bundle : ∀ reference, d.columnBundle = some reference → reference.Pins d.rowCount
  paths : d.relativePath = segmentPath d.id ∧ d.manifestRelativePath = segmentManifestPath d.id
  rowCount : d.rowCount ≤ u32Max
  named : d.sourceCommitment.isSome = true → d.sourceNamespace.isSome = true

/-- What validation asks of canonical progress. -/
structure ProgressValid (hashes : Hashes) (state : StorageState) : Prop where
  recentHeaders : validateCachedHeaders state.recentHeaders = .ok ()
  coverage : ∀ coverage, state.verifiedLogCoverage = some coverage → coverageMismatch hashes state coverage = false
  canonicalReorg : ∀ intent, state.canonicalReorg = some intent → intent.validate hashes state = .ok ()
  floor : ∀ header, state.historicalFloorHeader = some header → header.representable = true
  anchor : ∀ header, state.historicalAnchorHeader = some header → header.representable = true

theorem validateBundle_eq_ok : d.validateBundle = .ok () ↔ ∀ ref, d.columnBundle = some ref → ref.Pins d.rowCount := by
  unfold validateBundle
  cases d.columnBundle with
  | none => simp
  | some ref =>
    simp only [bind_eq_ok, rejectIf_eq_ok, Option.some.injEq, forall_eq', BundleReference.Pins, not_not]
    constructor
    · rintro ⟨stop, hs, hr⟩
      exact ⟨⟨stop, hs⟩, hr⟩
    · rintro ⟨⟨stop, hs⟩, hr⟩
      exact ⟨stop, hs, hr⟩

theorem validateSegment_eq_ok {seen : List Nat} : cat.validateSegment hashes seen d = .ok () ↔
      SegmentValid hashes cat.activeHistoricalSegment d ∧ d.id ∉ seen ∧ d.id < cat.nextSegmentId := by
  simp only [validateSegment, check_bind_eq_ok, validateBundle_eq_ok, rejectIf_eq_ok, not_or, not_le,
    not_lt, not_not, not_and, Option.isNone_iff_eq_none, ← Option.isSome_iff_ne_none]
  have happ : cat.validateAppendState hashes d = .ok () ↔
      (d.kind = .hot ∨ some d.id = cat.activeHistoricalSegment ∨ d.sourceState.isSome = true →
        validateState hashes.blake3 d.sourceNamespace d.rowCount d.sourceCommitment d.sourceState = .ok ()) := by
    unfold validateAppendState
    split
    · exact ⟨fun h _ => h, fun h => h ‹_›⟩
    · exact ⟨fun _ h => absurd h ‹_›, fun _ => rfl⟩
  rw [happ]
  constructor
  · rintro ⟨h1, h2, h3, h4, h5, h6, h7, h8⟩
    exact ⟨⟨h1, h2, ⟨h5, h6⟩, h7, h8⟩, h3, h4⟩
  · rintro ⟨⟨h1, h2, ⟨h5, h6⟩, h7, h8⟩, h3, h4⟩
    exact ⟨h1, h2, h3, h4, h5, h6, h7, h8⟩

theorem validateSegments_eq_ok {seen : List Nat} {list : List SegmentDescriptor} :
    cat.validateSegments hashes seen list = .ok () ↔
      (∀ d ∈ list, SegmentValid hashes cat.activeHistoricalSegment d ∧ d.id ∉ seen ∧ d.id < cat.nextSegmentId) ∧
        (list.map (·.id)).Nodup := by
  induction list generalizing seen with
  | nil => simp [validateSegments]
  | cons d list ih =>
    simp only [validateSegments, check_bind_eq_ok, validateSegment_eq_ok, ih, mem_cons, map_cons,
      nodup_cons, mem_map, forall_eq_or_imp, not_or, not_exists, not_and]
    constructor
    · rintro ⟨hd, hl, hn⟩
      exact ⟨⟨hd, fun e he => ⟨(hl e he).1, (hl e he).2.1.2, (hl e he).2.2⟩⟩, fun e he heq => (hl e he).2.1.1 heq, hn⟩
    · rintro ⟨⟨hd, hl⟩, hf, hn⟩
      exact ⟨hd, fun e he => ⟨(hl e he).1, ⟨hf e he, (hl e he).2.1⟩, (hl e he).2.2⟩, hn⟩

theorem validateCachedHeaders_singleton {hd : Header} : validateCachedHeaders [hd] = .ok () ↔ hd.representable = true := by
  have hb : ¬maxCachedHeaders < [hd].length := by
    simp [maxCachedHeaders]
  simp only [validateCachedHeaders, rejectIf_bind, rejectIf_eq_ok, hb, not_false_iff, true_and, any_cons, any_nil,
    Bool.or_false, Bool.not_eq_true', Bool.not_eq_false]

theorem missingActive_eq_false {kind : SegmentKind} :
    cat.missingActive act kind = false ↔ ∀ id, act = some id → ∃ d ∈ cat.segments, d.id = id ∧ d.kind = kind := by
  cases act with
  | none | some id => simp [missingActive]

/-- Validation, taken apart. -/
theorem validate_eq_ok : cat.validate hashes = .ok () ↔ (cat.formatVersion = catalogFormatVersion ∧ cat.hotTargetRows ≠ 0) ∧
      ProgressValid hashes cat.state ∧ CatalogWf cat ∧
      ∀ d ∈ cat.segments, SegmentValid hashes cat.activeHistoricalSegment d := by
  have hh : (cat.state.historicalFloorHeader.toList ++ cat.state.historicalAnchorHeader.toList).forM
      (fun hea => validateCachedHeaders [hea]) = .ok () ↔
        (∀ hea, cat.state.historicalFloorHeader = some hea → hea.representable = true) ∧
        ∀ hea, cat.state.historicalAnchorHeader = some hea → hea.representable = true := by
    simp only [forM_eq_ok, validateCachedHeaders_singleton, mem_append, Option.mem_toList, or_imp, forall_and]
  simp only [NativeStorageCatalog.validate, check_bind_eq_ok, rejectIf_eq_ok, hh, forM_eq_ok, Option.mem_toList,
    validateSegments_eq_ok, not_or, Bool.not_eq_true, missingActive_eq_false, not_not, not_mem_nil, not_false_eq_true, true_and,
    any_eq_false, Bool.and_eq_false_imp, decide_eq_true_eq, Option.any_eq_false]
  constructor
  · rintro ⟨hver, hrec, hcov, hr, ⟨hf, hanc⟩, ⟨hs, hn⟩, ⟨hhot, hhis⟩, hod⟩
    refine ⟨hver, ⟨hrec, hcov, hr, hf, hanc⟩, ⟨hn, fun d hd => (hs d hd).2, hhot, hhis, ?_⟩, fun d hd => (hs d hd).1⟩
    intro d hd hk
    exact (not_not.mp (decide_eq_false_iff_not.mp (hod d hd hk))).symm
  · rintro ⟨hver, ⟨hrec, hcov, hr, hf, hanc⟩, ⟨hn, hid, hhot, hhis, hod⟩, hs⟩
    refine ⟨hver, hrec, hcov, hr, ⟨hf, hanc⟩, ⟨fun d hd => ⟨hs d hd, hid d hd⟩, hn⟩, ⟨hhot, hhis⟩, ?_⟩
    intro d hd hk
    exact decide_eq_false_iff_not.mpr (not_not.mpr (hod d hd hk).symm)

/-! ## Append states -/

theorem topicTranscript_length_pos (t : Option B256) : 1 ≤ (topicTranscript t).length := by
  cases t with
  | none => exact le_rfl
  | some t => exact Nat.succ_le_succ (Nat.zero_le _)

/-- Each encoded row contains at least 125 bytes. -/
theorem LogRow.transcript_length (row : LogRow) : 125 ≤ row.transcript.length := by
  have h0 := topicTranscript_length_pos row.topic0
  have h1 := topicTranscript_length_pos row.topic1
  have h2 := topicTranscript_length_pos row.topic2
  have h3 := topicTranscript_length_pos row.topic3
  simp only [LogRow.transcript, LogRow.topics, flatMap_cons, flatMap_nil, length_append, FixedBytes.toBytes,
    length_map, length_range, length_leBytes, length_cons, length_nil]
  omega

theorem transcripts_length (rows : List LogRow) : rows.length * 125 ≤ (rows.flatMap LogRow.transcript).length := by
  induction rows with
  | nil => exact Nat.zero_le _
  | cons row rows ih =>
    have := row.transcript_length
    rw [length_cons, flatMap_cons, length_append]
    omega

variable {bla : Bytes → B256}

theorem PrefixState.validate_eq_ok {st : PrefixState} {ns : FixedBytes 16} {root : B256} : st.validate bla ns rows root = .ok () ↔
      (st.namespaceId = ns ∧ st.rows = rows ∧ st.commitment bla = root) ∧
        (rows = 0 ↔ st.stream.length = 0) ∧ rows * 125 ≤ st.stream.length ∧ rows * 125 ≤ u64Max := by
  have hbou : ((rows == 0) != (st.stream.length == 0)) = true ↔ ¬(rows = 0 ↔ st.stream.length = 0) := by
    by_cases h : rows = 0 <;> by_cases h' : st.stream.length = 0 <;> simp [h, h']
  have hmin : ((checkedMul rows 125).all fun mim => decide (st.stream.length < mim)) = true ↔
      ¬(rows * 125 ≤ st.stream.length ∧ rows * 125 ≤ u64Max) := by
    unfold checkedMul
    split
    · simp_all
    · simp_all
  simp only [PrefixState.validate, check_bind_eq_ok, rejectIf_eq_ok, hbou, hmin, not_or, not_not]

/-- Extending an append state keeps it valid for the longer prefix. -/
theorem PrefixState.validate_extend {st next : PrefixState} {ns : FixedBytes 16}
    {root : B256} (h : st.validate bla ns rows root = .ok ()) (hch : chu ≠ []) (hext : st.extend chu = .ok next) :
    next.validate bla ns (rows + chu.length) (next.commitment bla) = .ok () := by
  obtain ⟨⟨rfl, rfl, -⟩, -, hleh, -⟩ := PrefixState.validate_eq_ok.mp h
  obtain ⟨n, hc, hext⟩ := bind_eq_ok.mp hext
  obtain ⟨hf, hext⟩ := rejectIf_bind.mp hext
  cases hext
  have hr : n = st.rows + chu.length := (checkedAdd_eq_some.mp (okOr_eq_ok.mp hc)).1
  have ha := transcripts_length chu
  have hpos := length_pos_iff.mpr hch
  rw [length_append] at hf
  have hlen' : (st.stream ++ chu.flatMap LogRow.transcript).length =
      st.stream.length + (chu.flatMap LogRow.transcript).length := length_append
  refine PrefixState.validate_eq_ok.mpr ⟨⟨rfl, hr, rfl⟩, ?_, ?_, ?_⟩
  · change _ ↔ (st.stream ++ chu.flatMap LogRow.transcript).length = 0
    omega
  · change _ ≤ (st.stream ++ chu.flatMap LogRow.transcript).length
    omega
  · omega

/-- The append state of an empty segment. -/
theorem PrefixState.validate_empty (bla : Bytes → B256) (ns : FixedBytes 16) :
    (PrefixState.empty ns).validate bla ns 0 ((PrefixState.empty ns).commitment bla) = .ok () :=
  PrefixState.validate_eq_ok.mpr ⟨⟨rfl, rfl, rfl⟩, ⟨fun _ => rfl, fun _ => rfl⟩, Nat.zero_le _, Nat.zero_le _⟩

/-- A revision of a valid append state is one for the longer prefix. -/
theorem validateState_revised {ns : Option (FixedBytes 16)} {root : Option B256}
    {st : Option PrefixState} {rev : AppendRevision} (h : validateState bla ns rows root st = .ok ()) (hch : chu ≠ [])
    (hrev : AppendRevision.new bla st chu = .ok rev) : validateState bla ns (rows + chu.length) rev.next rev.state = .ok () ∧
      (rev.next.isSome = true → ns.isSome = true) := by
  cases st with
  | none =>
    cases hrev
    exact ⟨by cases ns <;> rfl, nofun⟩
  | some st =>
    obtain ⟨next, hn, hrev⟩ := bind_eq_ok.mp hrev
    cases hrev
    obtain ⟨exd, hext, rfl⟩ : ∃ exd, st.extend chu = .ok exd ∧ next = some exd := by
      cases hext : st.extend chu with
      | error e =>
        rw [hext] at hn
        cases hn
      | ok exd =>
        rw [hext] at hn
        exact ⟨exd, rfl, (Except.ok.inj hn).symm⟩
    cases ns with
    | none => cases root <;> cases h
    | some ns =>
      cases root with
      | none => cases h
      | some root => exact ⟨PrefixState.validate_extend h hch hext, fun _ => rfl⟩

/-! ## Segments stay valid -/

/-- Every segment is valid, and only empty ones are not bundles. -/
structure SegmentsValid (hashes : Hashes) (s : NativeStorage) : Prop where
  valid : ∀ d ∈ s.catalog.segments, SegmentValid hashes s.catalog.activeHistoricalSegment d
  bundled : ∀ d ∈ s.catalog.segments, d.columnBundle = none → d.rowCount = 0

/-- A segment remains valid when it is no longer the active one. -/
theorem SegmentValid.inactive (h : SegmentValid hashes act d) : SegmentValid hashes none d :=
  ⟨fun hc => h.appendState (hc.imp_right fun hc => hc.imp_left nofun), h.bundle, h.paths, h.rowCount, h.named⟩

/-- A segment that is not the new active one. -/
theorem SegmentValid.other (h : SegmentValid hashes act d) {id : Nat} (hne : d.id ≠ id) : SegmentValid hashes (some id) d :=
  ⟨fun hc => h.appendState (hc.imp_right fun hc => hc.imp_left fun heq => absurd (Option.some.inj heq) hne), h.bundle,
    h.paths, h.rowCount, h.named⟩

theorem SegmentValid.fresh (act : Option Nat) (id : Nat) (kind : SegmentKind) (ns : FixedBytes 16) :
    SegmentValid hashes act (.fresh hashes id kind ns) :=
  ⟨fun _ => PrefixState.validate_empty _ _, nofun, ⟨rfl, rfl⟩, Nat.zero_le _, fun _ => rfl⟩

@[simp] theorem SegmentDescriptor.applyRowBounds_identity (d : SegmentDescriptor) (bou : Option RowBounds) :
    (d.applyRowBounds bou).sourceNamespace = d.sourceNamespace ∧ (d.applyRowBounds bou).relativePath = d.relativePath ∧
      (d.applyRowBounds bou).manifestRelativePath = d.manifestRelativePath := by
  cases bou <;> exact ⟨rfl, rfl, rfl⟩

/-- Appending a chunk to an active segment keeps it valid. -/
theorem SegmentValid.appended (h : SegmentValid hashes act d)
    (hact : d.kind = .hot ∨ some d.id = act) (hch : chu ≠ []) {rev : AppendRevision}
    (hrev : AppendRevision.new hashes.blake3 d.sourceState chu = .ok rev) {ref : BundleReference}
    (hp : ref.Pins (d.rowCount + chu.length)) (act' : Option Nat) :
    SegmentValid hashes act' (d.appended (RowBounds.fromRows chu) rev (some ref)) := by
  have hs := h.appendState (hact.imp_right .inl)
  obtain ⟨hn, hna⟩ := validateState_revised hs hch hrev
  obtain ⟨hnam, hpa, hman⟩ := d.applyRowBounds_identity (RowBounds.fromRows chu)
  refine ⟨fun _ => ?_, ?_, ?_, ?_, ?_⟩
  · rw [appended_rowCount]
    change validateState _ (d.applyRowBounds _).sourceNamespace _ rev.next rev.state = _
    rw [hnam]
    exact hn
  · rintro _ ⟨⟩
    rwa [appended_rowCount]
  · rw [appended_id]
    exact ⟨hpa.trans h.paths.1, hman.trans h.paths.2⟩
  · rw [appended_rowCount]
    exact hp.le
  · intro hso
    change (d.applyRowBounds _).sourceNamespace.isSome = true
    rw [hnam]
    exact hna hso

/-- Dropping the append state of a sealed segment that no longer appends keeps it valid. -/
theorem SegmentValid.closed {act act' : Option Nat} {d next : SegmentDescriptor} (h : SegmentValid hashes act d)
    (hn : { d with kind := next.kind, sourceState := next.sourceState } = next) (hk : next.kind = .sealed)
    (hst : next.sourceState = none) (hact : some d.id ≠ act') : SegmentValid hashes act' next := by
  rw [← hn]
  refine ⟨fun hc => ?_, h.bundle, h.paths, h.rowCount, h.named⟩
  rcases hc with hhot | hsa | hs
  · rw [hk] at hhot
    cases hhot
  · exact absurd hsa hact
  · rw [hst] at hs
    cases hs

section

variable (hv : SegmentsValid hashes s)

include hv

/-- A change of one descriptor leaves the others, so only the new one is in question. -/
theorem SegmentsValid.modify {next : SegmentDescriptor} {change : SegmentDescriptor → SegmentDescriptor}
    {active : Option Nat} (hs : StorageWf s) (hd : d ∈ s.catalog.segments)
    (hse : s'.catalog.segments = (s.catalog.modifySegment d.id change).segments) (hch : change d = next)
    (hact : s'.catalog.activeHistoricalSegment = active) (hc : active = s.catalog.activeHistoricalSegment ∨ active = none)
    (hne : SegmentValid hashes active next) (hraw : next.columnBundle = none → next.rowCount = 0) : SegmentsValid hashes s' := by
  obtain ⟨pre, post, hsp, -, hmod⟩ := hs.catalog.split hd
  rw [hmod, hch] at hse
  have hold : ∀ e ∈ s'.catalog.segments, e = next ∨ e ∈ s.catalog.segments := fun e he => by
    rw [hse] at he
    rw [hsp]
    simp only [mem_append, mem_cons] at he ⊢
    tauto
  refine ⟨fun e he => ?_, fun e he => ?_⟩
  · rw [hact]
    rcases hold e he with rfl | he
    · exact hne
    · rcases hc with rfl | rfl
      · exact hv.valid e he
      · exact (hv.valid e he).inactive
  · rcases hold e he with rfl | he
    · exact hraw
    · exact hv.bundled e he

theorem SegmentsValid.add (hse : s'.catalog.segments = s.catalog.segments ++ [d])
    (hoth : ∀ e ∈ s.catalog.segments, SegmentValid hashes s'.catalog.activeHistoricalSegment e)
    (hd : SegmentValid hashes s'.catalog.activeHistoricalSegment d) (hraw : d.columnBundle = none → d.rowCount = 0) :
    SegmentsValid hashes s' := by
  have hold : ∀ e ∈ s'.catalog.segments, e ∈ s.catalog.segments ∨ e = d := by simp [hse]
  refine ⟨fun e he => ?_, fun e he => ?_⟩
  · rcases hold e he with he | rfl
    · exact hoth e he
    · exact hd
  · rcases hold e he with he | rfl
    · exact hv.bundled e he
    · exact hraw

theorem SegmentsValid.congr (h : s'.catalog = s.catalog) : SegmentsValid hashes s' :=
  ⟨by rw [h]; exact hv.valid, by rw [h]; exact hv.bundled⟩

end

/-- A step keeps all segments valid, where rows are only written by an ingestion. -/
theorem SegmentStep.valid {rows : List LogRow} (h : SegmentStep hashes s s' rows) (hs : StorageWf s)
    (hv : SegmentsValid hashes s) (hp : rows ≠ [] → s.pendingIngestion.isSome = true) : SegmentsValid hashes s' := by
  cases h with
  | register namespaceId dir free present step =>
    have hact : s'.catalog.activeHistoricalSegment = s.catalog.activeHistoricalSegment := by rw [step.catalog]; rfl
    exact hv.add (by rw [step.catalog]; rfl) (fun e he => hact ▸ hv.valid e he) (.fresh ..) fun _ => rfl
  | allocate namespaceId dir free present step =>
    have hact : s'.catalog.activeHistoricalSegment = some s.catalog.nextSegmentId := by rw [step.catalog]
    exact hv.add (by rw [step.catalog]; rfl)
      (fun e he => hact ▸ (hv.valid e he).other (Nat.ne_of_lt (hs.catalog.id_lt e he))) (.fresh ..) fun _ => rfl
  | dense namespaceId _ revision reference dir columns nonempty revised pins present manifest read step =>
    have hact : s'.catalog.activeHistoricalSegment = s.catalog.activeHistoricalSegment := by rw [step.catalog]; rfl
    have hfr : SegmentValid hashes (some s.catalog.nextSegmentId)
        (.fresh hashes s.catalog.nextSegmentId .sealed namespaceId) := .fresh ..
    have hpi : reference.Pins ((SegmentDescriptor.fresh hashes s.catalog.nextSegmentId .sealed namespaceId).rowCount + rows.length) := by
      change reference.Pins (0 + rows.length)
      rwa [Nat.zero_add]
    have happ := hfr.appended (.inr rfl) nonempty revised hpi none
    refine hv.add (by rw [step.catalog]; rfl) (fun e he => hact ▸ hv.valid e he) ?_ fun hn => absurd hn (Option.some_ne_none _)
    refine happ.closed rfl (dense_kind ..) rfl ?_
    rw [appended_id, hact]
    intro heq
    obtain ⟨e, he, hid, -⟩ := hs.catalog.historical _ heq.symm
    exact absurd (hs.catalog.id_lt e he) (hid ▸ Nat.lt_irrefl _)
  | append d _ revision columnBundle dir columns mem act nonempty revised pins raw present manifest read step =>
    have hk : d.kind = .hot ∨ some d.id = s.catalog.activeHistoricalSegment := act.imp (hs.catalog.kind_hot mem) Eq.symm
    cases columnBundle with
    | none =>
      -- Ingestion starts every segment as a bundle, so rows are never appended to raw files.
      obtain ⟨hraw, hem⟩ := raw rfl
      have hn := hem (hv.bundled d mem hraw)
      have hso := hp nonempty
      rw [hn] at hso
      cases hso
    | some reference =>
      have hne := (hv.valid d mem).appended hk nonempty revised (pins reference rfl) s.catalog.activeHistoricalSegment
      exact hv.modify hs mem (by rw [step.catalog]) rfl (by rw [step.catalog]; rfl) (.inl rfl) hne
        fun hn => absurd hn (Option.some_ne_none _)
  | close d columns mem act step =>
    have hnot : some d.id ≠ s.catalog.activeHistoricalSegment := fun heq => by
      have hk := hs.catalog.kind_sealed mem heq.symm
      rw [hs.catalog.kind_hot mem act] at hk
      cases hk
    exact hv.modify hs mem (by rw [step.catalog]) rfl (by rw [step.catalog]; rfl) (.inl rfl)
      ((hv.valid d mem).closed rfl rfl rfl hnot) (hv.bundled d mem)
  | finalize d mem act step =>
    have hk := hs.catalog.kind_sealed mem act
    refine hv.modify hs mem (by rw [step.catalog]) rfl (by rw [step.catalog]) (.inr rfl) ?_ (hv.bundled d mem)
    exact (hv.valid d mem).closed rfl hk rfl (Option.some_ne_none _)
  | republish d columns mem step | retireGeneration d generation mem old step => exact hv.congr step.catalog
  | repack d reference dir columns mem hr pins present manifest read step =>
    obtain ⟨h1, -, h3, h4, h5⟩ := hv.valid d mem
    refine hv.modify hs mem (by rw [step.catalog]) rfl (by rw [step.catalog]; rfl) (.inl rfl) ⟨h1, ?_, h3, h4, h5⟩
      fun hn => absurd hn (Option.some_ne_none _)
    rintro _ ⟨⟩
    exact pins

theorem SegmentRun.valid {rows : List LogRow} (h : SegmentRun hashes s s' rows) (hs : StorageWf s)
    (hv : SegmentsValid hashes s) (hp : rows ≠ [] → s.pendingIngestion.isSome = true) : SegmentsValid hashes s' := by
  induction h with
  | still still => exact hv.congr still.catalog
  | step step _ ih =>
    refine ih (step.wf hs) (step.valid hs hv fun hne => hp fun hnil => hne (append_eq_nil_iff.mp hnil).1) fun hne => ?_
    rw [step.same.pendingIngestion]
    exact hp fun hnil => hne (append_eq_nil_iff.mp hnil).2

theorem Upkeep.valid (h : Upkeep hashes s s') (hs : StorageWf s) (hv : SegmentsValid hashes s) : SegmentsValid hashes s' := by
  induction h with
  | quiet _ cat _ => exact ⟨by rw [cat]; exact hv.valid, by rw [cat]; exact hv.bundled⟩
  | run run => exact run.valid hs hv fun hne => absurd rfl hne
  | trans first _ ih₁ ih₂ => exact ih₂ (first.wf hs) (ih₁ hs hv)

end Logex
