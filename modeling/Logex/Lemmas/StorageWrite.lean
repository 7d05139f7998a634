import Logex.Lemmas.StorageSteps

/-!
# What the write routes do

One specification for each function of the two write routes: from well-formed storage it runs a sequence of segment steps that store
exactly its rows. Where it fails, only segments may have changed.
-/

namespace Logex

open Lib List Option NativeStorage SegmentDescriptor
open RowBounds (fromRows)

variable {d : SegmentDescriptor} {rows : List LogRow} {chunk : List LogRow} {ns : FixedBytes 16}
  {revision : AppendRevision} {cols : ColumnLayout} {bun : Bool} {hashes : Hashes} {fuel : Nat}

variable {w : World} {s : NativeStorage} {target : Nat}

/-! ## Segment files -/

theorem wp_writeSegment {id : Nat} {ch : SegmentDir → SegmentDir} :
    wp (writeSegment w id ch) (fun _ s' => Stepped s s' s.catalog id (ch (s.disk.segments id))) (Still s) s := by
  rw [writeSegment, wp_writeDisk]
  exact ⟨fun _ => ⟨⟨rfl, rfl, rfl, rfl, rfl, rfl, rfl, rfl, rfl⟩, rfl, rfl⟩,
    fun _ => ⟨⟨rfl, rfl, rfl, rfl, rfl, rfl, rfl, rfl, rfl⟩, rfl, rfl⟩⟩

theorem wp_persistManifest : wp (persistManifest w d cols)
      (fun _ s' => Stepped s s' s.catalog d.id ((s.disk.segments d.id).withManifest d cols)) (Still s) s :=
  wp_writeSegment

theorem wp_persistIngestManifest : wp (persistIngestManifest w d)
      (fun _ s' => ∃ cols, Stepped s s' s.catalog d.id ((s.disk.segments d.id).withManifest d cols)) (Still s) s := by
  exact wp_imp wp_persistManifest fun _ s' h => ⟨_, h⟩

/-- The files of a directory hold rows that a manifest with this table would select. -/
def SegmentDir.Selects (dir : SegmentDir) (generation : Nat) (columnBundle : Option BundleReference) (rows : List StoredRow) : Prop :=
  match columnBundle with
  | none => dir.rows = rows
  | some reference => (dir.bundles generation).read reference = some rows

theorem SegmentDir.Selects.read {dir : SegmentDir} {rows : List StoredRow} (cols : ColumnLayout)
    (h : dir.Selects d.generation d.columnBundle rows) : (dir.withManifest d cols).read = .ok rows := by
  rw [SegmentDir.read_of_manifest rfl]
  cases hbun : d.columnBundle with
  | none =>
    rw [hbun] at h
    exact congrArg Except.ok h
  | some ref =>
    rw [hbun] at h
    change okOr _ ((dir.bundles d.generation).read ref) = _
    rw [h]
    rfl

/-- A chunk was written to the files of a segment and can be published with this table. -/
structure ChunkWritten (s s' : NativeStorage) (d : SegmentDescriptor) (chunk : List LogRow)
    (columnBundle : Option BundleReference) : Prop where
  dir : ∃ dir : SegmentDir, Stepped s s' s.catalog d.id dir ∧ dir.present = true ∧
    dir.Selects d.generation columnBundle (s.contents d ++ storeRows chunk)
  pins : ∀ reference, columnBundle = some reference → reference.Pins (d.rowCount + chunk.length)

theorem wp_writeBundledRows {id : Nat} : wp (writeBundledRows w id rows) (fun cb s' => ∃ ref dir, cb = some ref ∧
      ref.Pins rows.length ∧ Stepped s s' s.catalog id dir ∧ dir.present = true ∧
      dir.Selects 0 cb (storeRows rows)) (Same s) s := by
  unfold writeBundledRows
  rw [wp_bind, wp_ask, wp_bind, wp_attempt]
  refine ⟨?_, fun _ _ => (Still.tick s _).same⟩
  rintro ⟨ref, bundle⟩ hcre
  obtain ⟨hp, hr⟩ := BundleFile.create_ok hcre
  refine wp_seq wp_writeSegment (fun _ s' h => ⟨ref, _, rfl, hp, h.after (.tick s _), rfl, ?_⟩)
    fun _ h => (Still.tick s _).same.trans h.same
  simpa [SegmentDir.Selects] using hr

/-- Rows appended to the pages or the bundle of a segment that has some. -/
theorem wp_appendPages (hpre : (s.disk.segments d.id).present = true) :
    wp (appendPages w d.id (manifestWithColumns d cols) (s.contents d) rows)
      (fun cb s' => ChunkWritten s s' d rows cb ∧ (cb = none → d.columnBundle = none)) (Same s) s := by
  unfold appendPages
  cases hbun : d.columnBundle with
  | none =>
    simp only [manifestWithColumns, hbun, wp_bind, wp_pure]
    refine wp_mono wp_writeSegment (fun _ s' h => ⟨⟨⟨_, h, hpre, rfl⟩, ?_⟩, fun _ => trivial⟩) fun _ h => h.same
    rintro ref ⟨⟩
  | some ref =>
    simp only [manifestWithColumns, hbun, wp_bind, wp_ask, wp_get, wp_attempt]
    refine ⟨?_, fun _ _ => (Still.tick s _).same⟩
    rintro ⟨ref', bundle⟩ happ
    obtain ⟨hp, hr⟩ := BundleFile.append_ok happ
    refine wp_mono wp_writeSegment (fun _ s' h => ⟨⟨⟨_, h.after (.tick s _), hpre, ?_⟩, ?_⟩, ?_⟩)
      fun _ h => (Still.tick s _).same.trans h.same
    · simpa [SegmentDir.Selects] using hr
    · rintro _ ⟨⟩
      exact hp
    · rintro ⟨⟩

theorem wp_appendCompactedRows (hs : StorageWf s) (hd : d ∈ s.catalog.segments) (hr : d.rowCount ≠ 0) :
    wp (appendCompactedRows w d.id d.rowCount rows revision)
      (fun cb s' => ChunkWritten s s' d rows cb ∧ (cb = none → d.columnBundle = none)) (Same s) s := by
  have hh := hs.held d hd
  obtain ⟨cols, hman⟩ := hh.manifest hr
  simp only [appendCompactedRows, wp_bind, wp_get, wp_attempt, wp_failIf, hman, okOr_eq_ok, Option.some.injEq]
  refine ⟨?_, fun _ _ => .refl s⟩
  rintro _ rfl
  refine ⟨fun _ => ⟨fun _ => ⟨fun _ => ⟨?_, fun _ _ => .refl s⟩, fun _ => .refl s⟩, fun _ => .refl s⟩, fun _ => .refl s⟩
  intro previous hre
  rw [hh.read hr] at hre
  cases hre
  exact wp_appendPages hh.present

/-! ## Active segments -/

variable {cat cat' : NativeStorageCatalog}

theorem allocateSegment_eq {kind : SegmentKind}
    (h : cat.allocateSegment hashes kind ns = .ok (d, cat')) : d = .fresh hashes cat.nextSegmentId kind ns ∧
      cat' = { cat with nextSegmentId := cat.nextSegmentId + 1 } := by
  obtain ⟨next, hn, h⟩ := bind_eq_ok.mp h
  rw [okOr_eq_ok, checkedAdd_eq_some] at hn
  obtain ⟨rfl, -⟩ := hn
  cases h
  exact ⟨rfl, rfl⟩

theorem registerSegment_hot_eq (h : cat.registerSegment hashes .hot ns = .ok (d, cat')) :
    d = .fresh hashes cat.nextSegmentId .hot ns ∧
      cat' = { cat.add d with activeHotSegment := some cat.nextSegmentId } := by
  obtain ⟨⟨d', c⟩, hall, h⟩ := bind_eq_ok.mp h
  obtain ⟨rfl, rfl⟩ := allocateSegment_eq hall
  cases h
  exact ⟨rfl, rfl⟩

theorem CatalogWf.activeHot_eq {cat : NativeStorageCatalog} (h : CatalogWf cat)
    (hd : d ∈ cat.segments) (hact : cat.activeHotSegment = some d.id) : cat.activeHot = some d := by
  rw [NativeStorageCatalog.activeHot, hact]
  exact h.segment?_eq.mpr ⟨hd, rfl⟩

theorem wp_registerHotSegment (hf : s.catalog.activeHotSegment = none) :
    wp (registerHotSegment w) (fun id s' => SegmentStep w.hashes s s' [] ∧
      s'.catalog.activeHotSegment = some id ∧ ∃ d ∈ s'.catalog.segments, d.id = id) (Same s) s := by
  simp only [registerHotSegment, wp_bind, wp_ask, wp_get, wp_attempt]
  refine ⟨?_, fun _ _ => (Still.tick s _).same⟩
  rintro ⟨d, catalog⟩ hreg
  obtain ⟨rfl, rfl⟩ := registerSegment_hot_eq hreg
  have hsa : Same s { s with catalog := { s.catalog.add (.fresh w.hashes s.catalog.nextSegmentId .hot (w.fill s.tick)) with
        activeHotSegment := some s.catalog.nextSegmentId }, tick := s.tick + 1 } :=
    ⟨rfl, rfl, rfl, rfl, rfl, rfl, rfl, rfl, rfl⟩
  simp only [wp_modifyCatalog, wp_pure]
  refine wp_mono wp_writeSegment (fun _ s₁ h₁ => ?_) fun _ h => hsa.trans h.same
  have h₁ := h₁.since hsa rfl
  refine wp_mono wp_persistIngestManifest ?_ fun _ h => h₁.same.trans h.same
  rintro _ s₂ ⟨cols, h₂⟩
  rw [h₁.catalog] at h₂
  have h₂ := h₁.trans h₂
  refine wp_mono wp_persistCatalog (fun _ s₃ h₃ => ?_) fun _ h => h₂.same.trans h.same
  have hs := h₂.still h₃
  refine ⟨.register _ _ hf rfl hs, by rw [hs.catalog]; rfl, _, ?_, rfl⟩
  rw [hs.catalog]
  exact mem_append_right _ mem_cons_self

theorem wp_ensureActiveHotSegment (hs : StorageWf s) :
    wp (ensureActiveHotSegment w) (fun id s' => SegmentRun w.hashes s s' [] ∧
      s'.catalog.activeHotSegment = some id ∧ ∃ d ∈ s'.catalog.segments, d.id = id) (Same s) s := by
  simp only [ensureActiveHotSegment, wp_bind, wp_get]
  cases hact : s.catalog.activeHot with
  | some active =>
    obtain ⟨id, hid, hf⟩ := bind_eq_some_iff.mp hact
    obtain ⟨hmem, rfl⟩ := hs.catalog.segment?_eq.mp hf
    simp only [wp_bind, wp_failIf, wp_pure]
    exact ⟨fun _ => ⟨.refl _ s, hid, active, hmem, rfl⟩, fun _ => .refl s⟩
  | none =>
    have hfr : s.catalog.activeHotSegment = none := by
      cases hid : s.catalog.activeHotSegment with
      | none => rfl
      | some id =>
        obtain ⟨d, hd, rfl, -⟩ := hs.catalog.hot id hid
        rw [hs.catalog.activeHot_eq hd hid] at hact
        cases hact
    exact wp_imp (wp_registerHotSegment hfr) fun _ _ h => ⟨.single h.1, h.2⟩

theorem wp_sealHotSegment (hs : StorageWf s) (hd : d ∈ s.catalog.segments) (hact : s.catalog.activeHotSegment = some d.id) :
    wp (sealHotSegment w) (fun _ s' => SegmentRun w.hashes s s' []) (Same s) s := by
  simp only [sealHotSegment, wp_bind, wp_get, wp_attempt, hact, okOr_eq_ok, Option.some.injEq, wp_modifyCatalog]
  refine ⟨?_, fun _ _ => .refl s⟩
  rintro _ rfl
  obtain ⟨pre, post, hsp, hne, hmod⟩ := hs.catalog.split hd
  have hf : (s.catalog.modifySegment d.id fun sg => { sg with kind := .sealed, sourceState := none }).segment? d.id =
      some { d with kind := .sealed, sourceState := none } := by
    rw [NativeStorageCatalog.segment?, hmod, find?_append,
      find?_eq_none.mpr fun e he => by simpa using hne e (mem_append_left _ he)]
    simp
  rw [hf]
  simp only [toList_some, wp_forM_cons, wp_forM_nil]
  have hsa := (Same.refl s).modifySegment d.id fun sg => { sg with kind := .sealed, sourceState := none }
  refine wp_mono wp_persistIngestManifest ?_ fun _ h => hsa.trans h.same
  rintro _ s₁ ⟨cols, h₁⟩
  have hst : SegmentStep w.hashes s { s₁ with catalog := { s₁.catalog with activeHotSegment := none } } [] := by
    refine .close d cols hd hact ⟨?_, ?_, h₁.segments⟩
    · obtain ⟨h1, h2, h3, h4, h5, h6, h7, h8, h9⟩ := h₁.same
      exact ⟨h1, h2, h3, h4, h5, h6, h7, h8, h9⟩
    · rw [h₁.catalog]
  exact wp_mono (wp_registerHotSegment rfl) (fun _ _ h => .step hst (.single h.1)) fun _ h => hst.same.trans h

/-! ## Chunks -/

/-- A segment without a bundle reads its raw rows. -/
theorem StorageWf.contents_raw (hs : StorageWf s) (hd : d ∈ s.catalog.segments) (hraw : d.columnBundle = none) :
    s.contents d = if d.rowCount = 0 then [] else (s.disk.segments d.id).rows := by
  by_cases hz : d.rowCount = 0
  · rw [NativeStorage.contents, SegmentDir.contents, if_pos hz, if_pos hz]
  · obtain ⟨cols, hman⟩ := (hs.held d hd).manifest hz
    have hr : (s.disk.segments d.id).read = .ok (s.disk.segments d.id).rows := by
      rw [SegmentDir.read_of_manifest hman, hraw]
    rw [if_neg hz]
    exact SegmentDir.contents_of_read hz hr

theorem NativeStorage.contents_empty (hz : d.rowCount = 0) : s.contents d = [] := if_pos hz

/-- A new bundle holds the first chunk of a segment. -/
theorem wp_writeFirstRows (hs : StorageWf s) (hd : d ∈ s.catalog.segments) (hz : d.rowCount = 0) :
    wp (writeBundledRows w d.id chunk) (fun cb s' => ChunkWritten s s' d chunk cb ∧ cb ≠ none) (Same s) s := by
  refine wp_imp wp_writeBundledRows ?_
  rintro _ s' ⟨ref, dir, rfl, hp, hst, hpre, hsel⟩
  refine ⟨⟨⟨dir, hst, hpre, ?_⟩, ?_⟩, some_ne_none _⟩
  · rw [contents_empty hz, ((hs.held d hd).blank hz).2]
    exact hsel
  · rintro _ ⟨⟩
    rw [hz, Nat.zero_add]
    exact hp

theorem wp_writeHotChunk (hs : StorageWf s) (hd : d ∈ s.catalog.segments)
    (hbun : bun = (d.columnBundle.isSome || (d.rowCount = 0 && s.pendingIngestion.isSome))) :
    wp (writeHotChunk w d bun chunk revision) (fun cb s' => ChunkWritten s s' d chunk cb ∧
      (cb = none → d.columnBundle = none ∧ (d.rowCount = 0 → s.pendingIngestion = none))) (Same s) s := by
  rw [writeHotChunk, wp_ite]
  refine ⟨fun _ => ?_, fun hraw => ?_⟩
  · rw [wp_ite]
    refine ⟨fun hz => ?_, fun hr => ?_⟩
    · exact wp_imp (wp_writeFirstRows hs hd hz) fun _ _ h => ⟨h.1, fun hn => absurd hn h.2⟩
    · exact wp_imp (wp_appendCompactedRows hs hd hr) fun _ _ h => ⟨h.1, fun hn => ⟨h.2 hn, fun hz => absurd hz hr⟩⟩
  · rw [Bool.not_eq_true] at hraw
    rw [hraw, eq_comm, Bool.or_eq_false_iff, Bool.and_eq_false_iff, isSome_eq_false_iff, isNone_iff_eq_none,
      decide_eq_false_iff_not, isSome_eq_false_iff, isNone_iff_eq_none] at hbun
    obtain ⟨hn, hp⟩ := hbun
    simp only [appendIngestRows, wp_bind, wp_pure]
    refine wp_mono wp_writeSegment (fun _ s' h => ⟨⟨⟨_, h, rfl, ?_⟩, ?_⟩, fun _ => ⟨hn, ?_⟩⟩) fun _ h => h.same
    · rw [hn, hs.contents_raw hd hn]
      rfl
    · rw [hn]
      rintro _ ⟨⟩
    · exact fun hz => hp.resolve_left (absurd hz)

/-- Publishing the descriptor of a written chunk completes the step. -/
theorem ChunkWritten.step {s₁ s' : NativeStorage} {d next : SegmentDescriptor}
    {cb : Option BundleReference} (h : ChunkWritten s s₁ d chunk cb) (hd : d ∈ s.catalog.segments)
    (hact : s.catalog.activeHotSegment = some d.id ∨ s.catalog.activeHistoricalSegment = some d.id) (hch : chunk ≠ [])
    (hrev : AppendRevision.new hashes.blake3 d.sourceState chunk = .ok revision)
    (hraw : cb = none → d.columnBundle = none ∧ (d.rowCount = 0 → s.pendingIngestion = none))
    (hn : next = d.appended (fromRows chunk) revision cb)
    (hs : Stepped { s₁ with catalog := s₁.catalog.modifySegment d.id fun _ => next } s'
      (s₁.catalog.modifySegment d.id fun _ => next) d.id ((s₁.disk.segments d.id).withManifest next cols)) :
    SegmentStep hashes s s' chunk := by
  obtain ⟨⟨dir, hdir, hpre, hsel⟩, hp⟩ := h
  subst hn
  rw [hdir.dir_self] at hs
  have hr : (dir.withManifest (d.appended (fromRows chunk) revision cb) cols).read =
      .ok (s.contents d ++ storeRows chunk) := by
    apply SegmentDir.Selects.read
    rw [appended_generation]
    exact hsel
  refine .append d chunk revision cb _ cols hd hact hch hrev hp hraw rfl rfl hr ⟨?_, ?_, ?_⟩
  · exact (hdir.same.modifySegment d.id _).trans hs.same
  · rw [hs.catalog, hdir.catalog]
  · rw [hs.segments]
    rw [hdir.segments, Function.update_idem]

theorem wp_persistHotManifest : wp (persistHotManifest w d bun)
      (fun _ s' => ∃ cols, Stepped s s' s.catalog d.id ((s.disk.segments d.id).withManifest d cols)) (Still s) s := by
  rw [persistHotManifest, wp_ite]
  exact ⟨fun _ => wp_imp wp_persistManifest fun _ s' h => ⟨_, h⟩, fun _ => wp_persistIngestManifest⟩

theorem wp_commitChunk (hs : StorageWf s) (hd : d ∈ s.catalog.segments) (hact : s.catalog.activeHotSegment = some d.id)
    (hbun : bun = (d.columnBundle.isSome || (d.rowCount = 0 && s.pendingIngestion.isSome)))
    (hch : chunk ≠ []) : wp (commitChunk w d bun chunk) (fun _ s' => SegmentStep w.hashes s s' chunk ∧
      s'.catalog.activeHotSegment = s.catalog.activeHotSegment) (Same s) s := by
  simp only [commitChunk, wp_bind, wp_attempt]
  refine ⟨fun revision hrev => ?_, fun _ _ => .refl s⟩
  refine wp_imp (wp_writeHotChunk hs hd hbun) ?_
  rintro cb s₁ ⟨hwri, hraw⟩
  obtain ⟨dir, hdir, -, -⟩ := hwri.dir
  have hsa := hdir.same.modifySegment d.id fun _ => d.appended (fromRows chunk) revision cb
  simp only [wp_modifyCatalog]
  refine wp_mono wp_persistHotManifest ?_ fun _ h => hsa.trans h.same
  rintro _ s₂ ⟨cols, h₂⟩
  rw [appended_id] at h₂
  refine wp_mono wp_persistCatalog (fun _ s₃ h₃ => ?_) fun _ h => (hsa.trans h₂.same).trans h.same
  refine ⟨hwri.step hd (.inl hact) hch hrev hraw rfl (h₂.still h₃), ?_⟩
  rw [(h₂.still h₃).catalog, hdir.catalog]
  rfl

/-! ## Capacity -/

theorem wp_hotCapacity {cand : List LogRow} : wp (hotCapacity w d bun cand) (fun _ s' => s' = s) (· = s) s := by
  simp only [hotCapacity, wp_bind, wp_get, wp_ite, wp_attempt, wp_pure]
  exact ⟨fun _ => ⟨fun _ _ => trivial, fun _ _ => trivial⟩, fun _ => trivial⟩

theorem wp_stagedCapacity {cand : List LogRow} : wp (stagedCapacity w d cand) (fun _ s' => s' = s) (· = s) s := by
  simp only [stagedCapacity, wp_bind, wp_get, wp_ite, wp_attempt, wp_pure]
  exact ⟨fun _ => ⟨fun _ _ => trivial, fun _ _ => trivial⟩, fun _ => trivial⟩

/-! ## Turns -/

/-- One turn stores a prefix of the rows. -/
def TurnDone (hashes : Hashes) (s s' : NativeStorage) (rows rest : List LogRow) : Prop :=
  ∃ written, rows = written ++ rest ∧ SegmentRun hashes s s' written

section Turns

variable {τ : Type} (rowsOf : τ → List LogRow) (Ready : NativeStorage → Prop) {body : τ → StorageM τ} {exhausted : String}

variable (hb : ∀ t s, StorageWf s → Ready s → rowsOf t ≠ [] → wp (body t)
  (fun t' s' => TurnDone w.hashes s s' (rowsOf t) (rowsOf t') ∧ Ready s') (fun s' => Same s s') s)

include hb

/-- A loop of turns stores all rows. -/
theorem wp_turns (hs : StorageWf s) (hready : Ready s) (fuel : Nat) (t : τ) :
    wp (loop (fun t => !(rowsOf t).isEmpty) body exhausted fuel t)
      (fun _ s' => SegmentRun w.hashes s s' (rowsOf t) ∧ Ready s') (Same s) s := by
  refine wp_imp (wp_loop (fun t' s' => TurnDone w.hashes s s' (rowsOf t) (rowsOf t') ∧ Ready s')
    ?_ ?_ fuel t s ⟨⟨[], rfl, .refl _ s⟩, hready⟩) ?_
  · rintro t' s₁ hr ⟨⟨written, hsp, hrun⟩, hready⟩
    refine wp_mono (hb t' s₁ (hrun.wf hs) hready (by simpa using hr)) ?_ fun _ h => hrun.same.trans h
    rintro t'' s₂ ⟨⟨written', hsp', hrun'⟩, hready'⟩
    exact ⟨⟨written ++ written', by rw [hsp, hsp', List.append_assoc], hrun.trans hrun'⟩, hready'⟩
  · rintro t' s₁ ⟨⟨written, -, hrun⟩, -⟩
    exact hrun.same
  · rintro t' s₁ ⟨hr, ⟨written, hsp, hrun⟩, hready⟩
    have hr : rowsOf t' = [] := by simpa using hr
    rw [hr, append_nil] at hsp
    exact ⟨hsp ▸ hrun, hready⟩

end Turns

/-! ## The live route -/

theorem wp_commitStep (hs : StorageWf s) (hr : rows ≠ []) :
    wp (commitStep w rows) (fun rest s' => TurnDone w.hashes s s' rows rest ∧ True) (Same s) s := by
  simp only [commitStep, wp_bind]
  refine wp_imp (wp_ensureActiveHotSegment hs) ?_
  rintro hotId s₁ ⟨hrun, hact, d, hd, rfl⟩
  have hwf := hrun.wf hs
  simp only [wp_findSegment, wp_get]
  refine ⟨fun d' hd' => ?_, fun _ => hrun.same⟩
  rw [hwf.catalog.segment?_eq.mpr ⟨hd, rfl⟩] at hd'
  cases hd'
  have hseal : wp (sealHotSegment w) (fun _ s' => TurnDone w.hashes s s' rows rows ∧ True) (Same s) s₁ :=
    wp_mono (wp_sealHotSegment hwf hd hact) (fun _ s' h => ⟨⟨[], rfl, hrun.trans h⟩, trivial⟩) fun _ h => hrun.same.trans h
  rw [wp_ite]
  refine ⟨fun _ => by simpa only [wp_bind, wp_pure] using hseal, fun _ => ?_⟩
  simp only [wp_bind]
  refine wp_mono wp_hotCapacity ?_ fun _ h => h ▸ hrun.same
  rintro take _ rfl
  rw [wp_ite]
  refine ⟨fun _ => ?_, fun ht => ?_⟩
  · rw [wp_ite]
    exact ⟨fun _ => hrun.same, fun _ => by simpa only [wp_bind, wp_pure] using hseal⟩
  · have hchunk : rows.take take ≠ [] := by simp [hr, ht]
    simp only [wp_bind, wp_runIf, wp_pure]
    refine wp_mono (wp_commitChunk hwf hd hact rfl hchunk) ?_ fun _ h => hrun.same.trans h
    rintro _ s₂ ⟨hst, hact₂⟩
    have hrun₂ : SegmentRun w.hashes s s₂ (rows.take take) := by
      simpa using hrun.trans (.single hst)
    have hsp := (take_append_drop take rows).symm
    refine ⟨fun _ => ?_, fun _ => ⟨⟨_, hsp, hrun₂⟩, trivial⟩⟩
    have hwf₂ := hrun₂.wf hs
    obtain ⟨e, he, heid, -⟩ := hwf₂.catalog.hot d.id (hact₂.trans hact)
    refine wp_mono (wp_sealHotSegment hwf₂ he (heid ▸ hact₂.trans hact)) (fun _ s' h => ⟨⟨_, hsp, ?_⟩, trivial⟩)
      fun _ h => hrun₂.same.trans h
    simpa using hrun₂.trans h

/-- The live route stores exactly its rows. -/
theorem wp_commitRowsToSegments (hs : StorageWf s) :
    wp (commitRowsToSegments w rows) (fun _ s' => SegmentRun w.hashes s s' rows) (Same s) s := by
  simp only [commitRowsToSegments, wp_bind, wp_pure]
  exact wp_imp (wp_turns (fun rows => rows) (fun _ => True) (fun _ _ hs _ hr => wp_commitStep hs hr) hs trivial _ rows)
    fun _ _ h => h.1

/-! ## The historical route -/

theorem validateNewAppend_eq {bla : Bytes → B256} {st : PrefixState} {root : B256}
    {bou : Option RowBounds} (h : st.validateNewAppend bla ns root rows = .ok bou) : bou = fromRows rows := by
  obtain ⟨-, -, h⟩ := bind_eq_ok.mp h
  obtain ⟨-, -, h⟩ := bind_eq_ok.mp h
  obtain ⟨-, -, h⟩ := bind_eq_ok.mp h
  exact (Except.ok.inj h).symm

theorem wp_writeNewHistoricalBundle : wp (writeNewHistoricalBundle w d rows) (fun res s' => d.rowCount = 0 ∧
      AppendRevision.new w.hashes.blake3 d.sourceState rows = .ok res.2.1 ∧ res.2.2 = fromRows rows ∧
      ∃ reference dir, res.1 = some reference ∧ reference.Pins rows.length ∧ Stepped s s' s.catalog d.id dir ∧
        dir.present = true ∧ dir.Selects 0 (some reference) (storeRows rows)) (Same s) s := by
  unfold writeNewHistoricalBundle
  rw [wp_bind, wp_failIf]
  refine ⟨fun hz => ?_, fun _ => .refl s⟩
  rw [wp_bind, wp_attempt]
  refine ⟨fun ns _ => ?_, fun _ _ => .refl s⟩
  rw [wp_bind, wp_attempt]
  refine ⟨fun root _ => ?_, fun _ _ => .refl s⟩
  rw [wp_bind, wp_attempt]
  refine ⟨fun state hs => ?_, fun _ _ => .refl s⟩
  rw [okOr_eq_ok] at hs
  rw [wp_bind, wp_attempt]
  refine ⟨fun bounds hbds => ?_, fun _ _ => .refl s⟩
  refine wp_then wp_writeBundledRows ?_
  rintro _ s' ⟨reference, dir, rfl, hp, hst, hpre, hsel⟩
  rw [wp_bind, wp_attempt]
  refine ⟨fun revision hrev => ?_, fun _ _ => hst.same⟩
  refine ⟨Decidable.not_not.mp hz, ?_, validateNewAppend_eq hbds, reference, dir, rfl, hp, hst, hpre, hsel⟩
  rw [hs]
  exact hrev

theorem wp_allocateHistoricalSegment (hf : s.catalog.activeHistoricalSegment = none) :
    wp (allocateHistoricalSegment w) (fun id s' => SegmentStep w.hashes s s' [] ∧
      s'.catalog.activeHistoricalSegment = some id ∧ ∃ d ∈ s'.catalog.segments, d.id = id) (Same s) s := by
  unfold allocateHistoricalSegment
  rw [wp_bind, wp_modifyCatalog, wp_bind, wp_ask, wp_bind, wp_get, wp_bind, wp_attempt]
  refine ⟨?_, fun _ _ => ⟨rfl, rfl, rfl, rfl, rfl, rfl, rfl, rfl, rfl⟩⟩
  rintro ⟨d, catalog⟩ hall
  obtain ⟨rfl, rfl⟩ := allocateSegment_eq hall
  simp only [wp_bind, wp_modifyCatalog, wp_pure]
  refine wp_mono wp_writeSegment (fun _ s₁ h₁ => ?_) fun _ h => ?_
  · have hs : Stepped s { s₁ with catalog := { s₁.catalog with
        segments := s₁.catalog.segments ++ [.fresh w.hashes s.catalog.nextSegmentId .sealed (w.fill s.tick)]
        activeHistoricalSegment := some s.catalog.nextSegmentId } }
        { s.catalog.add (.fresh w.hashes s.catalog.nextSegmentId .sealed (w.fill s.tick)) with
          activeHistoricalSegment := some s.catalog.nextSegmentId } s.catalog.nextSegmentId { present := true } := by
      obtain ⟨⟨h1, h2, h3, h4, h5, h6, h7, h8, h9⟩, hcat, hse⟩ := h₁
      exact ⟨⟨h1, h2, h3, h4, h5, h6, h7, h8, h9⟩, by rw [hcat]; rfl, hse⟩
    exact ⟨.allocate _ _ hf rfl hs, trivial, _, mem_append_right _ mem_cons_self, rfl⟩
  · obtain ⟨h1, h2, h3, h4, h5, h6, h7, h8, h9⟩ := h.same
    exact ⟨h1, h2, h3, h4, h5, h6, h7, h8, h9⟩

theorem wp_ensureActiveHistoricalSegment (hs : StorageWf s) :
    wp (ensureActiveHistoricalSegment w) (fun id s' => SegmentRun w.hashes s s' [] ∧
      s'.catalog.activeHistoricalSegment = some id ∧ ∃ d ∈ s'.catalog.segments, d.id = id) (Same s) s := by
  simp only [ensureActiveHistoricalSegment, wp_bind, wp_get]
  cases hact : s.catalog.activeHistoricalSegment with
  | none => exact wp_imp (wp_allocateHistoricalSegment hact) fun _ _ h => ⟨.single h.1, h.2⟩
  | some id =>
    obtain ⟨d, hd, rfl, hk⟩ := hs.catalog.historical id hact
    have hfi : s.catalog.segments.find? (fun sg => sg.id = d.id && sg.kind = .sealed) = some d := by
      cases hf : s.catalog.segments.find? (fun sg => sg.id = d.id && sg.kind = .sealed) with
      | none => simpa [hk] using find?_eq_none.mp hf d hd
      | some e =>
        have he := find?_some hf
        simp only [Bool.and_eq_true, decide_eq_true_eq] at he
        rw [hs.catalog.eq_of_id (mem_of_find?_eq_some hf) hd he.1]
    simp only [bind_some, hfi, wp_bind, wp_failIf, wp_pure]
    exact ⟨fun _ => ⟨.refl _ s, hact, d, hd, rfl⟩, fun _ => .refl s⟩

theorem wp_compactIngestSegment (hd : d ∈ s.catalog.segments) :
    wp (compactIngestSegment w d) (fun _ s' => SegmentStep w.hashes s s' [] ∧ s'.catalog = s.catalog) (Still s) s := by
  rw [compactIngestSegment, wp_ite]
  refine ⟨fun _ => wp_imp wp_persistIngestManifest ?_,
    fun _ => wp_imp wp_persistManifest fun _ s' h => ⟨.republish d _ hd h, h.catalog⟩⟩
  rintro _ s' ⟨cols, h⟩
  exact ⟨.republish d cols hd h, h.catalog⟩

theorem wp_finalizeHistoricalSegment (hs : StorageWf s) :
    wp (finalizeHistoricalSegment w) (fun _ s' => SegmentRun w.hashes s s' [] ∧ s'.catalog.activeHistoricalSegment = none)
      (Same s) s := by
  simp only [finalizeHistoricalSegment, wp_bind, wp_get]
  cases hact : s.catalog.activeHistoricalSegment with
  | none => exact ⟨.refl _ s, hact⟩
  | some id =>
    obtain ⟨d, hd, rfl, -⟩ := hs.catalog.historical id hact
    simp only [wp_bind, wp_findSegment, wp_runIf, wp_modifyCatalog, wp_pure]
    refine ⟨fun d' hd' => ?_, fun _ => .refl s⟩
    rw [hs.catalog.segment?_eq.mpr ⟨hd, rfl⟩] at hd'
    cases hd'
    -- Both ways lead to a state with the same catalog, from which the segment is closed and the catalog published.
    have hclose : ∀ s₁ : NativeStorage, SegmentRun w.hashes s s₁ [] → s₁.catalog = s.catalog →
        wp (persistCatalog w) (fun _ s' => SegmentRun w.hashes s s' [] ∧ s'.catalog.activeHistoricalSegment = none) (Same s)
          { s₁ with catalog := { s₁.catalog.modifySegment d.id fun sg => { sg with sourceState := none } with
            activeHistoricalSegment := none } } := by
      intro s₁ hrun hcat
      have hst : SegmentStep w.hashes s₁ { s₁ with catalog := { s₁.catalog.modifySegment d.id
          fun sg => { sg with sourceState := none } with activeHistoricalSegment := none } } [] :=
        .finalize d (hcat ▸ hd) (hcat ▸ hact)
          ⟨⟨rfl, rfl, rfl, rfl, rfl, rfl, rfl, rfl, rfl⟩, rfl, (Function.update_eq_self _ _).symm⟩
      have hrun' := hrun.trans (.single hst)
      exact wp_mono wp_persistCatalog (fun _ s' h => ⟨hrun'.trans (.still h), by rw [h.catalog]⟩)
        fun _ h => hrun'.same.trans h.same
    refine ⟨fun _ => wp_mono (wp_compactIngestSegment hd) (fun _ s₁ h => ?_) fun _ h => h.same, fun _ => ?_⟩
    · exact hclose s₁ (.single h.1) h.2
    · exact hclose s (.refl _ s) rfl

variable (hs : StorageWf s)

include hs

omit hs in
/-- One dense segment holds the next rows. -/
theorem wp_compactedStep (hf : s.catalog.activeHistoricalSegment = none)
    {pr : List PartitionMeta × List LogRow} (hr : pr.2 ≠ []) : wp (compactedStep w target pr)
      (fun next s' => TurnDone w.hashes s s' pr.2 next.2 ∧ s'.catalog.activeHistoricalSegment = none) (Same s) s := by
  simp only [compactedStep, wp_bind, wp_ask, wp_get, wp_attempt]
  refine ⟨?_, fun _ _ => (Still.tick s _).same⟩
  rintro ⟨d, catalog⟩ hall
  obtain ⟨rfl, rfl⟩ := allocateSegment_eq hall
  simp only [wp_modifyCatalog, wp_failIf]
  have hsa : Same s { s with catalog := { s.catalog with nextSegmentId := s.catalog.nextSegmentId + 1 }, tick := s.tick + 1 } :=
    ⟨rfl, rfl, rfl, rfl, rfl, rfl, rfl, rfl, rfl⟩
  refine ⟨fun take _ => ⟨fun ht => ?_, fun _ => hsa⟩, fun _ _ => hsa⟩
  have hchunk : pr.2.take take ≠ [] := by simp [hr, ht]
  refine wp_mono wp_writeNewHistoricalBundle ?_ fun _ h => hsa.trans h
  rintro ⟨cb, revision, bounds⟩ s₁ ⟨-, hrev, rfl, reference, dir, rfl, hp, h₁, hpre, hsel⟩
  change wp (persistManifest w (.dense w.hashes s.catalog.nextSegmentId (w.fill s.tick) (pr.2.take take) revision
    reference) .current) _ _ s₁
  refine wp_mono wp_persistManifest (fun _ s₂ h₂ => ?_) fun _ h => (hsa.trans h₁.same).trans h.same
  rw [dense_id, show s₁.disk.segments s.catalog.nextSegmentId = dir from h₁.dir_self] at h₂
  have h₂ := h₁.trans h₂
  have hst : SegmentStep w.hashes s { s₂ with catalog := { s₂.catalog with segments := s₂.catalog.segments ++
      [.dense w.hashes s.catalog.nextSegmentId (w.fill s.tick) (pr.2.take take) revision reference] } }
      (pr.2.take take) := by
    refine .dense _ _ revision reference _ .current hchunk hrev hp rfl rfl ?_ ⟨?_, ?_, h₂.segments⟩
    · apply SegmentDir.Selects.read
      rw [dense_generation]
      exact hsel
    · obtain ⟨h1, h2, h3, h4, h5, h6, h7, h8, h9⟩ := hsa.trans h₂.same
      exact ⟨h1, h2, h3, h4, h5, h6, h7, h8, h9⟩
    · simp only [h₂.catalog, h₁.catalog]
      rfl
  have hcat : s₂.catalog = { s.catalog with nextSegmentId := s.catalog.nextSegmentId + 1 } := h₂.catalog.trans h₁.catalog
  exact ⟨⟨_, (take_append_drop take pr.2).symm, .single hst⟩,
    (congrArg NativeStorageCatalog.activeHistoricalSegment hcat).trans hf⟩

theorem wp_writeCompactedHistoricalSegments (hf : s.catalog.activeHistoricalSegment = none) :
    wp (writeCompactedHistoricalSegments w rows target) (fun _ s' => SegmentRun w.hashes s s' rows) (Same s) s := by
  simp only [writeCompactedHistoricalSegments, wp_bind, wp_runIf, wp_pure]
  refine wp_imp (wp_turns Prod.snd (·.catalog.activeHistoricalSegment = none)
    (fun _ _ _ hf hr => wp_compactedStep hf hr) hs hf _ ([], rows)) ?_
  rintro _ s₁ ⟨hrun, -⟩
  refine ⟨fun _ => wp_mono wp_persistCatalog (fun _ s' h => ?_) fun _ h => hrun.same.trans h.same, fun _ => hrun⟩
  simpa using hrun.trans (.still h)

omit hs in
/-- A chunk is written to the staging segment, after its manifest was renewed where that had to be. -/
theorem wp_writeStagedChunk (hs : StorageWf s) (hd : d ∈ s.catalog.segments) :
    wp (writeStagedChunk w d chunk) (fun res s' => ∃ s₁, SegmentRun w.hashes s s₁ [] ∧ s₁.catalog = s.catalog ∧
      ChunkWritten s₁ s' d chunk res.1 ∧ AppendRevision.new w.hashes.blake3 d.sourceState chunk = .ok res.2.1 ∧
      res.2.2 = fromRows chunk ∧ (res.1 = none → d.columnBundle = none ∧ d.rowCount ≠ 0)) (Same s) s := by
  rw [writeStagedChunk, wp_ite]
  refine ⟨fun hz => ?_, fun hr => ?_⟩
  · refine wp_imp wp_writeNewHistoricalBundle ?_
    rintro ⟨cb, revision, bounds⟩ s' ⟨-, hrev, hbds, reference, dir, rfl, hp, hst, hpre, hsel⟩
    refine ⟨s, .refl _ s, rfl, ⟨⟨dir, hst, hpre, ?_⟩, ?_⟩, hrev, hbds, nofun⟩
    · rw [contents_empty hz, ((hs.held d hd).blank hz).2]
      exact hsel
    · rintro _ ⟨⟩
      rw [hz, Nat.zero_add]
      exact hp
  · simp only [wp_bind, wp_attempt, wp_get, wp_runIf, wp_pure]
    refine ⟨fun revision hrev => ?_, fun _ _ => .refl s⟩
    have happ : ∀ s₁ : NativeStorage, SegmentRun w.hashes s s₁ [] → s₁.catalog = s.catalog →
        wp (appendCompactedRows w d.id d.rowCount chunk revision) (fun cb s' => ∃ s₁,
          SegmentRun w.hashes s s₁ [] ∧ s₁.catalog = s.catalog ∧ ChunkWritten s₁ s' d chunk cb ∧
          AppendRevision.new w.hashes.blake3 d.sourceState chunk = .ok revision ∧
          True ∧ (cb = none → d.columnBundle = none ∧ d.rowCount ≠ 0))
          (Same s) s₁ := fun s₁ hrun hcat =>
      wp_mono (wp_appendCompactedRows (hrun.wf hs) (hcat ▸ hd) hr)
        (fun _ s' h => ⟨s₁, hrun, hcat, h.1, hrev, trivial, fun hn => ⟨h.2 hn, hr⟩⟩) fun _ h => hrun.same.trans h
    refine ⟨fun _ => wp_mono (wp_compactIngestSegment hd)
      (fun _ s₁ h => happ s₁ (.single h.1) h.2) fun _ h => h.same, fun _ => ?_⟩
    exact happ s (.refl _ s) rfl

theorem wp_stageChunk (hd : d ∈ s.catalog.segments)
    (hact : s.catalog.activeHistoricalSegment = some d.id) (hch : chunk ≠ []) :
    wp (stageChunk w target d chunk) (fun _ s' => SegmentRun w.hashes s s' chunk) (Same s) s := by
  simp only [stageChunk, wp_bind]
  refine wp_imp (wp_writeStagedChunk hs hd) ?_
  rintro ⟨cb, revision, bounds⟩ s₂ ⟨s₁, hrun, hcat, hwri, hrev, rfl, hraw⟩
  obtain ⟨dir, hdir, -, -⟩ := hwri.dir
  have hsa := hrun.same.trans
    (hdir.same.modifySegment d.id fun _ => d.appended (fromRows chunk) revision cb)
  simp only [wp_modifyCatalog]
  refine wp_mono wp_persistManifest (fun _ s₃ h₃ => ?_) fun _ h => hsa.trans h.same
  rw [appended_id] at h₃
  refine wp_mono wp_persistCatalog (fun _ s₄ h₄ => ?_) fun _ h => (hsa.trans h₃.same).trans h.same
  have hst := hwri.step (hcat ▸ hd) (.inr (hcat ▸ hact)) hch hrev
    (fun hn => ⟨(hraw hn).1, fun hz => absurd hz (hraw hn).2⟩) rfl (h₃.still h₄)
  have hrun₄ := hrun.trans (.single hst)
  rw [wp_runIf, wp_discard]
  refine ⟨fun _ => ?_, fun _ => hrun₄⟩
  refine wp_mono (wp_finalizeHistoricalSegment (hrun₄.wf hs)) (fun _ s' h => ?_) fun _ h => hrun₄.same.trans h
  simpa using hrun₄.trans h.1

theorem wp_stagedStep {pr : List Nat × List LogRow} (hr : pr.2 ≠ []) :
    wp (stagedStep w target pr) (fun next s' => TurnDone w.hashes s s' pr.2 next.2 ∧ True) (Same s) s := by
  simp only [stagedStep, wp_bind]
  refine wp_imp (wp_ensureActiveHistoricalSegment hs) ?_
  rintro segmentId s₁ ⟨hrun, hact, d, hd, rfl⟩
  have hwf := hrun.wf hs
  simp only [wp_findSegment]
  refine ⟨fun d' hd' => ?_, fun _ => hrun.same⟩
  rw [hwf.catalog.segment?_eq.mpr ⟨hd, rfl⟩] at hd'
  cases hd'
  have hfinalize : wp (finalizeHistoricalSegment w) (fun _ s' => TurnDone w.hashes s s' pr.2 pr.2 ∧ True) (Same s) s₁ :=
    wp_mono (wp_finalizeHistoricalSegment hwf) (fun _ s' h => ⟨⟨[], rfl, hrun.trans h.1⟩, trivial⟩) fun _ h => hrun.same.trans h
  rw [wp_ite]
  refine ⟨fun _ => by simpa only [wp_bind, wp_pure] using hfinalize, fun _ => ?_⟩
  simp only [wp_bind]
  refine wp_mono wp_stagedCapacity ?_ fun _ h => h ▸ hrun.same
  rintro take _ rfl
  rw [wp_ite]
  refine ⟨fun _ => ?_, fun ht => ?_⟩
  · rw [wp_ite]
    exact ⟨fun _ => hrun.same, fun _ => by simpa only [wp_bind, wp_pure] using hfinalize⟩
  · rw [wp_ite]
    refine ⟨fun _ => by simpa only [wp_bind, wp_pure] using hfinalize, fun _ => ?_⟩
    have hchunk : pr.2.take take ≠ [] := by simp [hr, ht]
    simp only [wp_bind, wp_pure]
    refine wp_mono (wp_stageChunk hwf hd hact hchunk) (fun _ s₂ h => ⟨⟨_, (take_append_drop take _).symm, ?_⟩, trivial⟩)
      fun _ h => hrun.same.trans h
    simpa using hrun.trans h

theorem wp_writeStagedHistoricalRows :
    wp (writeStagedHistoricalRows w rows target) (fun _ s' => SegmentRun w.hashes s s' rows) (Same s) s := by
  simp only [writeStagedHistoricalRows, wp_bind, wp_get, wp_pure]
  exact wp_imp (wp_turns Prod.snd (fun _ => True) (fun _ _ hs _ hr => wp_stagedStep hs hr) hs trivial _ ([], rows))
    fun _ _ h => h.1

/-- The historical route stores exactly its rows. -/
theorem wp_writeHistoricalRows :
    wp (writeHistoricalRows w rows) (fun _ s' => SegmentRun w.hashes s s' rows) (Same s) s := by
  simp only [writeHistoricalRows, wp_bind, wp_get, wp_ite]
  refine ⟨fun _ => ?_, fun _ => wp_writeStagedHistoricalRows hs⟩
  refine wp_imp (wp_finalizeHistoricalSegment hs) fun _ s₁ h₁ => ?_
  refine wp_mono (wp_writeCompactedHistoricalSegments (h₁.1.wf hs) h₁.2) (fun _ s₂ h₂ => ?_) fun _ h => h₁.1.same.trans h
  have hrun := h₁.1.trans h₂
  rw [nil_append] at hrun
  refine ⟨fun _ => ?_, fun hall => ?_⟩
  · refine wp_mono (wp_writeStagedHistoricalRows (hrun.wf hs)) (fun _ s₃ h₃ => ?_) fun _ h => hrun.same.trans h
    have hrun₃ := hrun.trans h₃
    rwa [take_append_drop] at hrun₃
  · rwa [take_of_length_le (not_lt.mp hall)] at hrun

end Logex
