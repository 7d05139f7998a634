import Logex.Lemmas.StorageWrite

/-!
# What checkpoints do

A checkpoint publishes what is in memory and may repack sparse bundles on the way: it adds no row and leaves canonical progress alone.
Where it fails after it began, storage stays closed to further writes.
-/

namespace Logex

open Lib List

variable {rt : IngestRoute}

/-- No row is added, and canonical progress and the targets stay; segments may be rewritten and flags set. -/
inductive Upkeep (hashes : Hashes) : NativeStorage → NativeStorage → Prop
  | quiet {s s' : NativeStorage} (hotTargetRows : s'.hotTargetRows = s.hotTargetRows) (catalog : s'.catalog = s.catalog)
      (segments : s'.disk.segments = s.disk.segments) : Upkeep hashes s s'
  | run {s s' : NativeStorage} (run : SegmentRun hashes s s' []) : Upkeep hashes s s'
  | trans {s s' s'' : NativeStorage} (first : Upkeep hashes s s') (second : Upkeep hashes s' s'') : Upkeep hashes s s''

namespace Upkeep

variable {hashes : Hashes} {s s' : NativeStorage}

theorem refl (hashes : Hashes) (s : NativeStorage) : Upkeep hashes s s := .quiet rfl rfl rfl

theorem of_still (h : Still s s') : Upkeep hashes s s' := .quiet h.same.hotTargetRows h.catalog h.segments

/-- What upkeep does after flags were set. -/
theorem since {s₀ : NativeStorage} (h : Upkeep hashes s s') (htr : s.hotTargetRows = s₀.hotTargetRows)
    (cat : s.catalog = s₀.catalog) (sgs : s.disk.segments = s₀.disk.segments) : Upkeep hashes s₀ s' :=
  .trans (.quiet htr cat sgs) h

/-- Upkeep keeps storage well-formed. -/
theorem wf (h : Upkeep hashes s s') (hs : StorageWf s) : StorageWf s' := by
  induction h with
  | quiet _ catalog segments => exact ⟨by rw [catalog]; exact hs.catalog, by rw [catalog, segments]; exact hs.held⟩
  | run run => exact run.wf hs
  | trans _ _ ih₁ ih₂ => exact ih₂ (ih₁ hs)

theorem state (h : Upkeep hashes s s') : s'.catalog.state = s.catalog.state := by
  induction h with
  | quiet _ cat _ => rw [cat]
  | run run => exact run.same.state
  | trans _ _ ih₁ ih₂ => exact ih₂.trans ih₁

end Upkeep

variable {w : World} {s : NativeStorage}

/-! ## Repacking -/

/-- A bundle of the next generation was written and its manifest published. -/
structure Repacked (s s' : NativeStorage) (d next : SegmentDescriptor) : Prop where
  descriptor : ∃ reference : BundleReference, next = { d with generation := d.generation + 1, columnBundle := some reference } ∧
    reference.Pins d.rowCount
  dir : ∃ dir columns, Stepped s s' s.catalog d.id dir ∧ dir.present = true ∧ dir.manifest = some (manifestWithColumns next columns) ∧
    dir.read = .ok (s.contents d)

theorem wp_repackInto {d : SegmentDescriptor} :
    wp (repackInto w d (s.contents d)) (fun next s' => Repacked s s' d next) (Same s) s := by
  unfold repackInto
  rw [wp_bind, wp_attempt]
  refine ⟨fun gen hgen => ?_, fun _ _ => .refl s⟩
  obtain ⟨rfl, -⟩ := checkedAdd_eq_some.mp (okOr_eq_ok.mp hgen)
  rw [wp_bind, wp_ask, wp_bind, wp_attempt]
  refine ⟨?_, fun _ _ => (Still.tick s _).same⟩
  rintro ⟨ref, bundle⟩ hcre
  obtain ⟨hp, hr⟩ := BundleFile.create_ok hcre
  refine wp_seq wp_writeSegment (fun _ s₁ h₁ => ?_) fun _ h => (Still.tick s _).same.trans h.same
  have h₁ := h₁.after (.tick s _)
  refine wp_seq wp_persistManifest (fun _ s₂ h₂ => ?_) fun _ h => h₁.same.trans h.same
  rw [h₁.dir_self, h₁.catalog] at h₂
  refine ⟨⟨ref, rfl, hp⟩, _, _, h₁.trans h₂, rfl, rfl, ?_⟩
  apply SegmentDir.Selects.read
  simpa [SegmentDir.Selects] using hr

/-- What repacking one segment returns. -/
theorem wp_repackSparseBundle (hs : StorageWf s) {d : SegmentDescriptor} (hd : d ∈ s.catalog.segments) :
    wp (repackSparseBundle w d) (fun res s' => match res with
      | none => Still s s'
      | some next => d.rowCount ≠ 0 ∧ Repacked s s' d next) (Same s) s := by
  unfold repackSparseBundle
  cases hbun : d.columnBundle with
  | none => exact .refl s
  | some ref =>
    have hr : d.rowCount ≠ 0 := fun hz => by
      rw [((hs.held d hd).blank hz).1] at hbun
      cases hbun
    simp only [wp_ite, wp_bind, wp_get, wp_attempt, wp_pure]
    refine ⟨fun _ => .refl s, fun _ => ⟨fun can _ => ⟨fun _ => ?_, fun _ => .refl s⟩, fun _ _ => .refl s⟩⟩
    simp only [repackRows, wp_bind, wp_get, wp_failIf, wp_attempt, (hs.held d hd).read hr, Except.ok.injEq, wp_ite, wp_pure]
    refine ⟨fun _ => ⟨?_, fun _ _ => .refl s⟩, fun _ => .refl s⟩
    rintro _ rfl
    exact ⟨fun _ => .refl s, fun _ => ⟨fun _ => wp_imp wp_repackInto fun _ s' h => ⟨hr, h⟩, fun _ => .refl s⟩⟩

/-- Publishing the descriptor of a repacked segment completes the step. -/
theorem Repacked.step {hashes : Hashes} {s₁ : NativeStorage} {d next : SegmentDescriptor} (h : Repacked s s₁ d next)
    (hd : d ∈ s.catalog.segments) (hr : d.rowCount ≠ 0) :
    SegmentStep hashes s { s₁ with catalog := s₁.catalog.modifySegment d.id fun _ => next } [] := by
  obtain ⟨⟨ref, rfl, hp⟩, dir, columns, hs, hpre, hman, hre⟩ := h
  refine .repack d ref dir columns hd hr hp hpre hman hre ⟨hs.same.modifySegment d.id _, ?_, hs.segments⟩
  rw [hs.catalog]

/-- Repacking a list of different segments of the catalog: the others stay, and every generation left behind is an old one. -/
theorem wp_repackSegments (ori : IngestionOrigin) (list : List SegmentDescriptor) :
    ∀ s : NativeStorage, StorageWf s → (∀ d ∈ list, d ∈ s.catalog.segments) → (list.map (·.id)).Nodup →
      wp (repackSegments w ori list) (fun ret s' => SegmentRun w.hashes s s' [] ∧
        (∀ d ∈ s.catalog.segments, d.id ∉ list.map (·.id) → d ∈ s'.catalog.segments) ∧
        ∀ ent ∈ ret, ∃ d ∈ s'.catalog.segments, d.id = ent.1 ∧ ent.2 ≠ d.generation) (Same s) s := by
  induction list with
  | nil => exact fun s _ _ _ => ⟨.refl _ s, fun d hd _ => hd, nofun⟩
  | cons d list ih =>
    intro s hs hmem hn
    rw [map_cons, nodup_cons] at hn
    have hd := hmem d mem_cons_self
    have hr : ∀ e ∈ list, e.id ≠ d.id := fun e he heq => hn.1 (heq ▸ mem_map_of_mem he)
    have hno : ∀ s₁ : NativeStorage, Still s s₁ → wp (repackSegments w ori list) (fun ret s' =>
        SegmentRun w.hashes s s' [] ∧ (∀ e ∈ s.catalog.segments, e.id ∉ (d :: list).map (·.id) → e ∈ s'.catalog.segments) ∧
        ∀ ent ∈ ret, ∃ d ∈ s'.catalog.segments, d.id = ent.1 ∧ ent.2 ≠ d.generation) (Same s) s₁ := by
      intro s₁ sti
      refine wp_mono (ih s₁ (hs.of_still sti) (fun e he => sti.catalog ▸ hmem e (mem_cons_of_mem _ he)) hn.2) ?_
        fun _ h => sti.same.trans h
      rintro ret s' ⟨hrun, hk, hold⟩
      exact ⟨hrun.before sti, fun e he hne => hk e (sti.catalog ▸ he) fun h => hne (mem_cons_of_mem _ h), hold⟩
    simp only [repackSegments, wp_bind, repackIncluded]
    have hres : wp (if ori.includes d.id then repackSparseBundle w d else pure none) (fun res s' => match res with
        | none => Still s s' | some next => d.rowCount ≠ 0 ∧ Repacked s s' d next) (Same s) s := by
      rw [wp_ite]
      exact ⟨fun _ => wp_repackSparseBundle hs hd, fun _ => .refl s⟩
    refine wp_imp hres fun res s₁ h => ?_
    cases res with
    | none => exact hno s₁ h
    | some next =>
      obtain ⟨hro, hrep⟩ := h
      have hst : SegmentStep w.hashes s _ [] := hrep.step hd hro
      obtain ⟨⟨ref, hnt, -⟩, dir, columns, hdir, -⟩ := hrep
      obtain ⟨pre, post, hsp, hne, hmod⟩ := hs.catalog.split hd
      have hse : (s₁.catalog.modifySegment d.id fun _ => next).segments = pre ++ next :: post := by
        rw [hdir.catalog]
        exact hmod _
      have hoth : ∀ e ∈ s.catalog.segments, e.id ≠ d.id → e ∈ pre ++ next :: post := fun e he hid => by
        rw [hsp] at he
        simp only [mem_append, mem_cons] at he ⊢
        rcases he with he | rfl | he
        · exact .inl he
        · exact absurd rfl hid
        · exact .inr (.inr he)
      simp only [wp_modifyCatalog, wp_bind, wp_pure]
      refine wp_mono (ih _ (hst.wf hs) (fun e he => ?_) hn.2) ?_ fun _ h => hst.same.trans h
      · exact hse ▸ hoth e (hmem e (mem_cons_of_mem _ he)) (hr e he)
      · rintro ret s' ⟨hrun, hk, hold⟩
        refine ⟨.step hst hrun, fun e he hid => ?_, fun ent hen => ?_⟩
        · rw [map_cons, mem_cons, not_or] at hid
          exact hk e (hse ▸ hoth e he hid.1) hid.2
        · rcases mem_cons.mp hen with rfl | hen
          · have hid : next.id = d.id := by rw [hnt]
            refine ⟨next, hk next (hse ▸ mem_append_right _ mem_cons_self) (hid ▸ hn.1), hid, ?_⟩
            rw [hnt]
            exact ne_of_lt (Nat.lt_succ_self _)
          · exact hold ent hen

/-- Removing old generations changes no row. -/
theorem wp_retireGenerations (list : List (Nat × Nat)) :
    ∀ s : NativeStorage, (∀ e ∈ list, ∃ d ∈ s.catalog.segments, d.id = e.1 ∧ e.2 ≠ d.generation) →
      wp (list.forM fun ret => writeSegment w ret.1 fun dir =>
          { dir with bundles := Function.update dir.bundles ret.2 {} })
        (fun _ s' => SegmentRun w.hashes s s' []) (Same s) s := by
  induction list with
  | nil => exact fun s _ => .refl _ s
  | cons e list ih =>
    intro s hl
    obtain ⟨d, hd, hid, hold⟩ := hl e mem_cons_self
    rw [wp_forM_cons, ← hid]
    refine wp_mono wp_writeSegment (fun _ s₁ h₁ => ?_) fun _ h => h.same
    have hs : SegmentStep w.hashes s s₁ [] := .retireGeneration d e.2 hd hold h₁
    refine wp_mono (ih s₁ fun o hot => ?_) (fun _ s₂ h₂ => .step hs h₂) fun _ h => hs.same.trans h
    rw [h₁.catalog]
    exact hl o (mem_cons_of_mem _ hot)

/-! ## Publication -/

/-- A failed operation closed storage, or changed nothing that matters. -/
def Stopped (hashes : Hashes) (s s' : NativeStorage) : Prop := s'.recoveryRequired = true ∨ Upkeep hashes s s'

/-- A completed checkpoint: storage is open again and no ingestion is pending. -/
structure Checkpointed (hashes : Hashes) (s s' : NativeStorage) : Prop where
  upkeep : Upkeep hashes s s'
  writable : s'.recoveryRequired = false
  pendingIngestion : s'.pendingIngestion = none

theorem wp_checkpointIngestion (hs : StorageWf s) (hp : s.pendingIngestion = none) {pen : PendingIngestion} {pd : Bool} :
    wp (checkpointIngestion w pen pd) (fun _ s' => Checkpointed w.hashes s s') (·.recoveryRequired = true) s := by
  simp only [checkpointIngestion, wp_bind, wp_setRecoveryRequired, wp_get]
  have hq : Upkeep w.hashes s { s with recoveryRequired := true } := .quiet rfl rfl rfl
  have hwf := (hq.wf hs)
  refine wp_mono (wp_repackSegments pen.origin s.catalog.segments _ hwf (fun _ h => h) hs.catalog.nodup) ?_
    fun _ h => h.recoveryRequired
  rintro rep s₁ ⟨hrun, -, hold⟩
  have hclo := hrun.same.recoveryRequired
  have hp₁ := hrun.same.pendingIngestion.trans hp
  simp only [wp_attempt, wp_writeDisk, wp_ite, wp_bind, wp_modify, wp_setRecoveryRequired]
  refine ⟨fun _ _ => ⟨fun _ => ⟨fun _ => ?_, fun _ => ⟨fun pub _ => ?_, fun _ _ => hclo⟩⟩, fun _ => hclo⟩, fun _ _ => hclo⟩
  · refine wp_mono (wp_retireGenerations rep _ hold) (fun _ s₂ h₂ => ?_) fun _ h => h.recoveryRequired.trans hclo
    refine ⟨?_, rfl, h₂.same.pendingIngestion.trans hp₁⟩
    have hrem : Upkeep w.hashes s₁ s₂ := (Upkeep.run h₂).since rfl rfl rfl
    exact ((hq.trans (.run hrun)).trans hrem).trans (.quiet rfl rfl rfl)
  · exact ⟨(hq.trans (.run hrun)).trans (.quiet rfl rfl rfl), rfl, hp₁⟩

theorem wp_anyExpired (list : List PendingIngestion) :
    ∀ s : NativeStorage, wp (anyExpired w list) (fun _ s' => Still s s') (fun _ => False) s := by
  induction list with
  | nil => exact fun s => .refl s
  | cons pending list ih =>
    intro s
    simp only [anyExpired, wp_bind, wp_checkpointNow, wp_ite, wp_pure]
    exact ⟨fun _ => .tick s _, fun _ => wp_imp (ih _) fun _ s' h => (Still.tick s _).trans h⟩

theorem wp_ingestionCheckpointDue {ab : Nat} : wp (ingestionCheckpointDue w ab) (fun _ s' => Still s s') (fun _ => False) s := by
  simp only [ingestionCheckpointDue, wp_bind, wp_get, wp_pure]
  exact wp_anyExpired _ s

theorem wp_hardenPublished (hp : s.pendingIngestion = none) :
    wp (hardenPublished w) (fun _ s' => Checkpointed w.hashes s s') (·.recoveryRequired = true) s := by
  simp only [hardenPublished, wp_bind, wp_setRecoveryRequired, wp_writeDisk, wp_modify]
  exact ⟨fun _ => ⟨.quiet rfl rfl rfl, rfl, hp⟩, fun _ => trivial⟩

theorem wp_checkpointWal (hp : s.pendingIngestion = none) {pen : PendingCheckpoint} :
    wp (checkpointWal w pen) (fun _ s' => Checkpointed w.hashes s s') (·.recoveryRequired = true) s := by
  simp only [checkpointWal, persistJournal, persistCheckpointCatalog, finishWalBatch, wp_bind, wp_setRecoveryRequired, wp_attempt,
    wp_writeDisk, wp_get]
  refine ⟨fun _ _ => ⟨fun _ _ => ⟨fun _ => ⟨fun _ _ => ⟨fun _ => ⟨fun _ => ⟨fun _ => ?_, ?_⟩, ?_⟩, ?_⟩, ?_⟩, ?_⟩, ?_⟩, ?_⟩
  · exact ⟨.quiet rfl rfl rfl, rfl, hp⟩
  all_goals first | exact fun _ => trivial | exact fun _ _ => trivial

theorem wp_checkpoint (hs : StorageWf s) :
    wp (checkpoint w) (fun _ s' => Checkpointed w.hashes s s') (·.recoveryRequired = true) s := by
  simp only [checkpoint, wp_bind, wp_ensureWritable]
  refine ⟨fun hwri => ?_, fun hclo => hclo⟩
  refine wp_mono wp_ingestionCheckpointDue (fun pd s₁ h₁ => ?_) fun _ h => h.elim
  have hup : Upkeep w.hashes s s₁ := .of_still h₁
  have hop : s₁.recoveryRequired = false := h₁.same.recoveryRequired.trans (Bool.eq_false_iff.mpr hwri)
  simp only [wp_get]
  cases hp : s₁.pendingIngestion with
  | some pen =>
    have hq : Upkeep w.hashes s { s₁ with pendingIngestion := none } := hup.trans (.quiet rfl rfl rfl)
    exact wp_imp (wp_checkpointIngestion (hq.wf hs) rfl) fun _ s' h => ⟨hq.trans h.upkeep, h.writable, h.pendingIngestion⟩
  | none =>
    cases s₁.pendingCheckpoint with
    | some pen =>
      have hq : Upkeep w.hashes s { s₁ with pendingCheckpoint := none } := hup.trans (.quiet rfl rfl rfl)
      exact wp_imp (wp_checkpointWal (s := { s₁ with pendingCheckpoint := none }) hp)
        fun _ s' h => ⟨hq.trans h.upkeep, h.writable, h.pendingIngestion⟩
    | none =>
      rw [wp_runIf]
      refine ⟨fun _ => wp_imp (wp_hardenPublished hp) fun _ s' h => ?_, fun _ => ⟨hup, hop, hp⟩⟩
      exact ⟨hup.trans h.upkeep, h.writable, h.pendingIngestion⟩

theorem wp_checkpointDurable (hs : StorageWf s) :
    wp (checkpointDurable w) (fun _ s' => Checkpointed w.hashes s s') (·.recoveryRequired = true) s := by
  simp only [checkpointDurable, wp_bind, wp_ensureWritable, wp_get]
  refine ⟨fun _ => ?_, fun hclo => hclo⟩
  cases s.pendingIngestion with
  | some pending =>
    have hq : Upkeep w.hashes s { s with pendingIngestion := none } := .quiet rfl rfl rfl
    exact wp_imp (wp_checkpointIngestion (hq.wf hs) rfl) fun _ s' h => ⟨hq.trans h.upkeep, h.writable, h.pendingIngestion⟩
  | none =>
    simp only [wp_bind, wp_get, wp_runIf]
    refine wp_imp (wp_checkpoint hs) fun _ s₁ h₁ => ?_
    refine ⟨fun _ => wp_imp (wp_hardenPublished h₁.pendingIngestion) fun _ s' h => ?_, fun _ => h₁⟩
    exact ⟨h₁.upkeep.trans h.upkeep, h.writable, h.pendingIngestion⟩

theorem wp_checkpointIfDue (hs : StorageWf s) :
    wp (checkpointIfDue w) (fun _ s' => Upkeep w.hashes s s') (·.recoveryRequired = true) s := by
  simp only [checkpointIfDue, wp_bind, wp_ensureWritable, wp_get, wp_checkpointNow, wp_ite, wp_pure]
  have hup : Upkeep w.hashes s { s with tick := s.tick + 1 } := .quiet rfl rfl rfl
  refine ⟨fun _ => ⟨fun _ => ?_, fun _ => hup⟩, fun hclo => hclo⟩
  exact wp_imp (wp_checkpointDurable (hup.wf hs)) fun _ s' h => hup.trans h.upkeep

theorem wp_hardenIngestion (hs : StorageWf s) (hwri : s.recoveryRequired = false) :
    wp (hardenIngestion w) (fun _ s' => Checkpointed w.hashes s s') (·.recoveryRequired = true) s := by
  simp only [hardenIngestion, wp_bind, wp_get, wp_runIf]
  refine ⟨fun _ => wp_checkpointDurable hs, fun hn => ⟨.refl _ s, hwri, ?_⟩⟩
  simpa using (not_or.mp hn).1

/-! ## Beginning and completing a batch -/

/-- A batch has begun: storage is closed to others until it completes. -/
structure Begun (hashes : Hashes) (s s' : NativeStorage) : Prop where
  upkeep : Upkeep hashes s s'
  closed : s'.recoveryRequired = true

theorem wp_openIngestion : wp (openIngestion w rt) (fun _ s' => Still s s') (Still s) s := by
  simp only [openIngestion, wp_bind, wp_get]
  cases s.pendingIngestion with
  | some pending => exact .refl s
  | none =>
    simp only [wp_bind, wp_attempt, wp_checkpointNow, wp_pure]
    exact ⟨fun _ _ => .tick s _, fun _ _ => .refl s⟩

theorem wp_ingestionMustCheckpoint {bs : Nat} :
    wp (ingestionMustCheckpoint w bs rt) (fun _ s' => Still s s') (fun _ => False) s := by
  simp only [ingestionMustCheckpoint, wp_bind, wp_get, wp_pure]
  exact wp_ingestionCheckpointDue

theorem wp_beginIngestion (hs : StorageWf s) {rows : List LogRow} :
    wp (beginIngestion w rows rt) (fun _ s' => Begun w.hashes s s' ∧ s'.pendingIngestion.isSome = true)
      (Stopped w.hashes s) s := by
  simp only [beginIngestion, wp_bind, wp_ensureWritable, wp_attempt, wp_setRecoveryRequired, wp_modify]
  refine ⟨fun _ => ⟨fun bytes _ => ?_, fun _ _ => .inr (.refl _ s)⟩, fun hclo => .inl hclo⟩
  refine wp_mono wp_ingestionMustCheckpoint (fun must s₁ h₁ => ?_) fun _ h => h.elim
  have hup : Upkeep w.hashes s s₁ := .of_still h₁
  have hhar : wp (runIf (must = true) (checkpointDurable w)) (fun _ s' => Upkeep w.hashes s s')
      (Stopped w.hashes s) s₁ := by
    rw [wp_runIf]
    exact ⟨fun _ => wp_mono (wp_checkpointDurable (hup.wf hs)) (fun _ _ h => hup.trans h.upkeep) fun _ h => .inl h, fun _ => hup⟩
  refine wp_imp hhar fun _ s₂ hup₂ => ?_
  refine wp_mono wp_openIngestion (fun pending s₃ h₃ => ⟨fun total _ => ⟨⟨?_, h₃.same.recoveryRequired⟩, rfl⟩,
    fun _ _ => .inl h₃.same.recoveryRequired⟩) fun _ h => .inl h.same.recoveryRequired
  exact (hup₂.trans ((Upkeep.of_still h₃).since rfl rfl rfl)).trans (.quiet rfl rfl rfl)

theorem wp_completeIngestionBatch (hs : StorageWf s) :
    wp (completeIngestionBatch w) (fun _ s' => Upkeep w.hashes s s' ∧ s'.recoveryRequired = false)
      (·.recoveryRequired = true) s := by
  simp only [completeIngestionBatch, wp_bind, wp_setRecoveryRequired, wp_runIf]
  have hq : Upkeep w.hashes s { s with recoveryRequired := false } := .quiet rfl rfl rfl
  refine wp_mono wp_ingestionCheckpointDue (fun due s₁ h₁ => ?_) fun _ h => h.elim
  have hup := hq.trans (.of_still h₁)
  exact ⟨fun _ => wp_imp (wp_checkpointDurable (hup.wf hs)) fun _ s' h => ⟨hup.trans h.upkeep, h.writable⟩,
    fun _ => ⟨hup, h₁.same.recoveryRequired⟩⟩

end Logex
