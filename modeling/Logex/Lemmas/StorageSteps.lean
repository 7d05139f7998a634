import Logex.Lemmas.Segment

/-!
# What writing rows can do

Every function that writes rows to segments changes storage by a sequence of few kinds of step: a hot segment is registered, sealed,
a historical one allocated or finalized, a chunk of rows appended, a dense segment added. `SegmentStep` says what each kind does to
the catalog and to the one directory it touches; everything else about such a function is derived from `SegmentRun`, the sequences
of these steps.
-/

namespace Logex

open Lib List SegmentDescriptor SegmentHeld

variable {d : SegmentDescriptor}

/-! ## Primitive operations -/

section Primitives

variable {w : World} {s : NativeStorage} {E : NativeStorage → Prop}

@[simp] theorem wp_ask {Q : Nat → NativeStorage → Prop} : wp ask Q E s ↔ Q s.tick { s with tick := s.tick + 1 } := Iff.rfl

variable {Q : Unit → NativeStorage → Prop}

@[simp] theorem wp_modifyCatalog {ch : NativeStorageCatalog → NativeStorageCatalog} :
    wp (modifyCatalog ch) Q E s ↔ Q () { s with catalog := ch s.catalog } := Iff.rfl

@[simp] theorem wp_modifyState {ch : StorageState → StorageState} :
    wp (modifyState ch) Q E s ↔ Q () { s with catalog := { s.catalog with state := ch s.catalog.state } } := Iff.rfl

@[simp] theorem wp_setRecoveryRequired {req : Bool} :
    wp (setRecoveryRequired req) Q E s ↔ Q () { s with recoveryRequired := req } := Iff.rfl

@[simp] theorem wp_writeDisk {ch : Disk → Disk} : wp (writeDisk w ch) Q E s ↔
      (¬w.fails s.tick = true → Q () { s with disk := ch s.disk, tick := s.tick + 1 }) ∧
        (w.fails s.tick = true → E { s with tick := s.tick + 1 }) := by
  simp [writeDisk]

@[simp] theorem wp_checkpointNow {Q : Nat → NativeStorage → Prop} :
    wp (checkpointNow w) Q E s ↔ Q (w.now s.tick) { s with tick := s.tick + 1 } := Iff.rfl

@[simp] theorem wp_ensureWritable :
    wp ensureWritable Q E s ↔ (¬s.recoveryRequired = true → Q () s) ∧ (s.recoveryRequired = true → E s) := by
  simp [ensureWritable]

@[simp] theorem wp_findSegment {id : Nat} {mis : String} {Q : SegmentDescriptor → NativeStorage → Prop} :
    wp (findSegment id mis) Q E s ↔
      (∀ d, s.catalog.segment? id = some d → Q d s) ∧ (s.catalog.segment? id = none → E s) := by
  simp only [findSegment, wp_bind, wp_get, wp_attempt, okOr_eq_ok]
  refine and_congr_right fun _ => ?_
  cases s.catalog.segment? id <;> simp [okOr]

end Primitives

/-! ## Frames -/

/-- Everything but the segments of the catalog and the disk is as it was. -/
structure Same (s s' : NativeStorage) : Prop where
  hotTargetRows : s'.hotTargetRows = s.hotTargetRows
  recoveryRequired : s'.recoveryRequired = s.recoveryRequired
  pendingCheckpoint : s'.pendingCheckpoint = s.pendingCheckpoint
  pendingIngestion : s'.pendingIngestion = s.pendingIngestion
  publishedIngestion : s'.publishedIngestion = s.publishedIngestion
  state : s'.catalog.state = s.catalog.state
  anchors : s'.catalog.anchors = s.catalog.anchors
  formatVersion : s'.catalog.formatVersion = s.catalog.formatVersion
  catalogTarget : s'.catalog.hotTargetRows = s.catalog.hotTargetRows

theorem Same.refl (s : NativeStorage) : Same s s := ⟨rfl, rfl, rfl, rfl, rfl, rfl, rfl, rfl, rfl⟩

theorem Same.trans {s s' s'' : NativeStorage} (h : Same s s') (h' : Same s' s'') : Same s s'' :=
  ⟨h'.1.trans h.1, h'.2.trans h.2, h'.3.trans h.3, h'.4.trans h.4, h'.5.trans h.5, h'.6.trans h.6, h'.7.trans h.7,
    h'.8.trans h.8, h'.9.trans h.9⟩

/-- What is changed in the segments of the catalog does not matter for the rest. -/
theorem Same.modifySegment {s s₁ : NativeStorage} (h : Same s s₁) (id : Nat) (ch : SegmentDescriptor → SegmentDescriptor) :
    Same s { s₁ with catalog := s₁.catalog.modifySegment id ch } :=
  ⟨h.1, h.2, h.3, h.4, h.5, h.6, h.7, h.8, h.9⟩

/-- The catalog in memory and all segment directories are as they were. -/
structure Still (s s' : NativeStorage) : Prop where
  same : Same s s'
  catalog : s'.catalog = s.catalog
  segments : s'.disk.segments = s.disk.segments

theorem Still.refl (s : NativeStorage) : Still s s := ⟨.refl s, rfl, rfl⟩

theorem Still.trans {s s' s'' : NativeStorage} (h : Still s s') (h' : Still s' s'') : Still s s'' :=
  ⟨h.same.trans h'.same, h'.catalog.trans h.catalog, h'.segments.trans h.segments⟩

/-- Asking the world changes nothing. -/
theorem Still.tick (s : NativeStorage) (tick : Nat) : Still s { s with tick } :=
  ⟨⟨rfl, rfl, rfl, rfl, rfl, rfl, rfl, rfl, rfl⟩, rfl, rfl⟩

/-- Publishing the catalog changes nothing else. -/
theorem wp_persistCatalog {w : World} {s : NativeStorage} :
    wp (persistCatalog w) (fun _ s' => Still s s') (Still s) s := by
  simp only [persistCatalog, wp_bind, wp_get, wp_ite, wp_pure, wp_attempt, wp_writeDisk]
  exact ⟨fun _ => .refl s, fun _ => ⟨fun _ _ => ⟨fun _ => ⟨⟨rfl, rfl, rfl, rfl, rfl, rfl, rfl, rfl, rfl⟩, rfl, rfl⟩,
    fun _ => .tick s _⟩, fun _ _ => .refl s⟩⟩

/-- The catalog and one segment directory changed. -/
structure Stepped (s s' : NativeStorage) (catalog : NativeStorageCatalog) (id : Nat) (dir : SegmentDir) : Prop where
  same : Same s s'
  catalog : s'.catalog = catalog
  segments : s'.disk.segments = Function.update s.disk.segments id dir

namespace Stepped

variable {s s' s'' : NativeStorage} {catalog cat' : NativeStorageCatalog} {id : Nat} {dir dir' : SegmentDir}

section

variable (h : Stepped s s' catalog id dir)

include h

theorem dir_self : s'.disk.segments id = dir := by
  rw [h.segments, Function.update_self]

theorem dir_of_ne {o : Nat} (hne : o ≠ id) : s'.disk.segments o = s.disk.segments o := by
  rw [h.segments, Function.update_of_ne hne]

omit h in
/-- Two changes of one directory are one change. -/
theorem trans (h : Stepped s s' catalog id dir) (h' : Stepped s' s'' cat' id dir') : Stepped s s'' cat' id dir' := by
  refine ⟨h.same.trans h'.same, h'.catalog, ?_⟩
  rw [h'.segments, h.segments, Function.update_idem]

theorem still (h' : Still s' s'') : Stepped s s'' catalog id dir :=
  ⟨h.same.trans h'.same, h'.catalog.trans h.catalog, h'.segments.trans h.segments⟩

end

/-- What was changed before a step matters only for what the step keeps. -/
theorem since (h' : Stepped s' s'' catalog id dir) (hs : Same s s') (hse : s'.disk.segments = s.disk.segments) :
    Stepped s s'' catalog id dir :=
  ⟨hs.trans h'.same, h'.catalog, by rw [h'.segments, hse]⟩

theorem after (h' : Stepped s' s'' catalog id dir) (h : Still s s') : Stepped s s'' catalog id dir :=
  h'.since h.same h.segments

end Stepped

/-! ## Well-formed storage -/

/-- Identifiers name one segment each, and active segments exist and are of their kind. -/
structure CatalogWf (catalog : NativeStorageCatalog) : Prop where
  nodup : (catalog.segments.map (·.id)).Nodup
  id_lt : ∀ d ∈ catalog.segments, d.id < catalog.nextSegmentId
  hot : ∀ id, catalog.activeHotSegment = some id → ∃ d ∈ catalog.segments, d.id = id ∧ d.kind = .hot
  historical : ∀ id, catalog.activeHistoricalSegment = some id → ∃ d ∈ catalog.segments, d.id = id ∧ d.kind = .sealed
  owned : ∀ d ∈ catalog.segments, d.kind = .hot → catalog.activeHotSegment = some d.id

/-- A well-formed catalog whose segments are all held by their directories. -/
structure StorageWf (s : NativeStorage) : Prop where
  catalog : CatalogWf s.catalog
  held : ∀ d ∈ s.catalog.segments, SegmentHeld (s.disk.segments d.id) d

/-- The rows of a segment. -/
def NativeStorage.contents (s : NativeStorage) (d : SegmentDescriptor) : List StoredRow := (s.disk.segments d.id).contents d

/-- The catalog with one more segment under the next identifier. -/
def NativeStorageCatalog.add (catalog : NativeStorageCatalog) (d : SegmentDescriptor) : NativeStorageCatalog :=
  { catalog with nextSegmentId := catalog.nextSegmentId + 1, segments := catalog.segments ++ [d] }

variable {catalog : NativeStorageCatalog}

section

variable (h : CatalogWf catalog)

include h

theorem CatalogWf.eq_of_id {d e : SegmentDescriptor}
    (hd : d ∈ catalog.segments) (he : e ∈ catalog.segments) (hid : d.id = e.id) : d = e :=
  inj_on_of_nodup_map h.nodup hd he hid

theorem CatalogWf.kind_hot (hd : d ∈ catalog.segments) (ha : catalog.activeHotSegment = some d.id) : d.kind = .hot := by
  obtain ⟨e, he, hid, hk⟩ := h.hot d.id ha
  rwa [← h.eq_of_id he hd hid]

theorem CatalogWf.kind_sealed (hd : d ∈ catalog.segments)
    (ha : catalog.activeHistoricalSegment = some d.id) : d.kind = .sealed := by
  obtain ⟨e, he, hid, hk⟩ := h.historical d.id ha
  rwa [← h.eq_of_id he hd hid]

/-- The descriptor a lookup returns, and that it is the only one. -/
theorem CatalogWf.segment?_eq {id : Nat} : catalog.segment? id = some d ↔ d ∈ catalog.segments ∧ d.id = id := by
  constructor
  · intro hd
    exact ⟨mem_of_find?_eq_some hd, by simpa using find?_some hd⟩
  · rintro ⟨hd, rfl⟩
    cases hf : catalog.segment? d.id with
    | none => simpa using find?_eq_none.mp hf d hd
    | some e =>
      have he : e.id = d.id := by simpa using find?_some hf
      rw [h.eq_of_id (mem_of_find?_eq_some hf) hd he]

/-- A change of one descriptor leaves the segments before and after it. -/
theorem CatalogWf.split
    (hd : d ∈ catalog.segments) : ∃ pre post, catalog.segments = pre ++ d :: post ∧ (∀ e ∈ pre ++ post, e.id ≠ d.id) ∧
      ∀ ch, (catalog.modifySegment d.id ch).segments = pre ++ ch d :: post := by
  obtain ⟨pre, post, hs⟩ := append_of_mem hd
  have hn := h.nodup
  rw [hs, map_append, map_cons, nodup_middle, nodup_cons, ← map_append] at hn
  have hne : ∀ e ∈ pre ++ post, e.id ≠ d.id := fun e he heq => hn.1 (heq ▸ mem_map_of_mem he)
  refine ⟨pre, post, hs, hne, fun ch => ?_⟩
  have hmap : ∀ list : List SegmentDescriptor, (∀ e ∈ list, e.id ≠ d.id) →
      list.map (fun sg => if sg.id = d.id then ch sg else sg) = list := fun list hl =>
    (map_congr_left fun e he => if_neg (hl e he)).trans (map_id' list)
  simp only [NativeStorageCatalog.modifySegment, hs, map_append, map_cons, if_true,
    hmap pre fun e he => hne e (mem_append_left _ he), hmap post fun e he => hne e (mem_append_right _ he)]

end

namespace StorageWf

variable {s s' : NativeStorage}

theorem of_still (h : StorageWf s) (sti : Still s s') : StorageWf s' := by
  refine ⟨by rw [sti.catalog]; exact h.catalog, ?_⟩
  rw [sti.catalog, sti.segments]
  exact h.held

/-- A new segment, with the active segments as they were or naming it. -/
theorem add (h : StorageWf s) {catalog : NativeStorageCatalog} {dir : SegmentDir}
    (step : Stepped s s' catalog s.catalog.nextSegmentId dir) (hid : d.id = s.catalog.nextSegmentId)
    (hs : catalog.segments = s.catalog.segments ++ [d]) (hn : catalog.nextSegmentId = s.catalog.nextSegmentId + 1)
    (hhot : catalog.activeHotSegment = s.catalog.activeHotSegment ∧ d.kind = .sealed ∨
      s.catalog.activeHotSegment = none ∧ catalog.activeHotSegment = some d.id ∧ d.kind = .hot)
    (hhis : catalog.activeHistoricalSegment = s.catalog.activeHistoricalSegment ∨
      catalog.activeHistoricalSegment = some d.id ∧ d.kind = .sealed)
    (hh : SegmentHeld dir d) : StorageWf s' := by
  have hmem : ∀ e, e ∈ catalog.segments ↔ e ∈ s.catalog.segments ∨ e = d := by simp [hs]
  have hne : ∀ e ∈ s.catalog.segments, e.id ≠ d.id := fun e he => hid ▸ ne_of_lt (h.catalog.id_lt e he)
  have hother : ∀ e ∈ s.catalog.segments, s'.disk.segments e.id = s.disk.segments e.id := fun e he =>
    step.dir_of_ne (hid ▸ hne e he)
  have hse : s'.disk.segments d.id = dir := by rw [hid]; exact step.dir_self
  refine ⟨?_, ?_⟩
  · rw [step.catalog]
    refine ⟨?_, ?_, ?_, ?_, ?_⟩
    · rw [hs, map_append, nodup_append]
      refine ⟨h.catalog.nodup, nodup_singleton _, ?_⟩
      rintro a ha b hb rfl
      obtain ⟨e, he, rfl⟩ := mem_map.mp ha
      exact hne e he (by simpa using hb)
    · intro e he
      rcases (hmem e).mp he with he | rfl
      · exact hn ▸ Nat.lt_succ_of_lt (h.catalog.id_lt e he)
      · exact hn ▸ hid ▸ Nat.lt_succ_self _
    · intro id hact
      rcases hhot with ⟨heq, -⟩ | ⟨-, heq, hk⟩
      · obtain ⟨e, he, hr⟩ := h.catalog.hot id (heq ▸ hact)
        exact ⟨e, (hmem e).mpr (.inl he), hr⟩
      · exact ⟨d, (hmem d).mpr (.inr rfl), Option.some.inj (heq ▸ hact), hk⟩
    · intro id hact
      rcases hhis with heq | ⟨heq, hk⟩
      · obtain ⟨e, he, hr⟩ := h.catalog.historical id (heq ▸ hact)
        exact ⟨e, (hmem e).mpr (.inl he), hr⟩
      · exact ⟨d, (hmem d).mpr (.inr rfl), Option.some.inj (heq ▸ hact), hk⟩
    · intro e he hk
      rcases (hmem e).mp he with he | rfl
      · have hact := h.catalog.owned e he hk
        rcases hhot with ⟨heq, -⟩ | ⟨hno, -, -⟩
        · rw [heq, hact]
        · rw [hno] at hact
          cases hact
      · rcases hhot with ⟨-, hsea⟩ | ⟨-, heq, -⟩
        · rw [hsea] at hk
          cases hk
        · exact heq
  · intro e he
    rw [step.catalog] at he
    rcases (hmem e).mp he with he | rfl
    · rw [hother e he]
      exact h.held e he
    · rwa [hse]

/-- A changed segment; all others stay. -/
theorem modify (h : StorageWf s) {catalog : NativeStorageCatalog} {d next : SegmentDescriptor} {dir : SegmentDir}
    {ch : SegmentDescriptor → SegmentDescriptor} (step : Stepped s s' catalog d.id dir) (hd : d ∈ s.catalog.segments)
    (hs : catalog.segments = (s.catalog.modifySegment d.id ch).segments) (hcha : ch d = next)
    (hnt : catalog.nextSegmentId = s.catalog.nextSegmentId) (hid : next.id = d.id)
    (hhot : catalog.activeHotSegment = s.catalog.activeHotSegment ∧ next.kind = d.kind ∨
      s.catalog.activeHotSegment = some d.id ∧ catalog.activeHotSegment = none ∧ next.kind = .sealed)
    (hhis : catalog.activeHistoricalSegment = s.catalog.activeHistoricalSegment ∧ (d.kind = .sealed → next.kind = .sealed) ∨
      catalog.activeHistoricalSegment = none) (hh : SegmentHeld dir next) : StorageWf s' := by
  obtain ⟨pre, post, hsp, hne, hmod⟩ := h.catalog.split hd
  rw [hmod, hcha] at hs
  have hother : ∀ e ∈ pre ++ post, s'.disk.segments e.id = s.disk.segments e.id := fun e he => step.dir_of_ne (hne e he)
  have hse : s'.disk.segments next.id = dir := by rw [hid]; exact step.dir_self
  have hm : ∀ x e, e ∈ pre ++ x :: post ↔ e ∈ pre ++ post ∨ e = x := fun x e => by
    simp only [mem_append, mem_cons]
    tauto
  have hc : ∀ e, e ∈ s.catalog.segments ↔ e ∈ pre ++ post ∨ e = d := hsp ▸ hm d
  have hmem : ∀ e, e ∈ catalog.segments ↔ e ∈ pre ++ post ∨ e = next := hs ▸ hm next
  refine ⟨?_, ?_⟩
  · rw [step.catalog]
    refine ⟨?_, ?_, ?_, ?_, ?_⟩
    · have hno := h.catalog.nodup
      rw [hsp, map_append, map_cons] at hno
      rw [hs, map_append, map_cons, hid]
      exact hno
    · intro e he
      rw [hnt]
      rcases (hmem e).mp he with he | rfl
      · exact h.catalog.id_lt e ((hc e).mpr (.inl he))
      · exact hid ▸ h.catalog.id_lt d hd
    · intro id hact
      rcases hhot with ⟨heq, hk⟩ | ⟨-, hn, -⟩
      · obtain ⟨e, he, rfl, hhot⟩ := h.catalog.hot id (heq ▸ hact)
        rcases (hc e).mp he with he | rfl
        · exact ⟨e, (hmem e).mpr (.inl he), rfl, hhot⟩
        · exact ⟨next, (hmem next).mpr (.inr rfl), hid, hk ▸ hhot⟩
      · rw [hn] at hact
        cases hact
    · intro id hact
      rcases hhis with ⟨heq, hk⟩ | hn
      · obtain ⟨e, he, rfl, hsea⟩ := h.catalog.historical id (heq ▸ hact)
        rcases (hc e).mp he with he | rfl
        · exact ⟨e, (hmem e).mpr (.inl he), rfl, hsea⟩
        · exact ⟨next, (hmem next).mpr (.inr rfl), hid, hk hsea⟩
      · rw [hn] at hact
        cases hact
    · intro e he hk
      rcases hhot with ⟨heq, hsa⟩ | ⟨hact, hn, hsea⟩
      · rw [heq]
        rcases (hmem e).mp he with he | rfl
        · exact h.catalog.owned e ((hc e).mpr (.inl he)) hk
        · rw [hid]
          exact h.catalog.owned d hd (hsa ▸ hk)
      · rcases (hmem e).mp he with he | rfl
        · have := h.catalog.owned e ((hc e).mpr (.inl he)) hk
          rw [hact] at this
          exact absurd (Option.some.inj this).symm (hne e he)
        · rw [hsea] at hk
          cases hk
  · intro e he
    rw [step.catalog] at he
    rcases (hmem e).mp he with he | rfl
    · rw [hother e he]
      exact h.held e ((hc e).mpr (.inl he))
    · rwa [hse]

end StorageWf

/-! ## Steps -/

/-- The descriptor of a dense historical segment, complete when it is added. -/
def SegmentDescriptor.dense (hashes : Hashes) (id : Nat) (namespaceId : FixedBytes 16) (chunk : List LogRow)
    (revision : AppendRevision) (reference : BundleReference) : SegmentDescriptor :=
  { (SegmentDescriptor.fresh hashes id .sealed namespaceId).appended (RowBounds.fromRows chunk) revision (some reference) with
    sourceState := none }

/-- One change that writing rows makes, with the rows it stores. -/
inductive SegmentStep (hashes : Hashes) (s s' : NativeStorage) : List LogRow → Prop
  | register (namespaceId : FixedBytes 16) (dir : SegmentDir) (free : s.catalog.activeHotSegment = none)
      (present : dir.present = true)
      (step : Stepped s s' { s.catalog.add (.fresh hashes s.catalog.nextSegmentId .hot namespaceId) with
        activeHotSegment := some s.catalog.nextSegmentId } s.catalog.nextSegmentId dir) : SegmentStep hashes s s' []
  | allocate (namespaceId : FixedBytes 16) (dir : SegmentDir) (free : s.catalog.activeHistoricalSegment = none)
      (present : dir.present = true)
      (step : Stepped s s' { s.catalog.add (.fresh hashes s.catalog.nextSegmentId .sealed namespaceId) with
        activeHistoricalSegment := some s.catalog.nextSegmentId } s.catalog.nextSegmentId dir) : SegmentStep hashes s s' []
  | dense (namespaceId : FixedBytes 16) (chunk : List LogRow) (revision : AppendRevision) (reference : BundleReference)
      (dir : SegmentDir) (columns : ColumnLayout) (nonempty : chunk ≠ [])
      (revised : AppendRevision.new hashes.blake3 (some (PrefixState.empty namespaceId)) chunk = .ok revision)
      (pins : reference.Pins chunk.length) (present : dir.present = true)
      (manifest : dir.manifest =
        some (manifestWithColumns (.dense hashes s.catalog.nextSegmentId namespaceId chunk revision reference) columns))
      (read : dir.read = .ok (storeRows chunk))
      (step : Stepped s s' (s.catalog.add (.dense hashes s.catalog.nextSegmentId namespaceId chunk revision reference))
        s.catalog.nextSegmentId dir) : SegmentStep hashes s s' chunk
  | append (d : SegmentDescriptor) (chunk : List LogRow) (revision : AppendRevision) (columnBundle : Option BundleReference)
      (dir : SegmentDir) (columns : ColumnLayout) (mem : d ∈ s.catalog.segments)
      (active : s.catalog.activeHotSegment = some d.id ∨ s.catalog.activeHistoricalSegment = some d.id) (nonempty : chunk ≠ [])
      (revised : AppendRevision.new hashes.blake3 d.sourceState chunk = .ok revision)
      (pins : ∀ reference, columnBundle = some reference → reference.Pins (d.rowCount + chunk.length))
      (raw : columnBundle = none → d.columnBundle = none ∧ (d.rowCount = 0 → s.pendingIngestion = none))
      (present : dir.present = true)
      (manifest : dir.manifest = some (manifestWithColumns (d.appended (RowBounds.fromRows chunk) revision columnBundle) columns))
      (read : dir.read = .ok (s.contents d ++ storeRows chunk))
      (step : Stepped s s' (s.catalog.modifySegment d.id fun _ => d.appended (RowBounds.fromRows chunk) revision columnBundle)
        d.id dir) : SegmentStep hashes s s' chunk
  | close (d : SegmentDescriptor) (columns : ColumnLayout) (mem : d ∈ s.catalog.segments)
      (active : s.catalog.activeHotSegment = some d.id)
      (step : Stepped s s'
        { s.catalog.modifySegment d.id fun segment => { segment with kind := .sealed, sourceState := none } with
          activeHotSegment := none } d.id
        ((s.disk.segments d.id).withManifest { d with kind := .sealed, sourceState := none } columns)) : SegmentStep hashes s s' []
  | finalize (d : SegmentDescriptor) (mem : d ∈ s.catalog.segments) (active : s.catalog.activeHistoricalSegment = some d.id)
      (step : Stepped s s' { s.catalog.modifySegment d.id fun segment => { segment with sourceState := none } with
        activeHistoricalSegment := none } d.id (s.disk.segments d.id)) : SegmentStep hashes s s' []
  | republish (d : SegmentDescriptor) (columns : ColumnLayout) (mem : d ∈ s.catalog.segments)
      (step : Stepped s s' s.catalog d.id ((s.disk.segments d.id).withManifest d columns)) : SegmentStep hashes s s' []
  | repack (d : SegmentDescriptor) (reference : BundleReference) (dir : SegmentDir) (columns : ColumnLayout)
      (mem : d ∈ s.catalog.segments) (rows : d.rowCount ≠ 0) (pins : reference.Pins d.rowCount) (present : dir.present = true)
      (manifest : dir.manifest =
        some (manifestWithColumns { d with generation := d.generation + 1, columnBundle := some reference } columns))
      (read : dir.read = .ok (s.contents d))
      (step : Stepped s s' (s.catalog.modifySegment d.id fun _ =>
        { d with generation := d.generation + 1, columnBundle := some reference }) d.id dir) : SegmentStep hashes s s' []
  | retireGeneration (d : SegmentDescriptor) (generation : Nat) (mem : d ∈ s.catalog.segments) (old : generation ≠ d.generation)
      (step : Stepped s s' s.catalog d.id
        { s.disk.segments d.id with bundles := Function.update (s.disk.segments d.id).bundles generation {} }) :
      SegmentStep hashes s s' []

theorem storeRows_map (rows : List LogRow) : (storeRows rows).map (·.row) = rows := by
  simp [storeRows, Function.comp_def]

@[simp] theorem storeRows_eq_nil {rows : List LogRow} : storeRows rows = [] ↔ rows = [] := map_eq_nil_iff

variable (hashes : Hashes)

theorem SegmentDescriptor.fresh_describes (id : Nat) (kind : SegmentKind) (ns : FixedBytes 16) :
    (SegmentDescriptor.fresh hashes id kind ns).Describes [] := ⟨rfl, rfl, rfl, rfl, rfl⟩

/-- Appending keeps a description exact. -/
theorem SegmentDescriptor.Describes.appended {rows : List LogRow} (h : d.Describes rows) (chu : List LogRow)
    (rev : AppendRevision) (cb : Option BundleReference) :
    (d.appended (RowBounds.fromRows chu) rev cb).Describes (rows ++ chu) := by
  obtain ⟨h1, h2, h3, h4, h5⟩ := h.applyRowBounds chu
  exact ⟨h1, h2, h3, h4, h5⟩

section Fields

variable (d : SegmentDescriptor) (bou : Option RowBounds)

@[simp] theorem SegmentDescriptor.applyRowBounds_id : (d.applyRowBounds bou).id = d.id := by cases bou <;> rfl

@[simp] theorem SegmentDescriptor.applyRowBounds_kind : (d.applyRowBounds bou).kind = d.kind := by cases bou <;> rfl

@[simp] theorem SegmentDescriptor.applyRowBounds_generation : (d.applyRowBounds bou).generation = d.generation := by
  cases bou <;> rfl

variable (rev : AppendRevision) (cb : Option BundleReference)

@[simp] theorem SegmentDescriptor.appended_id : (d.appended bou rev cb).id = d.id := d.applyRowBounds_id bou

@[simp] theorem SegmentDescriptor.appended_kind : (d.appended bou rev cb).kind = d.kind := d.applyRowBounds_kind bou

@[simp] theorem SegmentDescriptor.appended_generation : (d.appended bou rev cb).generation = d.generation :=
  d.applyRowBounds_generation bou

@[simp] theorem SegmentDescriptor.appended_rowCount (chu : List LogRow) :
    (d.appended (RowBounds.fromRows chu) rev cb).rowCount = d.rowCount + chu.length := by
  cases hb : RowBounds.fromRows chu with
  | none =>
    cases chu with
    | nil => rfl
    | cons row chu => cases hb
  | some b => exact congrArg (d.rowCount + ·) (RowBounds.fromRows_rowCount hb)

variable (id : Nat) (ns : FixedBytes 16) (chunk : List LogRow) (ref : BundleReference)

@[simp] theorem SegmentDescriptor.dense_id : (SegmentDescriptor.dense hashes id ns chunk rev ref).id = id :=
  applyRowBounds_id ..

@[simp] theorem SegmentDescriptor.dense_kind : (SegmentDescriptor.dense hashes id ns chunk rev ref).kind = .sealed :=
  applyRowBounds_kind ..

@[simp] theorem SegmentDescriptor.dense_generation : (SegmentDescriptor.dense hashes id ns chunk rev ref).generation = 0 :=
  applyRowBounds_generation ..

end Fields

/-- A directory whose files stay holds a descriptor that differs in nothing the manifest repeats but the manifest. -/
theorem SegmentHeld.rewrite {dir dir' : SegmentDir} {d next : SegmentDescriptor} {cols : ColumnLayout} (h : SegmentHeld dir d)
    (hpre : dir'.present = true) (hman : dir'.manifest = some (manifestWithColumns next cols))
    (hr : dir'.rows = dir.rows) (hbun : dir'.bundles d.generation = dir.bundles d.generation)
    (hcol : next.columnBundle = d.columnBundle) (hgen : next.generation = d.generation)
    (hdes : ∀ rows, d.Describes rows → next.Describes rows) : SegmentHeld dir' next := by
  by_cases hz : d.rowCount = 0
  · have hc : dir.contents d = [] := if_pos hz
    refine .of_empty hpre ?_ ⟨hcol.trans (h.blank hz).1, hgen.trans (h.blank hz).2⟩
    have := hdes _ h.describes
    rwa [hc] at this
  · obtain ⟨columns', hman'⟩ := h.manifest hz
    have hre : dir'.read = .ok (dir.contents d) := by
      rw [← h.read hz, SegmentDir.read_of_manifest hman, SegmentDir.read_of_manifest hman', hcol, hgen, hr, hbun]
    refine of_read hpre hman hre ?_ (hdes _ h.describes)
    intro hnil
    have := h.length
    rw [hnil] at this
    exact hz this.symm

theorem SegmentHeld.withManifest {dir : SegmentDir} (h : SegmentHeld dir d) (next : SegmentDescriptor)
    (cols : ColumnLayout) (hcol : next.columnBundle = d.columnBundle) (hgen : next.generation = d.generation)
    (hdes : ∀ rows, d.Describes rows → next.Describes rows) : SegmentHeld (dir.withManifest next cols) next :=
  h.rewrite rfl rfl rfl rfl hcol hgen hdes

/-- The bundle file of another generation does not matter. -/
theorem SegmentHeld.retire {dir : SegmentDir} (h : SegmentHeld dir d) {gen : Nat} (hold : gen ≠ d.generation) :
    SegmentHeld { dir with bundles := Function.update dir.bundles gen {} } d := by
  by_cases hz : d.rowCount = 0
  · have hc : dir.contents d = [] := if_pos hz
    have hdes := h.describes
    rw [hc] at hdes
    exact .of_empty h.present hdes (h.blank hz)
  · obtain ⟨columns, hman⟩ := h.manifest hz
    exact h.rewrite h.present hman rfl (Function.update_of_ne hold.symm _ _) rfl rfl fun _ h => h

theorem NativeStorageCatalog.modifySegment_id (catalog : NativeStorageCatalog) (id : Nat) :
    (catalog.modifySegment id fun d => d).segments = catalog.segments := by
  simp [NativeStorageCatalog.modifySegment]

namespace SegmentStep

variable {hashes : Hashes} {s s' : NativeStorage} {rows : List LogRow}

theorem same (h : SegmentStep hashes s s' rows) : Same s s' := by
  cases h <;> exact ‹Stepped _ _ _ _ _›.same

/-- A step keeps storage well-formed. -/
theorem wf (h : SegmentStep hashes s s' rows) (hs : StorageWf s) : StorageWf s' := by
  cases h with
  | register ns dir free present step =>
    exact hs.add step rfl rfl rfl (.inr ⟨free, rfl, rfl⟩) (.inl rfl)
      (of_empty present (fresh_describes hashes s.catalog.nextSegmentId .hot ns) ⟨rfl, rfl⟩)
  | allocate ns dir free present step =>
    exact hs.add step rfl rfl rfl (.inl ⟨rfl, rfl⟩) (.inr ⟨rfl, rfl⟩)
      (of_empty present (fresh_describes hashes s.catalog.nextSegmentId .sealed ns) ⟨rfl, rfl⟩)
  | dense ns _ rev ref dir cols nonempty red pins present man read step =>
    have hdescribes : (SegmentDescriptor.dense hashes s.catalog.nextSegmentId ns rows rev ref).Describes
        ((storeRows rows).map (·.row)) := by
      rw [storeRows_map]
      obtain ⟨h1, h2, h3, h4, h5⟩ := (fresh_describes hashes s.catalog.nextSegmentId .sealed ns).appended rows rev (some ref)
      exact ⟨h1, h2, h3, h4, h5⟩
    exact hs.add step (dense_id ..) rfl rfl (.inl ⟨rfl, dense_kind ..⟩) (.inl rfl)
      (of_read present man read (by simpa using nonempty) hdescribes)
  | append d _ rev cb dir cols mem act nonempty red pins raw present man read step =>
    have hdescribes : (d.appended (RowBounds.fromRows rows) rev cb).Describes ((s.contents d ++ storeRows rows).map (·.row)) := by
      rw [map_append, storeRows_map]
      exact (hs.held d mem).describes.appended rows rev cb
    exact hs.modify step mem rfl rfl rfl (d.appended_id ..) (.inl ⟨rfl, d.appended_kind ..⟩)
      (.inl ⟨rfl, fun hk => (d.appended_kind ..).trans hk⟩) (of_read present man read (by simp [nonempty]) hdescribes)
  | close d cols mem act step =>
    have hheld := (hs.held d mem).withManifest { d with kind := .sealed, sourceState := none } cols
      rfl rfl fun _ h => ⟨h.1, h.2, h.3, h.4, h.5⟩
    exact hs.modify step mem rfl rfl rfl rfl (.inr ⟨act, rfl, rfl⟩) (.inl ⟨rfl, fun _ => rfl⟩) hheld
  | finalize d mem act step =>
    have hheld : SegmentHeld (s.disk.segments d.id) { d with sourceState := none } := by
      obtain ⟨h1, h2, h3, h4, h5⟩ := hs.held d mem
      exact ⟨h1, ⟨h2.1, h2.2, h2.3, h2.4, h2.5⟩, h3, h4, h5⟩
    exact hs.modify step mem rfl rfl rfl rfl (.inl ⟨rfl, rfl⟩) (.inr rfl) hheld
  | republish d cols mem step =>
    exact hs.modify step mem (s.catalog.modifySegment_id d.id).symm rfl rfl rfl (.inl ⟨rfl, rfl⟩) (.inl ⟨rfl, id⟩)
      ((hs.held d mem).withManifest d cols rfl rfl fun _ h => h)
  | repack d ref dir cols mem hr pins present man read step =>
    have hne : s.contents d ≠ [] := fun hnil => hr (by rw [← (hs.held d mem).length]; exact congrArg List.length hnil)
    obtain ⟨h1, h2, h3, h4, h5⟩ := (hs.held d mem).describes
    exact hs.modify step mem rfl rfl rfl rfl (.inl ⟨rfl, rfl⟩) (.inl ⟨rfl, id⟩)
      (of_read present man read hne ⟨h1, h2, h3, h4, h5⟩)
  | retireGeneration d gen mem old step =>
    exact hs.modify step mem (s.catalog.modifySegment_id d.id).symm rfl rfl rfl (.inl ⟨rfl, rfl⟩) (.inl ⟨rfl, id⟩)
      ((hs.held d mem).retire old)

/-- What does not change segments can be put before a step. -/
theorem before {s₀ : NativeStorage} (sti : Still s₀ s) (h : SegmentStep hashes s s' rows) : SegmentStep hashes s₀ s' rows := by
  obtain ⟨_, _, catalog, ⟨_, segments, _, _⟩, _, _, pending, _, _⟩ := s
  -- A step reads of storage only what has not changed.
  obtain rfl : catalog = s₀.catalog := sti.catalog
  obtain rfl : segments = s₀.disk.segments := sti.segments
  obtain rfl : pending = s₀.pendingIngestion := sti.same.pendingIngestion
  cases h with
  | register ns dir free pre step => exact .register ns dir free pre (step.after sti)
  | allocate ns dir free pre step => exact .allocate ns dir free pre (step.after sti)
  | dense ns _ rev ref dir cols non red pins pre man read step =>
    exact .dense ns rows rev ref dir cols non red pins pre man read (step.after sti)
  | append d _ rev cb dir cols mem act non red pins raw pre man read step =>
    exact .append d rows rev cb dir cols mem act non red pins raw pre man read (step.after sti)
  | close d cols mem act step => exact .close d cols mem act (step.after sti)
  | finalize d mem act step => exact .finalize d mem act (step.after sti)
  | republish d cols mem step => exact .republish d cols mem (step.after sti)
  | repack d ref dir cols mem hr pins pre man read step =>
    exact .repack d ref dir cols mem hr pins pre man read (step.after sti)
  | retireGeneration d gen mem old step => exact .retireGeneration d gen mem old (step.after sti)

end SegmentStep

/-- A sequence of steps, with the rows they store in order. -/
inductive SegmentRun (hashes : Hashes) : NativeStorage → NativeStorage → List LogRow → Prop
  | still {s s' : NativeStorage} (still : Still s s') : SegmentRun hashes s s' []
  | step {s s' s'' : NativeStorage} {rows rows' : List LogRow} (step : SegmentStep hashes s s' rows)
      (rest : SegmentRun hashes s' s'' rows') : SegmentRun hashes s s'' (rows ++ rows')

namespace SegmentRun

variable {hashes : Hashes} {s s' s'' : NativeStorage} {rows rows' : List LogRow}

theorem refl (hashes : Hashes) (s : NativeStorage) : SegmentRun hashes s s [] := .still (.refl s)

theorem same (h : SegmentRun hashes s s' rows) : Same s s' := by
  induction h with
  | still still => exact still.same
  | step step _ ih => exact step.same.trans ih

/-- A run keeps storage well-formed. -/
theorem wf (h : SegmentRun hashes s s' rows) (hs : StorageWf s) : StorageWf s' := by
  induction h with
  | still still => exact hs.of_still still
  | step step _ ih => exact ih (step.wf hs)

/-- What does not change segments can be put before a run. -/
theorem before (still : Still s s') (h : SegmentRun hashes s' s'' rows) : SegmentRun hashes s s'' rows := by
  cases h with
  | still still' => exact .still (still.trans still')
  | step step rest => exact .step (step.before still) rest

theorem single (h : SegmentStep hashes s s' rows) : SegmentRun hashes s s' rows := by
  simpa using SegmentRun.step h (.refl hashes s')

theorem trans (h : SegmentRun hashes s s' rows) (h' : SegmentRun hashes s' s'' rows') : SegmentRun hashes s s'' (rows ++ rows') := by
  induction h with
  | still still => exact before still h'
  | step step _ ih =>
    rw [List.append_assoc]
    exact .step step (ih h')

end SegmentRun

end Logex
