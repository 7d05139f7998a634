import Logex.Lemmas.Verification
import Logex.Lib.Keeps
import Logex.Lib.Run

/-!
# Verification of indexes is exact

The verifier accepts a B+ tree file exactly when its postings are those of the source, and it accepts what every builder writes. A
publication registers only what it accepted, so through any sequence of builds, failed ones included, the marker of an index directory
names only files that agree with the source they were published for.
-/

namespace Logex

open Lib List SegmentReader

variable {dir : IndexDir} {name : String} {ret : Bool} {max : Nat}

/-- The builder of each B+ tree index. -/
def indexBuilders : List (String × (SegmentReader → FixedBytes 16 → Except String IndexFile)) :=
  [("address.bptree", buildAddressIndex), ("topic0.bptree", buildTopic0Index), ("block_number.bptree", buildBlockNumberIndex),
    ("timestamp.bptree", buildTimestampIndex), ("block_hash.bptree", buildBlockHashIndex),
    ("address_topic0.bptree", buildAddressTopic0), ("address_topic0_block.bptree", buildAddressTopic0Block),
    ("topic0_topic1.bptree", buildTopic0Topic1), ("address_topic0_topic1.bptree", buildAddressTopic0Topic1),
    ("address_topic0_topic2.bptree", buildAddressTopic0Topic2)]

/-- The entry points that build and publish. -/
inductive IndexBuild where
  | indexes (profile : IndexBuildProfile)
  | fresh (profile : IndexBuildProfile)
  | missing (profile : IndexBuildProfile)
  | primary
  | logQueryPrimary

/-- A build of a source that may have advanced when the build ends. -/
def IndexBuild.run (world : IndexWorld) (source current : IndexSource) : IndexBuild → IndexM Unit
  | indexes profile => buildIndexes world source current profile
  | fresh profile => buildFreshIndexesAt world source current profile
  | missing profile => buildMissingIndexes world source current profile
  | primary => buildPrimaryIndexes world source current
  | logQueryPrimary => buildLogQueryPrimaryIndexes world source current

/-- The directory after a build, whether it returned or failed. -/
def buildStep (world : IndexWorld) (dir : IndexDir) (step : IndexBuild × IndexSource × IndexSource) : IndexDir :=
  match step.1.run world step.2.1 step.2.2 dir with
  | .ok _ dir => dir
  | .error _ dir => dir

/-- A file is what its name says of a source: for a B+ tree index, its postings are those of the source. -/
def ArtifactAgrees (codec : RoaringCodec) (reader : SegmentReader) (dir : IndexDir) (binding : String × FixedBytes 16) : Prop :=
  ∃ file, dir.files binding.1 = some file ∧
    ∀ fields, artifactFields binding.1 = some fields → ∃ index, IndexAgrees codec reader fields file binding.2 index

/-- The directory has a marker, it identifies this source, and it names only files that agree with the source. -/
def PublishedFor (world : IndexWorld) (source : IndexSource) (dir : IndexDir) : Prop :=
  ∃ checkpoint, dir.checkpoint = some checkpoint ∧ IndexIdentity.read source = .ok checkpoint.identity ∧
    ∀ binding ∈ checkpoint.artifacts, ArtifactAgrees world.codec source.reader dir binding

/-- A directory has no marker, or one published for one of these sources. -/
def MarkerSound (world : IndexWorld) (sources : List IndexSource) (dir : IndexDir) : Prop :=
  dir.checkpoint = none ∨ ∃ source ∈ sources, PublishedFor world source dir

namespace VerificationAux

variable {world : IndexWorld} {codec : RoaringCodec} {reader : SegmentReader} {fields : List Field} {file : IndexFile}
  {fileId : FixedBytes 16}

/-! ## The verifier -/

theorem decides_verifyCapturedArtifact (hashes : BloomHashes) (hn : artifactFields name = some fields) (cancelled : Nat → Bool) :
    Decides (∀ asked, cancelled asked = false) (verifyCapturedArtifact hashes codec reader file name fileId cancelled)
      (∃ index, IndexAgrees codec reader fields file fileId index) := by
  have hevent : name ≠ eventBloomFile := by
    rintro rfl
    nomatch hn
  have hother : ¬(name = erc20EventsBloomFile ∨ name = transferBloomFile) := by
    rintro (rfl | rfl) <;> nomatch hn
  unfold verifyCapturedArtifact
  rw [if_neg hevent, if_neg hother, hn]
  refine (decides_checkCancelled.bind fun _ => (DecidesTo.attempt rfl).bind
    (decides_verifyCapturedIndex codec reader file fields fileId cancelled)).congr ?_
  simp

/-! ## Builders -/

/-- The insertions of a builder are the postings of its source. -/
theorem mem_insertions {key : Bytes} {row : UInt32} :
    (key, row) ∈ (reader.rows.map (rowKey fields)).zipIdx.filterMap (fun (key, rowId) => key.map fun key => (key, UInt32.ofNat rowId)) ↔
      row ∈ sourcePostings reader fields key := by
  simp only [List.mem_filterMap, Prod.exists, List.mem_zipIdx_iff_getElem?, List.getElem?_map, Option.map_eq_some_iff]
  constructor
  · rintro ⟨key?, rowId, ⟨log, hlog, rfl⟩, key', hkey, heq⟩
    obtain ⟨rfl, rfl⟩ := Prod.mk.inj heq
    have hlt : rowId < 2 ^ 32 := by
      have hrow := (List.getElem?_eq_some_iff.mp hlog).1
      have hbound := reader.bounded
      unfold u32Max at hbound
      omega
    exact ⟨log, by rwa [UInt32.toNat_ofNat_of_lt' hlt], hkey⟩
  · rintro ⟨log, hlog, hkey⟩
    exact ⟨_, row.toNat, ⟨log, hlog, rfl⟩, key, hkey, by rw [UInt32.ofNat_toNat]⟩

/-- No entry of an index under construction is empty. -/
theorem build_nonempty {ks : Nat} {inserts : List (Bytes × UInt32)} {e : Bytes × RoaringBitmap}
    (h : e ∈ (BTreeIndex.build ks inserts).entries) : e.2.rows ≠ [] := by
  obtain ⟨key, bitmap⟩ := e
  have hkey : key ∈ (BTreeIndex.build ks inserts).entries.map Prod.fst := mem_map.mpr ⟨_, h, rfl⟩
  obtain ⟨⟨_, row⟩, hmem, rfl⟩ := mem_map.mp (BTreeIndex.mem_keys_build.mp hkey)
  have hrow := (holding_iff (BTreeIndex.build ks inserts).sorted h row).mp (BTreeIndex.holding_build.mpr hmem)
  exact ne_nil_of_mem hrow

theorem buildIndex_agrees {cols : List (String × Nat)} {ks : Nat} {keys : List (Option Bytes)}
    (hk : keys = reader.rows.map (rowKey fields)) (hwidth : ks = keyWidth fields)
    (h : buildIndex ks cols keys reader fileId = .ok file) : ∃ i, IndexAgrees codec reader fields file fileId i := by
  subst hk hwidth
  obtain ⟨-, -, hw⟩ := bind_eq_ok.mp h
  refine ⟨_, bind_eq_ok.mpr ⟨(), rejectIf_eq_ok.mpr (not_not.mpr (writeToFile_fileId hw)), (writeToFile_written hw).openData_eq codec⟩,
    BTreeIndex.keySize_build _ _, fun entry hentry => build_nonempty hentry, fun key => ?_⟩
  rw [rowsOf_get (BTreeIndex.sorted _)]
  ext row
  exact BTreeIndex.holding_build.trans mem_insertions

/-- Every builder writes the postings of the fields its artifact has. -/
theorem builders_agree {build : SegmentReader → FixedBytes 16 → Except String IndexFile}
    (hbuild : (name, build) ∈ indexBuilders) (hn : artifactFields name = some fields) (h : build reader fileId = .ok file) :
    ∃ i, IndexAgrees codec reader fields file fileId i := by
  simp only [indexBuilders, mem_cons, Prod.mk.injEq, not_mem_nil, or_false] at hbuild
  rcases hbuild with ⟨rfl, rfl⟩ | ⟨rfl, rfl⟩ | ⟨rfl, rfl⟩ | ⟨rfl, rfl⟩ | ⟨rfl, rfl⟩ | ⟨rfl, rfl⟩ | ⟨rfl, rfl⟩ | ⟨rfl, rfl⟩ |
    ⟨rfl, rfl⟩ | ⟨rfl, rfl⟩ <;> obtain rfl := Option.some.inj hn <;> refine buildIndex_agrees ?_ rfl h <;>
    simp only [readAddress, readTopic, readBlockHash, readBlockNumber, readTimestamp, zip_map', map_map] <;>
    refine map_congr_left fun log _ => ?_ <;>
    cases h0 : log.topic 0 <;> cases h1 : log.topic 1 <;> cases h2 : log.topic 2 <;>
    simp [rowKey, Field.keyOf, h0, h1, h2]

/-! ## Publication -/

/-- No marker stands while files change. -/
def Withdrawn (dir : IndexDir) : Prop := dir.checkpoint = none

theorem keeps_writeArtifact (name : String) (build : FixedBytes 16 → Except String IndexFile) :
    Keeps Withdrawn (writeArtifact world name build) :=
  (Keeps.modifyGet fun _ h => h).bind fun _ => (Keeps.attempt _).bind fun _ => Keeps.modify fun _ h => h

theorem keeps_writeMissing (name : String) (build : FixedBytes 16 → Except String IndexFile) :
    Keeps Withdrawn (writeMissing world name build) :=
  Keeps.get.bind fun _ => (keeps_writeArtifact name build).runIf

variable (source : IndexSource)

theorem keeps_buildLogQueryIndexes : Keeps Withdrawn (buildLogQueryIndexes world source) :=
  (keeps_writeArtifact _ _).bind fun _ => (keeps_writeArtifact _ _).bind fun _ => (keeps_writeArtifact _ _).bind fun _ =>
    (keeps_writeArtifact _ _).bind fun _ => keeps_writeArtifact _ _

theorem keeps_buildPrimaryIndexesUnpublished : Keeps Withdrawn (buildPrimaryIndexesUnpublished world source) :=
  (keeps_writeArtifact _ _).bind fun _ => (keeps_writeArtifact _ _).bind fun _ => (keeps_writeArtifact _ _).bind fun _ =>
    (keeps_writeArtifact _ _).bind fun _ => keeps_writeArtifact _ _

theorem keeps_buildLogQueryPrimaryIndexesUnpublished : Keeps Withdrawn (buildLogQueryPrimaryIndexesUnpublished world source) :=
  (keeps_writeArtifact _ _).bind fun _ => keeps_writeArtifact _ _

theorem keeps_buildIndexesUnpublished (profile : IndexBuildProfile) : Keeps Withdrawn (buildIndexesUnpublished world source profile) := by
  cases profile with
  | all =>
    exact (keeps_buildPrimaryIndexesUnpublished source).bind fun _ => (keeps_buildLogQueryIndexes source).bind fun _ =>
      keeps_writeArtifact _ _
  | logQuery =>
    exact (keeps_buildLogQueryPrimaryIndexesUnpublished source).bind fun _ => (keeps_buildLogQueryIndexes source).bind fun _ =>
      keeps_writeArtifact _ _
  | events => exact (keeps_writeArtifact _ _).bind fun _ => keeps_writeArtifact _ _
  | erc20Transfer =>
    unfold buildIndexesUnpublished
    exact keeps_writeArtifact _ _

theorem keeps_buildMissingPrimaryIndexes (ifp : Bool) : Keeps Withdrawn (buildMissingPrimaryIndexes world source ifp) :=
  (keeps_writeMissing _ _).runIf.bind fun _ => (keeps_writeMissing _ _).runIf.bind fun _ => (keeps_writeMissing _ _).bind fun _ =>
    (keeps_writeMissing _ _).bind fun _ => (keeps_writeMissing _ _).runIf

theorem keeps_buildMissingEventIndexes : Keeps Withdrawn (buildMissingEventIndexes world source) :=
  (keeps_writeMissing _ _).bind fun _ => keeps_writeMissing _ _

theorem keeps_buildMissingLogQueryComposites : Keeps Withdrawn (buildMissingLogQueryComposites world source) :=
  (keeps_writeMissing _ _).bind fun _ => (keeps_writeMissing _ _).bind fun _ => (keeps_writeMissing _ _).bind fun _ =>
    (keeps_writeMissing _ _).bind fun _ => keeps_buildMissingEventIndexes source

theorem keeps_buildMissingIndexesUnpublished (profile : IndexBuildProfile) :
    Keeps Withdrawn (buildMissingIndexesUnpublished world source profile) := by
  cases profile with
  | all => exact (keeps_buildMissingPrimaryIndexes source true).bind fun _ => keeps_buildMissingLogQueryComposites source
  | logQuery => exact (keeps_buildMissingPrimaryIndexes source false).bind fun _ => keeps_buildMissingLogQueryComposites source
  | events => exact keeps_buildMissingEventIndexes source
  | erc20Transfer =>
    exact keeps_writeMissing _ _

/-- A publication under construction: nothing is published, and what is registered has been verified and is not met again. -/
structure Registered (world : IndexWorld) (source : IndexSource) (names : List String) (checkpoint : IndexBuildCheckpoint)
    (dir : IndexDir) : Prop where
  withdrawn : Withdrawn dir
  identity : IndexIdentity.read source = .ok checkpoint.identity
  agrees : ∀ binding ∈ checkpoint.artifacts, binding.1 ∉ names ∧ ArtifactAgrees world.codec source.reader dir binding

theorem verifyArtifact_agrees {source : IndexSource} (h : verifyArtifact world source file name fileId = .ok ())
    (hn : artifactFields name = some fields) : ∃ i, IndexAgrees world.codec source.reader fields file fileId i := by
  unfold verifyArtifact at h
  split at h
  · next hrun => exact (decides_verifyCapturedArtifact world.hashes hn _).sound hrun
  · nomatch h

theorem registerArtifact_eq_ok {checkpoint checkpoint' : IndexBuildCheckpoint}
    (h : checkpoint.registerArtifact name fileId = .ok checkpoint') :
    checkpoint' = { checkpoint with artifacts := checkpoint.artifacts ++ [(name, fileId)] } := by
  obtain ⟨-, -, h⟩ := bind_eq_ok.mp h
  obtain ⟨-, h⟩ := rejectIf_bind.mp h
  obtain ⟨-, h⟩ := rejectIf_bind.mp h
  exact (Except.ok.inj h).symm

variable {checkpoint : IndexBuildCheckpoint} {cl : Nat → Bool}

/-- The loop registers what it verified; a retired filter was never registered. -/
theorem wp_publishArtifacts {source : IndexSource} {ns : List String} (hn : ns.Nodup) {ver : Bool}
    (h : Registered world source ns checkpoint dir) :
    wp (publishArtifacts world source ret ns ver checkpoint) (Registered world source []) Withdrawn dir := by
  induction ns generalizing ver checkpoint dir with
  | nil => exact h
  | cons name ns ih =>
    obtain ⟨hnew, hn⟩ := nodup_cons.mp hn
    have hs : Registered world source ns checkpoint dir :=
      ⟨h.withdrawn, h.identity, fun binding hmem => ⟨not_mem_of_not_mem_cons (h.agrees binding hmem).1, (h.agrees binding hmem).2⟩⟩
    unfold publishArtifacts
    rw [wp_ite]
    constructor
    · intro _
      refine ih hn ⟨h.withdrawn, h.identity, fun binding hmem => ?_⟩
      obtain ⟨hfresh, file, hf, hagrees⟩ := h.agrees binding hmem
      refine ⟨not_mem_of_not_mem_cons hfresh, file, ?_, hagrees⟩
      exact (Function.update_of_ne (ne_of_not_mem_cons hfresh) none dir.files).trans hf
    · intro _
      rw [wp_bind, wp_get]
      cases hf : dir.files name with
      | none => exact ih hn hs
      | some file =>
        rw [wp_bind, wp_attempt]
        refine ⟨fun fileId hfiI => ?_, fun _ _ => h.withdrawn⟩
        rw [wp_bind, wp_attempt]
        refine ⟨fun _ hver => ?_, fun _ _ => h.withdrawn⟩
        rw [wp_bind, wp_attempt]
        refine ⟨fun checkpoint' hreg => ?_, fun _ _ => h.withdrawn⟩
        rw [registerArtifact_eq_ok hreg]
        refine ih hn ⟨h.withdrawn, h.identity, fun binding hmem => ?_⟩
        rcases mem_append.mp hmem with hold | hl
        · exact hs.agrees binding hold
        · rw [mem_singleton.mp hl]
          exact ⟨hnew, file, hf, fun fields hname => verifyArtifact_agrees hver hname⟩

/-- A publication that succeeds is one for its source; one that fails leaves no marker. -/
theorem wp_publishAt {source current : IndexSource} (h : Registered world source knownArtifacts checkpoint dir) :
    wp (publishAt world source current checkpoint ret) (fun _ => PublishedFor world source) Withdrawn dir := by
  unfold publishAt
  refine wp_seq (wp_publishArtifacts (by decide) h) ?_ fun _ hwithdrawn => hwithdrawn
  intro checkpoint' dir' h'
  unfold IndexBuildCheckpoint.publish
  rw [wp_bind, wp_attempt]
  refine ⟨fun identity hidentity => ?_, fun _ _ => h'.withdrawn⟩
  rw [wp_bind, wp_failIf]
  refine ⟨fun _ => ?_, fun _ => h'.withdrawn⟩
  rw [wp_bind, wp_failIf]
  refine ⟨fun _ => ?_, fun _ => h'.withdrawn⟩
  exact ⟨_, rfl, h'.identity, fun binding hmem => (h'.agrees binding hmem).2⟩

theorem keeps_remove (name : String) : Keeps Withdrawn (modify fun dir => dir.remove name : IndexM PUnit) := fun _ h => h

/-- A build has begun: nothing is registered yet and no marker stands. -/
def Begun (source : IndexSource) (checkpoint : IndexBuildCheckpoint) (dir : IndexDir) : Prop :=
  checkpoint.artifacts = [] ∧ IndexIdentity.read source = .ok checkpoint.identity ∧ Withdrawn dir

/-- A directory after a failure: as it was, or without a marker. -/
def Failed (before after : IndexDir) : Prop := after = before ∨ Withdrawn after

theorem wp_beginPublication (source : IndexSource) (dir : IndexDir) : wp (beginPublication source) (Begun source) (Failed dir) dir := by
  have hremoves : ∀ checkpoint : IndexBuildCheckpoint, Keeps Withdrawn (knownArtifacts.forM fun name => do
      let dir ← get
      let reusable := checkpoint.reuseExisting && (checkpoint.previousArtifactId name).any fun expected =>
        (dir.files name).any fun file => file.fileId = some expected
      runIf (reusable = false) (modify fun dir => dir.remove name) : IndexM PUnit) :=
    fun _ => Keeps.forM (fun name => Keeps.get.bind fun _ => (keeps_remove name).runIf) _
  unfold beginPublication
  rw [wp_bind, wp_attempt]
  refine ⟨fun identity hidentity => ?_, fun _ _ => .inl rfl⟩
  unfold IndexBuildCheckpoint.beginOwned
  rw [wp_bind, wp_bind, wp_modifyGet, wp_pure]
  refine wp_seq (hremoves _ _ rfl) ?_ fun _ hwithdrawn => .inr hwithdrawn
  intro _ dir' hwithdrawn
  exact ⟨rfl, hidentity, hwithdrawn⟩

theorem wp_beginFreshAt (source : IndexSource) (dir : IndexDir) : wp (beginFreshAt source) (Begun source) (Failed dir) dir := by
  unfold beginFreshAt
  rw [wp_bind, wp_attempt]
  exact ⟨fun identity hidentity => ⟨rfl, hidentity, rfl⟩, fun _ _ => .inl rfl⟩

/-- A build that keeps the marker withdrawn until it publishes. -/
theorem wp_build {source current : IndexSource} {start : IndexM IndexBuildCheckpoint} {build : IndexM Unit}
    (hstart : wp start (Begun source) (Failed dir) dir) (hbuild : Keeps Withdrawn build) :
    wp (do
      let checkpoint ← start
      build
      publishAt world source current checkpoint ret) (fun _ => PublishedFor world source) (Failed dir) dir := by
  refine wp_then hstart ?_
  rintro checkpoint dir' ⟨hnil, hidentity, hwithdrawn⟩
  refine wp_seq (hbuild dir' hwithdrawn) ?_ fun _ hwithdrawn => .inr hwithdrawn
  intro _ dir'' hwithdrawn
  refine wp_mono (wp_publishAt ⟨hwithdrawn, hidentity, fun _ hmem => ?_⟩) (fun _ _ h => h) fun _ h => .inr h
  exact absurd (hnil ▸ hmem) not_mem_nil

theorem wp_run (source current : IndexSource) (build : IndexBuild) (dir : IndexDir) :
    wp (build.run world source current) (fun _ => PublishedFor world source) (Failed dir) dir := by
  have hstart := wp_beginPublication source dir
  cases build with
  | indexes profile => exact wp_build hstart (keeps_buildIndexesUnpublished source profile)
  | fresh profile => exact wp_build (wp_beginFreshAt source dir) (keeps_buildIndexesUnpublished source profile)
  | missing profile => exact wp_build hstart (keeps_buildMissingIndexesUnpublished source profile)
  | primary => exact wp_build hstart (keeps_buildPrimaryIndexesUnpublished source)
  | logQueryPrimary => exact wp_build hstart (keeps_buildLogQueryPrimaryIndexesUnpublished source)

theorem markerSound_buildStep {sources : List IndexSource} (h : MarkerSound world sources dir)
    {step : IndexBuild × IndexSource × IndexSource} (hmem : step.2.1 ∈ sources) :
    MarkerSound world sources (buildStep world dir step) := by
  have hrun : wp (step.1.run world step.2.1 step.2.2) (fun _ => PublishedFor world step.2.1) (Failed dir) dir :=
    wp_run step.2.1 step.2.2 step.1 dir
  unfold wp at hrun
  unfold buildStep
  split at hrun
  · next heq =>
    rw [heq]
    exact .inr ⟨_, hmem, hrun⟩
  · next heq =>
    rw [heq]
    rcases hrun with rfl | hwithdrawn
    · exact h
    · exact .inl hwithdrawn

/-! ## Verification of a publication -/

theorem wp_ioContext {α : Type} {context : String} {check : VerifyM α} {Q : α → Nat → Prop} {E : Nat → Prop} {asked : Nat} :
    wp (ioContext context check) Q E asked ↔ wp check Q E asked := by
  unfold wp ioContext
  cases check asked with
  | ok a asked | error error asked => exact Iff.rfl

theorem wp_trivial {ε σ α : Type} (x : EStateM ε σ α) (s : σ) : wp x (fun _ _ => True) (fun _ => True) s := by
  unfold wp
  split <;> trivial

theorem wp_verifyPublishedArtifact {lb asked : Nat} : wp (verifyPublishedArtifact world dir reader max cl lb name fileId)
      (fun _ _ => ArtifactAgrees world.codec reader dir (name, fileId)) (fun _ => True) asked := by
  unfold verifyPublishedArtifact
  rw [wp_bind, wp_ioContext, wp_attempt]
  refine ⟨fun file hf => ?_, fun _ _ => trivial⟩
  rw [wp_bind, wp_ioContext, wp_attempt]
  refine ⟨fun _ _ => ?_, fun _ _ => trivial⟩
  rw [wp_bind, wp_ioContext, wp_attempt]
  refine ⟨fun _ _ => ?_, fun _ _ => trivial⟩
  rw [wp_bind, wp_attempt]
  refine ⟨fun _ _ => ?_, fun _ _ => trivial⟩
  rw [wp_bind, wp_ioContext]
  have haccepts : wp (verifyCapturedArtifact world.hashes world.codec reader file name fileId cl)
      (fun _ _ => ∀ fields, artifactFields name = some fields → ∃ i, IndexAgrees world.codec reader fields file fileId i)
      (fun _ => True) asked := by
    unfold wp
    split
    · next hrun => exact fun fields hn => (decides_verifyCapturedArtifact world.hashes hn cl).sound hrun
    · trivial
  exact wp_imp haccepts fun _ _ hagrees => ⟨file, okOr_eq_ok.mp hf, hagrees⟩

theorem wp_verifyPublishedArtifacts {artifacts : List (String × FixedBytes 16)} {lb asked : Nat} :
    wp (verifyPublishedArtifacts world dir reader max cl artifacts lb)
      (fun _ _ => ∀ binding ∈ artifacts, ArtifactAgrees world.codec reader dir binding) (fun _ => True) asked := by
  induction artifacts generalizing lb asked with
  | nil => exact nofun
  | cons binding artifacts ih =>
    unfold verifyPublishedArtifacts
    rw [wp_bind, wp_ioContext]
    refine wp_imp (wp_trivial _ _) fun _ _ _ => ?_
    rw [wp_bind, wp_ioContext, wp_attempt]
    refine ⟨fun _ _ => ?_, fun _ _ => trivial⟩
    refine wp_then wp_verifyPublishedArtifact fun _ _ hf => ?_
    refine wp_imp ih fun _ _ hr => ?_
    exact forall_mem_cons.mpr ⟨hf, hr⟩

theorem wp_verifyCapturedIndexes {source : IndexSource} {requested : IndexBuildProfile} {asked : Nat} :
    wp (verifyCapturedIndexes world dir source requested max cl)
      (fun result _ => ∀ artifacts, result = some artifacts → ∀ binding ∈ artifacts, ArtifactAgrees world.codec source.reader dir binding)
      (fun _ => True) asked := by
  have hn : ∀ artifacts : List (String × FixedBytes 16), none = some artifacts →
      ∀ binding ∈ artifacts, ArtifactAgrees world.codec source.reader dir binding := nofun
  unfold verifyCapturedIndexes
  rw [wp_bind, wp_ioContext]
  refine wp_imp (wp_trivial _ _) fun _ _ _ => ?_
  rw [wp_bind, wp_ioContext, wp_attempt]
  refine ⟨fun _ _ => ?_, fun _ _ => trivial⟩
  rw [wp_bind, wp_ioContext, wp_attempt]
  refine ⟨fun _ _ => ?_, fun _ _ => trivial⟩
  rw [wp_bind, wp_ioContext, wp_attempt]
  refine ⟨fun checkpoint _ => ?_, fun _ _ => trivial⟩
  cases checkpoint with
  | none => exact hn
  | some checkpoint =>
    rw [wp_ite]
    refine ⟨fun _ => hn, fun _ => ?_⟩
    rw [wp_bind, wp_discard]
    refine wp_imp wp_verifyPublishedArtifacts fun _ _ ha => ?_
    rw [wp_bind, wp_ioContext]
    refine wp_imp (wp_trivial _ _) fun _ _ _ => ?_
    rintro _ ⟨⟩
    exact ha

/-- Every supported column and composite has a builder. -/
theorem artifactFields_isSome_iff (name : String) : (artifactFields name).isSome = true ↔ ∃ build, (name, build) ∈ indexBuilders := by
  simp only [indexBuilders, mem_cons, Prod.mk.injEq, not_mem_nil, or_false]
  constructor
  · intro h
    unfold artifactFields at h
    split at h <;> first | simp | simp at h
  · rintro ⟨build, h⟩
    rcases h with ⟨rfl, -⟩ | ⟨rfl, -⟩ | ⟨rfl, -⟩ | ⟨rfl, -⟩ | ⟨rfl, -⟩ | ⟨rfl, -⟩ | ⟨rfl, -⟩ | ⟨rfl, -⟩ | ⟨rfl, -⟩ | ⟨rfl, -⟩ <;> rfl

end VerificationAux

open VerificationAux in
/-- The verifier is exact, the builders are accepted, and publications agree with their sources. -/
theorem index_verification_is_exact (world : IndexWorld) :
    (∀ name fields reader file fileId cancelled, artifactFields name = some fields →
      (Accepts (verifyCapturedArtifact world.hashes world.codec reader file name fileId cancelled) →
        ∃ index, IndexAgrees world.codec reader fields file fileId index) ∧
      ((∀ asked, cancelled asked = false) → (∃ index, IndexAgrees world.codec reader fields file fileId index) →
        Accepts (verifyCapturedArtifact world.hashes world.codec reader file name fileId cancelled))) ∧
    (∀ name, (artifactFields name).isSome = true ↔ ∃ build, (name, build) ∈ indexBuilders) ∧
    (∀ name build reader fileId file, (name, build) ∈ indexBuilders → build reader fileId = .ok file →
      Accepts (verifyCapturedArtifact world.hashes world.codec reader file name fileId fun _ => false)) ∧
    (∀ dir builds, dir.checkpoint = none →
      MarkerSound world (builds.map fun step => step.2.1) (runFrom (buildStep world) dir builds)) ∧
    (∀ dir dir' build source current, IndexBuild.run world source current build dir = .ok () dir' →
      PublishedFor world source dir') ∧
    ∀ dir source required max cancelled asked artifacts asked',
      verifyCapturedIndexes world dir source required max cancelled asked = .ok (some artifacts) asked' →
        ∀ binding ∈ artifacts, ArtifactAgrees world.codec source.reader dir binding := by
  refine ⟨fun name fields reader file fileId cancelled hn => ?_, artifactFields_isSome_iff, ?_, ?_, ?_, ?_⟩
  · have hdec : Decides (∀ asked, cancelled asked = false)
        (verifyCapturedArtifact world.hashes world.codec reader file name fileId cancelled) _ :=
      decides_verifyCapturedArtifact world.hashes hn cancelled
    exact accepts_of_decides hdec
  · intro name build reader fileId file hbuild hb
    obtain ⟨fields, hn⟩ := Option.isSome_iff_exists.mp ((artifactFields_isSome_iff name).mpr ⟨build, hbuild⟩)
    exact (accepts_of_decides (decides_verifyCapturedArtifact world.hashes hn _)).2 (fun _ => rfl)
      (builders_agree hbuild hn hb)
  · intro dir builds hno
    refine runFrom_inv (MarkerSound world _) (.inl hno) (fun pre step hpre h => ?_) builds (prefix_refl builds)
    have hmem : step ∈ builds := hpre.subset (mem_append_right pre mem_cons_self)
    exact markerSound_buildStep h (mem_map.mpr ⟨step, hmem, rfl⟩)
  · intro dir dir' build source current hrun
    have hok := wp_ok (wp_run source current build dir) hrun
    exact hok
  · intro dir source required max cancelled asked artifacts asked' hrun
    exact wp_ok wp_verifyCapturedIndexes hrun artifacts rfl

namespace VerificationWitness

/-- A segment without rows. -/
def source : SegmentReader := ⟨[], Nat.zero_le _⟩

/-- An address index with one key and no rows under it. -/
def index : BTreeIndex := ⟨20, [(List.replicate 20 0, .new)], List.pairwise_singleton _ _⟩

theorem written : ∃ file, index.writeToFile 9 = .ok file := by
  cases hw : index.writeToFile 9 with
  | ok file => exact ⟨file, rfl⟩
  | error error =>
    have hok : (index.writeToFile 9).isOk = true := by decide +kernel
    rw [hw] at hok
    nomatch hok

end VerificationWitness

open VerificationWitness VerificationAux in
/-- A key without rows changes no posting set, and yet the verifier refuses it. -/
theorem empty_entry_is_refused : ∃ file index, BTreeIndexReader.openBound portableCodec file 9 = .ok index ∧
    index.keySize = keyWidth [.address] ∧ (∀ key, rowsOf (index.get key) = sourcePostings source [.address] key) ∧
    ∀ hashes, ¬Accepts (verifyCapturedArtifact hashes portableCodec source file "address.bptree" 9 fun _ => false) := by
  obtain ⟨file, hw⟩ := written
  have hop : BTreeIndexReader.openBound portableCodec file 9 = .ok ⟨20, [(List.replicate 20 0, .new)]⟩ :=
    bind_eq_ok.mpr ⟨(), rejectIf_eq_ok.mpr (not_not.mpr (writeToFile_fileId hw)),
      (writeToFile_written hw).openData_eq portableCodec⟩
  refine ⟨file, _, hop, rfl, fun key => ?_, ?_⟩
  · rw [rowsOf_get (openBound_sorted hop)]
    ext row
    constructor
    · rintro ⟨bitmap, hmem, hrow⟩
      rw [(Prod.mk.inj (mem_singleton.mp hmem)).2] at hrow
      exact absurd hrow (RoaringBitmap.not_mem_new row)
    · rintro ⟨log, hlog, -⟩
      nomatch hlog
  · rintro hashes ⟨asked, hrun⟩
    obtain ⟨index, hagrees⟩ := (decides_verifyCapturedArtifact hashes
      (show artifactFields "address.bptree" = some [.address] from rfl) _).sound hrun
    obtain rfl := Except.ok.inj (hop.symm.trans hagrees.opens)
    exact hagrees.nonempty _ mem_cons_self rfl

end Logex
