import Logex.ForkSchedule

/-!
# Fork digests follow the schedules

Version and blob parameters change only at scheduled epochs, so the digest is constant between two of them. Every epoch has the
digest of the last scheduled epoch before it, which is where the lookup by digest finds it.
-/

namespace Logex

open Lib List

/-- Both schedules are strictly sorted, blob entries are not before Fulu, and Fulu is a fork of the schedule. -/
structure ForkScheduleSpec.Scheduled (spec : ForkScheduleSpec) : Prop where
  forks : spec.forkSchedule.Pairwise fun a b => a.epoch < b.epoch
  blobs : spec.blobSchedule.Pairwise fun a b => a.epoch < b.epoch
  afterFulu : ∀ blob ∈ spec.blobSchedule, spec.fuluForkEpoch ≤ blob.epoch
  fulu : spec.fuluForkEpoch = 0 ∨ ∃ fork ∈ spec.forkSchedule, fork.epoch = spec.fuluForkEpoch

namespace ForkScheduleAux

open ForkScheduleSpec ConsensusChainSpec

variable {sha256 : List UInt8 → B256} {spec : ForkScheduleSpec} {epoch next : Nat}

/-- The digest of a version, mixed with blob parameters where there are any. -/
def digestOf (sha256 : List UInt8 → B256) (spec : ForkScheduleSpec) (version : List UInt8) : Option BlobParameters → List UInt8
  | none => spec.plainForkDigestForVersion sha256 version
  | some p => List.zipWith (· ^^^ ·) (spec.plainForkDigestForVersion sha256 version)
      (FixedBytes.toBytes (sha256 (leBytes 8 p.epoch ++ leBytes 8 p.maxBlobsPerBlock)))

/-- The blob parameters that enter the digest of an epoch. -/
def parametersAt (spec : ForkScheduleSpec) (epoch : Nat) : Option BlobParameters :=
  if epoch < spec.fuluForkEpoch then none else some (spec.blobParametersForEpoch epoch)

theorem forkDigestForEpoch_eq (epoch : Nat) :
    spec.forkDigestForEpoch sha256 epoch = digestOf sha256 spec (spec.forkVersionForEpoch epoch) (parametersAt spec epoch) := by
  unfold forkDigestForEpoch parametersAt
  split <;> rfl

end ForkScheduleAux

open ForkScheduleAux in
/-- No two forks have one version, and no two versions and blob parameters in use one digest. -/
structure ForkScheduleSpec.NoDigestCollision (sha256 : List UInt8 → B256) (spec : ForkScheduleSpec) : Prop where
  versions : (spec.genesisForkVersion :: spec.forkSchedule.map (·.version)).Nodup
  digests : ∀ v ∈ spec.genesisForkVersion :: spec.forkSchedule.map (·.version),
    ∀ v' ∈ spec.genesisForkVersion :: spec.forkSchedule.map (·.version), ∀ e e', ∀ p ∈ [none, parametersAt spec e],
    ∀ p' ∈ [none, parametersAt spec e'], digestOf sha256 spec v p = digestOf sha256 spec v' p' → v = v' ∧ p = p'

namespace ForkScheduleAux

open ForkScheduleSpec ConsensusChainSpec

variable {sha256 : List UInt8 → B256} {spec : ForkScheduleSpec} {epoch next : Nat}

/-! ## Between scheduled epochs -/

variable {fks : List ScheduledFork} {ep' : Nat}

theorem forkVersionFrom_congr {epoch ep' : Nat} (ver : List UInt8)
    (h : ∀ fork ∈ fks, fork.epoch ≤ ep' ↔ fork.epoch ≤ epoch) : forkVersionFrom ep' ver fks = forkVersionFrom epoch ver fks := by
  induction fks generalizing ver with
  | nil => rfl
  | cons fork rest ih =>
    rw [forall_mem_cons] at h
    simp [forkVersionFrom, h.1, ih _ h.2]

/-- No fork or blob entry takes effect after the one epoch and up to the other. -/
def Quiet (spec : ForkScheduleSpec) (epoch epoch' : Nat) : Prop :=
  (∀ fork ∈ spec.forkSchedule, fork.epoch ≤ epoch' → fork.epoch ≤ epoch) ∧
    ∀ blob ∈ spec.blobSchedule, blob.epoch ≤ epoch' → blob.epoch ≤ epoch

theorem Quiet.digest_eq (h : Quiet spec epoch ep') (hs : spec.Scheduled) (hle : epoch ≤ ep') :
    spec.forkDigestForEpoch sha256 ep' = spec.forkDigestForEpoch sha256 epoch := by
  have hv : spec.forkVersionForEpoch ep' = spec.forkVersionForEpoch epoch :=
    forkVersionFrom_congr _ fun fork hf => ⟨h.1 fork hf, fun hf => hf.trans hle⟩
  have hb : spec.blobParametersForEpoch ep' = spec.blobParametersForEpoch epoch := by
    have hfind : (spec.blobSchedule.reverse.find? fun sch => decide (sch.epoch ≤ ep')) =
        spec.blobSchedule.reverse.find? fun sch => decide (sch.epoch ≤ epoch) :=
      find?_congr fun blob hm => decide_eq_decide.mpr ⟨h.2 blob (mem_reverse.mp hm), fun hb => hb.trans hle⟩
    unfold blobParametersForEpoch
    rw [hfind]
  -- Fulu is scheduled, so it does not begin in between either.
  have hf : ep' < spec.fuluForkEpoch ↔ epoch < spec.fuluForkEpoch := by
    rcases hs.fulu with hz | ⟨fork, hm, heq⟩
    · omega
    · have := h.1 fork hm
      omega
  rw [forkDigestForEpoch_eq, forkDigestForEpoch_eq, hv]
  simp [parametersAt, hf, hb]

/-- The first match in a sorted list comes before every other. -/
theorem find_first {α : Type} {R : α → α → Prop} {p : α → Bool} {l : List α} {y : α} (hl : l.Pairwise R) (hy : l.find? p = some y) :
    ∀ x ∈ l, p x = true → x = y ∨ R y x := by
  induction hl with
  | nil => nofun
  | @cons a l ha _ ih =>
    intro x hx hp
    rw [find?_cons] at hy
    split at hy
    · cases hy
      rcases mem_cons.mp hx with rfl | hx
      · exact .inl rfl
      · exact .inr (ha x hx)
    · next hn =>
      rcases mem_cons.mp hx with rfl | hx
      · exact absurd hp (by simp [hn])
      · exact ih hy x hx hp

/-- The next scheduled epoch: one of the two schedules, with none of them in between. -/
structure Next (spec : ForkScheduleSpec) (epoch next : Nat) : Prop where
  after : epoch < next
  scheduled : (∃ fork ∈ spec.forkSchedule, fork.epoch = next) ∨ ∃ blob ∈ spec.blobSchedule, blob.epoch = next
  forks : ∀ fork ∈ spec.forkSchedule, epoch < fork.epoch → next ≤ fork.epoch
  blobs : ∀ blob ∈ spec.blobSchedule, epoch < blob.epoch → next ≤ blob.epoch

/-- The first entry after an epoch, in a list sorted by epochs. -/
theorem find_after (epoch : Nat) {α : Type} {key : α → Nat} {l : List α} (hl : l.Pairwise fun a b => key a < key b) :
    (l.find? (fun x => decide (epoch < key x)) = none ∧ ∀ x ∈ l, key x ≤ epoch) ∨
    ∃ x ∈ l, l.find? (fun x => decide (epoch < key x)) = some x ∧ epoch < key x ∧ ∀ y ∈ l, epoch < key y → key x ≤ key y := by
  cases hf : l.find? fun x => decide (epoch < key x) with
  | none => exact .inl ⟨rfl, fun x hm => by simpa using find?_eq_none.mp hf x hm⟩
  | some x =>
    refine .inr ⟨x, mem_of_find?_eq_some hf, rfl, by simpa using find?_some hf, fun y hm hlt => ?_⟩
    rcases find_first hl hf y hm (decide_eq_true hlt) with rfl | h
    · exact le_rfl
    · exact h.le

theorem nextScheduledEpochAfter_spec (hs : spec.Scheduled) (epoch : Nat) :
    (spec.nextScheduledEpochAfter epoch = none ∧ ∀ ep', Quiet spec epoch ep') ∨
    ∃ next, spec.nextScheduledEpochAfter epoch = some next ∧ Next spec epoch next := by
  unfold nextScheduledEpochAfter nextRegularForkForEpoch
  rw [find?_map]
  rcases find_after epoch hs.forks with ⟨hf, hfs⟩ | ⟨fork, hm, hf, hlt, hfs⟩ <;>
    rcases find_after epoch hs.blobs with ⟨hb, hbs⟩ | ⟨blob, hm', hb, hlt', hbs⟩ <;>
    simp only [Function.comp_def, hf, hb, Option.map]
  · exact .inl ⟨trivial, fun ep' => ⟨fun fork hm _ => hfs fork hm, fun blob hm _ => hbs blob hm⟩⟩
  · exact .inr ⟨_, rfl, hlt', .inr ⟨blob, hm', rfl⟩, fun f hm h => absurd h (not_lt.mpr (hfs f hm)), hbs⟩
  · exact .inr ⟨_, rfl, hlt, .inl ⟨fork, hm, rfl⟩, hfs, fun b hm h => absurd h (not_lt.mpr (hbs b hm))⟩
  · refine .inr ⟨_, rfl, lt_min hlt hlt', ?_, fun f hm h => (min_le_left _ _).trans (hfs f hm h),
      fun b hm h => (min_le_right _ _).trans (hbs b hm h)⟩
    rcases min_choice fork.epoch blob.epoch with h | h
    · exact .inl ⟨fork, hm, h.symm⟩
    · exact .inr ⟨blob, hm', h.symm⟩

theorem Next.quiet (h : Next spec epoch next) (hlt : ep' < next) : Quiet spec epoch ep' := by
  refine ⟨fun fork hm hle => not_lt.mp fun hf => ?_, fun blob hm hle => not_lt.mp fun hb => ?_⟩
  · have := h.forks fork hm hf
    omega
  · have := h.blobs blob hm hb
    omega

/-! ## At scheduled epochs -/

/-- The version in force is that of the genesis or of a fork that took effect. -/
theorem forkVersionFrom_cases (epoch : Nat) (ver : List UInt8) (fks : List ScheduledFork) : forkVersionFrom epoch ver fks = ver ∨
      ∃ fork ∈ fks, fork.epoch ≤ epoch ∧ forkVersionFrom epoch ver fks = fork.version := by
  induction fks generalizing ver with
  | nil => exact .inl rfl
  | cons fork rest ih =>
    rw [forkVersionFrom]
    split
    · next hle =>
      rcases ih fork.version with h | ⟨o, hm, ho⟩
      · exact .inr ⟨fork, mem_cons_self, hle, h⟩
      · exact .inr ⟨o, mem_cons_of_mem _ hm, ho⟩
    · exact .inl rfl

theorem version_mem (epoch : Nat) :
    spec.forkVersionForEpoch epoch ∈ spec.genesisForkVersion :: spec.forkSchedule.map (·.version) := by
  rcases forkVersionFrom_cases epoch spec.genesisForkVersion spec.forkSchedule with h | ⟨fork, hm, -, h⟩
  · exact mem_cons.mpr (.inl h)
  · exact mem_cons_of_mem _ (mem_map.mpr ⟨fork, hm, h.symm⟩)

/-- A fork's own version is in force at its epoch. -/
theorem forkVersionFrom_own (hs : fks.Pairwise fun a b => a.epoch < b.epoch) (ver : List UInt8)
    {fork : ScheduledFork} (hm : fork ∈ fks) : forkVersionFrom fork.epoch ver fks = fork.version := by
  induction hs generalizing ver with
  | nil => nomatch hm
  | @cons first rest hf _ ih =>
    rw [forkVersionFrom]
    rcases mem_cons.mp hm with rfl | hr
    · rw [if_pos le_rfl]
      rcases forkVersionFrom_cases fork.epoch fork.version rest with h | ⟨o, ho, hle, -⟩
      · exact h
      · exact absurd (hf o ho) (not_lt.mpr hle)
    · rw [if_pos (hf fork hr).le]
      exact ih _ hr

theorem version_ne (hs : spec.Scheduled) (hc : spec.NoDigestCollision sha256) {fork : ScheduledFork} (hm : fork ∈ spec.forkSchedule)
    (hlt : epoch < fork.epoch) : spec.forkVersionForEpoch fork.epoch ≠ spec.forkVersionForEpoch epoch := by
  obtain ⟨hg, hnd⟩ := nodup_cons.mp hc.versions
  have ho : spec.forkVersionForEpoch fork.epoch = fork.version := forkVersionFrom_own hs.forks _ hm
  rw [ho]
  intro heq
  rcases forkVersionFrom_cases epoch spec.genesisForkVersion spec.forkSchedule with h | ⟨other, ho, hle, h⟩
  · exact hg (mem_map.mpr ⟨fork, hm, heq.trans h⟩)
  · obtain rfl := inj_on_of_nodup_map hnd hm ho (heq.trans h)
    omega

/-- A blob entry's epoch is that of the parameters in force from it on. -/
theorem parameters_own (hs : spec.Scheduled) {blob : BlobParameters} (hm : blob ∈ spec.blobSchedule) :
    (spec.blobParametersForEpoch blob.epoch).epoch = blob.epoch := by
  unfold blobParametersForEpoch
  split
  · next s hf =>
    have hle : s.epoch ≤ blob.epoch := by simpa using find?_some hf
    rcases find_first (pairwise_reverse.mpr hs.blobs) hf blob (mem_reverse.mpr hm) (by simp) with rfl | h
    · rfl
    · omega
  · next hn => simpa using find?_eq_none.mp hn blob (mem_reverse.mpr hm)

/-- Before a blob entry that is no fork, other parameters are in force. -/
theorem parameters_ne (hlt : epoch < next) (hfk : ∀ fork ∈ spec.forkSchedule, fork.epoch ≠ next) :
    (spec.blobParametersForEpoch epoch).epoch ≠ next := by
  unfold blobParametersForEpoch
  split
  · next s hf =>
    have hle : s.epoch ≤ epoch := by simpa using find?_some hf
    omega
  · dsimp only
    cases hf : spec.forkSchedule.find? fun sch => decide (sch.version = [5, 0, 0, 0]) with
    | none => exact (Nat.zero_le epoch).trans_lt hlt |>.ne
    | some fork => exact hfk fork (mem_of_find?_eq_some hf)

theorem digest_inj (hc : spec.NoDigestCollision sha256)
    (h : spec.forkDigestForEpoch sha256 epoch = spec.forkDigestForEpoch sha256 ep') :
    spec.forkVersionForEpoch epoch = spec.forkVersionForEpoch ep' ∧ parametersAt spec epoch = parametersAt spec ep' := by
  rw [forkDigestForEpoch_eq, forkDigestForEpoch_eq] at h
  exact hc.digests _ (version_mem epoch) _ (version_mem ep') epoch ep' _ (by simp) _ (by simp) h

theorem version_of_plain (hc : spec.NoDigestCollision sha256) {ver : List UInt8}
    (hm : ver ∈ spec.genesisForkVersion :: spec.forkSchedule.map (·.version))
    (h : spec.forkDigestForEpoch sha256 epoch = spec.plainForkDigestForVersion sha256 ver) :
    ver = spec.forkVersionForEpoch epoch := by
  rw [forkDigestForEpoch_eq] at h
  exact (hc.digests _ (version_mem epoch) _ hm epoch 0 _ (by simp) none (by simp) h).1.symm

theorem Next.digest_ne (h : Next spec epoch next) (hs : spec.Scheduled) (hc : spec.NoDigestCollision sha256) :
    spec.forkDigestForEpoch sha256 next ≠ spec.forkDigestForEpoch sha256 epoch := by
  intro heq
  obtain ⟨hv, hp⟩ := digest_inj hc heq
  by_cases hf : ∃ fork ∈ spec.forkSchedule, fork.epoch = next
  · obtain ⟨fork, hm, rfl⟩ := hf
    exact version_ne hs hc hm h.after hv
  · obtain ⟨blob, hm, rfl⟩ := h.scheduled.resolve_left hf
    have hl : spec.fuluForkEpoch ≤ epoch := by
      by_contra hn
      rcases hs.fulu with hz | ⟨fork, hm', hfu⟩
      · omega
      · have h1 := hs.afterFulu blob hm
        have h2 := h.forks fork hm' (by omega)
        exact hf ⟨fork, hm', by omega⟩
    have ha := h.after
    simp only [parametersAt, if_neg (not_lt.mpr hl), if_neg (show ¬blob.epoch < spec.fuluForkEpoch by omega), Option.some.injEq] at hp
    exact parameters_ne ha (fun fork hm' hne => hf ⟨fork, hm', hne⟩) (hp ▸ parameters_own hs hm)

/-- Every epoch has the digest of the genesis or of a scheduled epoch. -/
theorem exists_scheduled (sha256 : List UInt8 → B256) (hs : spec.Scheduled) (epoch : Nat) :
    ∃ a, (a = 0 ∨ (∃ fork ∈ spec.forkSchedule, fork.epoch = a) ∨ ∃ blob ∈ spec.blobSchedule, blob.epoch = a) ∧
      spec.forkDigestForEpoch sha256 epoch = spec.forkDigestForEpoch sha256 a := by
  let starts := (0 :: (spec.forkSchedule.map (·.epoch) ++ spec.blobSchedule.map (·.epoch))).toFinset.filter (· ≤ epoch)
  obtain ⟨a, hm, hmax⟩ := Finset.exists_max_image starts id ⟨0, by simp [starts]⟩
  simp only [starts, Finset.mem_filter, mem_toFinset, mem_cons, mem_append, mem_map, id] at hm hmax
  refine ⟨a, hm.1, Quiet.digest_eq ⟨fun fork hf hle => ?_, fun blob hb hle => ?_⟩ hs hm.2⟩
  · exact hmax _ ⟨.inr (.inl ⟨fork, hf, rfl⟩), hle⟩
  · exact hmax _ ⟨.inr (.inr ⟨blob, hb, rfl⟩), hle⟩

theorem forkVersionForDigest_eq (hs : spec.Scheduled) (hc : spec.NoDigestCollision sha256) (epoch : Nat) :
    spec.forkVersionForDigest sha256 (spec.forkDigestForEpoch sha256 epoch) = some (spec.forkVersionForEpoch epoch) := by
  unfold forkVersionForDigest
  split
  · next h => exact congrArg some (version_of_plain hc mem_cons_self h)
  · split
    · next fork hf =>
      have hm := mem_map_of_mem (f := (·.version)) (mem_of_find?_eq_some hf)
      have hd := find?_some hf
      exact congrArg some (version_of_plain hc (mem_cons_of_mem _ hm) (of_decide_eq_true hd))
    · split
      · next h => exact congrArg some (digest_inj hc h).1.symm
      · next hz =>
        split
        · next fork hf =>
          have hd := find?_some hf
          rw [(digest_inj hc (of_decide_eq_true hd)).1]
          exact congrArg some (forkVersionFrom_own hs.forks _ (mem_of_find?_eq_some hf)).symm
        · next hfs =>
          obtain ⟨start, hst, hd⟩ := exists_scheduled sha256 hs epoch
          rcases hst with rfl | ⟨fork, hm, rfl⟩ | ⟨blob, hm, rfl⟩
          · exact absurd hd hz
          · exact absurd hd (by simpa using find?_eq_none.mp hfs fork hm)
          · cases hb : spec.blobSchedule.find? fun sch =>
                decide (spec.forkDigestForEpoch sha256 epoch = spec.forkDigestForEpoch sha256 sch.epoch) with
            | none => exact absurd hd (by simpa using find?_eq_none.mp hb blob hm)
            | some found =>
              have hd := find?_some hb
              exact congrArg some (digest_inj hc (of_decide_eq_true hd)).1.symm

end ForkScheduleAux

open ForkScheduleAux in
/-- The digest of an epoch leads back to the version in force, stays the same up to the next scheduled epoch, and changes there. -/
theorem fork_digests_follow_schedule (sha256 : List UInt8 → B256) (spec : ForkScheduleSpec) (hs : spec.Scheduled)
    (hc : spec.NoDigestCollision sha256) (epoch : Nat) :
    spec.forkVersionForDigest sha256 (spec.forkDigestForEpoch sha256 epoch) = some (spec.forkVersionForEpoch epoch) ∧
    (∀ later, epoch ≤ later → (∀ next ∈ spec.nextScheduledEpochAfter epoch, later < next) →
      spec.forkDigestForEpoch sha256 later = spec.forkDigestForEpoch sha256 epoch) ∧
    ∀ next ∈ spec.nextScheduledEpochAfter epoch, epoch < next ∧
      spec.forkDigestForEpoch sha256 next ≠ spec.forkDigestForEpoch sha256 epoch := by
  refine ⟨forkVersionForDigest_eq hs hc epoch, ?_⟩
  rcases nextScheduledEpochAfter_spec hs epoch with ⟨hn, hq⟩ | ⟨next, hn, h⟩
  · simp only [hn]
    exact ⟨fun later hle _ => (hq later).digest_eq hs hle, nofun⟩
  · simp only [hn, Option.mem_def, Option.some.injEq, forall_eq']
    exact ⟨fun later hle hlt => (h.quiet hlt).digest_eq hs hle, h.after, h.digest_ne hs hc⟩

namespace ForkScheduleWitness

/-- SHA-256 of the fork data of the first three versions and of the blob parameters. -/
def sha256Table : List (Nat × B256) :=
  [(0x4b363db94e286120d76eb905340fdd4e54bfe9f06bf33ff6cf5ad27f511bfe95,
      0xb5303f2ad2010d699a76c8e62350947421a3e4a979779642cfdb0f6668986b25),
    (0x01000000000000000000000000000000000000000000000000000000000000004b363db94e286120d76eb905340fdd4e54bfe9f06bf33ff6cf5ad27f511bfe95,
      0xafcaaba0efab1ca832a15152469bb09bb84641c405171dfa2d3fb45f2bd8ddb9),
    (0x02000000000000000000000000000000000000000000000000000000000000004b363db94e286120d76eb905340fdd4e54bfe9f06bf33ff6cf5ad27f511bfe95,
      0x4a26c58b08add8089b75caa540848881a8d4f0af0be83417a85c0f458ca67cd1),
    (0x0900000000000000, 0x67c78fdc208c019f15520b78bfd1df7820340a7c1eba5d1d37eb2ac0c8c301f2),
    (0x4c0600000000000f00000000000000, 0x49f7ff8d3c46bdb8a59016eb093e5aca68c49e53e84982e37ebcfdaae9be7017)]

def sha256 (bytes : List UInt8) : B256 := (sha256Table.lookup (bytes.foldl (fun acc b => acc * 256 + b.toNat) 0)).getD 0

/-- Mainnet up to Altair, with digests mixed from the given epoch on. -/
def spec (fuluForkEpoch : Nat) : ForkScheduleSpec where
  toConsensusChainSpec := { mainnetConsensusChainSpec with forkSchedule := [⟨74240, [1, 0, 0, 0]⟩] }
  fuluForkEpoch := fuluForkEpoch
  electraMaxBlobsPerBlock := 9
  blobSchedule := []

/-- Mainnet up to Bellatrix, with digests mixed from Bellatrix on and a later change of the blob parameters. -/
def blobSpec : ForkScheduleSpec :=
  { spec 144896 with forkSchedule := [⟨74240, [1, 0, 0, 0]⟩, ⟨144896, [2, 0, 0, 0]⟩], blobSchedule := [⟨412672, 15⟩] }

open ForkScheduleAux in
/-- Collisions are looked for among the blob parameters that can be in use. -/
theorem noDigestCollision_of {spec : ForkScheduleSpec} {versions} (used : List BlobParameters)
    (h : spec.genesisForkVersion :: spec.forkSchedule.map (·.version) = versions) (hv : versions.Nodup)
    (hused : ∀ e, spec.blobParametersForEpoch e ∈ used) (hd : ∀ v ∈ versions, ∀ v' ∈ versions, ∀ p ∈ none :: used.map some,
      ∀ p' ∈ none :: used.map some, digestOf sha256 spec v p = digestOf sha256 spec v' p' → v = v' ∧ p = p') :
    spec.NoDigestCollision sha256 := by
  subst h
  have hp : ∀ e, ∀ p ∈ [none, parametersAt spec e], p ∈ none :: used.map some := by
    intro e p hp
    rcases mem_pair.mp hp with rfl | rfl
    · exact mem_cons_self
    · unfold parametersAt
      split
      · exact mem_cons_self
      · exact mem_cons_of_mem _ (mem_map_of_mem (hused e))
  exact ⟨hv, fun v hv v' hv' e e' p hm p' hm' => hd v hv v' hv' p (hp e p hm) p' (hp e' p' hm')⟩

theorem spec_noDigestCollision : (spec 411392).NoDigestCollision sha256 :=
  noDigestCollision_of [⟨0, 9⟩] rfl (by decide) (fun _ => mem_cons_self) (by decide +kernel)

theorem blobSpec_noDigestCollision : blobSpec.NoDigestCollision sha256 := by
  refine noDigestCollision_of [⟨0, 9⟩, ⟨412672, 15⟩] rfl (by decide) (fun e => ?_) (by decide +kernel)
  by_cases hblob : 412672 ≤ e <;> simp [blobSpec, spec, ForkScheduleSpec.blobParametersForEpoch, hblob]

end ForkScheduleWitness

open ForkScheduleWitness in
/-- Where Fulu is no fork of the schedule, the digest changes unannounced and is not found. -/
theorem unscheduled_fulu_digest_is_unknown :
    (spec 411392).forkSchedule.Pairwise (fun a b => a.epoch < b.epoch) ∧ (spec 411392).blobSchedule = [] ∧
    (spec 411392).NoDigestCollision sha256 ∧ (spec 411392).nextScheduledEpochAfter 411391 = none ∧
    (spec 411392).forkDigestForEpoch sha256 411392 ≠ (spec 411392).forkDigestForEpoch sha256 411391 ∧
    (spec 411392).forkVersionForDigest sha256 ((spec 411392).forkDigestForEpoch sha256 411392) = none := by
  refine ⟨by decide, rfl, spec_noDigestCollision, rfl, ?_, ?_⟩ <;> decide +kernel

open ForkScheduleWitness in
theorem mixed_digest_follows_schedule :
    blobSpec.forkVersionForDigest sha256 (blobSpec.forkDigestForEpoch sha256 412672) = some [2, 0, 0, 0] ∧
    blobSpec.forkDigestForEpoch sha256 412672 ≠ blobSpec.forkDigestForEpoch sha256 144896 := by
  have h := fork_digests_follow_schedule sha256 blobSpec
    ⟨by decide, by decide, by decide, .inr ⟨⟨144896, [2, 0, 0, 0]⟩, by decide, rfl⟩⟩ blobSpec_noDigestCollision
  exact ⟨(h 412672).1, ((h 144896).2.2 412672 rfl).2⟩

end Logex
