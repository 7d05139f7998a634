import Logex.Repair.Overlap

/-!
# What repair selection computes

Each loop of `select_segments` succeeds under a condition on its whole input and then returns what that input determines. Put
together: a selection succeeds under conditions that do not mention an order, and returns the merged ranges and the sorted owners.
-/

namespace Logex.Repair

open Lib List

variable {segment : SegmentDescriptor} {rs : List Range} {range : Range} {blo : Nat}

/-! ## The loops -/

theorem collectSeeds_eq_ok {see out : Finset Nat} {ids : List Nat} :
    collectSeeds see ids = .ok out ↔ ids.Nodup ∧ (∀ id ∈ ids, id ∉ see) ∧ out = see ∪ ids.toFinset := by
  induction ids generalizing see with
  | nil =>
    rw [collectSeeds, Except.ok.injEq]
    simp [eq_comm]
  | cons id ids ih =>
    rw [collectSeeds, rejectIf_bind, ih, nodup_cons, forall_mem_cons, toFinset_cons, Finset.insert_union, Finset.union_insert]
    constructor
    · rintro ⟨hid, hn, hf, rfl⟩
      refine ⟨⟨fun hmem => hf id hmem (Finset.mem_insert_self _ _), hn⟩, ⟨hid, fun o hmem hs => ?_⟩, rfl⟩
      exact hf o hmem (Finset.mem_insert_of_mem hs)
    · rintro ⟨⟨hnew, hn⟩, ⟨hid, hf⟩, rfl⟩
      refine ⟨hid, hn, fun o hmem hs => ?_, rfl⟩
      rcases Finset.mem_insert.mp hs with rfl | hs
      · exact hnew hmem
      · exact hf o hmem hs

/-- The bounds of a segment as a range. -/
def segmentRange (segment : SegmentDescriptor) : Option Range :=
  match segment.minBlock, segment.maxBlock with
  | some start, some stop => some (start, stop)
  | _, _ => none

theorem mem_segmentBlocks :
    blo ∈ segmentBlocks segment ↔ ∃ range, segmentRange segment = some range ∧ range.1 ≤ blo ∧ blo ≤ range.2 := by
  unfold segmentBlocks segmentRange
  cases segment.minBlock <;> cases segment.maxBlock <;> simp

theorem blockBounds_eq_ok {bou : Option Range} :
    blockBounds segment = .ok bou ↔ WellBounded segment ∧ bou = segmentRange segment := by
  unfold blockBounds WellBounded segmentRange
  cases segment.rowCount <;> cases segment.minBlock <;> cases segment.maxBlock
  case succ.some.some start stop =>
    by_cases hle : start ≤ stop
    · simp [hle, eq_comm]
    · simp [hle]
  all_goals simp [eq_comm]

/-- The ranges of the seeds. -/
def seedRanges (segments : List SegmentDescriptor) (seeds : Finset Nat) : List Range :=
  (segments.filter (·.id ∈ seeds)).filterMap segmentRange

variable {segments : List SegmentDescriptor}

theorem scanSegments_eq_ok {see seen seen' : Finset Nat} :
    scanSegments see seen segments = .ok (seen', rs) ↔ (segments.map SegmentDescriptor.id).Nodup ∧
      (∀ segment ∈ segments, segment.id ∉ seen ∧ WellBounded segment) ∧
      seen' = seen ∪ (segments.map SegmentDescriptor.id).toFinset ∧ rs = seedRanges segments see := by
  induction segments generalizing seen seen' rs with
  | nil =>
    rw [scanSegments, Except.ok.injEq, Prod.mk.injEq]
    simp [seedRanges, eq_comm]
  | cons segment segments ih =>
    have hran : seedRanges (segment :: segments) see =
        if segment.id ∈ see then (segmentRange segment).toList ++ seedRanges segments see else seedRanges segments see := by
      unfold seedRanges
      by_cases hse : segment.id ∈ see
      · rw [filter_cons_of_pos (by simpa using hse), filterMap_cons, if_pos hse]
        cases segmentRange segment <;> rfl
      · rw [filter_cons_of_neg (by simpa using hse), if_neg hse]
    rw [scanSegments, rejectIf_bind, bind_eq_ok, map_cons, nodup_cons, forall_mem_cons, toFinset_cons, hran]
    constructor
    · rintro ⟨hid, bounds, hbds, h⟩
      obtain ⟨hw, rfl⟩ := blockBounds_eq_ok.mp hbds
      obtain ⟨⟨later, rest⟩, hsc, h⟩ := bind_eq_ok.mp h
      obtain ⟨hn, hf, rfl, rfl⟩ := ih.mp hsc
      cases h
      refine ⟨⟨fun hmem => ?_, hn⟩, ⟨⟨hid, hw⟩, fun o hmem => ?_⟩, ?_, rfl⟩
      · obtain ⟨o, hother, heq⟩ := mem_map.mp hmem
        exact (hf o hother).1 (heq ▸ Finset.mem_insert_self _ _)
      · exact ⟨fun hs => (hf o hmem).1 (Finset.mem_insert_of_mem hs), (hf o hmem).2⟩
      · rw [Finset.insert_union, Finset.union_insert]
    · rintro ⟨⟨hnew, hn⟩, ⟨⟨hid, hw⟩, hf⟩, rfl, rfl⟩
      refine ⟨hid, segmentRange segment, blockBounds_eq_ok.mpr ⟨hw, rfl⟩, ?_⟩
      have hsc : scanSegments see (insert segment.id seen) segments =
          .ok (insert segment.id seen ∪ (segments.map SegmentDescriptor.id).toFinset, seedRanges segments see) := by
        refine ih.mpr ⟨hn, fun o hmem => ⟨fun hs => ?_, (hf o hmem).2⟩, rfl, rfl⟩
        rcases Finset.mem_insert.mp hs with heq | hs
        · exact hnew (heq ▸ mem_map_of_mem hmem)
        · exact (hf o hmem).1 hs
      rw [hsc, Finset.union_insert, ← Finset.insert_union]
      rfl

theorem blockCount_eq_ok {a stop n : Nat} (h : a ≤ stop) :
    blockCount a stop = .ok n ↔ n = stop - a + 1 ∧ stop - a + 1 ≤ u64Max := by
  rw [blockCount, okOr_eq_ok, checkedSub, if_pos h, Option.bind_some, checkedAdd_eq_some]

/-- The block budget is kept, counting on from `blocks`. -/
theorem checkBlockBudget_eq_ok {mb bks : Nat} (hv : ∀ range ∈ rs, range.1 ≤ range.2) (hmax : mb ≤ u64Max) (hbls : bks ≤ mb) :
    checkBlockBudget mb bks rs = .ok () ↔ bks + rangeTotal rs ≤ mb := by
  induction rs generalizing bks with
  | nil => simpa [checkBlockBudget, rangeTotal] using hbls
  | cons range rs ih =>
    rw [forall_mem_cons] at hv
    have ht : rangeTotal (range :: rs) = range.2 - range.1 + 1 + rangeTotal rs := by
      rw [rangeTotal, rangeTotal, map_cons, sum_cons]
    rw [checkBlockBudget, bind_eq_ok, ht]
    constructor
    · rintro ⟨count, hc, h⟩
      obtain ⟨rfl, -⟩ := (blockCount_eq_ok hv.1).mp hc
      obtain ⟨sum, hsum, h⟩ := bind_eq_ok.mp h
      obtain ⟨rfl, -⟩ := checkedAdd_eq_some.mp (okOr_eq_ok.mp hsum)
      obtain ⟨hle, h⟩ := rejectIf_bind.mp h
      have hr := (ih hv.2 (by omega)).mp h
      omega
    · intro hle
      refine ⟨_, (blockCount_eq_ok hv.1).mpr ⟨rfl, by omega⟩, ?_⟩
      refine bind_eq_ok.mpr ⟨_, okOr_eq_ok.mpr (checkedAdd_eq_some.mpr ⟨rfl, by omega⟩), ?_⟩
      exact rejectIf_bind.mpr ⟨by omega, (ih hv.2 (by omega)).mpr (by omega)⟩

theorem collectOwners_eq_ok {see : Finset Nat} {br : List Range} {ms : Nat} {os out : List OwnerKey}
    (hown : os.length ≤ ms) : collectOwners see br ms os segments = .ok out ↔
      out = os ++ segments.filterMap (ownerKey see br) ∧ out.length ≤ ms := by
  induction segments generalizing os with
  | nil =>
    rw [collectOwners, filterMap_nil, append_nil, Except.ok.injEq]
    constructor
    · rintro rfl
      exact ⟨rfl, hown⟩
    · exact fun h => h.1.symm
  | cons segment segments ih =>
    cases hkey : ownerKey see br segment with
    | none => rw [collectOwners, hkey, filterMap_cons_none hkey, ih hown]
    | some key =>
      rw [collectOwners, hkey, filterMap_cons_some hkey, rejectIf_bind]
      constructor
      · rintro ⟨hr, h⟩
        obtain ⟨rfl, hleh⟩ := (ih (by rw [length_append, length_singleton]; omega)).mp h
        exact ⟨by rw [List.append_assoc, singleton_append], hleh⟩
      · rintro ⟨rfl, hleh⟩
        have hr : os.length < ms := by
          rw [length_append, length_cons] at hleh
          omega
        refine ⟨not_le.mpr hr, (ih (by rw [length_append, length_singleton]; omega)).mpr ⟨?_, hleh⟩⟩
        rw [List.append_assoc, singleton_append]

/-! ## The whole selection -/

/-- The ranges a selection returns. -/
def selectedRanges (segments : List SegmentDescriptor) (selectedIds : List Nat) : List Range :=
  mergeRanges (seedRanges segments selectedIds.toFinset)

/-- The keys of the segments a selection returns. -/
def ownerKeys (segments : List SegmentDescriptor) (selectedIds : List Nat) : List OwnerKey :=
  segments.filterMap (ownerKey selectedIds.toFinset (selectedRanges segments selectedIds))

/-- When a selection succeeds, and with what. -/
theorem selectSegments_eq_ok {selectedIds : List Nat} {ms mb : Nat} {sel : Selection} :
    selectSegments segments selectedIds ms mb = .ok sel ↔
      selectedIds.length ≤ ms ∧ selectedIds.Nodup ∧ (segments.map SegmentDescriptor.id).Nodup ∧
      (∀ segment ∈ segments, WellBounded segment) ∧ (∀ id ∈ selectedIds, id ∈ segments.map SegmentDescriptor.id) ∧
      checkBlockBudget mb 0 (selectedRanges segments selectedIds) = .ok () ∧
      (ownerKeys segments selectedIds).length ≤ ms ∧
      sel = ⟨((ownerKeys segments selectedIds).insertionSort (· ≤ ·)).map OwnerKey.id, selectedRanges segments selectedIds⟩ := by
  rw [selectSegments, rejectIf_bind, not_lt]
  constructor
  · rintro ⟨hleh, h⟩
    obtain ⟨seeds, hs, h⟩ := bind_eq_ok.mp h
    obtain ⟨hn, -, rfl⟩ := collectSeeds_eq_ok.mp hs
    obtain ⟨⟨seen, rs⟩, hsc, h⟩ := bind_eq_ok.mp h
    obtain ⟨hids, hse, rfl, rfl⟩ := scanSegments_eq_ok.mp hsc
    obtain ⟨hk, h⟩ := rejectIf_bind.mp h
    obtain ⟨hbud, h⟩ := check_bind_eq_ok.mp h
    obtain ⟨owners, hown, h⟩ := bind_eq_ok.mp h
    rw [Finset.empty_union, not_not] at hk
    obtain ⟨rfl, hr⟩ := (collectOwners_eq_ok (Nat.zero_le _)).mp hown
    refine ⟨hleh, hn, hids, fun segment hmem => (hse segment hmem).2, fun id hid => ?_, hbud, hr, (Except.ok.inj h).symm⟩
    exact mem_toFinset.mp (hk (mem_toFinset.mpr hid))
  · rintro ⟨hleh, hn, hids, hw, hk, hbud, hr, rfl⟩
    refine ⟨hleh, bind_eq_ok.mpr ⟨selectedIds.toFinset, collectSeeds_eq_ok.mpr ⟨hn, ?_, ?_⟩, ?_⟩⟩
    · exact fun id _ => Finset.notMem_empty id
    · rw [Finset.empty_union]
    · refine bind_eq_ok.mpr ⟨((segments.map SegmentDescriptor.id).toFinset, seedRanges segments selectedIds.toFinset), ?_, ?_⟩
      · refine scanSegments_eq_ok.mpr ⟨hids, fun segment hmem => ⟨Finset.notMem_empty _, hw segment hmem⟩, ?_, rfl⟩
        rw [Finset.empty_union]
      · refine rejectIf_bind.mpr ⟨not_not.mpr fun id hid => ?_, check_bind_eq_ok.mpr ⟨hbud, bind_eq_ok.mpr ⟨_, ?_, rfl⟩⟩⟩
        · exact mem_toFinset.mpr (hk id (mem_toFinset.mp hid))
        · exact (collectOwners_eq_ok (Nat.zero_le _)).mpr ⟨rfl, hr⟩

/-! ## Order of the input -/

theorem sort_eq_of_perm {α : Type} [LinearOrder α] {a b : List α} (h : a.Perm b) :
    a.insertionSort (· ≤ ·) = b.insertionSort (· ≤ ·) := by
  refine List.Perm.eq_of_pairwise (fun x y _ _ hxy hyx => le_antisymm hxy hyx) (pairwise_insertionSort _ a)
    (pairwise_insertionSort _ b) ?_
  exact (perm_insertionSort _ a).trans (h.trans (perm_insertionSort _ b).symm)

theorem mergeRanges_perm {a b : List Range} (h : a.Perm b) : mergeRanges a = mergeRanges b := by
  rw [mergeRanges, mergeRanges, sort_eq_of_perm (h.map toLex)]

section

variable {segments sgs' : List SegmentDescriptor} {selectedIds si' : List Nat}

variable (hs : segments.Perm sgs')

include hs

variable (hids : selectedIds.Perm si')

include hids

theorem selectedRanges_perm : selectedRanges segments selectedIds = selectedRanges sgs' si' := by
  rw [selectedRanges, selectedRanges, toFinset_eq_of_perm _ _ hids]
  exact mergeRanges_perm ((hs.filter _).filterMap _)

theorem ownerKeys_perm : (ownerKeys segments selectedIds).Perm (ownerKeys sgs' si') := by
  rw [ownerKeys, ownerKeys, toFinset_eq_of_perm _ _ hids, selectedRanges_perm hs hids]
  exact hs.filterMap _

/-- What a selection returns for one order of its input it returns for another. -/
theorem selectSegments_of_perm {ms mb : Nat}
    {sel : Selection} (h : selectSegments segments selectedIds ms mb = .ok sel) : selectSegments sgs' si' ms mb = .ok sel := by
  obtain ⟨hleh, hn, hdis, hw, hkn, hbud, hr, rfl⟩ := selectSegments_eq_ok.mp h
  have hk := ownerKeys_perm hs hids
  rw [selectSegments_eq_ok, ← selectedRanges_perm hs hids, ← sort_eq_of_perm hk]
  refine ⟨hids.length_eq ▸ hleh, hids.nodup_iff.mp hn, (hs.map _).nodup_iff.mp hdis, fun segment hmem => ?_,
    fun id hid => ?_, hbud, hk.length_eq ▸ hr, rfl⟩
  · exact hw segment (hs.mem_iff.mpr hmem)
  · exact (hs.map _).mem_iff.mp (hkn id (hids.mem_iff.mpr hid))

end

/-! ## Ranges of 64-bit blocks -/

/-- The merging loop absorbs ranges; the largest block has no successor, and none is needed. -/
theorem mergeRange_eq_absorb {br : List Range} (h : range.1 ≤ u64Max) : mergeRange br range = absorb br range := by
  rw [mergeRange, absorb]
  cases br.getLast? with
  | none => rfl
  | some last =>
    have hiff : (range.1 ≤ last.2 ∨ checkedAdd last.2 1 = some range.1) ↔ range.1 ≤ last.2 + 1 := by
      rw [checkedAdd_eq_some]
      omega
    simp [hiff]

theorem foldl_mergeRange {rs acc : List Range} (h : ∀ range ∈ rs, range.1 ≤ u64Max) :
    rs.foldl mergeRange acc = rs.foldl absorb acc := by
  induction rs generalizing acc with
  | nil => rfl
  | cons range rs ih =>
    rw [forall_mem_cons] at h
    rw [foldl_cons, foldl_cons, mergeRange_eq_absorb h.1, ih h.2]

/-- Merging gives the same numbers in normal form. -/
theorem mergeRanges_spec (hv : ∀ range ∈ rs, range.1 ≤ range.2 ∧ range.2 ≤ u64Max) :
    Normalized (mergeRanges rs) ∧ ∀ blo, InRanges (mergeRanges rs) blo ↔ InRanges rs blo := by
  have hp : (((rs.map toLex).insertionSort (· ≤ ·)).map ofLex).Perm rs := by
    have hso := (perm_insertionSort (· ≤ ·) (rs.map toLex)).map ofLex
    rwa [map_map, show (ofLex ∘ toLex : Range → Range) = id from rfl, map_id] at hso
  have hsrt : (((rs.map toLex).insertionSort (· ≤ ·)).map ofLex).Pairwise fun a b : Range => a.1 ≤ b.1 := by
    rw [pairwise_map]
    refine (pairwise_insertionSort (· ≤ ·) (rs.map toLex)).imp fun {a b} hle => ?_
    rcases Prod.Lex.le_iff.mp hle with hlt | ⟨heq, -⟩
    · exact le_of_lt hlt
    · exact le_of_eq heq
  have hsa : ∀ blo, InRanges (((rs.map toLex).insertionSort (· ≤ ·)).map ofLex) blo ↔ InRanges rs blo := by
    intro blo
    simp [InRanges, hp.mem_iff]
  rw [mergeRanges, foldl_mergeRange fun range hmem => by
    obtain ⟨hle, hmax⟩ := hv range (hp.mem_iff.mp hmem)
    exact le_trans hle hmax]
  have hs := @foldl_absorb_spec _ [] hsrt (fun range hmem => (hv range (hp.mem_iff.mp hmem)).1)
    ⟨forall_mem_nil _, List.Pairwise.nil⟩ (forall_mem_nil _)
  refine ⟨hs.1, fun blo => ?_⟩
  rw [hs.2, hsa]
  simp [InRanges]

section

variable {segments : List SegmentDescriptor} {selectedIds : List Nat}

theorem mem_seedRanges : range ∈ seedRanges segments selectedIds.toFinset ↔
    ∃ segment ∈ segments, segment.id ∈ selectedIds ∧ segmentRange segment = some range := by
  simp [seedRanges, and_assoc]

theorem segmentRange_valid (hw : WellBounded segment)
    (hmax : ∀ blo ∈ segment.maxBlock, blo ≤ u64Max) (h : segmentRange segment = some range) :
    range.1 ≤ range.2 ∧ range.2 ≤ u64Max := by
  rcases hw with ⟨-, hmin, -⟩ | ⟨-, start, stop, hmin, hs, hle⟩
  · rw [segmentRange, hmin] at h
    nomatch h
  · rw [segmentRange, hmin, hs] at h
    cases h
    exact ⟨hle, hmax stop hs⟩

theorem inRanges_seedRanges : InRanges (seedRanges segments selectedIds.toFinset) blo ↔
    ∃ segment ∈ segments, segment.id ∈ selectedIds ∧ blo ∈ segmentBlocks segment := by
  simp only [InRanges, mem_seedRanges, mem_segmentBlocks]
  constructor
  · rintro ⟨range, ⟨segment, hmem, hid, hr⟩, hb⟩
    exact ⟨segment, hmem, hid, range, hr, hb⟩
  · rintro ⟨segment, hmem, hid, range, hr, hb⟩
    exact ⟨range, ⟨segment, hmem, hid, hr⟩, hb⟩

theorem mem_seedBlocks : blo ∈ seedBlocks segments selectedIds ↔
    ∃ segment ∈ segments, segment.id ∈ selectedIds ∧ blo ∈ segmentBlocks segment := by
  have hf : ∀ list : List SegmentDescriptor,
      blo ∈ list.foldr (fun segment bks => segmentBlocks segment ∪ bks) ∅ ↔ ∃ segment ∈ list, blo ∈ segmentBlocks segment := by
    intro list
    induction list with
    | nil => simp
    | cons segment list ih => rw [foldr_cons, Finset.mem_union, ih, exists_mem_cons_iff]
  rw [seedBlocks, hf]
  simp [and_assoc]

/-- The ranges a selection returns are the blocks of its seeds, in normal form. -/
theorem selectedRanges_spec (hw : ∀ segment ∈ segments, WellBounded segment)
    (hmax : ∀ segment ∈ segments, ∀ blo ∈ segment.maxBlock, blo ≤ u64Max) : Normalized (selectedRanges segments selectedIds) ∧
      ∀ blo, InRanges (selectedRanges segments selectedIds) blo ↔ blo ∈ seedBlocks segments selectedIds := by
  obtain ⟨hnm, hcov⟩ := @mergeRanges_spec (seedRanges segments selectedIds.toFinset) fun range hmem => by
    obtain ⟨segment, hseg, -, hr⟩ := mem_seedRanges.mp hmem
    exact segmentRange_valid (hw segment hseg) (hmax segment hseg) hr
  refine ⟨hnm, fun blo => ?_⟩
  rw [selectedRanges, hcov, inRanges_seedRanges, mem_seedBlocks]

/-- A segment gets a key exactly when it is to be rewritten, and the key has its identifier. -/
theorem ownerKey_spec {see : Finset Nat} (hnm : Normalized rs) (hw : WellBounded segment) :
    (∀ key, ownerKey see rs segment = some key → key.id = segment.id) ∧
      ((ownerKey see rs segment).isSome ↔
        (∃ blo ∈ segmentBlocks segment, InRanges rs blo) ∨ (segment.rowCount = 0 ∧ segment.id ∈ see)) := by
  rcases hw with ⟨hr, hmin, hmaB⟩ | ⟨hr, start, stop, hmin, hmaB, hle⟩
  · have hkey : ownerKey see rs segment =
        if segment.id ∈ see then some (toLex (true, toLex (0, toLex (segment.id, 0)))) else none := by
      rw [ownerKey, hmin, hmaB]
    have hbls : segmentBlocks segment = ∅ := by rw [segmentBlocks, hmin]
    rw [hkey, hbls]
    by_cases hs : segment.id ∈ see
    · rw [if_pos hs]
      refine ⟨fun key h => ?_, by simp [hr, hs]⟩
      rw [← Option.some.inj h]
      rfl
    · rw [if_neg hs]
      exact ⟨nofun, by simp [hs]⟩
  · have hkey : ownerKey see rs segment =
        if rs[partitionIndex (fun range => decide (range.2 < start)) rs]?.all fun range => decide (stop < range.1) then none
        else some (toLex (false, toLex (start, toLex (segment.id, stop)))) := by
      rw [ownerKey, hmin, hmaB]
    have hm : (∃ blo ∈ segmentBlocks segment, InRanges rs blo) ↔ ∃ range ∈ rs, range.1 ≤ stop ∧ start ≤ range.2 := by
      have hbls : segmentBlocks segment = Finset.Icc start stop := by rw [segmentBlocks, hmin, hmaB]
      rw [hbls]
      constructor
      · rintro ⟨blo, hb, range, hmem, hra⟩
        rw [Finset.mem_Icc] at hb
        exact ⟨range, hmem, by omega, by omega⟩
      · rintro ⟨range, hmem, hst, hsta⟩
        have hv := hnm.valid range hmem
        refine ⟨max start range.1, Finset.mem_Icc.mpr ⟨by omega, by omega⟩, range, hmem, by omega, by omega⟩
    rw [hkey, hm, hnm.meets_iff start stop]
    cases hn : rs[partitionIndex (fun range => decide (range.2 < start)) rs]? with
    | none => exact ⟨nofun, by simp [hr]⟩
    | some range =>
      rw [Option.all_some]
      by_cases ha : stop < range.1
      · rw [if_pos (decide_eq_true ha)]
        exact ⟨nofun, by simp [hr, ha]⟩
      · rw [if_neg (by simpa using ha)]
        refine ⟨fun key h => ?_, by simpa [hr] using ha⟩
        rw [← Option.some.inj h]
        rfl

theorem map_filterMap_eq {α β γ : Type} {key : α → Option β} {P : α → Prop} [DecidablePred P] {f : β → γ} {g : α → γ} {list : List α}
    (hkey : ∀ a ∈ list, ∀ b, key a = some b → f b = g a) (hP : ∀ a ∈ list, (key a).isSome ↔ P a) :
    (list.filterMap key).map f = (list.filter (P ·)).map g := by
  induction list with
  | nil => rfl
  | cons a list ih =>
    rw [forall_mem_cons] at hkey hP
    have hr := ih hkey.2 hP.2
    cases ha : key a with
    | none =>
      have hnot : ¬P a := by
        rw [← hP.1, ha]
        exact Bool.false_ne_true
      rw [filterMap_cons_none ha, filter_cons_of_neg (by simpa using hnot), hr]
    | some b =>
      have hyes : P a := by
        rw [← hP.1, ha]
        rfl
      rw [filterMap_cons_some ha, filter_cons_of_pos (by simpa using hyes), map_cons, map_cons, hr, hkey.1 b ha]

variable (hw : ∀ segment ∈ segments, WellBounded segment)

include hw

theorem isOwner_iff (hmax : ∀ segment ∈ segments, ∀ blo ∈ segment.maxBlock, blo ≤ u64Max) (segment : SegmentDescriptor) :
    IsOwner segments selectedIds segment ↔ (∃ blo ∈ segmentBlocks segment, InRanges (selectedRanges segments selectedIds) blo) ∨
      (segment.rowCount = 0 ∧ segment.id ∈ selectedIds) := by
  refine or_congr ?_ Iff.rfl
  simp [(selectedRanges_spec hw hmax).2, Finset.Nonempty]

/-- The segments a selection returns are those to be rewritten. -/
theorem map_id_ownerKeys (hmax : ∀ segment ∈ segments, ∀ blo ∈ segment.maxBlock, blo ≤ u64Max) :
    (ownerKeys segments selectedIds).map OwnerKey.id =
      (segments.filter (IsOwner segments selectedIds ·)).map SegmentDescriptor.id := by
  have hnm := (@selectedRanges_spec segments selectedIds hw hmax).1
  refine map_filterMap_eq (fun segment hmem key h => (ownerKey_spec hnm (hw segment hmem)).1 key h) fun segment hmem => ?_
  rw [(ownerKey_spec hnm (hw segment hmem)).2, mem_toFinset, isOwner_iff hw hmax]

end

end Logex.Repair
