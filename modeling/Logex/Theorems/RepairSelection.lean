import Logex.Lemmas.RepairSelection

/-!
# Repair selection is exact

`select_segments` fails exactly when a seed is unknown or repeated, the list of segments is malformed or a budget is exceeded. What it
returns are the blocks of the seeds as separate ranges in ascending order, and the segments that have one of these blocks together
with the empty seeds; neither depends on the order of its input. Block numbers and the block budget are 64-bit numbers, up to the
largest.
-/

namespace Logex.Repair

open Lib

namespace RepairSelectionAux

variable {segments : List SegmentDescriptor} {selectedIds : List Nat} {maxSegments maxBlocks : Nat}

/-- The budgets, as the loops check them. -/
theorem budgets_iff (hw : ∀ sg ∈ segments, WellBounded sg)
    (hmax : ∀ sg ∈ segments, ∀ b ∈ sg.maxBlock, b ≤ u64Max) (hbud : maxBlocks ≤ u64Max) :
    (checkBlockBudget maxBlocks 0 (selectedRanges segments selectedIds) = .ok () ↔ (seedBlocks segments selectedIds).card ≤ maxBlocks) ∧
      (ownerKeys segments selectedIds).length = (segments.filter (IsOwner segments selectedIds ·)).length := by
  obtain ⟨hnm, hcov⟩ := @selectedRanges_spec segments selectedIds hw hmax
  constructor
  · rw [checkBlockBudget_eq_ok hnm.valid hbud (Nat.zero_le _), zero_add, hnm.rangeTotal_eq_card fun n => (hcov n).symm]
  · have hleh := congrArg List.length (@map_id_ownerKeys segments selectedIds hw hmax)
    rwa [List.length_map, List.length_map] at hleh

theorem exact_of_ok (hmax : ∀ sg ∈ segments, ∀ b ∈ sg.maxBlock, b ≤ u64Max) {sel : Selection}
    (h : selectSegments segments selectedIds maxSegments maxBlocks = .ok sel) : Exact segments selectedIds sel := by
  obtain ⟨-, -, hdis, hw, -, -, -, rfl⟩ := selectSegments_eq_ok.mp h
  obtain ⟨hnm, hcov⟩ := @selectedRanges_spec segments selectedIds hw hmax
  have hids : (((ownerKeys segments selectedIds).insertionSort (· ≤ ·)).map OwnerKey.id).Perm
      ((segments.filter (IsOwner segments selectedIds ·)).map SegmentDescriptor.id) := by
    rw [← map_id_ownerKeys hw hmax]
    exact (List.perm_insertionSort _ _).map _
  refine ⟨hnm, fun b => ?_, ?_, fun id => ?_⟩
  · rw [hcov, mem_seedBlocks]
  · exact hids.nodup_iff.mpr (hdis.sublist (List.filter_sublist.map _))
  · rw [hids.mem_iff]
    simp only [List.mem_map, List.mem_filter, decide_eq_true_eq, isOwner_iff hw hmax]
    constructor
    · rintro ⟨sg, ⟨hmem, hor⟩, rfl⟩
      exact ⟨sg, hmem, rfl, hor⟩
    · rintro ⟨sg, hmem, rfl, hor⟩
      exact ⟨sg, ⟨hmem, hor⟩, rfl⟩

end RepairSelectionAux

open RepairSelectionAux

/-- A selection succeeds exactly when it is admissible, is then exact, and is the same for every order of the segments and seeds. -/
theorem repair_selection_is_exact (segments : List SegmentDescriptor) (selectedIds : List Nat) (maxSegments maxBlocks : Nat)
    (hmax : ∀ segment ∈ segments, ∀ block ∈ segment.maxBlock, block ≤ u64Max) (hbudget : maxBlocks ≤ u64Max) :
    ((∃ selection, selectSegments segments selectedIds maxSegments maxBlocks = .ok selection) ↔
        Admissible segments selectedIds maxSegments maxBlocks) ∧
      (∀ selection, selectSegments segments selectedIds maxSegments maxBlocks = .ok selection → Exact segments selectedIds selection) ∧
      ∀ segments' selectedIds', segments.Perm segments' → selectedIds.Perm selectedIds' → ∀ selection,
        selectSegments segments selectedIds maxSegments maxBlocks = .ok selection ↔
          selectSegments segments' selectedIds' maxSegments maxBlocks = .ok selection := by
  refine ⟨⟨?_, ?_⟩, fun selection h => exact_of_ok hmax h, fun segments' selectedIds' hs hids selection => ?_⟩
  · rintro ⟨selection, h⟩
    obtain ⟨hleh, hn, hdis, hw, hk, hbls, hr, -⟩ := selectSegments_eq_ok.mp h
    obtain ⟨hc, hown⟩ := @budgets_iff segments selectedIds maxBlocks hw hmax hbudget
    refine ⟨hn, fun id hid => ?_, hdis, hw, hleh, hown ▸ hr, hc.mp hbls⟩
    obtain ⟨segment, hmem, heq⟩ := List.mem_map.mp (hk id hid)
    exact ⟨segment, hmem, heq⟩
  · intro h
    obtain ⟨hc, hown⟩ := @budgets_iff segments selectedIds maxBlocks h.bounds hmax hbudget
    refine ⟨_, selectSegments_eq_ok.mpr ⟨h.seed_budget, h.seeds_distinct, h.ids_distinct, h.bounds, fun id hid => ?_,
      hc.mpr h.block_budget, hown ▸ h.owner_budget, rfl⟩⟩
    obtain ⟨segment, hmem, heq⟩ := h.seeds_known id hid
    exact heq ▸ List.mem_map_of_mem hmem
  · exact ⟨selectSegments_of_perm hs hids, selectSegments_of_perm hs.symm hids.symm⟩

namespace RepairSelectionWitness

/-- A segment as the selection sees it. -/
def segment (id : Nat) (range : Option Range) : SegmentDescriptor where
  id := id
  sourceNamespace := none
  sourceCommitment := none
  sourceState := none
  kind := .sealed
  relativePath := segmentPath id
  manifestRelativePath := segmentManifestPath id
  minBlock := range.map Prod.fst
  maxBlock := range.map Prod.snd
  rowCount := if range.isSome then 1 else 0

/-- Two seeds that touch at the largest block, a neighbour that meets them, one that does not, and an empty seed. -/
def segments : List SegmentDescriptor :=
  [segment 4 (some (u64Max, u64Max)), segment 2 none, segment 3 (some (u64Max - 3, u64Max - 1)),
    segment 1 (some (u64Max - 1, u64Max - 1)), segment 5 (some (7, 9))]

theorem segments_admissible : Admissible segments [4, 1, 2] 4 2 where
  seeds_distinct := by decide
  seeds_known := by decide
  ids_distinct := by decide
  bounds := by
    have hr : ∀ id start stop, start ≤ stop → WellBounded (segment id (some (start, stop))) := fun id start stop hle =>
      .inr ⟨Nat.one_ne_zero, start, stop, rfl, rfl, hle⟩
    simp only [segments, List.forall_mem_cons, List.not_mem_nil, false_implies, implies_true, and_true]
    exact ⟨hr _ _ _ (by decide), .inl ⟨rfl, rfl, rfl⟩, hr _ _ _ (by decide), hr _ _ _ (by decide), hr _ _ _ (by decide)⟩
  seed_budget := by decide
  owner_budget := by decide +kernel
  block_budget := by decide +kernel

theorem segments_selected : Admissible segments [4, 1, 2] 4 2 ∧
    ∃ selection, selectSegments segments [4, 1, 2] 4 2 = .ok selection ∧ Exact segments [4, 1, 2] selection ∧
      selectSegments segments.reverse [2, 1, 4] 4 2 = .ok selection := by
  have hex := repair_selection_is_exact segments [4, 1, 2] 4 2 (by decide) (by decide)
  obtain ⟨selection, hsel⟩ := hex.1.mpr segments_admissible
  refine ⟨segments_admissible, selection, hsel, hex.2.1 selection hsel, ?_⟩
  exact (hex.2.2 _ _ (List.reverse_perm _).symm (by decide) selection).mp hsel

end RepairSelectionWitness

end Logex.Repair
