import Logex.HistoryRange

/-!
# The forward progress behind pending ranges

The loop moves the cached slot to the end of a pending range that covers the next slot, until none does, so it ends at the greatest
slot that the pending ranges cover without a gap. The next request starts at the first slot after it and takes a whole window: of a
pending range that starts inside this window slots are requested again, and of no other.
-/

namespace Logex

open CachedForwardPathProgress (advanceTo)

/-- A range covers the slots from its first to its last. -/
def CoversSlot (request : BeaconBlocksByRangeRequest) (slot : Nat) : Prop :=
  request.startSlot ≤ slot ∧ slot ≤ historyRangeEndSlot request

/-- Some pending range covers the slot. -/
def Covered (pendingRanges : List BeaconBlocksByRangeRequest) (slot : Nat) : Prop := ∃ request ∈ pendingRanges, CoversSlot request slot

/-- What the progress behind pending ranges and the request after it are for. -/
structure ForwardExact (progress : CachedForwardPathProgress) (pendingRanges : List BeaconBlocksByRangeRequest) : Prop where
  greatest : IsGreatest {slot | slot ≤ progress.targetSlot ∧
      ∀ covered, progress.highestCachedSlot < covered → covered ≤ slot → Covered pendingRanges covered}
    (forwardProgressWithPendingRanges progress pendingRanges).highestCachedSlot
  order : ∀ listed, (∀ request, request ∈ listed ↔ request ∈ pendingRanges) →
    forwardProgressWithPendingRanges progress listed = forwardProgressWithPendingRanges progress pendingRanges
  next : ∀ next, nextForwardHistoryRangeRequestForProgress (forwardProgressWithPendingRanges progress pendingRanges) = some next →
    next.startSlot = (forwardProgressWithPendingRanges progress pendingRanges).highestCachedSlot + 1 ∧
    ∀ slot, rangeRequestContainsSlot next slot = true →
      progress.highestCachedSlot < slot ∧ slot ≤ progress.targetSlot ∧ ¬Covered pendingRanges slot

/-- The first slot behind the cached one, up to the target, that no pending range covers. -/
structure FirstUncovered (progress : CachedForwardPathProgress) (pendingRanges : List BeaconBlocksByRangeRequest) (slot : Nat) :
    Prop where
  after : progress.highestCachedSlot < slot
  within : slot ≤ progress.targetSlot
  before : ∀ covered, progress.highestCachedSlot < covered → covered < slot → Covered pendingRanges covered
  uncovered : ¬Covered pendingRanges slot

/-- A range starts inside the window that begins with the slot. -/
def StartsInside (progress : CachedForwardPathProgress) (slot : Nat) (request : BeaconBlocksByRangeRequest) : Prop :=
  slot < request.startSlot ∧ request.startSlot ≤ progress.targetSlot ∧ request.startSlot < slot + forwardBeaconBlockRangeWindow

namespace ForwardRangeAux

variable {progress progress' : CachedForwardPathProgress} {pendingRanges : List BeaconBlocksByRangeRequest}
  {request next : BeaconBlocksByRangeRequest} {slot : Nat}

theorem pendingAt_none (h : pendingAt pendingRanges slot = none) : ¬Covered pendingRanges slot := by
  rintro ⟨request, hmem, hcovers⟩
  have hnot := List.find?_eq_none.mp h request hmem
  simp only [decide_eq_true_eq] at hnot
  exact hnot hcovers

/-- A range of consecutive slots, at least one. -/
def Contiguous (request : BeaconBlocksByRangeRequest) : Prop :=
  request.step = 1 ∧ 1 ≤ request.count ∧ request.count ≤ u64Max

theorem contains_iff (hr : Contiguous request) :
    rangeRequestContainsSlot request slot = true ↔ request.startSlot ≤ slot ∧ slot < request.startSlot + request.count := by
  obtain ⟨hs, hc, hmax⟩ := hr
  have hre : request.count - 1 ≤ u64Max := by omega
  unfold rangeRequestContainsSlot
  split
  · next hn =>
    simp only [Bool.false_eq_true, false_iff]
    omega
  · next hso =>
    have hle : request.startSlot ≤ slot := by omega
    simp only [checkedSub, checkedMul, hs, Nat.one_mul, if_pos hle, if_pos hre, Nat.mod_one, decide_true, Bool.and_true,
      decide_eq_true_eq]
    omega

theorem contains_iff_covers (hr : Contiguous request) (hslot : slot ≤ u64Max) :
    rangeRequestContainsSlot request slot = true ↔ CoversSlot request slot := by
  rw [contains_iff hr]
  obtain ⟨hs, hc, hmax⟩ := hr
  simp only [CoversSlot, historyRangeEndSlot, saturatingAdd, hs, Nat.one_mul]
  omega

/-- What the loop reaches: everything behind the cached slot is covered, and the slot after it is not. -/
structure Reached (pendingRanges : List BeaconBlocksByRangeRequest) (progress progress' : CachedForwardPathProgress) : Prop where
  checkpoint : progress'.checkpointSlot = progress.checkpointSlot
  target : progress'.targetSlot = progress.targetSlot
  after : progress.highestCachedSlot ≤ progress'.highestCachedSlot
  within : progress'.highestCachedSlot ≤ progress.targetSlot
  covered : ∀ slot, progress.highestCachedSlot < slot → slot ≤ progress'.highestCachedSlot → Covered pendingRanges slot
  stuck : progress'.highestCachedSlot < progress.targetSlot → ¬Covered pendingRanges (progress'.highestCachedSlot + 1)

theorem advanceTo_covered (h : pendingAt pendingRanges (saturatingAdd progress.highestCachedSlot 1) = some request)
    (hsl : progress.highestCachedSlot < slot) (hle : slot ≤ (progress.advanceTo request).highestCachedSlot) :
    Covered pendingRanges slot := by
  obtain ⟨hmem, hs, -⟩ := pendingAt_covers h
  simp only [saturatingAdd] at hs
  simp only [advanceTo] at hle
  exact ⟨request, hmem, by omega, by omega⟩

theorem forwardProgress_reached (pendingRanges : List BeaconBlocksByRangeRequest)
    (hc : progress.highestCachedSlot ≤ progress.targetSlot) :
    Reached pendingRanges progress (forwardProgressWithPendingRanges progress pendingRanges) := by
  fun_induction forwardProgressWithPendingRanges progress pendingRanges with
  | case1 progress hn =>
    refine ⟨rfl, rfl, le_rfl, hc, fun slot hlt hle => absurd hlt (not_lt.mpr hle), fun hm => ?_⟩
    have hne : saturatingAdd progress.highestCachedSlot 1 = progress.highestCachedSlot + 1 :=
      min_eq_left (Nat.succ_le_of_lt (hm.trans_le progress.bounded))
    exact pendingAt_none (hne ▸ hn)
  | case2 progress request hf hd =>
    refine ⟨rfl, rfl, ?_, min_le_left _ _, fun slot => advanceTo_covered hf, fun hm => absurd hm (not_lt.mpr hd)⟩
    simp only [advanceTo]
    omega
  | case3 progress request hf hm ih =>
    have hr := ih (min_le_left _ _)
    have ha : progress.highestCachedSlot ≤ (progress.advanceTo request).highestCachedSlot := by
      simp only [advanceTo]
      omega
    refine ⟨hr.checkpoint, hr.target, ha.trans hr.after, hr.within, fun slot hlt hle => ?_, hr.stuck⟩
    rcases lt_or_ge (progress.advanceTo request).highestCachedSlot slot with hfar | hnr
    · exact hr.covered slot hfar hle
    · exact advanceTo_covered hf hlt hnr

theorem Reached.isGreatest (h : Reached pendingRanges progress progress') : IsGreatest {slot | slot ≤ progress.targetSlot ∧
      ∀ cov, progress.highestCachedSlot < cov → cov ≤ slot → Covered pendingRanges cov} progress'.highestCachedSlot := by
  refine ⟨⟨h.within, h.covered⟩, ?_⟩
  rintro slot ⟨hle, hs⟩
  by_contra hlt
  have hb : progress'.highestCachedSlot < slot := not_le.mp hlt
  exact h.stuck (hb.trans_le hle) (hs _ (Nat.lt_succ_of_le h.after) hb)

/-- Behind a target that is already reached the loop stops at once, or after one turn at the target. -/
theorem forwardProgress_behind (pendingRanges : List BeaconBlocksByRangeRequest) (hc : progress.targetSlot < progress.highestCachedSlot) :
    (Covered pendingRanges (saturatingAdd progress.highestCachedSlot 1) →
      forwardProgressWithPendingRanges progress pendingRanges = { progress with highestCachedSlot := progress.targetSlot }) ∧
    (¬Covered pendingRanges (saturatingAdd progress.highestCachedSlot 1) →
      forwardProgressWithPendingRanges progress pendingRanges = progress) := by
  rw [forwardProgressWithPendingRanges]
  split
  · next hn => exact ⟨fun hcovered => absurd hcovered (pendingAt_none hn), fun _ => rfl⟩
  · next request hf =>
    have hmin : min progress.targetSlot (max progress.highestCachedSlot (historyRangeEndSlot request)) = progress.targetSlot := by omega
    refine ⟨fun _ => ?_, fun hnot => absurd ⟨request, (pendingAt_covers hf).1, (pendingAt_covers hf).2⟩ hnot⟩
    simp only [advanceTo, hmin, le_refl, dite_true]

/-- The ranges' order does not matter, only which they are. -/
theorem forwardProgress_congr {listed : List BeaconBlocksByRangeRequest} (hlisted : ∀ request, request ∈ listed ↔ request ∈ pendingRanges) :
    forwardProgressWithPendingRanges progress listed = forwardProgressWithPendingRanges progress pendingRanges := by
  have hsame : Covered listed = Covered pendingRanges := by
    funext slot
    simp [Covered, hlisted]
  rcases le_or_gt progress.highestCachedSlot progress.targetSlot with hc | hc
  · have hl := forwardProgress_reached listed hc
    have hr := forwardProgress_reached pendingRanges hc
    refine CachedForwardPathProgress.ext (hl.checkpoint.trans hr.checkpoint.symm) (hl.target.trans hr.target.symm) ?_
    have hg := hl.isGreatest
    rw [hsame] at hg
    exact hg.unique hr.isGreatest
  · have hl := forwardProgress_behind listed hc
    rw [hsame] at hl
    have hr := forwardProgress_behind pendingRanges hc
    by_cases hcovered : Covered pendingRanges (saturatingAdd progress.highestCachedSlot 1)
    · exact (hl.1 hcovered).trans (hr.1 hcovered).symm
    · exact (hl.2 hcovered).trans (hr.2 hcovered).symm

/-- The first slot of the next request. -/
def nextStart (progress : CachedForwardPathProgress) : Nat :=
  max (saturatingAdd progress.highestCachedSlot 1) (saturatingAdd progress.checkpointSlot 1)

theorem nextRequest_eq (progress : CachedForwardPathProgress) : nextForwardHistoryRangeRequestForProgress progress =
    if progress.targetSlot ≤ progress.highestCachedSlot ∨ progress.targetSlot < nextStart progress then none
    else some ⟨nextStart progress, min (progress.targetSlot + 1 - nextStart progress) forwardBeaconBlockRangeWindow, 1⟩ := by
  have hb := progress.bounded
  have hlarge : forwardBeaconBlockRangeWindow ≤ u64Max := by decide
  unfold nextForwardHistoryRangeRequestForProgress
  change (if progress.targetSlot ≤ progress.highestCachedSlot then none else if progress.targetSlot < nextStart progress then none else
    let count := saturatingAdd (min progress.targetSlot (saturatingAdd (nextStart progress) (forwardBeaconBlockRangeWindow - 1)) -
      nextStart progress) 1
    if 0 < count then some (BeaconBlocksByRangeRequest.mk (nextStart progress) count 1) else none) = _
  split
  · next hm => rw [if_pos (.inl hm)]
  · split
    · next hs => rw [if_pos (.inr hs)]
    · have hw : 0 < forwardBeaconBlockRangeWindow := by decide
      have hcount : saturatingAdd (min progress.targetSlot (saturatingAdd (nextStart progress) (forwardBeaconBlockRangeWindow - 1)) -
          nextStart progress) 1 = min (progress.targetSlot + 1 - nextStart progress) forwardBeaconBlockRangeWindow := by
        simp only [saturatingAdd]
        generalize u64Max = bound, forwardBeaconBlockRangeWindow = window at *
        omega
      dsimp only
      rw [hcount, if_pos (by omega), if_neg (by omega)]

/-- The next request asks for a window of slots, cut at the target. -/
theorem nextRequest_spec (h : nextForwardHistoryRangeRequestForProgress progress = some next) :
    progress.highestCachedSlot < progress.targetSlot ∧ next.startSlot = nextStart progress ∧ nextStart progress ≤ progress.targetSlot ∧
      ∀ slot, rangeRequestContainsSlot next slot = true ↔ next.startSlot ≤ slot ∧ slot ≤ progress.targetSlot ∧
        slot < next.startSlot + forwardBeaconBlockRangeWindow := by
  have hlarge : 0 < forwardBeaconBlockRangeWindow ∧ forwardBeaconBlockRangeWindow ≤ u64Max := by decide
  rw [nextRequest_eq] at h
  split at h
  · nomatch h
  · next hmore =>
    cases h
    rw [not_or, not_le, not_lt] at hmore
    refine ⟨hmore.1, rfl, hmore.2, fun slot => ?_⟩
    rw [contains_iff ⟨rfl, by dsimp only; omega, by dsimp only; omega⟩]
    dsimp only
    omega

theorem nextRequest_some (hm : progress.highestCachedSlot < progress.targetSlot) (hs : nextStart progress ≤ progress.targetSlot) :
    ∃ next, nextForwardHistoryRangeRequestForProgress progress = some next := by
  rw [nextRequest_eq, if_neg (by omega)]
  exact ⟨_, rfl⟩

/-- The loop ends right before the first slot that is not covered. -/
theorem Reached.firstUncovered_iff (h : Reached pendingRanges progress progress') : FirstUncovered progress pendingRanges slot ↔
    progress'.highestCachedSlot < progress.targetSlot ∧ slot = progress'.highestCachedSlot + 1 := by
  constructor
  · intro hf
    have hle : slot ≤ progress'.highestCachedSlot + 1 := by
      by_contra hlt
      have hm : progress'.highestCachedSlot < progress.targetSlot := by
        have := hf.within
        omega
      exact h.stuck hm (hf.before _ (Nat.lt_succ_of_le h.after) (not_le.mp hlt))
    have hgt : progress'.highestCachedSlot < slot := by
      by_contra hle
      exact hf.uncovered (h.covered slot hf.after (not_lt.mp hle))
    have := hf.within
    omega
  · rintro ⟨hm, rfl⟩
    exact ⟨Nat.lt_succ_of_le h.after, hm, fun covered hlow hlt => h.covered covered hlow (Nat.le_of_lt_succ hlt), h.stuck hm⟩

/-- A window that begins with an uncovered slot asks again for slots of a range exactly where the range starts inside it. -/
theorem window_again_iff (hslot : ¬CoversSlot request slot) (htarget : progress.targetSlot ≤ u64Max) :
    (∃ asked, slot ≤ asked ∧ asked ≤ progress.targetSlot ∧ asked < slot + forwardBeaconBlockRangeWindow ∧ CoversSlot request asked) ↔
      StartsInside progress slot request := by
  constructor
  · rintro ⟨asked, hlow, htop, hwindow, hstart, hend⟩
    have hlate : slot < request.startSlot := by
      by_contra hle
      exact hslot ⟨not_lt.mp hle, hlow.trans hend⟩
    exact ⟨hlate, hstart.trans htop, hstart.trans_lt hwindow⟩
  · rintro ⟨hlate, htop, hwindow⟩
    refine ⟨request.startSlot, hlate.le, htop, hwindow, le_rfl, ?_⟩
    exact le_min (Nat.le_add_right _ _) (htop.trans htarget)

/-- The progress is exact where the target is not behind it, or one turn takes it back to the target. -/
theorem greatest_iff : IsGreatest {slot | slot ≤ progress.targetSlot ∧
      ∀ covered, progress.highestCachedSlot < covered → covered ≤ slot → Covered pendingRanges covered}
    (forwardProgressWithPendingRanges progress pendingRanges).highestCachedSlot ↔
    progress.highestCachedSlot ≤ progress.targetSlot ∨ Covered pendingRanges (saturatingAdd progress.highestCachedSlot 1) := by
  rcases le_or_gt progress.highestCachedSlot progress.targetSlot with hc | hc
  · exact ⟨fun _ => .inl hc, fun _ => (forwardProgress_reached pendingRanges hc).isGreatest⟩
  have hb := forwardProgress_behind pendingRanges hc
  constructor
  · intro hg
    by_contra hnot
    rw [not_or] at hnot
    rw [hb.2 hnot.2] at hg
    exact absurd hg.1.1 (not_le.mpr hc)
  · rintro (hle | hcovered)
    · exact absurd hle (not_le.mpr hc)
    · rw [hb.1 hcovered]
      exact ⟨⟨le_rfl, fun covered hlow hle => absurd (hlow.trans_le hle) (not_lt.mpr hc.le)⟩, fun slot h => h.1⟩

end ForwardRangeAux

open ForwardRangeAux in
/-- The progress is the greatest slot that the pending ranges cover without a gap, however they are listed, and the next request starts
right after it and asks for no slot that is cached or pending, exactly where the cached slot is not behind the target (or is taken
back to it) and, if a slot up to the target is uncovered, the first such slot is behind the checkpoint and no pending range starts
inside the window that begins with it. Of the pending ranges the next request asks again exactly for those that start inside. -/
theorem forward_progress_exact_iff (progress : CachedForwardPathProgress) (pendingRanges : List BeaconBlocksByRangeRequest) :
    (ForwardExact progress pendingRanges ↔
      (progress.highestCachedSlot ≤ progress.targetSlot ∨ Covered pendingRanges (saturatingAdd progress.highestCachedSlot 1)) ∧
      ∀ slot, FirstUncovered progress pendingRanges slot → progress.targetSlot < saturatingAdd progress.checkpointSlot 1 ∨
        saturatingAdd progress.checkpointSlot 1 ≤ slot ∧ ∀ request ∈ pendingRanges, ¬StartsInside progress slot request) ∧
    (∀ slot next, FirstUncovered progress pendingRanges slot → saturatingAdd progress.checkpointSlot 1 ≤ slot →
      nextForwardHistoryRangeRequestForProgress (forwardProgressWithPendingRanges progress pendingRanges) = some next →
      next.startSlot = slot ∧ ∀ request ∈ pendingRanges,
        (∃ asked, rangeRequestContainsSlot next asked = true ∧ CoversSlot request asked) ↔ StartsInside progress slot request) ∧
    ∀ request, request.step = 1 → 1 ≤ request.count → request.count ≤ u64Max → ∀ slot ≤ u64Max,
      (rangeRequestContainsSlot request slot = true ↔ CoversSlot request slot) := by
  -- What the next request asks for, behind a target that is not reached.
  have hnext : ∀ slot next, FirstUncovered progress pendingRanges slot → saturatingAdd progress.checkpointSlot 1 ≤ slot →
      nextForwardHistoryRangeRequestForProgress (forwardProgressWithPendingRanges progress pendingRanges) = some next →
      next.startSlot = slot ∧ ∀ asked, rangeRequestContainsSlot next asked = true ↔
        slot ≤ asked ∧ asked ≤ progress.targetSlot ∧ asked < slot + forwardBeaconBlockRangeWindow := by
    intro slot next hf hcheckpoint hn
    have hr := forwardProgress_reached pendingRanges ((hf.after.le).trans hf.within)
    obtain ⟨hm, rfl⟩ := hr.firstUncovered_iff.mp hf
    obtain ⟨-, hs, -, hslots⟩ := nextRequest_spec hn
    rw [nextStart, hr.checkpoint] at hs
    have hb := progress.bounded
    have hs : next.startSlot = (forwardProgressWithPendingRanges progress pendingRanges).highestCachedSlot + 1 := by
      rw [hs, saturatingAdd, min_eq_left (by omega)]
      exact max_eq_left hcheckpoint
    rw [hs, hr.target] at hslots
    exact ⟨hs, hslots⟩
  refine ⟨⟨fun h => ⟨greatest_iff.mp h.greatest, fun slot hf => ?_⟩, ?_⟩, ?_, ?_⟩
  · have hr := forwardProgress_reached pendingRanges ((hf.after.le).trans hf.within)
    obtain ⟨hm, hslot⟩ := hr.firstUncovered_iff.mp hf
    rw [or_iff_not_imp_left, not_lt]
    intro htarget
    have hb := progress.bounded
    have hsat : saturatingAdd (forwardProgressWithPendingRanges progress pendingRanges).highestCachedSlot 1 = slot := by
      rw [hslot]
      exact min_eq_left (by omega)
    have hstart : nextStart (forwardProgressWithPendingRanges progress pendingRanges) = max slot (saturatingAdd progress.checkpointSlot 1) := by
      rw [nextStart, hsat, hr.checkpoint]
    obtain ⟨next, hn⟩ := @nextRequest_some (forwardProgressWithPendingRanges progress pendingRanges) (by rwa [hr.target])
      (by rw [hstart, hr.target]; exact max_le hf.within htarget)
    obtain ⟨hs, hclear⟩ := h.next next hn
    have hcheckpoint : saturatingAdd progress.checkpointSlot 1 ≤ slot := by
      have hs' := (nextRequest_spec hn).2.1
      rw [hstart, hs, ← hslot] at hs'
      exact hs' ▸ le_max_right _ _
    refine ⟨hcheckpoint, fun request hmem hinside => ?_⟩
    obtain ⟨asked, hlow, htop, hwindow, hcovers⟩ :=
      (window_again_iff (fun hcovers => hf.uncovered ⟨request, hmem, hcovers⟩) hb).mpr hinside
    have hasked := ((hnext slot next hf hcheckpoint hn).2 asked).mpr ⟨hlow, htop, hwindow⟩
    exact (hclear asked hasked).2.2 ⟨request, hmem, hcovers⟩
  · rintro ⟨hbehind, hclear⟩
    refine ⟨greatest_iff.mpr hbehind, fun listed => forwardProgress_congr, fun next hn => ?_⟩
    obtain ⟨hm, hs, hstart, -⟩ := nextRequest_spec hn
    rcases le_or_gt progress.highestCachedSlot progress.targetSlot with hc | hc
    · have hr := forwardProgress_reached pendingRanges hc
      rw [hr.target] at hm hstart
      have hf := hr.firstUncovered_iff.mpr ⟨hm, rfl⟩
      rcases hclear _ hf with hfar | ⟨hcheckpoint, hclear⟩
      · rw [nextStart, hr.checkpoint] at hstart
        exact absurd ((le_max_right _ _).trans hstart) (not_le.mpr hfar)
      obtain ⟨hs, hslots⟩ := hnext _ next hf hcheckpoint hn
      refine ⟨hs, fun slot hasked => ?_⟩
      obtain ⟨hlow, htop, hwindow⟩ := (hslots slot).mp hasked
      refine ⟨hf.after.trans_le hlow, htop, ?_⟩
      rintro ⟨request, hmem, hcovers⟩
      refine hclear request hmem ((window_again_iff (fun h => hf.uncovered ⟨request, hmem, h⟩) progress.bounded).mp ?_)
      exact ⟨slot, hlow, htop, hwindow, hcovers⟩
    · -- Behind the target nothing is requested.
      have hb := forwardProgress_behind pendingRanges hc
      by_cases hcovered : Covered pendingRanges (saturatingAdd progress.highestCachedSlot 1)
      · rw [hb.1 hcovered] at hm
        exact absurd hm (lt_irrefl _)
      · rw [hb.2 hcovered] at hm
        exact absurd hm (not_lt.mpr hc.le)
  · intro slot next hf hcheckpoint hn
    obtain ⟨hs, hslots⟩ := hnext slot next hf hcheckpoint hn
    refine ⟨hs, fun request hmem => ?_⟩
    rw [← window_again_iff (fun h => hf.uncovered ⟨request, hmem, h⟩) progress.bounded]
    simp only [hslots, and_assoc]
  · intro request hstep hone hmax slot hslot
    exact contains_iff_covers ⟨hstep, hone, hmax⟩ hslot

namespace ForwardRangeWitness

def progress : CachedForwardPathProgress := { checkpointSlot := 100, targetSlot := 400, highestCachedSlot := 105 }

def pendingRange : BeaconBlocksByRangeRequest := { startSlot := 117, count := 16, step := 1 }

end ForwardRangeWitness

open ForwardRangeWitness in
/-- The first of two windows was answered up to slot 105 and the second is pending: the next request asks for slots 106 to 121, and
for 117 to 121 again. -/
theorem pending_window_is_requested_again :
    nextForwardHistoryRangeRequestForProgress (forwardProgressWithPendingRanges progress [pendingRange]) =
      some { startSlot := 106, count := 16, step := 1 } ∧
    (∀ slot, 117 ≤ slot → slot ≤ 121 → rangeRequestContainsSlot { startSlot := 106, count := 16, step := 1 } slot = true ∧
      rangeRequestContainsSlot pendingRange slot = true) ∧
    ¬ForwardExact progress [pendingRange] := by
  have hnext : nextForwardHistoryRangeRequestForProgress (forwardProgressWithPendingRanges progress [pendingRange]) =
      some { startSlot := 106, count := 16, step := 1 } := by
    rw [forwardProgressWithPendingRanges]
    decide
  refine ⟨hnext, fun slot hlow htop => ?_, fun h => ?_⟩
  · interval_cases slot <;> decide
  · exact ((h.next _ hnext).2 117 (by decide)).2.2 ⟨pendingRange, List.mem_singleton_self _, by decide, by decide⟩

end Logex
