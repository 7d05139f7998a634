import Logex.HistoryRange

/-!
# The history scan covers every slot once

A scan moves through windows from the child down to the checkpoint, and inside a window upwards. What is left of it is the part of
the window from the cursor on and everything below the window; each answer removes the slots it consumed from that.
-/

namespace Logex

open Lib
open Finset (mem_Ico mem_sdiff mem_union)

namespace HistoryRangeScan

variable {scan scan' : HistoryRangeScan} {childSlot : Nat} {request : BeaconBlocksByRangeRequest} {lastSlot : Option Nat}
  {progress : ScanProgress}

/-- The slots an answer consumes. -/
def consumed (answer : BeaconBlocksByRangeRequest × Option Nat) : Finset Nat :=
  Finset.Ico answer.1.startSlot (consumedTo answer.1 answer.2)

/-- The slots the scan has still to go through. -/
def remaining (scan : HistoryRangeScan) : Finset Nat :=
  match scan.nextStart with
  | none => ∅
  | some start => Finset.Ico scan.checkpointSlot scan.windowStart ∪ Finset.Ico start scan.windowEnd

/-- The scan after answers that were all accepted. -/
def advanceAll (scan : HistoryRangeScan) : List (BeaconBlocksByRangeRequest × Option Nat) → Option HistoryRangeScan
  | [] => some scan
  | answer :: answers =>
    match advance answer.1 answer.2 scan with
    | .ok _ next => next.advanceAll answers
    | .error _ _ => none

/-- The window lies between the checkpoint and the child, and the cursor in the window. -/
structure Placed (childSlot : Nat) (scan : HistoryRangeScan) : Prop where
  window : scan.checkpointSlot ≤ scan.windowStart ∧ scan.windowStart < scan.windowEnd ∧ scan.windowEnd ≤ childSlot
  cursor : ∀ start, scan.nextStart = some start → scan.windowStart ≤ start ∧ start < scan.windowEnd
  batch : 1 ≤ scan.batchLimit

/-- The scan after an accepted answer. -/
def moved (scan : HistoryRangeScan) (nextStart : Nat) : ScanProgress × HistoryRangeScan :=
  if nextStart < scan.windowEnd then (.continues, { scan with nextStart := some nextStart })
  else if scan.windowStart = scan.checkpointSlot then (.exhausted, { scan with nextStart := none })
  else
    let windowStart := max (scan.windowStart - scan.batchLimit) scan.checkpointSlot
    (.continues, { scan with windowStart, windowEnd := scan.windowStart, nextStart := some windowStart })

/-- The move removes the consumed slots from those remaining. -/
theorem moved_ok (hs : Placed childSlot scan) {a next : Nat} (hc : scan.nextStart = some a) (hlt : a < next)
    (hle : next ≤ scan.windowEnd) :
    Placed childSlot (scan.moved next).2 ∧ (scan.moved next).2.remaining = scan.remaining \ Finset.Ico a next ∧
      ((scan.moved next).1 = .exhausted ↔ (scan.moved next).2.nextStart = none) := by
  obtain ⟨⟨hlow, hw, hch⟩, hst, hb⟩ := hs
  have hp := hst a hc
  unfold moved
  split
  · refine ⟨⟨⟨hlow, hw, hch⟩, ?_, hb⟩, ?_, by simp⟩
    · rintro _ ⟨⟩
      dsimp only
      omega
    · ext slot
      simp only [remaining, hc, mem_sdiff, mem_union, mem_Ico]
      omega
  · split
    · refine ⟨⟨⟨hlow, hw, hch⟩, nofun, hb⟩, ?_, by simp⟩
      ext slot
      simp only [remaining, hc, mem_sdiff, mem_union, mem_Ico, Finset.notMem_empty, false_iff]
      omega
    · refine ⟨⟨⟨le_max_right _ _, by dsimp only; omega, by dsimp only; omega⟩, ?_, hb⟩, ?_, by simp⟩
      · rintro _ ⟨⟩
        dsimp only
        omega
      · ext slot
        simp only [remaining, hc, mem_sdiff, mem_union, mem_Ico]
        omega

/-- What an advance does: it changes nothing where it fails, and otherwise consumes slots of the window from the cursor on. -/
theorem advance_spec (request : BeaconBlocksByRangeRequest) (lastSlot : Option Nat) (scan : HistoryRangeScan) :
    wp (advance request lastSlot) (fun progress scan' => scan.nextStart = some request.startSlot ∧
      request.startSlot < consumedTo request lastSlot ∧ consumedTo request lastSlot ≤ request.startSlot + request.count ∧
      request.startSlot + request.count ≤ scan.windowEnd ∧ scan.moved (consumedTo request lastSlot) = (progress, scan'))
      (fun scan' => scan' = scan) scan := by
  simp only [advance, wp_bind, wp_get, wp_failIf, wp_ite, wp_set, wp_pure]
  refine ⟨fun ha => ⟨fun hl => ?_, fun _ => trivial⟩, fun _ => trivial⟩
  simp only [not_or, not_not] at ha
  obtain ⟨hc, -, hco, hw⟩ := ha
  have hto : request.startSlot < consumedTo request lastSlot ∧ consumedTo request lastSlot ≤ request.startSlot + request.count := by
    cases lastSlot with
    | none => simp only [consumedTo]; omega
    | some slot =>
      have hs : ¬(slot < request.startSlot ∨ request.startSlot + request.count ≤ slot) := fun h => hl ⟨slot, rfl, h⟩
      simp only [consumedTo]
      omega
  have hend : request.startSlot + request.count ≤ scan.windowEnd := by omega
  refine ⟨fun hin => ⟨hc, hto.1, hto.2, hend, ?_⟩, fun hout => ⟨fun hlow => ⟨hc, hto.1, hto.2, hend, ?_⟩,
    fun hh => ⟨hc, hto.1, hto.2, hend, ?_⟩⟩⟩
  · rw [moved, if_pos hin]
  · rw [moved, if_neg hout, if_pos hlow]
  · rw [moved, if_neg hout, if_neg hh]

/-- An accepted answer consumes remaining slots, at least one. -/
structure Advanced (childSlot : Nat) (scan scan' : HistoryRangeScan) (request : BeaconBlocksByRangeRequest)
    (lastSlot : Option Nat) (progress : ScanProgress) : Prop where
  placed : Placed childSlot scan'
  subset : consumed (request, lastSlot) ⊆ scan.remaining
  nonempty : (consumed (request, lastSlot)).Nonempty
  remaining : scan'.remaining = scan.remaining \ consumed (request, lastSlot)
  bounds : consumedTo request lastSlot ≤ request.startSlot + request.count ∧ request.startSlot + request.count ≤ childSlot
  exhausted : progress = .exhausted ↔ scan'.nextStart = none

theorem advance_ok (hs : Placed childSlot scan) (h : advance request lastSlot scan = .ok progress scan') :
    Advanced childSlot scan scan' request lastSlot progress := by
  have hsp := advance_spec request lastSlot scan
  rw [wp, h] at hsp
  obtain ⟨hc, hlt, hto, hend, hm⟩ := hsp
  obtain ⟨hp, hremaining, hex⟩ := moved_ok hs hc hlt (hto.trans hend)
  rw [hm] at hp hremaining hex
  refine ⟨hp, fun slot hsl => ?_, Finset.nonempty_Ico.mpr hlt, hremaining, ⟨hto, hend.trans hs.window.2.2⟩, hex⟩
  simp only [consumed, remaining, hc, mem_union, mem_Ico] at hsl ⊢
  omega

theorem Advanced.shrinks (h : Advanced childSlot scan scan' request lastSlot progress) : scan'.remaining ⊂ scan.remaining := by
  rw [h.remaining]
  exact Finset.sdiff_ssubset h.subset h.nonempty

/-- What a run of accepted answers consumed. -/
structure Covered (childSlot : Nat) (scan scan' : HistoryRangeScan) (answers : List (BeaconBlocksByRangeRequest × Option Nat)) :
    Prop where
  placed : Placed childSlot scan'
  disjoint : (answers.map consumed).Pairwise Disjoint
  slots : ∀ slot, slot ∈ scan.remaining ↔ slot ∈ scan'.remaining ∨ ∃ answer ∈ answers, slot ∈ consumed answer
  count : answers.length + scan'.remaining.card ≤ scan.remaining.card

theorem advanceAll_covered (ans : List (BeaconBlocksByRangeRequest × Option Nat)) :
    ∀ {scan scan' : HistoryRangeScan}, Placed childSlot scan → scan.advanceAll ans = some scan' →
      Covered childSlot scan scan' ans := by
  induction ans with
  | nil =>
    rintro scan _ hsc ⟨⟩
    exact ⟨hsc, List.Pairwise.nil, by simp, by simp⟩
  | cons anr ans ih =>
    intro scan scan' hsc h
    rw [advanceAll] at h
    split at h
    · next progress next ha =>
      have hs := advance_ok hsc ha
      have hr := ih hs.placed h
      refine ⟨hr.placed, List.pairwise_cons.mpr ⟨?_, hr.disjoint⟩, fun slot => ?_, ?_⟩
      · intro later hla
        obtain ⟨o, hother, rfl⟩ := List.mem_map.mp hla
        refine Finset.disjoint_right.mpr fun slot hsl => ?_
        have hl : slot ∈ next.remaining := (hr.slots slot).mpr (.inr ⟨o, hother, hsl⟩)
        rw [hs.remaining] at hl
        exact (mem_sdiff.mp hl).2
      · have hsp : slot ∈ scan.remaining ↔ slot ∈ next.remaining ∨ slot ∈ consumed anr := by
          rw [hs.remaining, mem_sdiff]
          have := @hs.subset slot
          tauto
        rw [hsp, hr.slots, List.exists_mem_cons_iff, or_assoc]
        exact or_congr_right or_comm
      · have hle := Finset.card_lt_card hs.shrinks
        have hc := hr.count
        rw [List.length_cons]
        omega
    · nomatch h

/-- A new scan has everything from the checkpoint to the child before it. -/
theorem new_placed {mr : B256} {cs bl : Nat} (h : new mr childSlot cs bl = some scan) :
    Placed childSlot scan ∧ scan.remaining = Finset.Ico cs childSlot := by
  unfold new at h
  split at h
  · nomatch h
  · next hnew =>
    obtain rfl := Option.some.inj h
    refine ⟨⟨⟨le_max_right _ _, by dsimp only; omega, le_rfl⟩, ?_, by dsimp only; omega⟩, ?_⟩
    · rintro _ ⟨⟩
      dsimp only
      omega
    · ext slot
      simp only [remaining, mem_union, mem_Ico]
      omega

end HistoryRangeScan

open HistoryRangeScan in
/-- The answers of a run consume disjoint intervals, together the slots from the checkpoint up to the child once the scan is
exhausted. Each accepted answer shrinks what remains, a refused one changes nothing, and no slot passes the child. -/
theorem history_scan_covers_every_slot_once (missingRoot : B256) (childSlot checkpointSlot batchLimit : Nat) :
    childSlot ≤ u64Max → ∀ scan, HistoryRangeScan.new missingRoot childSlot checkpointSlot batchLimit = some scan →
      ∀ answers scan', scan.advanceAll answers = some scan' →
        (answers.map consumed).Pairwise Disjoint ∧ answers.length ≤ childSlot - checkpointSlot ∧
        (scan'.nextStart = none → ∀ slot, (∃ answer ∈ answers, slot ∈ consumed answer) ↔ checkpointSlot ≤ slot ∧ slot < childSlot) ∧
        (∀ start ∈ scan'.nextStart, start ≤ scan'.windowEnd) ∧
        ∀ request lastSlot, (∀ error next, advance request lastSlot scan' = .error error next → next = scan') ∧
          ∀ progress next, advance request lastSlot scan' = .ok progress next →
            next.remaining ⊂ scan'.remaining ∧ (progress = .exhausted ↔ next.nextStart = none) ∧
            request.startSlot + request.count ≤ u64Max ∧ consumedTo request lastSlot ≤ u64Max := by
  intro hmax scan hnew answers scan' ha
  obtain ⟨hp, hre⟩ := new_placed hnew
  have hc := advanceAll_covered answers hp ha
  refine ⟨hc.disjoint, ?_, fun hn slot => ?_, fun start hst => (hc.placed.cursor start hst).2.le, ?_⟩
  · have hco := hc.count
    rw [hre, Nat.card_Ico] at hco
    omega
  · have hsl := hc.slots slot
    rw [hre, mem_Ico] at hsl
    rw [hsl, remaining, hn]
    simp
  · intro request lastSlot
    refine ⟨fun error next h => ?_, fun progress next h => ?_⟩
    · have hsp := advance_spec request lastSlot scan'
      rwa [wp, h] at hsp
    · have hs := advance_ok hc.placed h
      exact ⟨hs.shrinks, hs.exhausted, hs.bounds.2.trans hmax, (hs.bounds.1.trans hs.bounds.2).trans hmax⟩

namespace HistoryScanWitness

def scan : HistoryRangeScan :=
  { missingRoot := 7, checkpointSlot := 2, batchLimit := 3, windowStart := 3, windowEnd := 6, nextStart := some 3 }

/-- The window's lower slot alone, the rest of it with no block, and the window below. -/
def answers : List (BeaconBlocksByRangeRequest × Option Nat) :=
  [(⟨3, 3, 1⟩, some 3), (⟨4, 2, 1⟩, none), (⟨2, 1, 1⟩, some 2)]

end HistoryScanWitness

open HistoryScanWitness HistoryRangeScan in
theorem history_scan_of_three_answers : HistoryRangeScan.new 7 6 2 3 = some scan ∧
      ∀ slot, (∃ answer ∈ answers, slot ∈ consumed answer) ↔ 2 ≤ slot ∧ slot < 6 :=
  ⟨by decide, (history_scan_covers_every_slot_once 7 6 2 3 (by decide) scan (by decide) answers
    { scan with windowStart := 2, windowEnd := 3, nextStart := none } (by decide)).2.2.1 rfl⟩

end Logex
