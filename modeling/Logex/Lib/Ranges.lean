import Logex.Lib.Search

/-!
# Sets of numbers as lists of ranges

A finite set of numbers kept as inclusive ranges in ascending order, no two of which overlap or touch. Ranges taken in the order of
their starts are absorbed one by one into such a list; the list then says how many numbers there are, and whether a range meets the
set is decided by a single candidate.
-/

namespace Logex.Lib

open List

variable {ranges : List Range}

/-- An inclusive range. -/
abbrev Range := Nat × Nat

/-- The numbers of a list of ranges. -/
def InRanges (ranges : List Range) (n : Nat) : Prop := ∃ range ∈ ranges, range.1 ≤ n ∧ n ≤ range.2

/-- Ranges in ascending order with a gap between neighbours. -/
structure Normalized (ranges : List Range) : Prop where
  valid : ∀ range ∈ ranges, range.1 ≤ range.2
  apart : ranges.Pairwise fun a b => a.2 + 1 < b.1

/-- Take one more range in: the last range is extended when the new one overlaps or touches it. -/
def absorb (ranges : List Range) (range : Range) : List Range :=
  match ranges.getLast? with
  | some last => if range.1 ≤ last.2 + 1 then ranges.dropLast ++ [(last.1, max last.2 range.2)] else ranges ++ [range]
  | none => ranges ++ [range]

theorem inRanges_append {fst rest : List Range} {n : Nat} : InRanges (fst ++ rest) n ↔ InRanges fst n ∨ InRanges rest n := by
  simp [InRanges, or_and_right, exists_or]

theorem inRanges_singleton {r : Range} {n : Nat} : InRanges [r] n ↔ r.1 ≤ n ∧ n ≤ r.2 := by simp [InRanges]

theorem normalized_append {fst : List Range} {last : Range} :
    Normalized (fst ++ [last]) ↔ Normalized fst ∧ last.1 ≤ last.2 ∧ ∀ r ∈ fst, r.2 + 1 < last.1 := by
  constructor
  · rintro ⟨hv, ha⟩
    rw [pairwise_append] at ha
    rw [forall_mem_append, forall_mem_singleton] at hv
    exact ⟨⟨hv.1, ha.1⟩, hv.2, fun r hmem => ha.2.2 r hmem last mem_cons_self⟩
  · rintro ⟨⟨hv, ha⟩, hl, hbef⟩
    refine ⟨?_, ?_⟩
    · rw [forall_mem_append, forall_mem_singleton]
      exact ⟨hv, hl⟩
    · rw [pairwise_append]
      refine ⟨ha, pairwise_singleton _ _, fun r hmem other hot => ?_⟩
      rw [mem_singleton.mp hot]
      exact hbef r hmem

/-- One range more, none of the ranges starting after it. -/
theorem absorb_spec {r : Range} (h : Normalized ranges) (hr : r.1 ≤ r.2) (hs : ∀ o ∈ ranges, o.1 ≤ r.1) :
    Normalized (absorb ranges r) ∧ (∀ n, InRanges (absorb ranges r) n ↔ InRanges ranges n ∨ r.1 ≤ n ∧ n ≤ r.2) ∧
      ∀ o ∈ absorb ranges r, o.1 ≤ r.1 := by
  rcases eq_nil_or_concat ranges with rfl | ⟨fst, last, rfl⟩
  · refine ⟨⟨forall_mem_singleton.mpr hr, pairwise_singleton _ _⟩, fun n => ?_, forall_mem_singleton.mpr le_rfl⟩
    rw [show absorb [] r = [] ++ [r] from rfl, inRanges_append, inRanges_singleton]
  · rw [concat_eq_append] at *
    obtain ⟨hf, hl, hbef⟩ := normalized_append.mp h
    rw [forall_mem_append, forall_mem_singleton] at hs
    have habs : absorb (fst ++ [last]) r =
        if r.1 ≤ last.2 + 1 then fst ++ [(last.1, max last.2 r.2)] else fst ++ [last] ++ [r] := by
      rw [absorb, getLast?_concat, dropLast_concat]
    rw [habs]
    split
    next ht =>
      refine ⟨normalized_append.mpr ⟨hf, ?_, hbef⟩, fun n => ?_, ?_⟩
      · exact le_trans hl (le_max_left _ _)
      · rw [inRanges_append, inRanges_append, inRanges_singleton, inRanges_singleton, or_assoc]
        refine or_congr Iff.rfl ?_
        have hle := hs.2
        dsimp only
        omega
      · rw [forall_mem_append, forall_mem_singleton]
        exact ⟨hs.1, hs.2⟩
    next hgap =>
      refine ⟨normalized_append.mpr ⟨h, hr, ?_⟩, fun n => ?_, ?_⟩
      · rw [forall_mem_append, forall_mem_singleton]
        refine ⟨fun o hmem => ?_, by omega⟩
        have hother := hbef o hmem
        omega
      · rw [inRanges_append, inRanges_singleton]
      · rw [forall_mem_append, forall_mem_append, forall_mem_singleton, forall_mem_singleton]
        exact ⟨⟨hs.1, hs.2⟩, le_rfl⟩

/-- Ranges taken in the order of their starts: what is absorbed is what is covered. -/
theorem foldl_absorb_spec {ranges acc : List Range} (hsrt : ranges.Pairwise fun a b => a.1 ≤ b.1)
    (hv : ∀ r ∈ ranges, r.1 ≤ r.2) (hacc : Normalized acc) (hs : ∀ o ∈ acc, ∀ r ∈ ranges, o.1 ≤ r.1) :
    Normalized (ranges.foldl absorb acc) ∧ ∀ n, InRanges (ranges.foldl absorb acc) n ↔ InRanges acc n ∨ InRanges ranges n := by
  induction ranges generalizing acc with
  | nil => exact ⟨hacc, fun n => by simp [InRanges]⟩
  | cons r ranges ih =>
    rw [pairwise_cons] at hsrt
    rw [forall_mem_cons] at hv
    obtain ⟨hnm, hcov, hbef⟩ := absorb_spec hacc hv.1 fun o hmem => hs o hmem r mem_cons_self
    obtain ⟨hres, hall⟩ := ih hsrt.2 hv.2 hnm fun o hmem next hn =>
      le_trans (hbef o hmem) (hsrt.1 next hn)
    refine ⟨hres, fun n => ?_⟩
    rw [foldl_cons, hall, hcov, or_assoc, ← singleton_append, inRanges_append, inRanges_singleton]

/-- How many numbers there are. -/
def rangeTotal (ranges : List Range) : Nat := (ranges.map fun range => range.2 - range.1 + 1).sum

theorem Normalized.rangeTotal_eq_card (h : Normalized ranges) {ns : Finset Nat}
    (hnum : ∀ n, n ∈ ns ↔ InRanges ranges n) : rangeTotal ranges = ns.card := by
  induction ranges using List.reverseRecOn generalizing ns with
  | nil =>
    have hem : ns = ∅ := by
      refine Finset.eq_empty_of_forall_notMem fun n hn => ?_
      obtain ⟨r, hmem, -⟩ := (hnum n).mp hn
      nomatch hmem
    rw [hem]
    rfl
  | append_singleton first last ih =>
    obtain ⟨hf, hl, hbef⟩ := normalized_append.mp h
    have hcov : ∀ n, n ∈ ns \ Finset.Icc last.1 last.2 ↔ InRanges first n := by
      intro n
      rw [Finset.mem_sdiff, Finset.mem_Icc, hnum, inRanges_append, inRanges_singleton]
      constructor
      · rintro ⟨hf | hl, hnot⟩
        · exact hf
        · exact absurd hl hnot
      · intro hn
        obtain ⟨r, hmem, hr⟩ := hn
        have hlt := hbef r hmem
        exact ⟨Or.inl ⟨r, hmem, hr⟩, by omega⟩
    have hsub : Finset.Icc last.1 last.2 ⊆ ns := by
      intro n hn
      rw [hnum, inRanges_append, inRanges_singleton]
      exact Or.inr (Finset.mem_Icc.mp hn)
    have hc := Finset.card_sdiff_add_card_eq_card hsub
    rw [← ih hf hcov, Nat.card_Icc] at hc
    rw [rangeTotal, map_append, sum_append, map_singleton, sum_singleton]
    rw [rangeTotal] at hc
    omega

/-- Whether a range meets the set is decided by the first range that does not end before it. -/
theorem Normalized.meets_iff (h : Normalized ranges) (sta stop : Nat) : (∃ r ∈ ranges, r.1 ≤ stop ∧ sta ≤ r.2) ↔
      ∃ r ∈ ranges[partitionIndex (fun r => decide (r.2 < sta)) ranges]?, r.1 ≤ stop := by
  have hp : ranges.Pairwise fun a b => decide (b.2 < sta) = true → decide (a.2 < sta) = true := by
    refine List.Pairwise.imp_of_mem ?_ h.apart
    intro a b ha hb hlt hbef
    have hv := h.valid b hb
    simp only [decide_eq_true_eq] at hbef ⊢
    omega
  have hs := @takeWhile_append_dropWhile _ (fun r : Range => decide (r.2 < sta)) ranges
  have hbef : ∀ r ∈ ranges.takeWhile fun r => decide (r.2 < sta), r.2 < sta := fun r hmem =>
    of_decide_eq_true (all_eq_true.mp all_takeWhile r hmem)
  have hh : ∀ r ∈ (ranges.dropWhile fun r => decide (r.2 < sta)).head?, sta ≤ r.2 := by
    intro r hmem
    have hnot := head?_dropWhile_not (fun r : Range => decide (r.2 < sta)) ranges
    rw [Option.mem_def.mp hmem] at hnot
    simpa using hnot
  rw [partitionIndex_eq hp]
  generalize ranges.takeWhile (fun r => decide (r.2 < sta)) = bef at *
  generalize ranges.dropWhile (fun r => decide (r.2 < sta)) = after at *
  rw [← hs, getElem?_append_right le_rfl, Nat.sub_self, ← head?_eq_getElem?]
  have hap := (pairwise_append.mp (hs ▸ h.apart)).2.1
  constructor
  · rintro ⟨r, hmem, hst, hsta⟩
    rcases mem_append.mp hmem with hea | hl
    · have hend := hbef r hea
      omega
    · cases after with
      | nil => nomatch hl
      | cons fst rest =>
        refine ⟨fst, rfl, ?_⟩
        rcases mem_cons.mp hl with rfl | hl
        · exact hst
        · have hgap := (pairwise_cons.mp hap).1 r hl
          have hv := h.valid fst (hs ▸ mem_append_right bef mem_cons_self)
          omega
  · rintro ⟨r, hmem, hst⟩
    refine ⟨r, mem_append_right bef ?_, hst, hh r hmem⟩
    exact mem_of_mem_head? hmem

end Logex.Lib
