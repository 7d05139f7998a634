import Logex.Lemmas.PushdownForms

/-!
# Predicate pushdown is exact

A filter folded from pushed predicates matches the rows of which every predicate is `TRUE`, and no branch budget loses one of them.
-/

namespace Logex

open Lib

namespace PushdownAux

theorem matches_new (row : LogRow) : matchesNativeFilter row {} = true := by
  rw [matchesNativeFilter_iff]
  simp [InBounds, DataWithin, TopicsMatch, topicMatchesConstraint]

variable {cs : List NativeConstraint} {exp : List DataFusionExpr}

theorem foldlM_planFilter_exact (h : List.Forall₂ Pushed exp cs) (hex : ∀ expr ∈ exp, supportsExactPushdown expr = true) :
    ∀ pla : NativeLogFilter × List (List DataFusionExpr),
      exp.foldlM planFilter pla = .ok (cs.foldl NativeConstraint.apply pla.1, pla.2) := by
  induction h with
  | nil => exact fun pla => rfl
  | cons hh _ ih =>
    intro pla
    rw [List.forall_mem_cons] at hex
    rw [List.foldlM_cons, planFilter, if_pos hex.1, hh.2]
    exact ih hex.2 _

/-- Exact predicates build one filter, the fold of the constraints they denote. -/
theorem buildNativeScanFilters_exact (h : List.Forall₂ Pushed exp cs) (hex : ∀ expr ∈ exp, supportsExactPushdown expr = true) :
    buildNativeScanFilters exp = .ok [cs.foldl NativeConstraint.apply {}] := by
  rw [buildNativeScanFilters, foldlM_planFilter_exact h hex]
  rfl

end PushdownAux

open PushdownAux

/-- Pushdown is exact. Exactly supported predicates build one filter, which matches a row if and only if each of them is `TRUE` of
it; so does the filter a parsed conjunction is accepted into; and with hints there are at most 32 branches, one of which matches
every row of which all predicates are `TRUE`. -/
theorem predicate_pushdown_is_exact : (∀ exprs : List DataFusionExpr, (∀ expr ∈ exprs, supportsExactPushdown expr = true) →
      ∃ filter, buildNativeScanFilters exprs = .ok [filter] ∧
        ∀ row : LogRow, row.Fits → (matchesNativeFilter row filter = true ↔ ∀ expr ∈ exprs, expr.eval row = .boolean true)) ∧
    (∀ (filter changed : NativeLogFilter) (expr : SqlAstExpr), applySqlAstFilter filter expr = (changed, true) →
      ∀ row : LogRow, row.Fits →
        (matchesNativeFilter row changed = true ↔ matchesNativeFilter row filter = true ∧ expr.eval row = .boolean true)) ∧
    (∀ exprs : List DataFusionExpr,
      (∀ expr ∈ exprs, supportsExactPushdown expr = true ∨ (boundedDisjunctionArms expr).isSome = true) →
      ∃ filters, buildNativeScanFilters exprs = .ok filters ∧ filters.length ≤ 32 ∧
        ∀ row : LogRow, row.Fits → (∀ expr ∈ exprs, expr.eval row = .boolean true) →
          ∃ filter ∈ filters, matchesNativeFilter row filter = true) := by
  refine ⟨fun exprs hex => ?_, fun filter changed expr hacc row hf => ?_, fun exprs hsup => ?_⟩
  · obtain ⟨cs, hpus⟩ := exists_pushed hex
    refine ⟨_, buildNativeScanFilters_exact hpus hex, fun row hf => ?_⟩
    rw [NativeConstraint.matches_foldl hf (Pushed.all_valid hpus), Pushed.all_holds hpus]
    exact and_iff_right (matches_new row)
  · obtain ⟨cs, hpar, rfl⟩ := applySqlAstFilter_spec hacc
    rw [NativeConstraint.matches_foldl hf hpar.valid, hpar.holds]
  · obtain ⟨cs, hin, hp, hv, hh, hhi⟩ := foldlM_planFilter hsup ({}, [])
    obtain ⟨filters, hexp, hleh, hk⟩ := foldlM_expandBranches hhi [cs.foldl NativeConstraint.apply {}]
      (by simp [maxSqlFilterBranches])
    refine ⟨filters, ?_, hleh, fun row hf ht => hk row hf ht ⟨_, List.mem_singleton_self _, ?_⟩⟩
    · rw [buildNativeScanFilters, hp]
      exact hexp
    · exact (NativeConstraint.matches_foldl hf hv).mpr ⟨matches_new row, hh row ht⟩

namespace PushdownWitness

/-- `block_number >= 100` with `address = '0x00…01'`. -/
def exprs : List DataFusionExpr :=
  [.binaryExpr (.column ⟨some "logs", "block_number"⟩) .gtEq (.literal (.uint64 (some 100))),
    .binaryExpr (.column ⟨some "logs", "address"⟩) .eq (.literal (.utf8 (some "0x0000000000000000000000000000000000000001")))]

def row : LogRow where
  blockNumber := 150
  blockHash := 7
  timestamp := 1000
  txHash := 8
  txIndex := 0
  logIndex := 0
  address := 1
  topic0 := none
  topic1 := none
  topic2 := none
  topic3 := none
  data := []
  dataLen := 0
  source := .receipt

theorem supported : ∀ expr ∈ exprs, supportsExactPushdown expr = true := by
  decide +kernel

theorem row_fits : row.Fits := ⟨by decide, by decide, by decide⟩

theorem true_of_row : ∀ expr ∈ exprs, expr.eval row = .boolean true := by
  decide +kernel

end PushdownWitness

/-- A row at block 150 of the requested contract matches the filter of both predicates. -/
theorem predicate_pushdown_range_and_address : ∃ filter, buildNativeScanFilters PushdownWitness.exprs = .ok [filter] ∧
    matchesNativeFilter PushdownWitness.row filter = true := by
  obtain ⟨filter, hb, hmat⟩ := predicate_pushdown_is_exact.1 PushdownWitness.exprs PushdownWitness.supported
  exact ⟨filter, hb, (hmat PushdownWitness.row PushdownWitness.row_fits).mpr PushdownWitness.true_of_row⟩

end Logex
