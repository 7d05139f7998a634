import Logex.Lemmas.Pushdown

/-!
# Pushed predicates as written

Each accepted predicate, planned or parsed, applies the native constraint it denotes. For hints the arms of a disjunction are such
predicates, one of which is `TRUE` wherever the disjunction is.
-/

namespace Logex

open Lib List LogRow
open Option (bind_eq_bind bind_eq_some_iff isSome_iff_exists)

variable {constraints : List NativeConstraint} {exs : List DataFusionExpr} {expr : DataFusionExpr}
  {list : List DataFusionExpr} {column : SqlColumn} {left right : DataFusionExpr} {arms : List DataFusionExpr}
  {filter chg : NativeLogFilter} {neg : Bool} {n : Nat}

/-! ## Planned predicates -/

/-- A planned predicate applies a constraint and denotes it. -/
def Pushed (expr : DataFusionExpr) (c : NativeConstraint) : Prop :=
  Denotes (fun row => expr.eval row) c ∧ ∀ filter, applyPushdownExpr filter expr = .ok (c.apply filter)

theorem normalizeBinary_eval {column : String} {literal : ScalarValue} {rev : Bool}
    (h : normalizeBinary left right = some (column, literal, rev)) (op : Operator) (row : LogRow) :
    (DataFusionExpr.binaryExpr left op right).eval row = comparison op (row.named column) literal.value rev := by
  unfold normalizeBinary at h
  split at h
  · simp only [Option.some.injEq, Prod.mk.injEq] at h
    obtain ⟨rfl, rfl, rfl⟩ := h
    simp [DataFusionExpr.eval, comparison]
  · simp only [Option.some.injEq, Prod.mk.injEq] at h
    obtain ⟨rfl, rfl, rfl⟩ := h
    simp [DataFusionExpr.eval, comparison]
  · cases h

theorem evalList_eq (row : LogRow) (list : List DataFusionExpr) : DataFusionExpr.evalList row list = list.map (·.eval row) := by
  induction list with
  | nil => rfl
  | cons expr rest ih => rw [DataFusionExpr.evalList, ih, map_cons]

/-- A comparison that is not a disjunction. -/
theorem pushed_comparison {op : Operator} (hop : op ≠ .or) (h : supportsComparison left op right = true) :
    ∃ c, Pushed (.binaryExpr left op right) c := by
  unfold supportsComparison at h
  cases hnm : normalizeBinary left right with
  | none =>
    rw [hnm] at h
    nomatch h
  | some ps =>
    obtain ⟨column, literal, rev⟩ := ps
    rw [hnm] at h
    dsimp only at h
    have hev : ∀ row, (DataFusionExpr.binaryExpr left op right).eval row = comparison op (row.named column) literal.value rev :=
      normalizeBinary_eval hnm op
    have ha : ∀ filter, applyPushdownExpr filter (.binaryExpr left op right) = applyBinaryPushdown filter left op right :=
      fun _ => rfl
    simp only [Pushed, hev, ha, applyBinaryPushdown, if_neg hop, hnm]
    split at h <;> simp only [Bool.and_eq_true, isSome_iff_exists, beq_iff_eq, Bool.false_eq_true] at h
    · rename_i hcol
      obtain ⟨hnum, value, hv⟩ := h
      simp only [named_eq hcol, numericScalar_value hv, hv]
      exact ⟨_, denotes_block hnum, fun _ => rfl⟩
    · rename_i hcol
      obtain ⟨hnum, value, hv⟩ := h
      simp only [named_eq hcol, numericScalar_value hv, hv]
      exact ⟨_, denotes_timestamp hnum, fun _ => rfl⟩
    · rename_i hcol
      obtain ⟨rfl, value, hv⟩ := h
      simp only [named_eq hcol, numericScalar_value hv, hv, if_true]
      exact ⟨_, denotes_dataLen, fun _ => rfl⟩
    · rename_i hcol
      obtain ⟨hd, value, hv⟩ := h
      simp only [named_eq hcol, parseBytesScalar_value hv, hv]
      exact ⟨_, denotes_data hd, fun _ => rfl⟩
    · rename_i hcol
      obtain ⟨rfl, value, hv⟩ := h
      simp only [named_eq hcol, parseFixedScalar_value hv, hv, if_true]
      exact ⟨_, denotes_blockHash, fun _ => rfl⟩
    · rename_i hcol
      obtain ⟨rfl, value, hv⟩ := h
      simp only [named_eq hcol, parseFixedScalar_value hv, hv, if_true]
      exact ⟨_, denotes_address, fun _ => rfl⟩
    · rename_i index hcol
      obtain ⟨rfl, value, hv⟩ := h
      simp only [named_eq hcol, parseFixedScalar_value hv, hv, if_true]
      exact ⟨_, denotes_topic, fun _ => rfl⟩

/-- A list of literals that all parse, with what they evaluate to. -/
theorem parseItems_eq {mis inv : String}
    (h : ∀ item ∈ list, ((scalarLiteral item).bind (parseScalar (parseSqlFixedBytes n))).isSome = true) :
    ∃ vs : List (FixedBytes n), parseItems (parseScalar (parseSqlFixedBytes n)) mis inv list = .ok vs ∧
      ∀ row, list.map (DataFusionExpr.eval row) = vs.map fun x => .text (hexText (FixedBytes.toBytes x)) := by
  induction list with
  | nil => exact ⟨[], rfl, fun _ => rfl⟩
  | cons item rest ih =>
    rw [forall_mem_cons] at h
    obtain ⟨vs, hv, hr⟩ := ih h.2
    obtain ⟨x, hx⟩ := isSome_iff_exists.mp h.1
    obtain ⟨literal, hlit, hx⟩ := bind_eq_some_iff.mp hx
    refine ⟨x :: vs, ?_, fun row => ?_⟩
    · unfold parseItems at hv ⊢
      rw [mapM_cons, hlit, hv]
      simp [okOr, hx, bind, Except.bind, pure, Except.pure]
    · cases item with
      | literal value =>
        cases hlit
        rw [map_cons, map_cons, hr, DataFusionExpr.eval, parseFixedScalar_value hx]
      | _ => cases hlit

/-- A membership predicate of an address or topic column. -/
theorem pushed_members (h : supportsInListPushdown (.column column) list false = true) :
    ∃ c, Denotes (fun row => (row.named column.name).isIn (list.map (DataFusionExpr.eval row))) c ∧
      ∀ filter, applyInListPushdown filter (.column column) list false = .ok (c.apply filter) := by
  simp only [supportsInListPushdown] at h
  split at h
  · rename_i hcol
    simp only [all_eq_true] at h
    obtain ⟨vs, hv, hev⟩ := @parseItems_eq list 20 "address IN requires string literals" "invalid address literal" h
    refine ⟨.addresses vs, ?_, fun filter => ?_⟩
    · simp only [named_eq hcol, hev]
      exact denotes_addresses
    · simp only [applyInListPushdown, Bool.false_eq_true, if_false, hcol, parseAddressScalar]
      change (parseItems (parseScalar (parseSqlFixedBytes 20)) _ _ list >>= _) = _
      rw [hv]
      rfl
  · rename_i index hcol
    simp only [all_eq_true] at h
    obtain ⟨vs, hv, hev⟩ := @parseItems_eq list 32 s!"{column.name} IN requires string literals" s!"invalid {column.name} literal" h
    refine ⟨.topic index (.anyOf vs), ?_, fun filter => ?_⟩
    · simp only [named_eq hcol, hev]
      exact denotes_topics
    · simp only [applyInListPushdown, Bool.false_eq_true, if_false, hcol, parseB256Scalar]
      change (parseItems (parseScalar (parseSqlFixedBytes 32)) _ _ list >>= _) = _
      rw [hv]
      rfl
  · nomatch h

theorem supportsInList_column
    (h : supportsInListPushdown expr list neg = true) : neg = false ∧ ∃ column, expr = .column column := by
  unfold supportsInListPushdown at h
  split at h
  · exact ⟨rfl, _, rfl⟩
  · nomatch h

theorem pushed_inList (h : supportsInListPushdown expr list neg = true) : ∃ c, Pushed (.inList expr list neg) c := by
  obtain ⟨rfl, column, rfl⟩ := supportsInList_column h
  obtain ⟨c, hden, ha⟩ := pushed_members h
  refine ⟨c, ⟨hden.valid, fun row => ?_⟩, ha⟩
  rw [DataFusionExpr.eval, evalList_eq, DataFusionExpr.eval]
  exact hden.holds row

theorem pushed_between {expr low high : DataFusionExpr} (h : supportsBetweenPushdown expr neg low high = true) :
    ∃ c, Pushed (.between expr neg low high) c := by
  cases expr with
  | column column =>
    simp only [supportsBetweenPushdown, Bool.and_eq_true, Bool.or_eq_true, beq_iff_eq, Bool.not_eq_true', isSome_iff_exists] at h
    obtain ⟨⟨⟨hcol, rfl⟩, lowValue, hlow⟩, higV, hh⟩ := h
    have hlit : ∀ {e : DataFusionExpr} {v : Nat}, (scalarLiteral e).bind numericScalar = some v →
        ∀ row, e.eval row = .number v := by
      intro e v he row
      obtain ⟨literal, hl, hv⟩ := bind_eq_some_iff.mp he
      cases e with
      | literal value =>
        cases hl
        rw [DataFusionExpr.eval, numericScalar_value hv]
      | _ => nomatch hl
    simp only [Pushed, DataFusionExpr.eval, SqlValue.negateIf, Bool.false_eq_true, if_false, hlit hlow, hlit hh,
      applyPushdownExpr, applyBetweenPushdown, hlow, hh]
    rcases hcol with hcol | hcol
    · simp only [named_eq hcol, hcol]
      exact ⟨_, denotes_blockRange, fun _ => rfl⟩
    · simp only [named_eq hcol, hcol]
      exact ⟨_, denotes_timestampRange, fun _ => rfl⟩
  | _ => nomatch h

/-! ### Disjunctions over one column -/

/-- Some items of an `IN` list on a column, and the predicate they stand for. -/
structure Members (column : SqlColumn) (items : List DataFusionExpr) (expr : DataFusionExpr) : Prop where
  supported : supportsInListPushdown (.column column) items false = true
  eval : ∀ row, expr.eval row = .boolean true ↔ (row.named column.name).isIn (items.map (DataFusionExpr.eval row)) = .boolean true

theorem supportsInList_append {a b : List DataFusionExpr}
    (ha : supportsInListPushdown (.column column) a false = true) (hb : supportsInListPushdown (.column column) b false = true) :
    supportsInListPushdown (.column column) (a ++ b) false = true := by
  simp only [supportsInListPushdown] at ha hb ⊢
  split
  · rename_i hcol
    rw [hcol] at ha hb
    rw [all_append, Bool.and_eq_true]
    exact ⟨ha, hb⟩
  · rename_i hcol
    rw [hcol] at ha hb
    rw [all_append, Bool.and_eq_true]
    exact ⟨ha, hb⟩
  · rename_i h1 h2
    split at ha
    · rename_i hcol
      exact absurd hcol h1
    · rename_i index hcol
      exact absurd hcol (h2 index)
    · exact ha

theorem Members.or {a b : List DataFusionExpr} (ha : Members column a left)
    (hb : Members column b right) : Members column (a ++ b) (.binaryExpr left .or right) := by
  refine ⟨supportsInList_append ha.supported hb.supported, fun row => ?_⟩
  rw [DataFusionExpr.eval, SqlValue.binary, SqlValue.or_eq_true, ha.eval, hb.eval]
  simp only [SqlValue.isIn_eq_true, map_append, mem_append, or_and_right, exists_or]

/-- An equality with a canonical literal is membership in a list of one. -/
theorem Members.equality {right : DataFusionExpr} (hmem : isMembershipColumn column = true)
    (h : supportsComparison (.column column) .eq right = true) : Members column [right] (.binaryExpr (.column column) .eq right) := by
  refine ⟨?_, fun row => ?_⟩
  · unfold supportsComparison at h
    cases right with
    | literal value =>
      simp only [normalizeBinary] at h
      unfold isMembershipColumn at hmem
      simp only [supportsInListPushdown, all_cons, all_nil, Bool.and_true, scalarLiteral, Option.bind_some]
      split at hmem
      · rename_i hcol
        rw [hcol] at h
        simpa using h
      · rename_i index hcol
        rw [hcol] at h
        simpa using h
      · nomatch hmem
    | _ => nomatch h
  · rw [DataFusionExpr.eval, SqlValue.isIn_eq_true, DataFusionExpr.eval]
    simp

theorem Members.inList
    (h : supportsInListPushdown (.column column) list false = true) : Members column list (.inList (.column column) list false) := by
  refine ⟨h, fun row => ?_⟩
  rw [DataFusionExpr.eval, evalList_eq, DataFusionExpr.eval]
  rfl

variable {result : Option SqlColumn × List DataFusionExpr}

theorem collectArm_eq_some {next : SqlColumn} {literals values : List DataFusionExpr} {column : Option SqlColumn}
    (h : collectArm next literals column values = some result) :
    isMembershipColumn next = true ∧ (∀ current ∈ column, current = next) ∧ result = (some next, values ++ literals) := by
  unfold collectArm at h
  split at h
  · nomatch h
  · rename_i hs
    rw [not_or] at hs
    refine ⟨by simpa using hs.1, ?_, (Option.some.inj h).symm⟩
    rintro current rfl
    simpa using hs.2

/-- The traversal collects the members of one column. -/
theorem collectDisjunction_spec {column : Option SqlColumn} {values : List DataFusionExpr}
    (h : collectDisjunction expr column values = some result) :
    ∃ found items, (∀ current ∈ column, current = found) ∧ result = (some found, values ++ items) ∧ Members found items expr := by
  fun_induction collectDisjunction expr column values generalizing result with
  | case1 left right column values ihleft ihright =>
    simp only [bind_eq_bind, bind_eq_some_iff] at h
    obtain ⟨⟨column₁, values₁⟩, hl, hr⟩ := h
    obtain ⟨found, items, hs, hres, hmb⟩ := ihleft hl
    obtain ⟨rfl, rfl⟩ := hres
    obtain ⟨found', items', hs', rfl, hmb'⟩ := ihright _ _ hr
    obtain rfl := hs' found rfl
    exact ⟨found, items ++ items', hs, by rw [List.append_assoc], hmb.or hmb'⟩
  | case2 right column values next hsup =>
    rw [hsup] at h
    obtain ⟨hmem, hs, rfl⟩ := collectArm_eq_some h
    exact ⟨next, [right], hs, rfl, .equality hmem hsup⟩
  | case3 left right column values hnot | case5 expr list neg column values hnot =>
    split at h
    · rename_i hsup
      exact absurd rfl (hnot _ hsup)
    · nomatch h
  | case4 list neg column values next hsup =>
    rw [hsup] at h
    obtain ⟨rfl, -⟩ := supportsInList_column hsup
    obtain ⟨hmem, hs, rfl⟩ := collectArm_eq_some h
    exact ⟨next, list, hs, rfl, .inList hsup⟩
  | case6 => nomatch h

theorem pushed_disjunction (h : (disjunctionAsInList left .or right).isSome = true) :
    ∃ c, Pushed (.binaryExpr left .or right) c := by
  obtain ⟨⟨column, list⟩, hl⟩ := isSome_iff_exists.mp h
  have hcol := hl
  simp only [disjunctionAsInList, ne_eq, not_true, if_false, bind_eq_bind, bind_eq_some_iff] at hcol
  obtain ⟨⟨column₁, list₁⟩, hle, ⟨column₂, list₂⟩, hr, found, hf, hres⟩ := hcol
  obtain ⟨fl, items, -, hreL, hmb⟩ := collectDisjunction_spec hle
  obtain ⟨rfl, rfl⟩ := hreL
  obtain ⟨fr, items', hs, hreR, hmb'⟩ := collectDisjunction_spec hr
  obtain ⟨rfl, rfl⟩ := hreR
  obtain rfl := hs fl rfl
  cases hf
  obtain ⟨rfl, rfl⟩ := hres
  have hor := hmb.or hmb'
  obtain ⟨c, hden, ha⟩ := pushed_members hor.supported
  refine ⟨c, ⟨hden.valid, fun row => ?_⟩, fun filter => ?_⟩
  · rw [hor.eval]
    exact hden.holds row
  · rw [applyPushdownExpr, applyBinaryPushdown, if_pos rfl, hl]
    exact ha filter

/-- Every exactly supported predicate applies the constraint it denotes. -/
theorem pushed_of_supportsExactPushdown (h : supportsExactPushdown expr = true) : ∃ c, Pushed expr c := by
  cases expr with
  | binaryExpr left op right =>
    simp only [supportsExactPushdown, supportsBinaryPushdown] at h
    by_cases hop : op = .or
    · subst hop
      exact pushed_disjunction h
    · rw [if_neg hop] at h
      exact pushed_comparison hop h
  | between expr neg low high => exact pushed_between h
  | inList expr list neg => exact pushed_inList h
  | _ => nomatch h

/-- Predicates with the constraints they apply, in order. -/
theorem exists_pushed (h : ∀ expr ∈ exs, supportsExactPushdown expr = true) :
    ∃ constraints, List.Forall₂ Pushed exs constraints := by
  induction exs with
  | nil => exact ⟨[], .nil⟩
  | cons expr rest ih =>
    rw [forall_mem_cons] at h
    obtain ⟨c, hc⟩ := pushed_of_supportsExactPushdown h.1
    obtain ⟨constraints, hr⟩ := ih h.2
    exact ⟨c :: constraints, .cons hc hr⟩

section

variable (h : List.Forall₂ Pushed exs constraints)

include h

theorem Pushed.all_holds (row : LogRow) :
    (∀ expr ∈ exs, expr.eval row = .boolean true) ↔ ∀ c ∈ constraints, c.holds row = true := by
  induction h with
  | nil => simp
  | cons hh _ ih => rw [forall_mem_cons, forall_mem_cons, ih, hh.1.holds row]

theorem Pushed.any_holds {row : LogRow} (hany : ∃ expr ∈ exs, expr.eval row = .boolean true) :
    ∃ c ∈ constraints, c.holds row = true := by
  induction h with
  | nil => simp at hany
  | cons hh _ ih =>
    rw [exists_mem_cons_iff] at hany ⊢
    exact hany.imp (hh.1.holds row).mp ih

theorem Pushed.all_valid : ∀ c ∈ constraints, c.Valid := by
  induction h with
  | nil => simp
  | cons hh _ ih => exact forall_mem_cons.mpr ⟨hh.1.valid, ih⟩

end

/-! ## Hints -/

/-- The arms of a hint: exact predicates, one of which is `TRUE` wherever the hinted predicate is. -/
structure Hint (expr : DataFusionExpr) (arms : List DataFusionExpr) : Prop where
  supported : ∀ arm ∈ arms, supportsExactPushdown arm = true
  covers : ∀ row, expr.eval row = .boolean true → ∃ arm ∈ arms, arm.eval row = .boolean true

theorem supportsExact_of_armColumn (h : armColumn expr = some column) : supportsExactPushdown expr = true := by
  unfold armColumn at h
  split at h
  · split at h
    · rename_i hsup
      simpa [supportsExactPushdown, supportsBinaryPushdown] using hsup
    · nomatch h
  · split at h
    · rename_i hsup
      exact hsup
    · nomatch h
  · nomatch h

/-- The loop keeps an arm for every pending expression that holds. -/
theorem collectArms_spec {pen arms res : List DataFusionExpr} {fst : Option SqlColumn} (h : collectArms pen arms fst = some res) :
    ∃ add, res = arms ++ add ∧ (∀ arm ∈ add, supportsExactPushdown arm = true) ∧
      ∀ row, (∃ expr ∈ pen, expr.eval row = .boolean true) → ∃ arm ∈ add, arm.eval row = .boolean true := by
  fun_induction collectArms pen arms fst with
  | case1 arms =>
    cases h
    exact ⟨[], (append_nil _).symm, by simp, by simp⟩
  | case2 | case4 | case5 => nomatch h
  | case3 arms fst left right rest hro ih =>
    obtain ⟨add, hres, hsup, hcov⟩ := ih h
    refine ⟨add, hres, hsup, fun row hany => hcov row ?_⟩
    rw [exists_mem_cons_iff] at hany
    rw [exists_mem_cons_iff, exists_mem_cons_iff]
    rcases hany with hor | hr
    · rw [DataFusionExpr.eval, SqlValue.binary, SqlValue.or_eq_true] at hor
      exact hor.imp id .inl
    · exact .inr (.inr hr)
  | case6 arms fst next rest hnot column hcol hs ih =>
    obtain ⟨add, hres, hsup, hcov⟩ := ih h
    refine ⟨next :: add, by rw [hres, List.append_assoc]; rfl, ?_, fun row hany => ?_⟩
    · exact forall_mem_cons.mpr ⟨supportsExact_of_armColumn hcol, hsup⟩
    · rw [exists_mem_cons_iff] at hany ⊢
      exact hany.imp id (hcov row)

theorem hint_of_boundedDisjunctionArms (h : boundedDisjunctionArms expr = some arms) : Hint expr arms := by
  unfold boundedDisjunctionArms at h
  split at h
  · obtain ⟨added, hres, hsup, hcov⟩ := collectArms_spec h
    obtain rfl : arms = added := hres
    exact ⟨hsup, fun row ht => hcov row ⟨_, mem_singleton_self _, ht⟩⟩
  · nomatch h

/-! ### Building the filters -/

/-- What a scan's predicates are planned as. -/
theorem foldlM_planFilter (h : ∀ expr ∈ exs, supportsExactPushdown expr = true ∨ (boundedDisjunctionArms expr).isSome = true) :
    ∀ pla : NativeLogFilter × List (List DataFusionExpr), ∃ (constraints : List NativeConstraint) (hin : List (List DataFusionExpr)),
      exs.foldlM planFilter pla = .ok (constraints.foldl NativeConstraint.apply pla.1, pla.2 ++ hin) ∧
      (∀ c ∈ constraints, c.Valid) ∧
      (∀ row, (∀ expr ∈ exs, expr.eval row = .boolean true) → ∀ c ∈ constraints, c.holds row = true) ∧
      ∀ arms ∈ hin, ∃ expr ∈ exs, Hint expr arms := by
  induction exs with
  | nil => exact fun pla => ⟨[], [], by rw [append_nil]; rfl, by simp, by simp, by simp⟩
  | cons expr rest ih =>
    intro pla
    rw [forall_mem_cons] at h
    by_cases hex : supportsExactPushdown expr = true
    · obtain ⟨c, hden, hap⟩ := pushed_of_supportsExactPushdown hex
      obtain ⟨constraints, hin, hp, hv, hh, hhi⟩ := ih h.2 (c.apply pla.1, pla.2)
      refine ⟨c :: constraints, hin, ?_, forall_mem_cons.mpr ⟨hden.valid, hv⟩, fun row ht => ?_, fun arms hmem => ?_⟩
      · rw [foldlM_cons, planFilter, if_pos hex, hap]
        exact hp
      · rw [forall_mem_cons] at ht ⊢
        exact ⟨(hden.holds row).mp ht.1, hh row ht.2⟩
      · obtain ⟨e, he, hint⟩ := hhi arms hmem
        exact ⟨e, mem_cons_of_mem _ he, hint⟩
    · obtain ⟨arms, ha⟩ := isSome_iff_exists.mp (h.1.resolve_left hex)
      obtain ⟨constraints, hin, hp, hv, hh, hhi⟩ := ih h.2 (pla.1, pla.2 ++ [arms])
      refine ⟨constraints, arms :: hin, ?_, hv, fun row ht => hh row (forall_mem_cons.mp ht).2, ?_⟩
      · rw [foldlM_cons, planFilter, if_neg hex, ha]
        change rest.foldlM planFilter (pla.1, pla.2 ++ [arms]) = _
        rw [hp, List.append_assoc]
        rfl
      · rintro arms' hmem
        rcases mem_cons.mp hmem with rfl | hmem
        · exact ⟨expr, mem_cons_self, hint_of_boundedDisjunctionArms ha⟩
        · obtain ⟨e, he, hint⟩ := hhi arms' hmem
          exact ⟨e, mem_cons_of_mem _ he, hint⟩

theorem mapM_applyPushdownExpr (h : List.Forall₂ Pushed arms constraints) (filter : NativeLogFilter) :
    arms.mapM (applyPushdownExpr filter) = .ok (constraints.map fun c => c.apply filter) := by
  induction h with
  | nil => rfl
  | cons hh _ ih =>
    rw [mapM_cons, hh.2, ih]
    rfl

theorem mapM_branches (h : List.Forall₂ Pushed arms constraints) (sel : List NativeLogFilter) :
    (sel.mapM fun filter => arms.mapM (applyPushdownExpr filter)) =
      .ok (sel.map fun filter => constraints.map fun c => c.apply filter) := by
  induction sel with
  | nil => rfl
  | cons filter rest ih =>
    rw [mapM_cons, mapM_applyPushdownExpr h, ih]
    rfl

/-- A hint keeps the budget and a branch for every row that meets it. -/
theorem expandBranches_spec {sel : List NativeLogFilter} (hint : Hint expr arms) (hleh : sel.length ≤ maxSqlFilterBranches) :
    ∃ exp, expandBranches sel arms = .ok exp ∧ exp.length ≤ maxSqlFilterBranches ∧
      ∀ row : LogRow, row.Fits → expr.eval row = .boolean true → (∃ filter ∈ sel, matchesNativeFilter row filter = true) →
        ∃ filter ∈ exp, matchesNativeFilter row filter = true := by
  unfold expandBranches
  split
  · exact ⟨sel, rfl, hleh, fun _ _ _ h => h⟩
  · rename_i hr
    obtain ⟨constraints, hpus⟩ := exists_pushed hint.supported
    rw [mapM_branches hpus]
    refine ⟨_, rfl, ?_, ?_⟩
    · have hlen := hpus.length_eq
      rw [List.length_flatten, map_map]
      simp only [Function.comp_def, length_map, map_const', sum_replicate_nat, ← hlen]
      exact not_lt.mp hr
    · rintro row hf ht ⟨filter, hmem, hmat⟩
      obtain ⟨c, hc, hh⟩ := Pushed.any_holds hpus (hint.covers row ht)
      refine ⟨c.apply filter, mem_flatten.mpr ⟨_, mem_map_of_mem hmem, mem_map_of_mem hc⟩, ?_⟩
      exact (NativeConstraint.matches_apply hf (Pushed.all_valid hpus c hc)).mpr ⟨hmat, hh⟩

theorem foldlM_expandBranches {hin : List (List DataFusionExpr)} (h : ∀ arms ∈ hin, ∃ expr ∈ exs, Hint expr arms) :
    ∀ sel : List NativeLogFilter, sel.length ≤ maxSqlFilterBranches →
      ∃ exp, hin.foldlM expandBranches sel = .ok exp ∧ exp.length ≤ maxSqlFilterBranches ∧
        ∀ row : LogRow, row.Fits → (∀ expr ∈ exs, expr.eval row = .boolean true) →
          (∃ filter ∈ sel, matchesNativeFilter row filter = true) → ∃ filter ∈ exp, matchesNativeFilter row filter = true := by
  induction hin with
  | nil => exact fun sel hleh => ⟨sel, rfl, hleh, fun _ _ _ h => h⟩
  | cons arms rest ih =>
    intro sel hleh
    rw [forall_mem_cons] at h
    obtain ⟨expr, hmem, hint⟩ := h.1
    obtain ⟨exp, hexp, hlen', hk⟩ := expandBranches_spec hint hleh
    obtain ⟨res, hres, hlen'', hk'⟩ := ih h.2 exp hlen'
    refine ⟨res, ?_, hlen'', fun row hf ht hany => hk' row hf ht (hk row hf (ht expr hmem) hany)⟩
    rw [foldlM_cons, hexp]
    exact hres

/-! ## Parsed predicates -/

theorem sqlIdentifier_eval {expr : SqlAstExpr} {column : String} (h : sqlIdentifier expr = some column) (row : LogRow) :
    expr.eval row = row.named column := by
  cases expr with
  | identifier ident => rw [SqlAstExpr.eval, h]; rfl
  | compoundIdentifier parts => rw [SqlAstExpr.eval, h]; rfl
  | _ => nomatch h

theorem sqlString_eval {expr : SqlAstExpr} {text : String} (h : sqlString expr = some text) (row : LogRow) :
    expr.eval row = .text text.toList := by
  unfold sqlString at h
  split at h
  case h_5 => nomatch h
  all_goals
    rw [← Option.some.inj h, SqlAstExpr.eval]
    rfl

theorem sqlU64_eval {expr : SqlAstExpr} {v : Nat} (h : sqlU64 expr = some v) (row : LogRow) : expr.eval row = .number v := by
  unfold sqlU64 at h
  split at h
  · rename_i text
    simp only [parseU64, Option.filter_eq_some_iff] at h
    rw [SqlAstExpr.eval, SqlAstValue.meaning, h.1]
    rfl
  · nomatch h

theorem normalizeSqlBinary_eval {left right literal : SqlAstExpr} {column : String} {rev : Bool}
    (h : normalizeSqlBinary left right = some (column, literal, rev)) (op : SqlBinaryOperator) (row : LogRow) :
    (SqlAstExpr.binaryOp left op right).eval row = comparison op.planned (row.named column) (literal.eval row) rev := by
  unfold normalizeSqlBinary at h
  split at h
  · rename_i hl
    obtain ⟨rfl, rfl, rfl⟩ := h
    rw [SqlAstExpr.eval, sqlIdentifier_eval hl]
    rfl
  · rename_i hl hr
    obtain ⟨rfl, rfl, rfl⟩ := h
    rw [SqlAstExpr.eval, sqlIdentifier_eval hr]
    rfl
  · nomatch h

theorem sqlBinaryOperator_eq {op : SqlBinaryOperator} {pla : Operator} (h : sqlBinaryOperator op = some pla) :
    op.planned = pla ∧ supportsNumericOperator pla = true := by
  cases op with
  | notEq => nomatch h
  | and => nomatch h
  | or => nomatch h
  | _ =>
    cases h
    exact ⟨rfl, rfl⟩

theorem sqlFixed_eval {expr : SqlAstExpr} {x : FixedBytes n} (h : (sqlString expr).bind (parseSqlFixedBytes n) = some x)
    (row : LogRow) : expr.eval row = .text (hexText (FixedBytes.toBytes x)) := by
  obtain ⟨text, ht, hp⟩ := bind_eq_some_iff.mp h
  rw [sqlString_eval ht, hexText_of_parseFixed hp]

/-- An accepted comparison applies the constraint it denotes. -/
theorem applySqlBinaryFilter_spec {left right : SqlAstExpr} {op : SqlBinaryOperator}
    (h : applySqlBinaryFilter filter left op right = some chg) :
    ∃ c, Denotes (fun row => (SqlAstExpr.binaryOp left op right).eval row) c ∧ chg = c.apply filter := by
  unfold applySqlBinaryFilter at h
  cases hnm : normalizeSqlBinary left right with
  | none =>
    rw [hnm] at h
    nomatch h
  | some ps =>
    obtain ⟨column, literal, reversed⟩ := ps
    rw [hnm] at h
    dsimp only at h
    simp only [normalizeSqlBinary_eval hnm]
    split at h
    · rename_i hcol
      simp only [bind_eq_bind, bind_eq_some_iff] at h
      obtain ⟨v, hv, planned, hop, h⟩ := h
      obtain ⟨hpla, hnum⟩ := sqlBinaryOperator_eq hop
      simp only [named_eq hcol, sqlU64_eval hv, hpla]
      exact ⟨_, denotes_block hnum, (Option.some.inj h).symm⟩
    · rename_i hcol
      simp only [bind_eq_bind, bind_eq_some_iff] at h
      obtain ⟨v, hv, planned, hop, h⟩ := h
      obtain ⟨hpla, hnum⟩ := sqlBinaryOperator_eq hop
      simp only [named_eq hcol, sqlU64_eval hv, hpla]
      exact ⟨_, denotes_timestamp hnum, (Option.some.inj h).symm⟩
    · rename_i hcol
      split at h
      · rename_i hop
        simp only [bind_eq_bind, bind_eq_some_iff] at h
        obtain ⟨v, hv, h⟩ := h
        simp only [named_eq hcol, sqlU64_eval hv, hop]
        exact ⟨_, denotes_dataLen, (Option.some.inj h).symm⟩
      · nomatch h
    · rename_i hcol
      simp only [bind_eq_bind, bind_eq_some_iff] at h
      obtain ⟨v, ⟨text, ht, hp⟩, h⟩ := h
      split at h
      · rename_i hd
        simp only [named_eq hcol, sqlString_eval ht, hexText_of_parse hp]
        exact ⟨_, denotes_data hd, (Option.some.inj h).symm⟩
      · nomatch h
    · rename_i hcol
      split at h
      · rename_i hop
        obtain ⟨v, hv, h⟩ := bind_eq_some_iff.mp h
        simp only [named_eq hcol, sqlFixed_eval hv, hop]
        exact ⟨_, denotes_blockHash, (Option.some.inj h).symm⟩
      · nomatch h
    · rename_i hcol
      split at h
      · rename_i hop
        obtain ⟨v, hv, h⟩ := bind_eq_some_iff.mp h
        simp only [named_eq hcol, sqlFixed_eval hv, hop]
        exact ⟨_, denotes_address, (Option.some.inj h).symm⟩
      · nomatch h
    · rename_i index hcol
      split at h
      · rename_i hop
        obtain ⟨v, hv, h⟩ := bind_eq_some_iff.mp h
        simp only [named_eq hcol, sqlFixed_eval hv, hop]
        exact ⟨_, denotes_topic, (Option.some.inj h).symm⟩
      · nomatch h
    · nomatch h

theorem mapM_sqlFixed {list : List SqlAstExpr} {vs : List (FixedBytes n)}
    (h : (list.mapM fun item => (sqlString item).bind (parseSqlFixedBytes n)) = some vs) (row : LogRow) :
    SqlAstExpr.evalList row list = vs.map fun x => .text (hexText (FixedBytes.toBytes x)) := by
  induction list generalizing vs with
  | nil =>
    cases h
    rfl
  | cons item rest ih =>
    simp only [mapM_cons, bind_eq_bind] at h
    obtain ⟨x, hx, h⟩ := bind_eq_some_iff.mp h
    obtain ⟨xs, hxs, h⟩ := bind_eq_some_iff.mp h
    cases h
    rw [SqlAstExpr.evalList, sqlFixed_eval hx, ih hxs, map_cons]

theorem accepted_eq {res : Option NativeLogFilter}
    (h : applySqlAstFilter.accepted filter res = (chg, true)) : res = some chg := by
  cases res with
  | none => simp [applySqlAstFilter.accepted] at h
  | some filter' => simpa [applySqlAstFilter.accepted] using h

/-- What an accepted predicate denotes, as a list of constraints. -/
structure Parsed (expr : SqlAstExpr) (constraints : List NativeConstraint) : Prop where
  valid : ∀ c ∈ constraints, c.Valid
  holds : ∀ row, expr.eval row = .boolean true ↔ ∀ c ∈ constraints, c.holds row = true

theorem Parsed.single {expr : SqlAstExpr} {c : NativeConstraint} (h : Denotes (fun row => expr.eval row) c) : Parsed expr [c] := by
  refine ⟨by simpa using h.valid, fun row => ?_⟩
  rw [forall_mem_singleton]
  exact h.holds row

theorem Parsed.and {left right : SqlAstExpr} {a b : List NativeConstraint} (ha : Parsed left a) (hb : Parsed right b) :
    Parsed (.binaryOp left .and right) (a ++ b) := by
  refine ⟨forall_mem_append.mpr ⟨ha.valid, hb.valid⟩, fun row => ?_⟩
  rw [SqlAstExpr.eval, SqlBinaryOperator.planned, SqlValue.binary, SqlValue.and_eq_true, ha.holds, hb.holds, forall_mem_append]

/-- An accepted predicate applies the constraints it denotes. -/
theorem applySqlAstFilter_spec {expr : SqlAstExpr} (h : applySqlAstFilter filter expr = (chg, true)) :
    ∃ constraints, Parsed expr constraints ∧ chg = constraints.foldl NativeConstraint.apply filter := by
  fun_induction applySqlAstFilter filter expr generalizing chg with
  | case1 filter left right f' hl ihl ihr =>
    obtain ⟨a, ha, rfl⟩ := ihl hl
    obtain ⟨b, hb, rfl⟩ := ihr h
    exact ⟨a ++ b, ha.and hb, foldl_append.symm⟩
  | case2 filter left right f' hl ihl | case6 => simp at h
  | case3 filter left op right hop =>
    obtain ⟨c, hc, rfl⟩ := applySqlBinaryFilter_spec (accepted_eq h)
    exact ⟨[c], .single hc, rfl⟩
  | case4 filter expr neg low high =>
    have hs := accepted_eq h
    cases neg with
    | true => simp at hs
    | false =>
      simp only [Bool.false_eq_true, if_false, bind_eq_bind, bind_eq_some_iff] at hs
      obtain ⟨column, hcol, lowValue, hlow, higV, hh, hs⟩ := hs
      have hev : ∀ row, (SqlAstExpr.between expr false low high).eval row =
          (row.named column).between (.number lowValue) (.number higV) := by
        intro row
        rw [SqlAstExpr.eval, sqlIdentifier_eval hcol, sqlU64_eval hlow, sqlU64_eval hh]
        rfl
      split at hs
      · rename_i hn
        refine ⟨[.blockRange lowValue higV], .single ?_, (Option.some.inj hs).symm⟩
        simp only [hev, named_eq hn]
        exact denotes_blockRange
      · rename_i hn
        refine ⟨[.timestampRange lowValue higV], .single ?_, (Option.some.inj hs).symm⟩
        simp only [hev, named_eq hn]
        exact denotes_timestampRange
      · nomatch hs
  | case5 filter expr list neg =>
    have hs := accepted_eq h
    cases neg with
    | true => simp at hs
    | false =>
      simp only [Bool.false_eq_true, if_false, bind_eq_bind] at hs
      obtain ⟨column, hcol, hs⟩ := bind_eq_some_iff.mp hs
      have hev : ∀ row, (SqlAstExpr.inList expr list false).eval row = (row.named column).isIn (SqlAstExpr.evalList row list) := by
        intro row
        rw [SqlAstExpr.eval, sqlIdentifier_eval hcol]
        rfl
      split at hs
      · rename_i hn
        obtain ⟨vs, hv, hs⟩ := bind_eq_some_iff.mp hs
        refine ⟨[.addresses vs], .single ?_, (Option.some.inj hs).symm⟩
        simp only [hev, named_eq hn, mapM_sqlFixed hv]
        exact denotes_addresses
      · rename_i index hn
        obtain ⟨vs, hv, hs⟩ := bind_eq_some_iff.mp hs
        refine ⟨[.topic index (.anyOf vs)], .single ?_, (Option.some.inj hs).symm⟩
        simp only [hev, named_eq hn, mapM_sqlFixed hv]
        exact denotes_topics
      · nomatch hs

end Logex
