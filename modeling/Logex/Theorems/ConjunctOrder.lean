import Logex.Theorems.PredicatePushdown

/-!
# The order of conjuncts

A contradiction among predicates is written into the block interval of the filter, where bounds that were there before are lost and
bounds that come later are merged. So the rows a filter matches never depend on the order of its predicates, while the coverage
check, which reads the same interval, can.
-/

namespace Logex

open Lib List

/-- The block bounds a constraint has by itself, or none where it cannot hold. -/
def ownBounds : NativeConstraint → Option (Option Nat × Option Nat)
  | .block op value reversed => narrowBounds op value reversed (none, none)
  | .timestamp op value reversed => (narrowBounds op value reversed (none, none)).map fun _ => (none, none)
  | .blockRange low high => some (some low, some high)
  | .dataLen value => if u32Max < value then none else some (none, none)
  | _ => some (none, none)

/-- Constraints that contradict one another, or one that cannot hold by itself. -/
def Clash (constraints : List NativeConstraint) : Prop :=
  (∃ c ∈ constraints, ownBounds c = none) ∨
  (∃ hash hash', hash ≠ hash' ∧ NativeConstraint.blockHash hash ∈ constraints ∧ NativeConstraint.blockHash hash' ∈ constraints) ∨
  (∃ n n', n ≠ n' ∧ NativeConstraint.dataLen n ∈ constraints ∧ NativeConstraint.dataLen n' ∈ constraints) ∨
  ((∃ list, NativeConstraint.addresses list ∈ constraints) ∧
    ∀ address, ∃ list, NativeConstraint.addresses list ∈ constraints ∧ address ∉ list)

/-- Some constraint asks for a block with one of these hashes. -/
def AsksFor (constraints : List NativeConstraint) (hashes : B256 → Bool) : Prop :=
  ∃ hash, NativeConstraint.blockHash hash ∈ constraints ∧ hashes hash = true

/-- Some constraint bounds the block number from below by at least this number. -/
def BoundedFrom (constraints : List NativeConstraint) (start : Nat) : Prop :=
  ∃ c ∈ constraints, ∃ own low, ownBounds c = some own ∧ own.1 = some low ∧ start ≤ low

/-- Whether the verdict of the coverage check is the same for every order of the constraints: they do not clash, or there is nothing
to check, or the verified range starts at the first two blocks, or all requested hashes are known to it, or none is and no lower
bound lies within it. -/
def OrderSafe (coverage : Option QueryCoverage) (constraints : List NativeConstraint) : Prop :=
  Clash constraints → ∀ c ∈ coverage, ∀ range ∈ c.verified, 1 < range.start.blockNumber →
    (AsksFor constraints (c.knows range) ∧ ¬AsksFor constraints fun hash => !c.knows range hash) ∨
      (¬AsksFor constraints (c.knows range) ∧ ¬BoundedFrom constraints range.start.blockNumber)

namespace OrderAux

/-! ### Bounds as a fold -/

/-- The tighter of two lower bounds. -/
def mergeFrom : Option Nat → Option Nat → Option Nat
  | current, none => current
  | current, some bound => narrowFrom current bound

/-- The tighter of two upper bounds. -/
def mergeTo : Option Nat → Option Nat → Option Nat
  | current, none => current
  | current, some bound => narrowTo current bound

theorem mergeFrom_right_comm (a b c : Option Nat) : mergeFrom (mergeFrom a b) c = mergeFrom (mergeFrom a c) b := by
  rcases a with - | a <;> rcases b with - | b <;> rcases c with - | c <;> simp [mergeFrom, narrowFrom] <;> omega

theorem mergeTo_right_comm (a b c : Option Nat) : mergeTo (mergeTo a b) c = mergeTo (mergeTo a c) b := by
  rcases a with - | a <;> rcases b with - | b <;> rcases c with - | c <;> simp [mergeTo, narrowTo] <;> omega

/-- Narrowing merges the bounds that the comparison has by itself. -/
theorem narrowBounds_eq_merge (op : Operator) (v : Nat) (reversed : Bool) (bound : Option Nat × Option Nat) :
    narrowBounds op v reversed bound = (narrowBounds op v reversed (none, none)).map fun own =>
      (mergeFrom bound.1 own.1, mergeTo bound.2 own.2) := by
  obtain ⟨low, high⟩ := bound
  cases op <;> cases reversed <;>
    simp [narrowBounds, mergeFrom, mergeTo, narrowFrom, narrowTo, checkedAdd, checkedSub]

def lowerBound (constraints : List NativeConstraint) : Option Nat :=
  constraints.foldl (fun bound c => mergeFrom bound ((ownBounds c).bind (·.1))) none

def upperBound (constraints : List NativeConstraint) : Option Nat :=
  constraints.foldl (fun bound c => mergeTo bound ((ownBounds c).bind (·.2))) none

variable {constraints cs' : List NativeConstraint} {filter : NativeLogFilter} {coverage : Option QueryCoverage}

theorem lowerBound_perm (h : constraints.Perm cs') : lowerBound constraints = lowerBound cs' :=
  h.foldl_eq' (fun _ _ _ _ _ => mergeFrom_right_comm _ _ _) none

theorem upperBound_perm (h : constraints.Perm cs') : upperBound constraints = upperBound cs' :=
  h.foldl_eq' (fun _ _ _ _ _ => mergeTo_right_comm _ _ _) none

/-! ### Contradictions -/

/-- The block interval that `mark_filter_empty` leaves. -/
def Marked (filter : NativeLogFilter) : Prop := filter.fromBlock = some 1 ∧ filter.toBlock = some 0

/-- The same, with later bounds merged in. -/
def MarkedEmpty (filter : NativeLogFilter) : Prop :=
  (∃ bound, filter.fromBlock = some bound ∧ 1 ≤ bound) ∧ filter.toBlock = some 0

theorem Marked.markedEmpty {filter : NativeLogFilter} (h : Marked filter) : MarkedEmpty filter := ⟨⟨1, h.1, le_rfl⟩, h.2⟩

theorem Clash.perm (h : Clash constraints) (hp : constraints.Perm cs') : Clash cs' := by
  simp only [Clash, hp.mem_iff] at h
  exact h

theorem Clash.mono {constraints : List NativeConstraint} (h : Clash constraints) (c : NativeConstraint) :
    Clash (constraints ++ [c]) := by
  rcases h with ⟨d, hd, hown⟩ | ⟨x, y, hne, hx, hy⟩ | ⟨x, y, hne, hx, hy⟩ | ⟨⟨list, hl⟩, hall⟩
  · exact .inl ⟨d, mem_append_left _ hd, hown⟩
  · exact .inr (.inl ⟨x, y, hne, mem_append_left _ hx, mem_append_left _ hy⟩)
  · exact .inr (.inr (.inl ⟨x, y, hne, mem_append_left _ hx, mem_append_left _ hy⟩))
  · refine .inr (.inr (.inr ⟨⟨list, mem_append_left _ hl⟩, fun address => ?_⟩))
    obtain ⟨o, hother, hnot⟩ := hall address
    exact ⟨o, mem_append_left _ hother, hnot⟩

/-- A filter that holds every constraint folded into it. -/
structure Summary (constraints : List NativeConstraint) (filter : NativeLogFilter) : Prop where
  possible : ∀ c ∈ constraints, ownBounds c ≠ none
  lower : filter.fromBlock = lowerBound constraints
  upper : filter.toBlock = upperBound constraints
  hash : ∀ hash, filter.blockHash = some hash ↔ NativeConstraint.blockHash hash ∈ constraints
  dataLen : ∀ n, filter.dataLen = some n ↔ NativeConstraint.dataLen n ∈ constraints
  addresses : (filter.addresses = [] ∧ ∀ list, NativeConstraint.addresses list ∉ constraints) ∨
    (filter.addresses ≠ [] ∧
      ∀ address, address ∈ filter.addresses ↔ ∀ list, NativeConstraint.addresses list ∈ constraints → address ∈ list)

theorem Summary.not_clash {constraints : List NativeConstraint} (h : Summary constraints filter) : ¬Clash constraints := by
  rintro (⟨c, hc, hown⟩ | ⟨x, y, hne, hx, hy⟩ | ⟨x, y, hne, hx, hy⟩ | ⟨⟨list, hl⟩, hall⟩)
  · exact h.possible c hc hown
  · exact hne (Option.some.inj (((h.hash x).mpr hx).symm.trans ((h.hash y).mpr hy)))
  · exact hne (Option.some.inj (((h.dataLen x).mpr hx).symm.trans ((h.dataLen y).mpr hy)))
  · rcases h.addresses with ⟨-, hn⟩ | ⟨hs, hmem⟩
    · exact hn list hl
    · obtain ⟨address, rest, hcons⟩ := exists_cons_of_ne_nil hs
      obtain ⟨o, hother, hnot⟩ := hall address
      exact hnot ((hmem address).mp (hcons ▸ mem_cons_self) o hother)

theorem marked_markFilterEmpty (filter : NativeLogFilter) : Marked (markFilterEmpty filter) := ⟨rfl, rfl⟩

/-- A constraint marks the filter empty, or intersects its block interval with its own bounds. -/
theorem apply_effect (filter : NativeLogFilter) (c : NativeConstraint) : (c.apply filter).canonicalOnly = filter.canonicalOnly ∧
    (Marked (c.apply filter) ∨ ∃ own, ownBounds c = some own ∧ (c.apply filter).fromBlock = mergeFrom filter.fromBlock own.1 ∧
      (c.apply filter).toBlock = mergeTo filter.toBlock own.2) := by
  have hmarked : ∀ f, Marked (markFilterEmpty f) := marked_markFilterEmpty
  unfold NativeConstraint.apply
  cases c with
  | block op v reversed =>
    dsimp only
    rw [applyBlockNumberConstraint, narrowBounds_eq_merge]
    cases hown : narrowBounds op v reversed (none, none) with
    | none => exact ⟨rfl, .inl (hmarked filter)⟩
    | some own => exact ⟨rfl, .inr ⟨own, hown, rfl, rfl⟩⟩
  | timestamp op v reversed =>
    dsimp only
    rw [applyTimestampConstraint, narrowBounds_eq_merge]
    cases hown : narrowBounds op v reversed (none, none) with
    | none => exact ⟨rfl, .inl (hmarked filter)⟩
    | some own => exact ⟨rfl, .inr ⟨(none, none), by simp [ownBounds, hown], rfl, rfl⟩⟩
  | blockRange low high => exact ⟨rfl, .inr ⟨(some low, some high), rfl, rfl, rfl⟩⟩
  | data op v =>
    dsimp only [applyDataConstraint]
    split <;> exact ⟨rfl, .inr ⟨(none, none), rfl, rfl, rfl⟩⟩
  | dataLen v =>
    dsimp only [applyDataLenConstraint]
    split
    · exact ⟨rfl, .inl (hmarked filter)⟩
    · next hagrees => exact ⟨rfl, .inr ⟨(none, none), if_neg fun h => hagrees (.inl h), rfl, rfl⟩⟩
  | blockHash hash =>
    dsimp only [applyBlockHashConstraint]
    split
    · exact ⟨rfl, .inl (hmarked filter)⟩
    · exact ⟨rfl, .inr ⟨(none, none), rfl, rfl, rfl⟩⟩
  | addresses list =>
    dsimp only [mergeAddresses]
    generalize (if filter.addresses = [] then list else filter.addresses.filter list.contains) = addresses
    split
    · exact ⟨rfl, .inl (hmarked _)⟩
    · exact ⟨rfl, .inr ⟨(none, none), rfl, rfl, rfl⟩⟩
  | _ => exact ⟨rfl, .inr ⟨(none, none), rfl, rfl, rfl⟩⟩

/-- Later intersections cannot make the filter nonempty again. -/
theorem markedEmpty_apply (h : MarkedEmpty filter) (c : NativeConstraint) : MarkedEmpty (c.apply filter) := by
  obtain ⟨⟨bound, hf, hb⟩, hto⟩ := h
  rcases (apply_effect filter c).2 with hm | ⟨⟨low, high⟩, -, hlow, hhigh⟩
  · exact hm.markedEmpty
  · unfold MarkedEmpty
    rw [hlow, hhigh, hf, hto]
    cases low <;> cases high <;> simp [mergeFrom, mergeTo, narrowFrom, narrowTo, hb]

/-! ### Folding constraints -/

theorem lowerBound_concat (constraints : List NativeConstraint) (c : NativeConstraint) :
    lowerBound (constraints ++ [c]) = mergeFrom (lowerBound constraints) ((ownBounds c).bind (·.1)) := by
  simp [lowerBound, foldl_append]

theorem upperBound_concat (constraints : List NativeConstraint) (c : NativeConstraint) :
    upperBound (constraints ++ [c]) = mergeTo (upperBound constraints) ((ownBounds c).bind (·.2)) := by
  simp [upperBound, foldl_append]

section Step

variable {constraints : List NativeConstraint} {filter : NativeLogFilter}

variable {c : NativeConstraint} {own : Option Nat × Option Nat}

/-- One more constraint, with the bounds it adds and the values it fixes. -/
theorem Summary.concat (h : Summary constraints filter) {changed : NativeLogFilter}
    (hown : ownBounds c = some own) (hf : changed.fromBlock = mergeFrom filter.fromBlock own.1)
    (hto : changed.toBlock = mergeTo filter.toBlock own.2)
    (hh : ∀ hash, changed.blockHash = some hash ↔ filter.blockHash = some hash ∨ .blockHash hash = c)
    (hlen : ∀ n, changed.dataLen = some n ↔ filter.dataLen = some n ∨ .dataLen n = c)
    (haddresses : (changed.addresses = [] ∧ ∀ list, NativeConstraint.addresses list ∉ constraints ++ [c]) ∨
      changed.addresses ≠ [] ∧ ∀ address, address ∈ changed.addresses ↔
        ∀ list, NativeConstraint.addresses list ∈ constraints ++ [c] → address ∈ list) :
    Summary (constraints ++ [c]) changed := by
  refine ⟨?_, ?_, ?_, fun hash => ?_, fun n => ?_, haddresses⟩
  · rw [forall_mem_append, forall_mem_singleton, hown]
    exact ⟨h.possible, Option.some_ne_none _⟩
  · rw [hf, h.lower, lowerBound_concat, hown]
    rfl
  · rw [hto, h.upper, upperBound_concat, hown]
    rfl
  · rw [hh, h.hash, mem_append, mem_singleton]
  · rw [hlen, h.dataLen, mem_append, mem_singleton]

/-- A constraint on none of the values that can clash, with the bounds it adds. -/
theorem Summary.bounds (h : Summary constraints filter) {changed : NativeLogFilter}
    (hown : ownBounds c = some own) (hh : ∀ hash, .blockHash hash ≠ c) (hlen : ∀ n, .dataLen n ≠ c)
    (haddresses : ∀ list, .addresses list ≠ c) (hf : changed.fromBlock = mergeFrom filter.fromBlock own.1)
    (hto : changed.toBlock = mergeTo filter.toBlock own.2) (hr : changed.blockHash = filter.blockHash ∧
      changed.dataLen = filter.dataLen ∧ changed.addresses = filter.addresses) : Summary (constraints ++ [c]) changed := by
  obtain ⟨h1, h2, h3⟩ := hr
  refine h.concat hown hf hto (fun hash => by simp [h1, hh]) (fun n => by simp [h2, hlen]) ?_
  simp only [h3, mem_append, mem_singleton, haddresses, or_false]
  exact h.addresses

/-- A value that agrees with the one there is. -/
theorem some_eq_iff_of_agrees {α : Type} [DecidableEq α] {current : Option α} {value x : α}
    (h : ¬current.any (fun current => current ≠ value) = true) : some value = some x ↔ current = some x ∨ x = value := by
  cases current with
  | none => simp [eq_comm]
  | some current =>
    have hs : current = value := by simpa using h
    simp [hs, eq_comm]

/-- A constraint that cannot hold by itself. -/
theorem clash_of_own (h : ownBounds c = none) : Clash (constraints ++ [c]) :=
  .inl ⟨c, mem_append_right _ (mem_singleton_self c), h⟩

variable (h : Summary constraints filter)

include h

theorem step_blockHash (hash : B256) :
    (Clash (constraints ++ [.blockHash hash]) ∧ Marked (applyBlockHashConstraint filter hash)) ∨
      Summary (constraints ++ [.blockHash hash]) (applyBlockHashConstraint filter hash) := by
  unfold applyBlockHashConstraint
  split
  · rename_i hdiffers
    rw [Option.any_eq_true] at hdiffers
    obtain ⟨current, hcurrent, hne⟩ := hdiffers
    refine .inl ⟨.inr (.inl ⟨current, hash, by simpa using hne, ?_, by simp⟩), marked_markFilterEmpty filter⟩
    exact mem_append_left _ ((h.hash current).mp hcurrent)
  · rename_i hagrees
    refine .inr (h.concat rfl rfl rfl (fun o => ?_) (by simp) ?_)
    · rw [NativeConstraint.blockHash.injEq]
      exact some_eq_iff_of_agrees hagrees
    · simp only [mem_append, mem_singleton, reduceCtorEq, or_false]
      exact h.addresses

theorem step_dataLen (value : Nat) :
    (Clash (constraints ++ [.dataLen value]) ∧ Marked (applyDataLenConstraint filter value)) ∨
      Summary (constraints ++ [.dataLen value]) (applyDataLenConstraint filter value) := by
  unfold applyDataLenConstraint
  split
  · rename_i hc
    refine .inl ⟨?_, marked_markFilterEmpty filter⟩
    rcases hc with hl | hdiffers
    · exact clash_of_own (if_pos hl)
    · rw [Option.any_eq_true] at hdiffers
      obtain ⟨current, hcurrent, hne⟩ := hdiffers
      refine .inr (.inr (.inl ⟨current, value, by simpa using hne, ?_, by simp⟩))
      exact mem_append_left _ ((h.dataLen current).mp hcurrent)
  · rename_i hagrees
    rw [not_or] at hagrees
    refine .inr (h.concat (if_neg hagrees.1) rfl rfl (by simp) (fun o => ?_) ?_)
    · rw [NativeConstraint.dataLen.injEq]
      exact some_eq_iff_of_agrees hagrees.2
    · simp only [mem_append, mem_singleton, reduceCtorEq, or_false]
      exact h.addresses

theorem step_addresses (list : List Address) :
    (Clash (constraints ++ [.addresses list]) ∧ Marked (mergeAddresses filter list)) ∨
      Summary (constraints ++ [.addresses list]) (mergeAddresses filter list) := by
  have hmem : ∀ address, address ∈ (if filter.addresses = [] then list else filter.addresses.filter list.contains) ↔
      ∀ o, NativeConstraint.addresses o ∈ constraints ++ [.addresses list] → address ∈ o := by
    intro address
    simp only [mem_append, mem_singleton, NativeConstraint.addresses.injEq]
    rcases h.addresses with ⟨hnil, hn⟩ | ⟨hs, hall⟩
    · rw [if_pos hnil]
      exact ⟨fun hin o hother => hother.elim (fun hc => absurd hc (hn o)) fun heq => heq ▸ hin, fun hin => hin list (.inr rfl)⟩
    · rw [if_neg hs, mem_filter, hall, contains_iff_mem]
      exact ⟨fun hin o hother => hother.elim (hin.1 o) fun heq => heq ▸ hin.2,
        fun hin => ⟨fun o hother => hin o (.inl hother), hin list (.inr rfl)⟩⟩
  unfold mergeAddresses
  generalize (if filter.addresses = [] then list else filter.addresses.filter list.contains) = addresses at hmem
  by_cases hempty : addresses = []
  · rw [if_pos hempty]
    refine .inl ⟨.inr (.inr (.inr ⟨⟨list, by simp⟩, fun address => ?_⟩)), marked_markFilterEmpty _⟩
    by_contra hn
    have hin : address ∈ addresses := (hmem address).mpr fun o hother => by
      by_contra hnot
      exact hn ⟨o, hother, hnot⟩
    rw [hempty] at hin
    exact not_mem_nil hin
  · rw [if_neg hempty]
    exact .inr (h.concat rfl rfl rfl (by simp) (by simp) (.inr ⟨hempty, hmem⟩))

/-- One more constraint is either held or clashes and marks the filter empty. -/
theorem step_apply (c : NativeConstraint) :
    (Clash (constraints ++ [c]) ∧ Marked (c.apply filter)) ∨ Summary (constraints ++ [c]) (c.apply filter) := by
  cases c with
  | block op v reversed =>
    change _ ∧ Marked (applyBlockNumberConstraint filter op v reversed) ∨
      Summary _ (applyBlockNumberConstraint filter op v reversed)
    rw [applyBlockNumberConstraint, narrowBounds_eq_merge]
    cases hown : narrowBounds op v reversed (none, none) with
    | none => exact .inl ⟨clash_of_own hown, marked_markFilterEmpty filter⟩
    | some own => exact .inr (h.bounds hown (by simp) (by simp) (by simp) rfl rfl ⟨rfl, rfl, rfl⟩)
  | timestamp op v reversed =>
    change _ ∧ Marked (applyTimestampConstraint filter op v reversed) ∨
      Summary _ (applyTimestampConstraint filter op v reversed)
    rw [applyTimestampConstraint, narrowBounds_eq_merge]
    cases hown : narrowBounds op v reversed (none, none) with
    | none => exact .inl ⟨clash_of_own (by simp [ownBounds, hown]), marked_markFilterEmpty filter⟩
    | some own =>
      have hown' : ownBounds (.timestamp op v reversed) = some (none, none) := by simp [ownBounds, hown]
      exact .inr (h.bounds hown' (by simp) (by simp) (by simp) rfl rfl ⟨rfl, rfl, rfl⟩)
  | blockRange low high | timestampRange low high | topic index allowed =>
    exact .inr (h.bounds rfl (by simp) (by simp) (by simp) rfl rfl ⟨rfl, rfl, rfl⟩)
  | dataLen v => exact step_dataLen h v
  | data op v =>
    refine .inr ?_
    change Summary _ (applyDataConstraint filter op v)
    unfold applyDataConstraint
    split <;> exact h.bounds rfl (by simp) (by simp) (by simp) rfl rfl ⟨rfl, rfl, rfl⟩
  | blockHash hash => exact step_blockHash h hash
  | addresses list => exact step_addresses h list

end Step

/-- The fold of a list of constraints holds them all, or they clash and it is marked empty. -/
theorem fold_summary (constraints : List NativeConstraint) :
    (Clash constraints ∧ MarkedEmpty (constraints.foldl NativeConstraint.apply {})) ∨
      Summary constraints (constraints.foldl NativeConstraint.apply {}) := by
  induction constraints using List.reverseRecOn with
  | nil => exact .inr ⟨by simp, rfl, rfl, by simp, by simp, .inl ⟨rfl, by simp⟩⟩
  | append_singleton constraints c ih =>
    rw [foldl_append, foldl_cons, foldl_nil]
    rcases ih with ⟨hc, hmar⟩ | hsum
    · exact .inl ⟨Clash.mono hc c, markedEmpty_apply hmar c⟩
    · exact (step_apply hsum c).imp_left fun h => ⟨h.1, h.2.markedEmpty⟩

theorem canonicalOnly_fold (constraints : List NativeConstraint) (filter : NativeLogFilter) :
    (constraints.foldl NativeConstraint.apply filter).canonicalOnly = filter.canonicalOnly := by
  induction constraints generalizing filter with
  | nil => rfl
  | cons c rest ih => rw [foldl_cons, ih, (apply_effect filter c).1]

/-! ### The coverage check -/

/-- The check reads no more of a filter than its block interval, its block hash and whether it is canonical. -/
theorem requireCoverage_congr {filter f' : NativeLogFilter}
    (hcan : filter.canonicalOnly = f'.canonicalOnly) (hf : filter.fromBlock = f'.fromBlock)
    (hto : filter.toBlock = f'.toBlock) (hh : filter.blockHash = f'.blockHash) :
    requireCoverage coverage filter = requireCoverage coverage f' := by
  cases coverage with
  | none => rfl
  | some coverage => simp [requireCoverage, QueryCoverage.check, QueryCoverage.checkRange, hcan, hf, hto, hh]

/-- What the check says of a filter that is marked empty. -/
theorem requireCoverage_marked {c : QueryCoverage} {range : VerifiedLogCoverage} {bound : Nat} (hr : c.verified = some range)
    (hcan : filter.canonicalOnly = true) (hf : filter.fromBlock = some bound) (hto : filter.toBlock = some 0) :
    (requireCoverage (some c) filter).isOk = true ↔ (∃ hash, filter.blockHash = some hash ∧ c.knows range hash = true) ∨
      range.start.blockNumber ≤ bound := by
  have hrange : (QueryCoverage.checkRange range filter).isOk = true ↔ range.start.blockNumber ≤ bound := by
    rw [QueryCoverage.checkRange, rejectIf]
    simp only [hf, hto, Option.getD_some]
    split
    · next hout =>
      refine iff_of_false Bool.false_ne_true ?_
      omega
    · next hin =>
      refine ⟨fun _ => ?_, fun _ => rfl⟩
      omega
  simp only [requireCoverage, QueryCoverage.check, rejectIf, okOr, hcan, hr, hf, bind, Except.bind, pure, Except.pure]
  cases filter.blockHash with
  | none => simp [hrange]
  | some hash =>
    by_cases hknown : c.knows range hash = true
    · simp [hknown, Except.isOk, Except.toBool]
    · simp [hknown, hrange]

/-- The hash a constraint asks for. -/
def hashOf : NativeConstraint → Option B256
  | .blockHash hash => some hash
  | _ => none

theorem mem_of_hashOf {hash : B256} : hash ∈ constraints.filterMap hashOf ↔ NativeConstraint.blockHash hash ∈ constraints := by
  rw [mem_filterMap]
  constructor
  · rintro ⟨c, hmem, hc⟩
    cases c <;> simp only [hashOf, reduceCtorEq, Option.some.injEq] at hc
    rwa [hc] at hmem
  · exact fun hmem => ⟨_, hmem, rfl⟩

/-- The first hash stays. -/
theorem blockHash_apply (filter : NativeLogFilter) (c : NativeConstraint) :
    (c.apply filter).blockHash = filter.blockHash.or (hashOf c) := by
  unfold NativeConstraint.apply
  cases c with
  | block op v reversed =>
    dsimp only [applyBlockNumberConstraint]
    split <;> simp [hashOf, markFilterEmpty]
  | timestamp op v reversed =>
    dsimp only [applyTimestampConstraint]
    split <;> simp [hashOf, markFilterEmpty]
  | data op v =>
    dsimp only [applyDataConstraint]
    split <;> simp [hashOf]
  | dataLen v =>
    dsimp only [applyDataLenConstraint]
    split <;> simp [hashOf, markFilterEmpty]
  | blockHash hash =>
    dsimp only [applyBlockHashConstraint]
    cases hc : filter.blockHash with
    | none => simp [hashOf]
    | some current =>
      simp only [Option.any_some, decide_eq_true_eq, Option.some_or]
      split
      · simp [markFilterEmpty, hc]
      · next hsame => simpa using (not_not.mp hsame).symm
  | addresses list =>
    dsimp only [mergeAddresses]
    generalize (if filter.addresses = [] then list else filter.addresses.filter list.contains) = addresses
    split <;> simp [hashOf, markFilterEmpty]
  | _ => simp [applyBlockRange, applyTimestampRange, mergeTopic, hashOf]

theorem blockHash_fold (constraints : List NativeConstraint) (filter : NativeLogFilter) :
    (constraints.foldl NativeConstraint.apply filter).blockHash = filter.blockHash.or (constraints.filterMap hashOf).head? := by
  induction constraints generalizing filter with
  | nil => simp
  | cons c rest ih =>
    rw [foldl_cons, ih, blockHash_apply, filterMap_cons, Option.or_assoc]
    cases hashOf c <;> simp

/-- A lower bound of a fold is the one of the mark, or comes from a constraint. -/
theorem fromBlock_fold (constraints : List NativeConstraint) :
    ∀ bound ∈ (constraints.foldl NativeConstraint.apply {}).fromBlock, bound ≤ 1 ∨ BoundedFrom constraints bound := by
  induction constraints using List.reverseRecOn with
  | nil => simp
  | append_singleton constraints c ih =>
    rw [foldl_append, foldl_cons, foldl_nil]
    have hkeep : ∀ bound, BoundedFrom constraints bound → BoundedFrom (constraints ++ [c]) bound := by
      rintro bound ⟨d, hd, hrest⟩
      exact ⟨d, mem_append_left _ hd, hrest⟩
    intro bound hbound
    rcases (apply_effect (constraints.foldl NativeConstraint.apply {}) c).2 with hm | ⟨⟨low, high⟩, hown, hlow, -⟩
    · rw [hm.1] at hbound
      exact .inl (Option.some.inj hbound).ge
    · rw [hlow] at hbound
      -- A merged bound is the old one or that of the constraint.
      cases hf : (constraints.foldl NativeConstraint.apply {}).fromBlock with
      | none =>
        rw [hf] at hbound
        cases low with
        | none => nomatch hbound
        | some low => exact .inr ⟨c, by simp, _, low, hown, rfl, (Option.some.inj hbound).ge⟩
      | some old =>
        rw [hf] at hbound ih
        cases low with
        | none => exact (ih bound hbound).imp_right (hkeep bound)
        | some low =>
          have hmax : max old low = bound := Option.some.inj hbound
          rcases le_total low old with hle | hle
          · exact (ih bound (by rw [← hmax, max_eq_left hle]; rfl)).imp_right (hkeep bound)
          · exact .inr ⟨c, by simp, _, low, hown, rfl, by omega⟩

/-- Constraints without a lower bound, after constraints that do not clash: they all hold, or the interval is that of the mark. -/
theorem fold_rest {rest : List NativeConstraint} (h : Summary constraints filter)
    (hrest : ∀ c ∈ rest, ∀ own, ownBounds c = some own → own.1 = none) :
    Summary (constraints ++ rest) (rest.foldl NativeConstraint.apply filter) ∨
      (rest.foldl NativeConstraint.apply filter).fromBlock = some 1 := by
  induction rest using List.reverseRecOn with
  | nil => exact .inl (by rwa [append_nil])
  | append_singleton rest c ih =>
    rw [forall_mem_append, forall_mem_singleton] at hrest
    rw [foldl_append, foldl_cons, foldl_nil]
    rcases ih hrest.1 with hsum | hone
    · rw [← List.append_assoc]
      exact (step_apply hsum c).symm.imp_right fun hm => hm.2.1
    · rcases (apply_effect (rest.foldl NativeConstraint.apply filter) c).2 with hm | ⟨own, hown, hlow, -⟩
      · exact .inr hm.1
      · exact .inr (by rw [hlow, hrest.2 own hown, hone]; rfl)

/-! ### Orders that decide -/

section Orders

variable {c : QueryCoverage} {range : VerifiedLogCoverage} (hr : c.verified = some range) (hclash : Clash constraints)

include hr hclash

/-- The verdict on constraints that clash. -/
theorem verdict_of_clash : ∃ bound, (constraints.foldl NativeConstraint.apply {}).fromBlock = some bound ∧ 1 ≤ bound ∧
    ((requireCoverage (some c) (constraints.foldl NativeConstraint.apply {})).isOk = true ↔
      (∃ hash, (constraints.filterMap hashOf).head? = some hash ∧ c.knows range hash = true) ∨ range.start.blockNumber ≤ bound) := by
  rcases fold_summary constraints with ⟨-, ⟨bound, hf, hb⟩, hto⟩ | hsum
  · refine ⟨bound, hf, hb, ?_⟩
    have hv := requireCoverage_marked hr (canonicalOnly_fold constraints {}) hf hto
    rw [blockHash_fold, Option.none_or] at hv
    exact hv
  · exact absurd hclash hsum.not_clash

/-- With a known hash first, or a lower bound within the range last, the scan is admitted. -/
theorem exists_admitted (h : AsksFor constraints (c.knows range) ∨ BoundedFrom constraints range.start.blockNumber) :
    ∃ cs', constraints.Perm cs' ∧ (requireCoverage (some c) (cs'.foldl NativeConstraint.apply {})).isOk = true := by
  rcases h with ⟨hash, hmem, hknown⟩ | ⟨d, hd, own, low, hown, hlow, hle⟩
  · obtain ⟨before, after, rfl⟩ := append_of_mem hmem
    have hperm := @perm_middle _ (NativeConstraint.blockHash hash) before after
    obtain ⟨bound, -, -, hv⟩ := verdict_of_clash hr (Clash.perm hclash hperm)
    exact ⟨_, hperm, hv.mpr (.inl ⟨hash, by simp [hashOf], hknown⟩)⟩
  · obtain ⟨before, after, rfl⟩ := append_of_mem hd
    have hperm : (before ++ d :: after).Perm ((before ++ after) ++ [d]) := perm_middle.trans (perm_append_singleton _ _).symm
    obtain ⟨bound, hf, -, hv⟩ := verdict_of_clash hr (Clash.perm hclash hperm)
    refine ⟨_, hperm, hv.mpr (.inr ?_)⟩
    rw [foldl_append, foldl_cons, foldl_nil] at hf
    -- A constraint with a bound of its own does not mark the filter; its bound is merged in last.
    have hmerge : ∀ filter : NativeLogFilter, ∃ above, (d.apply filter).fromBlock = some above ∧ low ≤ above := by
      intro filter
      cases d with
      | block op v reversed =>
        rw [ownBounds] at hown
        change ∃ above, (applyBlockNumberConstraint filter op v reversed).fromBlock = some above ∧ low ≤ above
        rw [applyBlockNumberConstraint, narrowBounds_eq_merge, hown]
        simp only [Option.map_some, hlow, mergeFrom, narrowFrom]
        refine ⟨_, rfl, ?_⟩
        cases filter.fromBlock <;> simp
      | blockRange first last =>
        cases hown
        cases hlow
        refine ⟨_, rfl, ?_⟩
        cases filter.fromBlock <;> simp
      | timestamp op v reversed =>
        obtain ⟨_, -, rfl⟩ := Option.map_eq_some_iff.mp hown
        cases hlow
      | dataLen v =>
        rw [ownBounds] at hown
        split at hown
        · cases hown
        · cases hown
          cases hlow
      | _ =>
        cases hown
        cases hlow
    obtain ⟨above, habove, hge⟩ := hmerge ((before ++ after).foldl NativeConstraint.apply {})
    rw [habove] at hf
    cases hf
    exact hle.trans hge

/-- With an unknown hash first, if any is asked for, then the bounds and then the rest, the mark is the last bound and the scan is
refused. -/
theorem exists_refused (hstart : 1 < range.start.blockNumber)
    (h : AsksFor constraints (c.knows range) → AsksFor constraints fun hash => !c.knows range hash) :
    ∃ cs', constraints.Perm cs' ∧ (requireCoverage (some c) (cs'.foldl NativeConstraint.apply {})).isOk = false := by
  -- The hash to start with, and the constraints that are left.
  obtain ⟨first, others, hperm, hhash⟩ : ∃ (first : Option B256) (others : List NativeConstraint),
      constraints.Perm (first.toList.map .blockHash ++ others) ∧ ∀ rest, others.Perm rest →
        ∀ hash, ((first.toList.map NativeConstraint.blockHash ++ rest).filterMap hashOf).head? = some hash → c.knows range hash = false := by
    by_cases hunknown : AsksFor constraints fun hash => !c.knows range hash
    · obtain ⟨hash, hmem, hnot⟩ := hunknown
      obtain ⟨before, after, rfl⟩ := append_of_mem hmem
      refine ⟨some hash, before ++ after, perm_middle, fun rest _ found hfound => ?_⟩
      obtain rfl : hash = found := by simpa [hashOf] using hfound
      simpa using hnot
    · have hnone : ∀ hash, NativeConstraint.blockHash hash ∉ constraints := by
        intro hash hmem
        cases hknown : c.knows range hash with
        | true => exact hunknown (h ⟨hash, hmem, hknown⟩)
        | false => exact hunknown ⟨hash, hmem, by simp [hknown]⟩
      refine ⟨none, constraints, .refl _, fun rest hrest found hfound => ?_⟩
      exact absurd (hrest.mem_iff.mpr (mem_of_hashOf.mp (mem_of_mem_head? hfound))) (hnone found)
  let bounds := others.filter fun d => ((ownBounds d).bind (·.1)).isSome
  let rest := others.filter fun d => ((ownBounds d).bind (·.1)).isNone
  have hsplit : others.Perm (bounds ++ rest) := by
    simpa [bounds, rest] using (filter_append_perm (fun d => ((ownBounds d).bind (·.1)).isSome) others).symm
  have hperm : constraints.Perm ((first.toList.map .blockHash ++ bounds) ++ rest) := by
    rw [List.append_assoc]
    exact hperm.trans (hsplit.append_left _)
  have hbounds : ∀ d ∈ bounds, ((ownBounds d).bind (·.1)).isSome = true := fun d hd => (mem_filter.mp hd).2
  have hmem : ∀ d ∈ first.toList.map NativeConstraint.blockHash ++ bounds, (∃ hash, first = some hash ∧ d = .blockHash hash) ∨
      ((ownBounds d).bind (·.1)).isSome = true := by
    intro d hd
    rcases mem_append.mp hd with hd | hd
    · obtain ⟨hash, hfirst, rfl⟩ := mem_map.mp hd
      exact .inl ⟨hash, Option.mem_toList.mp hfirst, rfl⟩
    · exact .inr (hbounds d hd)
  have hsum : Summary (first.toList.map .blockHash ++ bounds)
      ((first.toList.map NativeConstraint.blockHash ++ bounds).foldl NativeConstraint.apply {}) := by
    refine (fold_summary _).resolve_left fun hc => ?_
    rcases hc.1 with ⟨d, hd, hown⟩ | ⟨x, y, hne, hx, hy⟩ | ⟨x, y, -, hx, -⟩ | ⟨⟨list, hl⟩, -⟩
    · rcases hmem d hd with ⟨hash, -, rfl⟩ | hsome
      · nomatch hown
      · simp [hown] at hsome
    · rcases hmem _ hx with ⟨hash, hfirst, heq⟩ | hsome
      · rcases hmem _ hy with ⟨hash', hfirst', heq'⟩ | hsome'
        · cases heq
          cases heq'
          exact hne (Option.some.inj (hfirst.symm.trans hfirst'))
        · simp [ownBounds] at hsome'
      · simp [ownBounds] at hsome
    · rcases hmem _ hx with ⟨hash, -, heq⟩ | hsome
      · nomatch heq
      · rw [ownBounds] at hsome
        split at hsome <;> simp at hsome
    · rcases hmem _ hl with ⟨hash, -, heq⟩ | hsome
      · nomatch heq
      · simp [ownBounds] at hsome
  have hrest : ∀ d ∈ rest, ∀ own, ownBounds d = some own → own.1 = none := by
    intro d hd own hown
    have hnone := (mem_filter.mp hd).2
    simpa [hown] using hnone
  have hone := (fold_rest hsum hrest).resolve_left fun hall => hall.not_clash (Clash.perm hclash hperm)
  rw [← foldl_append] at hone
  obtain ⟨bound, hf, -, hv⟩ := verdict_of_clash hr (Clash.perm hclash hperm)
  cases hone.symm.trans hf
  refine ⟨_, hperm, Bool.eq_false_iff.mpr fun hok => ?_⟩
  rcases hv.mp hok with ⟨hash, hhead, hknown⟩ | hle
  · rw [List.append_assoc] at hhead
    rw [hhash _ hsplit hash hhead] at hknown
    nomatch hknown
  · omega

end Orders

/-- Two orders of constraints that do not clash fold to filters with the same verdict. -/
theorem requireCoverage_perm (hp : constraints.Perm cs') (h : ¬Clash constraints) :
    requireCoverage coverage (constraints.foldl NativeConstraint.apply {}) =
      requireCoverage coverage (cs'.foldl NativeConstraint.apply {}) := by
  have hsum := (fold_summary constraints).resolve_left fun hc => h hc.1
  have hsum' := (fold_summary cs').resolve_left fun hc => h (Clash.perm hc.1 hp.symm)
  refine requireCoverage_congr ((canonicalOnly_fold _ _).trans (canonicalOnly_fold _ _).symm) ?_ ?_ ?_
  · rw [hsum.lower, hsum'.lower, lowerBound_perm hp]
  · rw [hsum.upper, hsum'.upper, upperBound_perm hp]
  · refine Option.ext fun hash => ?_
    rw [hsum.hash, hsum'.hash, hp.mem_iff]

/-- The verdict on every order of constraints that clash, where it does not depend on the order. -/
theorem verdict_of_safe {c : QueryCoverage} {range : VerifiedLogCoverage} (hr : c.verified = some range) (hclash : Clash constraints)
    (hsafe : OrderSafe (some c) constraints) : (requireCoverage (some c) (constraints.foldl NativeConstraint.apply {})).isOk = true ↔
      range.start.blockNumber ≤ 1 ∨ AsksFor constraints (c.knows range) := by
  obtain ⟨bound, hf, hone, hv⟩ := verdict_of_clash hr hclash
  rw [hv]
  constructor
  · intro hok
    by_contra hno
    rw [not_or, not_le] at hno
    have hnot := (hsafe hclash c rfl range hr hno.1).resolve_left fun hall => hno.2 hall.1
    rcases hok with ⟨hash, hhead, hknown⟩ | hle
    · exact hno.2 ⟨hash, mem_of_hashOf.mp (mem_of_mem_head? hhead), hknown⟩
    · rcases fromBlock_fold constraints bound hf with hsmall | hbounded
      · omega
      · obtain ⟨d, hd, own, low, hown, hlow, hge⟩ := hbounded
        exact hnot.2 ⟨d, hd, own, low, hown, hlow, hle.trans hge⟩
  · rintro (hle | hasks)
    · exact .inr (hle.trans hone)
    · by_cases hstart : range.start.blockNumber ≤ 1
      · exact .inr (hstart.trans hone)
      have hall := (hsafe hclash c rfl range hr (not_le.mp hstart)).resolve_right fun hnone => hnone.1 hasks
      obtain ⟨hash, hmem, -⟩ := hasks
      -- Whichever hash comes first is known.
      obtain ⟨first, others, hcons⟩ := exists_cons_of_ne_nil (ne_nil_of_mem (mem_of_hashOf.mpr hmem))
      have hfirst := mem_of_hashOf.mp (hcons ▸ mem_cons_self : first ∈ constraints.filterMap hashOf)
      refine .inl ⟨first, by rw [hcons]; rfl, ?_⟩
      by_contra hunknown
      exact hall.2 ⟨first, hfirst, by simpa using hunknown⟩

/-- The verdict is the same for every order exactly where the constraints are safe. -/
theorem orderSafe_iff (constraints : List NativeConstraint) (coverage : Option QueryCoverage) :
    (∀ cs', constraints.Perm cs' → (requireCoverage coverage (cs'.foldl NativeConstraint.apply {})).isOk =
      (requireCoverage coverage (constraints.foldl NativeConstraint.apply {})).isOk) ↔ OrderSafe coverage constraints := by
  constructor
  · rintro hsame hclash c rfl range hr hstart
    by_contra hno
    rw [not_or, not_and_or, not_and_or, not_not, not_not, not_not] at hno
    obtain ⟨cs₁, hp₁, hyes⟩ := exists_admitted hr hclash hno.2
    obtain ⟨cs₂, hp₂, hnot⟩ := exists_refused hr hclash hstart fun hasks => hno.1.resolve_left (not_not.mpr hasks)
    rw [hsame cs₁ hp₁] at hyes
    rw [hsame cs₂ hp₂, hyes] at hnot
    nomatch hnot
  · intro hsafe cs' hp
    by_cases hclash : Clash constraints
    · cases coverage with
      | none => rfl
      | some c =>
        cases hr : c.verified with
        | none => simp [requireCoverage, QueryCoverage.check, hr, canonicalOnly_fold, rejectIf, okOr, bind, Except.bind]
        | some range =>
          have hasks : ∀ p, AsksFor cs' p ↔ AsksFor constraints p := by
            intro p
            simp [AsksFor, hp.mem_iff]
          have hbounded : ∀ n, BoundedFrom cs' n ↔ BoundedFrom constraints n := by
            intro n
            simp [BoundedFrom, hp.mem_iff]
          have hsafe' : OrderSafe (some c) cs' := by
            intro _ d hd r hr hs
            rw [hasks, hasks, hbounded]
            exact hsafe hclash d hd r hr hs
          rw [Bool.eq_iff_iff, verdict_of_safe hr (Clash.perm hclash hp) hsafe', verdict_of_safe hr hclash hsafe, hasks]
    · rw [requireCoverage_perm hp hclash]

theorem scanFilters_isOk {exprs : List DataFusionExpr}
    (h : buildNativeScanFilters exprs = .ok [filter]) : (scanFilters coverage exprs).isOk = (requireCoverage coverage filter).isOk := by
  unfold scanFilters
  cases hverdict : requireCoverage coverage filter with
  | ok _ => simp [h, hverdict, Except.mapError, bind, Except.bind, List.forM, pure, Except.pure, Except.isOk, Except.toBool]
  | error _ => simp [h, hverdict, Except.mapError, bind, Except.bind, List.forM, Except.isOk, Except.toBool]

end OrderAux

open OrderAux

namespace OrderWitness

/-- `block_number >= 100`. -/
def fromHundred : DataFusionExpr :=
  .binaryExpr (.column ⟨some "logs", "block_number"⟩) .gtEq (.literal (.uint64 (some 100)))

def addressIs (text : String) : DataFusionExpr := .binaryExpr (.column ⟨some "logs", "address"⟩) .eq (.literal (.utf8 (some text)))

def first : DataFusionExpr := addressIs "0x0000000000000000000000000000000000000001"

def second : DataFusionExpr := addressIs "0x0000000000000000000000000000000000000002"

/-- Verified events of blocks 100 to 200. -/
def coverage : QueryCoverage where
  verified := some { start := ⟨100, 1, 1200⟩, stop := ⟨200, 2, 2400⟩ }
  headers := []

def refused : ScanError := .coverage (.outsideRange 1 0 100 200)

theorem two_supported : ∀ expr ∈ [fromHundred, first], supportsExactPushdown expr = true := by
  decide +kernel

/-- The filter of the two predicates is not marked, so their constraints do not clash. -/
theorem two_not_clash {constraints : List NativeConstraint} (h : List.Forall₂ Pushed [fromHundred, first] constraints) :
    ¬Clash constraints := by
  intro hclash
  have hto : (buildNativeScanFilters [fromHundred, first]).map (fun filters => filters.map (·.toBlock)) = .ok [none] := by
    decide +kernel
  rw [PushdownAux.buildNativeScanFilters_exact h two_supported] at hto
  rcases fold_summary constraints with hmarked | hsummary
  · simp [Except.map, hmarked.2.2] at hto
  · exact hsummary.not_clash hclash

end OrderWitness

end Logex
