import Logex.Query.Pushdown

/-!
# Lemmas on pushdown

A pushed predicate is one of a few native constraints, whichever way it was written. `NativeConstraint` is that common form: each
one says what it does to a filter and what it asks of a row, and applying it narrows the rows a filter matches by exactly that.
-/

namespace Logex

open Lib List
open FixedBytes (toBytes)

variable {op : Operator} {value : Nat} {reversed : Bool} {literal : ScalarValue} {bound number : Nat} {low high : Nat}
  {index : Fin 4} {α : Type} {a b : Bytes} {n : Nat}

/-! ## Text -/

theorem hexText_inj : hexText a = hexText b ↔ a = b := by
  constructor
  · intro h
    simp only [hexText, List.cons.injEq, true_and] at h
    exact hexEncode_injective h
  · rintro rfl
    rfl

theorem hexText_lt : hexText a < hexText b ↔ a < b := by
  simp [hexText, hexEncode_lt]

/-- A literal that parses is the canonical text of its bytes. -/
theorem hexText_of_parse {value : String} {bs : Bytes} (h : parseSqlHexBytes value = some bs) : value.toList = hexText bs := by
  unfold parseSqlHexBytes at h
  split at h
  · rename_i hex ht
    split at h
    · nomatch h
    · rename_i hl
      rw [ht, hexText, hexEncode_of_hexDecode ?_ h]
      intro c hc
      simp only [Bool.not_eq_true, any_eq_false] at hl
      exact hl c hc
  · nomatch h

theorem hexText_of_parseFixed {value : String} {x : FixedBytes n} (h : parseSqlFixedBytes n value = some x) :
    value.toList = hexText (toBytes x) := by
  simp only [parseSqlFixedBytes, Option.bind_eq_bind, Option.bind_eq_some_iff] at h
  obtain ⟨bytes, hb, h⟩ := h
  split at h
  · rename_i hleh
    rw [← Option.some.inj h, FixedBytes.toBytes_ofBytes hleh]
    exact hexText_of_parse hb
  · nomatch h

theorem numericScalar_value (h : numericScalar literal = some value) : literal.value = .number value := by
  have hsig : ∀ i : Int, unsignedScalar i = some value → i = value := by
    intro i hi
    unfold unsignedScalar at hi
    split at hi
    · rw [← Option.some.inj hi]
      omega
    · nomatch hi
  unfold numericScalar at h
  split at h
  case h_9 => nomatch h
  all_goals first
    | exact congrArg SqlValue.number (congrArg Nat.cast (Option.some.inj h))
    | exact congrArg SqlValue.number (hsig _ h)

theorem parseScalar_value {par : String → Option α} {x : α}
    (h : parseScalar par literal = some x) : ∃ text, par text = some x ∧ literal.value = .text text.toList := by
  unfold parseScalar at h
  split at h
  · exact ⟨_, h, rfl⟩
  · exact ⟨_, h, rfl⟩
  · exact ⟨_, h, rfl⟩
  · nomatch h

theorem parseBytesScalar_value {bs : Bytes} (h : parseBytesScalar literal = some bs) : literal.value = .text (hexText bs) := by
  obtain ⟨text, hp, hv⟩ := parseScalar_value h
  rw [hv, hexText_of_parse hp]

theorem parseFixedScalar_value {x : FixedBytes n}
    (h : parseScalar (parseSqlFixedBytes n) literal = some x) : literal.value = .text (hexText (toBytes x)) := by
  obtain ⟨text, hp, hv⟩ := parseScalar_value h
  rw [hv, hexText_of_parseFixed hp]

/-! ## SQL values -/

theorem SqlValue.or_eq_true {a b : SqlValue} : a.or b = .boolean true ↔ a = .boolean true ∨ b = .boolean true := by
  unfold SqlValue.or
  split <;> simp_all

theorem SqlValue.and_eq_true {a b : SqlValue} : a.and b = .boolean true ↔ a = .boolean true ∧ b = .boolean true := by
  unfold SqlValue.and
  split <;> simp_all

theorem SqlValue.isIn_eq_true {value : SqlValue} {xs : List SqlValue} :
    value.isIn xs = .boolean true ↔ ∃ item ∈ xs, binary .eq value item = .boolean true := by
  induction xs with
  | nil => simp [SqlValue.isIn]
  | cons item rest ih =>
    rw [SqlValue.isIn, foldr_cons, SqlValue.or_eq_true]
    change _ ∨ value.isIn rest = _ ↔ _
    rw [ih, exists_mem_cons_iff]

theorem SqlValue.binary_number {a b : Nat} :
    SqlValue.binary op (.number a) (.number b) = .boolean true ↔ op.compare a b = some true := by
  cases op <;> simp [SqlValue.binary, SqlValue.ofBool, Operator.compare, SqlValue.and, SqlValue.or]

theorem SqlValue.binary_text {a b : List Char} :
    SqlValue.binary op (.text a) (.text b) = .boolean true ↔ op.compare a b = some true := by
  cases op <;> simp [SqlValue.binary, SqlValue.ofBool, Operator.compare, SqlValue.and, SqlValue.or]

/-- Canonical texts are equal exactly when their values are. -/
theorem SqlValue.text_eq {x y : FixedBytes n} :
    SqlValue.binary .eq (.text (hexText (toBytes x))) (.text (hexText (toBytes y))) = .boolean true ↔ x = y := by
  rw [SqlValue.binary_text]
  simp [Operator.compare, hexText_inj, FixedBytes.toBytes_inj]

/-! ## Constraints -/

/-- The native form of a pushed predicate. -/
inductive NativeConstraint where
  | block (op : Operator) (value : Nat) (reversed : Bool)
  | timestamp (op : Operator) (value : Nat) (reversed : Bool)
  | blockRange (low high : Nat)
  | timestampRange (low high : Nat)
  | dataLen (value : Nat)
  | data (op : Operator) (value : Bytes)
  | blockHash (hash : B256)
  | addresses (list : List Address)
  | topic (index : Fin 4) (allowed : TopicConstraint)

/-- The values of a row are those of its column types. -/
structure LogRow.Fits (row : LogRow) : Prop where
  blockNumber : row.blockNumber ≤ u64Max
  timestamp : row.timestamp ≤ u64Max
  dataLen : row.dataLen ≤ u32Max

namespace NativeConstraint

/-- What a constraint does to a filter. -/
def apply (filter : NativeLogFilter) : NativeConstraint → NativeLogFilter
  | .block op value reversed => applyBlockNumberConstraint filter op value reversed
  | .timestamp op value reversed => applyTimestampConstraint filter op value reversed
  | .blockRange low high => applyBlockRange filter low high
  | .timestampRange low high => applyTimestampRange filter low high
  | .dataLen value => applyDataLenConstraint filter value
  | .data op value => applyDataConstraint filter op value
  | .blockHash hash => applyBlockHashConstraint filter hash
  | .addresses list => mergeAddresses filter list
  | .topic index allowed => mergeTopic filter index allowed

/-- A comparison of a number with a literal on either side. -/
def compareNumber (op : Operator) (value : Nat) (reversed : Bool) (number : Nat) : Bool :=
  (if reversed then op.compare value number else op.compare number value) == some true

/-- What a constraint asks of a row. -/
def holds (row : LogRow) : NativeConstraint → Bool
  | .block op value reversed => compareNumber op value reversed row.blockNumber
  | .timestamp op value reversed => compareNumber op value reversed row.timestamp
  | .blockRange low high => decide (low ≤ row.blockNumber) && decide (row.blockNumber ≤ high)
  | .timestampRange low high => decide (low ≤ row.timestamp) && decide (row.timestamp ≤ high)
  | .dataLen value => row.dataLen == value
  | .data op value => op.compare (hexText row.data) (hexText value) == some true
  | .blockHash hash => row.blockHash == hash
  | .addresses list => list.contains row.address
  | .topic index allowed => topicMatchesConstraint (row.topic index) allowed

/-- The operators that are pushed. -/
def Valid : NativeConstraint → Prop
  | .block op _ _ => supportsNumericOperator op = true
  | .timestamp op _ _ => supportsNumericOperator op = true
  | .data op _ => supportsDataOperator op = true
  | _ => True

end NativeConstraint

/-! ### What a filter matches -/

section Matches

/-- A number within bounds. -/
def InBounds (bounds : Option Nat × Option Nat) (number : Nat) : Prop :=
  (∀ bound ∈ bounds.1, bound ≤ number) ∧ ∀ bound ∈ bounds.2, number ≤ bound

/-- Data between two bounds and none of some values. -/
def DataWithin (low high : Option Bytes) (excluded : List Bytes) (data : Bytes) : Prop :=
  (∀ bound ∈ low, ¬data < bound) ∧ (∀ bound ∈ high, ¬bound < data) ∧ data ∉ excluded

/-- Topics that meet a constraint at each position. -/
def TopicsMatch (count : Nat) (topics : Fin 4 → TopicConstraint) (row : LogRow) : Prop :=
  count ≤ 4 ∧ ∀ index : Fin 4, (count ≤ index ∨ (row.topic index).isSome) ∧ topicMatchesConstraint (row.topic index) (topics index) = true

variable {row : LogRow} {filter : NativeLogFilter}

theorem matchesNativeFilter_iff : matchesNativeFilter row filter = true ↔
    (∀ hash ∈ filter.blockHash, row.blockHash = hash) ∧ InBounds (filter.fromBlock, filter.toBlock) row.blockNumber ∧
    InBounds (filter.fromTimestamp, filter.toTimestamp) row.timestamp ∧ (filter.addresses = [] ∨ row.address ∈ filter.addresses) ∧
    (∀ len ∈ filter.dataLen, row.dataLen = len) ∧ DataWithin filter.dataMin filter.dataMax filter.dataNotEquals row.data ∧
    TopicsMatch filter.minTopicCount filter.topics row := by
  simp only [matchesNativeFilter, InBounds, DataWithin, TopicsMatch, Bool.and_eq_true, Option.all_eq_true, beq_iff_eq,
    Bool.not_eq_true', decide_eq_false_iff_not, not_lt, Bool.or_eq_true, List.isEmpty_iff, List.contains_iff_mem,
    List.any_eq_false, List.all_eq_true, List.mem_finRange, true_implies, decide_eq_true_eq]
  constructor
  · rintro ⟨⟨⟨⟨⟨⟨⟨⟨⟨⟨⟨h1, h2⟩, h3⟩, h4⟩, h5⟩, h6⟩, h7⟩, h8⟩, h9⟩, h10⟩, h11⟩, h12⟩
    exact ⟨h1, ⟨h2, h3⟩, ⟨h4, h5⟩, h6, h7, ⟨h8, h9, fun hmem => h10 _ hmem rfl⟩, h11, h12⟩
  · rintro ⟨h1, ⟨h2, h3⟩, ⟨h4, h5⟩, h6, h7, ⟨h8, h9, h10⟩, h11, h12⟩
    exact ⟨⟨⟨⟨⟨⟨⟨⟨⟨⟨⟨h1, h2⟩, h3⟩, h4⟩, h5⟩, h6⟩, h7⟩, h8⟩, h9⟩, fun value hmem heq => h10 (heq ▸ hmem)⟩, h11⟩, h12⟩

/-- The empty filter matches nothing. -/
theorem not_matches_markFilterEmpty : ¬matchesNativeFilter row (markFilterEmpty filter) = true := by
  rw [matchesNativeFilter_iff]
  rintro ⟨-, ⟨hlow, hh⟩, -⟩
  have h1 := hlow 1 rfl
  have h0 := hh 0 rfl
  omega

theorem mem_narrowFrom {cur : Option Nat} :
    (∀ b ∈ narrowFrom cur bound, b ≤ number) ↔ (∀ b ∈ cur, b ≤ number) ∧ bound ≤ number := by
  cases cur with
  | none | some cur => simp [narrowFrom]

theorem mem_narrowTo {cur : Option Nat} : (∀ b ∈ narrowTo cur bound, number ≤ b) ↔ (∀ b ∈ cur, number ≤ b) ∧ number ≤ bound := by
  cases cur with
  | none | some cur => simp [narrowTo]

variable {bou : Option Nat × Option Nat}

theorem inBounds_narrowFrom : InBounds (narrowFrom bou.1 bound, bou.2) number ↔ InBounds bou number ∧ bound ≤ number := by
  rw [InBounds, mem_narrowFrom, InBounds, and_right_comm]

theorem inBounds_narrowTo : InBounds (bou.1, narrowTo bou.2 bound) number ↔ InBounds bou number ∧ number ≤ bound := by
  rw [InBounds, mem_narrowTo, InBounds, and_assoc]

/-- The operator with its sides exchanged. -/
def Operator.flip : Operator → Operator
  | .lt => .gt
  | .ltEq => .gtEq
  | .gt => .lt
  | .gtEq => .ltEq
  | op => op

theorem Operator.compare_flip [LinearOrder α] (op : Operator) (a b : α) : op.flip.compare a b = op.compare b a := by
  cases op <;> simp [Operator.flip, Operator.compare, eq_comm]

theorem narrowBounds_reversed (op : Operator) (value : Nat) (bou : Option Nat × Option Nat) :
    narrowBounds op value true bou = narrowBounds op.flip value false bou := by
  cases op <;> rfl

/-- What narrowed bounds hold, and that there are none only where the comparison holds of no number of the type. -/
theorem inBounds_narrowBounds {number : Nat} (hop : supportsNumericOperator op = true) (hf : number ≤ u64Max) :
    (∃ nar, narrowBounds op value reversed bou = some nar ∧ InBounds nar number) ↔
      InBounds bou number ∧ NativeConstraint.compareNumber op value reversed number = true := by
  have hdir : ∀ op, supportsNumericOperator op = true →
      ((∃ nar, narrowBounds op value false bou = some nar ∧ InBounds nar number) ↔
        InBounds bou number ∧ op.compare number value = some true) := by
    intro op hop
    cases op with
    | eq =>
      simp only [narrowBounds, Option.some.injEq, exists_eq_left', Operator.compare, decide_eq_true_eq]
      rw [show (narrowFrom bou.1 value, narrowTo bou.2 value) =
        ((narrowFrom bou.1 value, bou.2).1, narrowTo (narrowFrom bou.1 value, bou.2).2 value) from rfl,
        inBounds_narrowTo, inBounds_narrowFrom, and_assoc]
      exact and_congr_right fun _ => by omega
    | gt =>
      simp only [narrowBounds, checkedAdd, Operator.compare, Option.some.injEq, decide_eq_true_eq]
      by_cases hb : value + 1 ≤ u64Max
      · simp only [if_pos hb, Option.map_some, Option.some.injEq, exists_eq_left', inBounds_narrowFrom]
        exact and_congr_right fun _ => by omega
      · simp only [if_neg hb, Option.map_none, reduceCtorEq, false_and, exists_false, false_iff, not_and]
        exact fun _ => by omega
    | gtEq =>
      simp only [narrowBounds, Option.some.injEq, exists_eq_left', Operator.compare, decide_eq_true_eq, inBounds_narrowFrom]
    | lt =>
      simp only [narrowBounds, checkedSub, Operator.compare, Option.some.injEq, decide_eq_true_eq]
      by_cases hb : 1 ≤ value
      · simp only [if_pos hb, Option.map_some, Option.some.injEq, exists_eq_left', inBounds_narrowTo]
        exact and_congr_right fun _ => by omega
      · simp only [if_neg hb, Option.map_none, reduceCtorEq, false_and, exists_false, false_iff, not_and]
        exact fun _ => by omega
    | ltEq =>
      simp only [narrowBounds, Option.some.injEq, exists_eq_left', Operator.compare, decide_eq_true_eq, inBounds_narrowTo]
    | notEq | and | or => simp [supportsNumericOperator] at hop
  cases reversed with
  | false => simpa [NativeConstraint.compareNumber] using hdir op hop
  | true =>
    rw [narrowBounds_reversed, hdir op.flip (by cases op <;> exact hop), Operator.compare_flip]
    simp [NativeConstraint.compareNumber]

/-! ### Each constraint -/

theorem matches_applyBlockNumberConstraint (hf : row.Fits)
    (hop : supportsNumericOperator op = true) : matchesNativeFilter row (applyBlockNumberConstraint filter op value reversed) = true ↔
      matchesNativeFilter row filter = true ∧ NativeConstraint.compareNumber op value reversed row.blockNumber = true := by
  have hs := @inBounds_narrowBounds op value reversed (filter.fromBlock, filter.toBlock) _ hop hf.blockNumber
  unfold applyBlockNumberConstraint
  cases hnar : narrowBounds op value reversed (filter.fromBlock, filter.toBlock) with
  | none =>
    simp only [hnar, reduceCtorEq, false_and, exists_false, false_iff] at hs
    refine iff_of_false not_matches_markFilterEmpty fun h => hs ⟨?_, h.2⟩
    exact (matchesNativeFilter_iff.mp h.1).2.1
  | some narrowed =>
    simp only [hnar, Option.some.injEq, exists_eq_left'] at hs
    simp only [matchesNativeFilter_iff, hs]
    tauto

theorem matches_applyTimestampConstraint (hf : row.Fits)
    (hop : supportsNumericOperator op = true) : matchesNativeFilter row (applyTimestampConstraint filter op value reversed) = true ↔
      matchesNativeFilter row filter = true ∧ NativeConstraint.compareNumber op value reversed row.timestamp = true := by
  have hs := @inBounds_narrowBounds op value reversed (filter.fromTimestamp, filter.toTimestamp) _ hop hf.timestamp
  unfold applyTimestampConstraint
  cases hnar : narrowBounds op value reversed (filter.fromTimestamp, filter.toTimestamp) with
  | none =>
    simp only [hnar, reduceCtorEq, false_and, exists_false, false_iff] at hs
    refine iff_of_false not_matches_markFilterEmpty fun h => hs ⟨?_, h.2⟩
    exact (matchesNativeFilter_iff.mp h.1).2.2.1
  | some narrowed =>
    simp only [hnar, Option.some.injEq, exists_eq_left'] at hs
    simp only [matchesNativeFilter_iff, hs]
    tauto

theorem inBounds_narrow {low high number : Nat} :
    InBounds (narrowFrom bou.1 low, narrowTo bou.2 high) number ↔ InBounds bou number ∧ low ≤ number ∧ number ≤ high := by
  rw [InBounds, mem_narrowFrom, mem_narrowTo, InBounds]
  tauto

theorem matches_applyBlockRange : matchesNativeFilter row (applyBlockRange filter low high) = true ↔
    matchesNativeFilter row filter = true ∧ low ≤ row.blockNumber ∧ row.blockNumber ≤ high := by
  simp only [matchesNativeFilter_iff, applyBlockRange, @inBounds_narrow (filter.fromBlock, filter.toBlock)]
  tauto

theorem matches_applyTimestampRange : matchesNativeFilter row (applyTimestampRange filter low high) = true ↔
    matchesNativeFilter row filter = true ∧ low ≤ row.timestamp ∧ row.timestamp ≤ high := by
  simp only [matchesNativeFilter_iff, applyTimestampRange, @inBounds_narrow (filter.fromTimestamp, filter.toTimestamp)]
  tauto

/-- A value that must agree with the one there is. -/
theorem forall_mem_of_agrees [DecidableEq α] {cur : Option α} {value x : α}
    (h : ¬cur.any (fun cur => cur ≠ value) = true) : (∀ v ∈ some value, x = v) ↔ (∀ v ∈ cur, x = v) ∧ x = value := by
  cases cur with
  | none => simp
  | some cur =>
    have hs : cur = value := by simpa using h
    simp [hs]

/-- A value that differs from the one there is cannot be met. -/
theorem not_forall_mem_of_differs [DecidableEq α] {cur : Option α} {value x : α}
    (h : cur.any (fun cur => cur ≠ value) = true) : ¬((∀ v ∈ cur, x = v) ∧ x = value) := by
  rintro ⟨hcur, rfl⟩
  cases cur with
  | none => nomatch h
  | some cur =>
    have hne : cur ≠ x := by simpa using h
    exact hne (hcur cur rfl).symm

theorem matches_applyDataLenConstraint (hf : row.Fits) : matchesNativeFilter row (applyDataLenConstraint filter value) = true ↔
      matchesNativeFilter row filter = true ∧ row.dataLen = value := by
  unfold applyDataLenConstraint
  split
  · rename_i hc
    refine iff_of_false not_matches_markFilterEmpty fun h => ?_
    rcases hc with hl | hdif
    · have := hf.dataLen
      omega
    · exact not_forall_mem_of_differs hdif ⟨(matchesNativeFilter_iff.mp h.1).2.2.2.2.1, h.2⟩
  · rename_i hagr
    simp only [matchesNativeFilter_iff, forall_mem_of_agrees (fun h => hagr (.inr h))]
    tauto

theorem matches_applyBlockHashConstraint {value : B256} : matchesNativeFilter row (applyBlockHashConstraint filter value) = true ↔
    matchesNativeFilter row filter = true ∧ row.blockHash = value := by
  unfold applyBlockHashConstraint
  split
  · rename_i hdif
    refine iff_of_false not_matches_markFilterEmpty fun h => ?_
    exact not_forall_mem_of_differs hdif ⟨(matchesNativeFilter_iff.mp h.1).1, h.2⟩
  · rename_i hagr
    simp only [matchesNativeFilter_iff, forall_mem_of_agrees hagr]
    tauto

theorem not_lt_narrowMin {cur : Option Bytes} {value data : Bytes} :
    (∀ bound ∈ some (cur.elim value (maxBytes · value)), ¬data < bound) ↔ (∀ bound ∈ cur, ¬data < bound) ∧ ¬data < value := by
  cases cur with
  | none => simp
  | some cur => simp only [Option.elim_some, Option.mem_some_iff, forall_eq', lt_maxBytes, not_or]

theorem not_narrowMax_lt {cur : Option Bytes} {value data : Bytes} :
    (∀ bound ∈ some (cur.elim value (minBytes · value)), ¬bound < data) ↔ (∀ bound ∈ cur, ¬bound < data) ∧ ¬value < data := by
  cases cur with
  | none => simp
  | some cur => simp only [Option.elim_some, Option.mem_some_iff, forall_eq', minBytes_lt, not_or]

/-- Canonical texts compare as the data they spell. -/
theorem compare_hexText : (Operator.eq.compare (hexText a) (hexText b) = some true ↔ ¬a < b ∧ ¬b < a) ∧
    (Operator.notEq.compare (hexText a) (hexText b) = some true ↔ a ≠ b) ∧
    (Operator.gtEq.compare (hexText a) (hexText b) = some true ↔ ¬a < b) ∧
    (Operator.ltEq.compare (hexText a) (hexText b) = some true ↔ ¬b < a) := by
  simp only [Operator.compare, Option.some.injEq, decide_eq_true_eq, ← hexText_lt, not_lt, ne_eq, hexText_inj]
  refine ⟨?_, trivial, trivial, trivial⟩
  rw [← hexText_inj, le_antisymm_iff, and_comm]

theorem matches_applyDataConstraint {value : Bytes} (hop : supportsDataOperator op = true) :
    matchesNativeFilter row (applyDataConstraint filter op value) = true ↔
      matchesNativeFilter row filter = true ∧ op.compare (hexText row.data) (hexText value) = some true := by
  obtain ⟨heq, hne, hge, hle⟩ := @compare_hexText row.data value
  cases op with
  | eq =>
    rw [heq]
    simp only [matchesNativeFilter_iff, applyDataConstraint, DataWithin, not_lt_narrowMin, not_narrowMax_lt]
    tauto
  | gtEq =>
    rw [hge]
    simp only [matchesNativeFilter_iff, applyDataConstraint, DataWithin, not_lt_narrowMin]
    tauto
  | ltEq =>
    rw [hle]
    simp only [matchesNativeFilter_iff, applyDataConstraint, DataWithin, not_narrowMax_lt]
    tauto
  | notEq =>
    rw [hne]
    simp only [matchesNativeFilter_iff, applyDataConstraint, DataWithin, mem_append, mem_singleton, not_or]
    constructor
    · rintro ⟨h1, h2, h3, h4, h5, ⟨h6, h7, h8, h9⟩, h10⟩
      exact ⟨⟨h1, h2, h3, h4, h5, ⟨h6, h7, h8⟩, h10⟩, h9⟩
    · rintro ⟨⟨h1, h2, h3, h4, h5, ⟨h6, h7, h8⟩, h10⟩, h9⟩
      exact ⟨h1, h2, h3, h4, h5, ⟨h6, h7, h8, h9⟩, h10⟩
  | lt | gt | and | or => simp [supportsDataOperator] at hop

theorem matches_mergeAddresses {list : List Address} : matchesNativeFilter row (mergeAddresses filter list) = true ↔
    matchesNativeFilter row filter = true ∧ row.address ∈ list := by
  have hmem : row.address ∈ (if filter.addresses = [] then list else filter.addresses.filter list.contains) ↔
      (filter.addresses = [] ∨ row.address ∈ filter.addresses) ∧ row.address ∈ list := by
    split
    · rename_i hn
      simp [hn]
    · rename_i hs
      simp [hs]
  unfold mergeAddresses
  generalize (if filter.addresses = [] then list else filter.addresses.filter list.contains) = add at hmem
  by_cases hem : add = []
  · rw [if_pos hem]
    refine iff_of_false not_matches_markFilterEmpty fun h => ?_
    have hin := hmem.mpr ⟨(matchesNativeFilter_iff.mp h.1).2.2.2.1, h.2⟩
    rw [hem] at hin
    exact not_mem_nil hin
  · rw [if_neg hem]
    simp only [matchesNativeFilter_iff, hem, false_or, hmem]
    tauto

theorem topicMatches_iff {top : Option B256} {all : TopicConstraint} : topicMatchesConstraint top all = true ↔ match all with
      | .any => True
      | .one exp => top = some exp
      | .anyOf can => ∃ t ∈ can, top = some t := by
  cases all with
  | any | one exp => simp [topicMatchesConstraint]
  | anyOf can =>
    cases top with
    | none | some top => simp [topicMatchesConstraint]

theorem topicMatches_merge {topic : Option B256} {current next : TopicConstraint} :
    topicMatchesConstraint topic (mergeTopicConstraint current next) = true ↔
      topicMatchesConstraint topic current = true ∧ topicMatchesConstraint topic next = true := by
  cases current with
  | any => simp [mergeTopicConstraint, topicMatches_iff]
  | one current =>
    cases next with
    | any => simp [mergeTopicConstraint, topicMatches_iff]
    | one next =>
      simp only [mergeTopicConstraint]
      split
      · rename_i heq
        simp [topicMatches_iff, heq]
      · rename_i hne
        simp only [topicMatches_iff, not_mem_nil, false_and, exists_false, false_iff, not_and]
        rintro rfl h
        exact hne (Option.some.inj h)
    | anyOf next =>
      simp only [mergeTopicConstraint]
      split
      · rename_i hmem
        have hmem' : current ∈ next := by simpa using hmem
        simp only [topicMatches_iff]
        exact ⟨fun h => ⟨h, current, hmem', h⟩, fun h => h.1⟩
      · rename_i hmem
        simp only [topicMatches_iff, not_mem_nil, false_and, exists_false, false_iff, not_and]
        rintro rfl ⟨t, ht, h⟩
        exact hmem (by simpa [Option.some.inj h] using ht)
  | anyOf current =>
    cases next with
    | any => simp [mergeTopicConstraint, topicMatches_iff]
    | one next =>
      simp only [mergeTopicConstraint]
      split
      · rename_i hmem
        have hmem' : next ∈ current := by simpa using hmem
        simp only [topicMatches_iff]
        exact ⟨fun h => ⟨⟨next, hmem', h⟩, h⟩, fun h => h.2⟩
      · rename_i hmem
        simp only [topicMatches_iff, not_mem_nil, false_and, exists_false, false_iff, not_and]
        rintro ⟨t, ht, rfl⟩ h
        exact hmem (by simpa [← Option.some.inj h] using ht)
    | anyOf next =>
      simp only [mergeTopicConstraint, topicMatches_iff, mem_filter, contains_iff_mem]
      constructor
      · rintro ⟨t, ⟨hcur, hn⟩, h⟩
        exact ⟨⟨t, hcur, h⟩, t, hn, h⟩
      · rintro ⟨⟨t, hcur, rfl⟩, t', hn, h⟩
        exact ⟨t, ⟨hcur, by rwa [Option.some.inj h]⟩, rfl⟩

theorem matches_mergeTopic {all : TopicConstraint} : matchesNativeFilter row (mergeTopic filter index all) = true ↔
    matchesNativeFilter row filter = true ∧ topicMatchesConstraint (row.topic index) all = true := by
  have hupd : (mergeTopic filter index all).topics =
    Function.update filter.topics index (mergeTopicConstraint (filter.topics index) all) := rfl
  have htop : TopicsMatch filter.minTopicCount (mergeTopic filter index all).topics row ↔
      TopicsMatch filter.minTopicCount filter.topics row ∧ topicMatchesConstraint (row.topic index) all = true := by
    constructor
    · rintro ⟨hc, h⟩
      have hin := (h index).2
      rw [hupd, Function.update_self, topicMatches_merge] at hin
      refine ⟨⟨hc, fun i => ⟨(h i).1, ?_⟩⟩, hin.2⟩
      by_cases hi : i = index
      · exact hi ▸ hin.1
      · have := (h i).2
        rwa [hupd, Function.update_of_ne hi] at this
    · rintro ⟨⟨hc, h⟩, hall⟩
      refine ⟨hc, fun i => ⟨(h i).1, ?_⟩⟩
      by_cases hi : i = index
      · subst hi
        rw [hupd, Function.update_self, topicMatches_merge]
        exact ⟨(h i).2, hall⟩
      · rw [hupd, Function.update_of_ne hi]
        exact (h i).2
  rw [matchesNativeFilter_iff, matchesNativeFilter_iff]
  change _ ∧ _ ∧ _ ∧ _ ∧ _ ∧ _ ∧ TopicsMatch filter.minTopicCount (mergeTopic filter index all).topics row ↔ _
  rw [htop]
  simp only [mergeTopic]
  tauto

/-- Applying a constraint keeps exactly the rows that also meet it. -/
theorem NativeConstraint.matches_apply (hf : row.Fits) {c : NativeConstraint} (hv : c.Valid) :
    matchesNativeFilter row (c.apply filter) = true ↔ matchesNativeFilter row filter = true ∧ c.holds row = true := by
  cases c with
  | block op value reversed => exact matches_applyBlockNumberConstraint hf hv
  | timestamp op value reversed => exact matches_applyTimestampConstraint hf hv
  | blockRange low high => simpa [NativeConstraint.holds, NativeConstraint.apply] using matches_applyBlockRange
  | timestampRange low high => simpa [NativeConstraint.holds, NativeConstraint.apply] using matches_applyTimestampRange
  | dataLen value => simpa [NativeConstraint.holds, NativeConstraint.apply] using matches_applyDataLenConstraint hf
  | data op value => simpa [NativeConstraint.holds, NativeConstraint.apply] using matches_applyDataConstraint hv
  | blockHash hash => simpa [NativeConstraint.holds, NativeConstraint.apply] using matches_applyBlockHashConstraint
  | addresses list => simpa [NativeConstraint.holds, NativeConstraint.apply] using matches_mergeAddresses
  | topic index allowed => exact matches_mergeTopic

/-- A list of constraints keeps exactly the rows that meet them all. -/
theorem NativeConstraint.matches_foldl (hf : row.Fits) {cs : List NativeConstraint} (hv : ∀ c ∈ cs, c.Valid) :
    matchesNativeFilter row (cs.foldl NativeConstraint.apply filter) = true ↔
      matchesNativeFilter row filter = true ∧ ∀ c ∈ cs, c.holds row = true := by
  induction cs generalizing filter with
  | nil => simp
  | cons c rest ih =>
    rw [forall_mem_cons] at hv
    rw [foldl_cons, ih hv.2, matches_apply hf hv.1, forall_mem_cons, and_assoc]

end Matches

/-! ### What predicates denote -/

/-- A predicate is `TRUE` of exactly the rows that meet a constraint. -/
structure Denotes (value : LogRow → SqlValue) (c : NativeConstraint) : Prop where
  valid : c.Valid
  holds : ∀ row, value row = .boolean true ↔ c.holds row = true

theorem LogRow.named_eq {row : LogRow} {name : String} {col : LogColumn} (h : LogColumn.ofName name = some col) :
    row.named name = row.column col := by
  rw [LogRow.named, h]
  rfl

/-- A comparison of a column with a literal, on either side. -/
def comparison (op : Operator) (column literal : SqlValue) (reversed : Bool) : SqlValue :=
  if reversed then SqlValue.binary op literal column else SqlValue.binary op column literal

theorem comparison_number {number value : Nat} : comparison op (.number number) (.number value) reversed = .boolean true ↔
      NativeConstraint.compareNumber op value reversed number = true := by
  cases reversed <;> simp [comparison, NativeConstraint.compareNumber, SqlValue.binary_number]

theorem denotes_block (hop : supportsNumericOperator op = true) :
    Denotes (fun row => comparison op (row.column .blockNumber) (.number value) reversed) (.block op value reversed) :=
  ⟨hop, fun _ => comparison_number⟩

theorem denotes_timestamp (hop : supportsNumericOperator op = true) :
    Denotes (fun row => comparison op (row.column .timestamp) (.number value) reversed) (.timestamp op value reversed) :=
  ⟨hop, fun _ => comparison_number⟩

theorem denotes_dataLen : Denotes (fun row => comparison .eq (row.column .dataLen) (.number value) false) (.dataLen value) := by
  refine ⟨trivial, fun row => ?_⟩
  rw [LogRow.column, comparison_number]
  simp [NativeConstraint.compareNumber, NativeConstraint.holds, Operator.compare]

theorem denotes_data {value : Bytes} (hop : supportsDataOperator op = true) :
    Denotes (fun row => comparison op (row.column .data) (.text (hexText value)) false) (.data op value) := by
  refine ⟨hop, fun row => ?_⟩
  rw [LogRow.column, comparison, if_neg Bool.false_ne_true, SqlValue.binary_text]
  simp [NativeConstraint.holds]

theorem denotes_blockHash {hash : B256} :
    Denotes (fun row => comparison .eq (row.column .blockHash) (.text (hexText (toBytes hash))) false) (.blockHash hash) := by
  refine ⟨trivial, fun row => ?_⟩
  rw [LogRow.column, comparison, if_neg Bool.false_ne_true, SqlValue.text_eq]
  simp [NativeConstraint.holds]

/-- A topic column equals a canonical literal where the topic is there and is that one. -/
theorem topic_eq_text {row : LogRow} {t : B256} :
    SqlValue.binary .eq (row.column (.topic index)) (.text (hexText (toBytes t))) = .boolean true ↔
      row.topic index = some t := by
  rw [LogRow.column]
  cases row.topic index with
  | none => simp [SqlValue.binary]
  | some present =>
    dsimp only
    rw [SqlValue.text_eq, Option.some.injEq]

theorem denotes_topic {t : B256} :
    Denotes (fun row => comparison .eq (row.column (.topic index)) (.text (hexText (toBytes t))) false)
      (.topic index (.one t)) := by
  refine ⟨trivial, fun row => ?_⟩
  rw [comparison, if_neg Bool.false_ne_true, topic_eq_text, NativeConstraint.holds, topicMatches_iff]

theorem denotes_addresses {list : List Address} :
    Denotes (fun row => (row.column .address).isIn (list.map fun a => .text (hexText (toBytes a)))) (.addresses list) := by
  refine ⟨trivial, fun row => ?_⟩
  rw [SqlValue.isIn_eq_true, NativeConstraint.holds, contains_iff_mem]
  simp only [LogRow.column, mem_map, exists_exists_and_eq_and, SqlValue.text_eq, exists_eq_right']

theorem denotes_topics {list : List B256} :
    Denotes (fun row => (row.column (.topic index)).isIn (list.map fun t => .text (hexText (toBytes t))))
      (.topic index (.anyOf list)) := by
  refine ⟨trivial, fun row => ?_⟩
  rw [SqlValue.isIn_eq_true, NativeConstraint.holds, topicMatches_iff]
  simp only [mem_map, exists_exists_and_eq_and, topic_eq_text]

theorem denotes_address {add : Address} :
    Denotes (fun row => comparison .eq (row.column .address) (.text (hexText (toBytes add))) false) (.addresses [add]) := by
  refine ⟨trivial, fun row => ?_⟩
  rw [LogRow.column, comparison, if_neg Bool.false_ne_true, SqlValue.text_eq]
  simp [NativeConstraint.holds]

theorem between_number {number low high : Nat} : SqlValue.between (.number number) (.number low) (.number high) = .boolean true ↔
    low ≤ number ∧ number ≤ high := by
  rw [SqlValue.between, SqlValue.and_eq_true, SqlValue.binary_number, SqlValue.binary_number]
  simp [Operator.compare]

theorem denotes_blockRange :
    Denotes (fun row => (row.column .blockNumber).between (.number low) (.number high)) (.blockRange low high) := by
  refine ⟨trivial, fun row => ?_⟩
  rw [LogRow.column, between_number]
  simp [NativeConstraint.holds]

theorem denotes_timestampRange :
    Denotes (fun row => (row.column .timestamp).between (.number low) (.number high)) (.timestampRange low high) := by
  refine ⟨trivial, fun row => ?_⟩
  rw [LogRow.column, between_number]
  simp [NativeConstraint.holds]

end Logex
