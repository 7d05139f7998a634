import Logex.Query.Sql

/-!
# Predicate pushdown

`sql.rs`: which planned predicates a native scan takes over, the filter they fold into, and the same for parsed predicates. An exact
predicate narrows one common filter; a disjunction over several columns only multiplies branches as a hint, within a budget.
-/

namespace Logex

open Lib

/-! ## Literals -/

def scalarLiteral : DataFusionExpr → Option ScalarValue
  | .literal value => some value
  | _ => none

/-- A signed literal that is not negative. -/
def unsignedScalar (value : Int) : Option Nat := if 0 ≤ value then some value.toNat else none

def numericScalar : ScalarValue → Option Nat
  | .uint64 (some value) => some value.toNat
  | .uint32 (some value) => some value.toNat
  | .uint16 (some value) => some value.toNat
  | .uint8 (some value) => some value.toNat
  | .int64 (some value) => unsignedScalar value.toInt
  | .int32 (some value) => unsignedScalar value.toInt
  | .int16 (some value) => unsignedScalar value.toInt
  | .int8 (some value) => unsignedScalar value.toInt
  | _ => none

/-- The log columns are canonical lower-case, `0x`-prefixed SQL strings. Byte comparisons are exact only for literals with that same
representation. Other strings must keep their SQL comparison in the general engine. -/
def parseSqlHexBytes (value : String) : Option Bytes :=
  match value.toList with
  | '0' :: 'x' :: hex => if hex.any isAsciiUppercase then none else hexDecode hex
  | _ => none

/-- A hexadecimal literal of exactly `n` bytes. -/
def parseSqlFixedBytes (n : Nat) (value : String) : Option (FixedBytes n) := do
  let bytes ← parseSqlHexBytes value
  if bytes.length = n then return FixedBytes.ofBytes n bytes else none

def parseSqlAddress (value : String) : Option Address := parseSqlFixedBytes 20 value

def parseSqlB256 (value : String) : Option B256 := parseSqlFixedBytes 32 value

/-- A string literal, parsed. -/
def parseScalar {α : Type} (parse : String → Option α) : ScalarValue → Option α
  | .utf8 (some value) | .utf8View (some value) | .largeUtf8 (some value) => parse value
  | _ => none

def parseAddressScalar : ScalarValue → Option Address := parseScalar parseSqlAddress

def parseB256Scalar : ScalarValue → Option B256 := parseScalar parseSqlB256

def parseBytesScalar : ScalarValue → Option Bytes := parseScalar parseSqlHexBytes

/-! ## Supported predicates -/

def normalizeBinary (left right : DataFusionExpr) : Option (String × ScalarValue × Bool) :=
  match left, right with
  | .column column, .literal literal => some (column.name, literal, false)
  | .literal literal, .column column => some (column.name, literal, true)
  | _, _ => none

def supportsNumericOperator : Operator → Bool
  | .eq | .gt | .gtEq | .lt | .ltEq => true
  | _ => false

def supportsDataOperator : Operator → Bool
  | .eq | .notEq | .gtEq | .ltEq => true
  | _ => false

/-- `supports_binary_pushdown` of an operator other than `OR`. -/
def supportsComparison (left : DataFusionExpr) (op : Operator) (right : DataFusionExpr) : Bool :=
  match normalizeBinary left right with
  | none => false
  | some (column, literal, reversed) => match LogColumn.ofName column, reversed with
    | some .blockNumber, _ | some .timestamp, _ => supportsNumericOperator op && (numericScalar literal).isSome
    | some .dataLen, false => op == .eq && (numericScalar literal).isSome
    | some .data, false => supportsDataOperator op && (parseBytesScalar literal).isSome
    | some .blockHash, false => op == .eq && (parseB256Scalar literal).isSome
    | some .address, false => op == .eq && (parseAddressScalar literal).isSome
    | some (.topic _), false => op == .eq && (parseB256Scalar literal).isSome
    | _, _ => false

def supportsBetweenPushdown (expr : DataFusionExpr) (negated : Bool) (low high : DataFusionExpr) : Bool :=
  match expr with
  | .column column =>
    (LogColumn.ofName column.name == some .blockNumber || LogColumn.ofName column.name == some .timestamp) && !negated &&
      ((scalarLiteral low).bind numericScalar).isSome && ((scalarLiteral high).bind numericScalar).isSome
  | _ => false

def supportsInListPushdown (expr : DataFusionExpr) (list : List DataFusionExpr) (negated : Bool) : Bool :=
  match negated, expr with
  | false, .column column => match LogColumn.ofName column.name with
    | some .address => list.all fun item => ((scalarLiteral item).bind parseAddressScalar).isSome
    | some (.topic _) => list.all fun item => ((scalarLiteral item).bind parseB256Scalar).isSome
    | _ => false
  | _, _ => false

/-- Whether a column takes membership constraints. -/
def isMembershipColumn (column : SqlColumn) : Bool :=
  match LogColumn.ofName column.name with
  | some .address | some (.topic _) => true
  | _ => false

/-- Every arm constrains the same qualified column. -/
def collectArm (next : SqlColumn) (literals : List DataFusionExpr) (column : Option SqlColumn) (values : List DataFusionExpr) :
    Option (Option SqlColumn × List DataFusionExpr) :=
  if isMembershipColumn next = false ∨ column.any (fun current => current ≠ next) then none
  else some (some next, values ++ literals)

/-- `collect` of `disjunction_as_in_list`. -/
def collectDisjunction : DataFusionExpr → Option SqlColumn → List DataFusionExpr → Option (Option SqlColumn × List DataFusionExpr)
  | .binaryExpr left .or right, column, values => do
    let (column, values) ← collectDisjunction left column values
    collectDisjunction right column values
  | .binaryExpr left .eq right, column, values =>
    match supportsComparison left .eq right, left with
    | true, .column next => collectArm next [right] column values
    | _, _ => none
  | .inList expr list negated, column, values =>
    match supportsInListPushdown expr list negated, expr with
    | true, .column next => collectArm next list column values
    | _, _ => none
  | _, _, _ => none

/-- The optimizer can turn a short `IN` list into an `OR` tree. Preserve the same exact membership filter only when every arm
constrains the same qualified address or topic column to canonical, non-null literals. -/
def disjunctionAsInList (left : DataFusionExpr) (op : Operator) (right : DataFusionExpr) : Option (SqlColumn × List DataFusionExpr) :=
  if op ≠ .or then none
  else do
    let (column, list) ← collectDisjunction left none []
    let (column, list) ← collectDisjunction right column list
    let column ← column
    return (column, list)

def supportsBinaryPushdown (left : DataFusionExpr) (op : Operator) (right : DataFusionExpr) : Bool :=
  if op = .or then (disjunctionAsInList left op right).isSome else supportsComparison left op right

def supportsExactPushdown : DataFusionExpr → Bool
  | .binaryExpr left op right => supportsBinaryPushdown left op right
  | .between expr negated low high => supportsBetweenPushdown expr negated low high
  | .inList expr list negated => supportsInListPushdown expr list negated
  | _ => false

/-! ## Constraints of a filter -/

/-- A lower bound narrowed. -/
def narrowFrom (current : Option Nat) (bound : Nat) : Option Nat := some (current.elim bound fun current => max current bound)

/-- An upper bound narrowed. -/
def narrowTo (current : Option Nat) (bound : Nat) : Option Nat := some (current.elim bound fun current => min current bound)

variable (filter : NativeLogFilter)

/-- An inverted inclusive interval represents the empty intersection without conflating it with an absent address constraint. Later
intersections cannot make it nonempty again. -/
def markFilterEmpty : NativeLogFilter := { filter with fromBlock := some 1, toBlock := some 0 }

variable (expr : DataFusionExpr) (op : Operator) (value : Nat) (reversed : Bool)

/-- The bounds of a numeric column under one more comparison, or none where it cannot hold. -/
def narrowBounds (bounds : Option Nat × Option Nat) : Option (Option Nat × Option Nat) :=
  match op, reversed with
  | .eq, _ => some (narrowFrom bounds.1 value, narrowTo bounds.2 value)
  | .gt, false | .lt, true => (checkedAdd value 1).map fun bound => (narrowFrom bounds.1 bound, bounds.2)
  | .gtEq, false | .ltEq, true => some (narrowFrom bounds.1 value, bounds.2)
  | .lt, false | .gt, true => (checkedSub value 1).map fun bound => (bounds.1, narrowTo bounds.2 bound)
  | .ltEq, false | .gtEq, true => some (bounds.1, narrowTo bounds.2 value)
  | _, _ => some bounds

def applyBlockNumberConstraint : NativeLogFilter :=
  match narrowBounds op value reversed (filter.fromBlock, filter.toBlock) with
  | some (fromBlock, toBlock) => { filter with fromBlock, toBlock }
  | none => markFilterEmpty filter

def applyTimestampConstraint : NativeLogFilter :=
  match narrowBounds op value reversed (filter.fromTimestamp, filter.toTimestamp) with
  | some (fromTimestamp, toTimestamp) => { filter with fromTimestamp, toTimestamp }
  | none => markFilterEmpty filter

/-- `block_number BETWEEN low AND high`. -/
def applyBlockRange (low high : Nat) : NativeLogFilter :=
  { filter with fromBlock := narrowFrom filter.fromBlock low, toBlock := narrowTo filter.toBlock high }

/-- `timestamp BETWEEN low AND high`. -/
def applyTimestampRange (low high : Nat) : NativeLogFilter :=
  { filter with fromTimestamp := narrowFrom filter.fromTimestamp low, toTimestamp := narrowTo filter.toTimestamp high }

def applyDataConstraint (value : Bytes) : NativeLogFilter :=
  match op with
  | .eq => { filter with dataMin := some (filter.dataMin.elim value (maxBytes · value)),
                         dataMax := some (filter.dataMax.elim value (minBytes · value)) }
  | .gtEq => { filter with dataMin := some (filter.dataMin.elim value (maxBytes · value)) }
  | .ltEq => { filter with dataMax := some (filter.dataMax.elim value (minBytes · value)) }
  | .notEq => { filter with dataNotEquals := filter.dataNotEquals ++ [value] }
  | _ => filter

def applyDataLenConstraint : NativeLogFilter :=
  if u32Max < value ∨ filter.dataLen.any (fun current => current ≠ value) then markFilterEmpty filter
  else { filter with dataLen := some value }

def applyBlockHashConstraint (value : B256) : NativeLogFilter :=
  if filter.blockHash.any (fun current => current ≠ value) then markFilterEmpty filter
  else { filter with blockHash := some value }

def mergeAddresses (next : List Address) : NativeLogFilter :=
  let addresses := if filter.addresses = [] then next else filter.addresses.filter next.contains
  if addresses = [] then markFilterEmpty { filter with addresses } else { filter with addresses }

def mergeTopicConstraint (current next : TopicConstraint) : TopicConstraint :=
  match current, next with
  | .any, next => next
  | .one current, .any => .one current
  | .anyOf current, .any => .anyOf current
  | .one current, .one next => if current = next then .one current else .anyOf []
  | .one current, .anyOf next => if next.contains current then .one current else .anyOf []
  | .anyOf current, .one next => if current.contains next then .one next else .anyOf []
  | .anyOf current, .anyOf next => .anyOf (current.filter next.contains)

/-- Merge into the constraint of one topic position. -/
def mergeTopic (index : Fin 4) (next : TopicConstraint) : NativeLogFilter :=
  { filter with topics := Function.update filter.topics index (mergeTopicConstraint (filter.topics index) next) }

/-! ## Planned predicates -/

/-- The literals of an `IN` list, each of which must parse. -/
def parseItems {α : Type} (parse : ScalarValue → Option α) (missing invalid : String) (list : List DataFusionExpr) :
    Except String (List α) :=
  list.mapM fun item => do
    let literal ← okOr missing (scalarLiteral item)
    okOr invalid (parse literal)

def applyInListPushdown (list : List DataFusionExpr) (negated : Bool) : Except String NativeLogFilter :=
  match expr with
  | .column column =>
    if negated then .error "NOT IN pushdown is unsupported"
    else match LogColumn.ofName column.name with
      | some .address => do
        let addresses ← parseItems parseAddressScalar "address IN requires string literals" "invalid address literal" list
        return mergeAddresses filter addresses
      | some (.topic index) => do
        let topics ← parseItems parseB256Scalar s!"{column.name} IN requires string literals" s!"invalid {column.name} literal" list
        return mergeTopic filter index (.anyOf topics)
      | _ => return filter
  | _ => .error "IN pushdown requires a column"

def applyBinaryPushdown (left : DataFusionExpr) (op : Operator) (right : DataFusionExpr) : Except String NativeLogFilter :=
  if op = .or then do
    let (column, list) ← okOr "unsupported pushed disjunction" (disjunctionAsInList left op right)
    applyInListPushdown filter (.column column) list false
  else match normalizeBinary left right with
    | none => .error "unable to normalize pushed filter"
    | some (column, literal, reversed) => match LogColumn.ofName column, reversed with
      | some .blockNumber, _ => do
        let value ← okOr "invalid block_number literal" (numericScalar literal)
        return applyBlockNumberConstraint filter op value reversed
      | some .timestamp, _ => do
        let value ← okOr "invalid timestamp literal" (numericScalar literal)
        return applyTimestampConstraint filter op value reversed
      | some .dataLen, false =>
        if op = .eq then do
          let value ← okOr "invalid data_len literal" (numericScalar literal)
          return applyDataLenConstraint filter value
        else return filter
      | some .data, false => do
        let value ← okOr "invalid data literal" (parseBytesScalar literal)
        return applyDataConstraint filter op value
      | some .blockHash, false =>
        if op = .eq then do
          let value ← okOr "invalid block_hash literal" (parseB256Scalar literal)
          return applyBlockHashConstraint filter value
        else return filter
      | some .address, false =>
        if op = .eq then do
          let value ← okOr "invalid address literal" (parseAddressScalar literal)
          return mergeAddresses filter [value]
        else return filter
      | some (.topic index), false =>
        if op = .eq then do
          let value ← okOr s!"invalid {column} literal" (parseB256Scalar literal)
          return mergeTopic filter index (.one value)
        else return filter
      | _, _ => return filter

def applyBetweenPushdown (negated : Bool) (low high : DataFusionExpr) : Except String NativeLogFilter :=
  match expr with
  | .column column => do
    rejectIf ((LogColumn.ofName column.name ≠ some .blockNumber ∧ LogColumn.ofName column.name ≠ some .timestamp) ∨ negated = true)
      "unsupported BETWEEN pushdown"
    let low ← okOr "invalid BETWEEN low bound" ((scalarLiteral low).bind numericScalar)
    let high ← okOr "invalid BETWEEN high bound" ((scalarLiteral high).bind numericScalar)
    return if LogColumn.ofName column.name = some .blockNumber then applyBlockRange filter low high
      else applyTimestampRange filter low high
  | _ => .error "between pushdown requires a column"

def applyPushdownExpr : DataFusionExpr → Except String NativeLogFilter
  | .binaryExpr left op right => applyBinaryPushdown filter left op right
  | .between expr negated low high => applyBetweenPushdown filter expr negated low high
  | .inList expr list negated => applyInListPushdown filter expr list negated
  | _ => .error "unsupported pushed filter"

/-! ## Hints -/

def maxSqlFilterBranches : Nat := 32

/-- The column of an arm that can become a candidate hint. -/
def armColumn : DataFusionExpr → Option SqlColumn
  | .binaryExpr left .eq right => match supportsComparison left .eq right, left with
    | true, .column column => some column
    | _, _ => none
  | .inList expr list negated => match supportsInListPushdown expr list negated, expr with
    | true, .column column => some column
    | _, _ => none
  | _ => none

/-- How many expressions the traversal of a disjunction takes up. -/
def disjunctionSize : DataFusionExpr → Nat
  | .binaryExpr left .or right => disjunctionSize left + disjunctionSize right + 1
  | _ => 1

theorem disjunctionSize_pos : 0 < disjunctionSize expr := by
  unfold disjunctionSize
  split
  · exact Nat.succ_pos _
  · exact Nat.one_pos

/-- The loop of `bounded_disjunction_arms`, with the top of the stack first. -/
def collectArms (pending arms : List DataFusionExpr) (first : Option SqlColumn) : Option (List DataFusionExpr) :=
  match pending with
  | [] => some arms
  | .binaryExpr left .or right :: rest =>
    if maxSqlFilterBranches < arms.length + (rest.length + 2) then none
    else collectArms (left :: right :: rest) arms first
  | next :: rest => match armColumn next with
    | none => none
    | some column =>
      if isMembershipColumn column = false ∨ first.any (fun first => first.relation ≠ column.relation) then none
      else collectArms rest (arms ++ [next]) (some column)
termination_by (pending.map disjunctionSize).sum
decreasing_by
  · simp only [List.map_cons, List.sum_cons, disjunctionSize]
    omega
  · have := disjunctionSize_pos next
    simp only [List.map_cons, List.sum_cons]
    omega

/-- Only canonical address or topic equality or membership arms from the same relation can become a candidate hint. SQL retains the
whole predicate. Bound traversal as well as the later Cartesian product of separate hints. -/
def boundedDisjunctionArms : DataFusionExpr → Option (List DataFusionExpr)
  | .binaryExpr left .or right => collectArms [.binaryExpr left .or right] [] none
  | _ => none

/-- Exact predicates narrow the common filter; hints are kept for later. -/
def planFilter (planned : NativeLogFilter × List (List DataFusionExpr)) (expr : DataFusionExpr) :
    Except String (NativeLogFilter × List (List DataFusionExpr)) :=
  if supportsExactPushdown expr then do
    let common ← applyPushdownExpr planned.1 expr
    return (common, planned.2)
  else match boundedDisjunctionArms expr with
    | some arms => return (planned.1, planned.2 ++ [arms])
    | none => .error "unsupported pushed filter"

/-- A hint beyond the budget is dropped: the residual SQL predicate still enforces it. Never truncate a disjunction and lose
matches. -/
def expandBranches (selected : List NativeLogFilter) (arms : List DataFusionExpr) : Except String (List NativeLogFilter) :=
  if maxSqlFilterBranches < selected.length * arms.length then return selected
  else do
    let expanded ← selected.mapM fun filter => arms.mapM (applyPushdownExpr filter)
    return expanded.flatten

def buildNativeScanFilters (filters : List DataFusionExpr) : Except String (List NativeLogFilter) := do
  let (common, disjunctions) ← filters.foldlM planFilter ({}, [])
  disjunctions.foldlM expandBranches [common]

inductive ScanError where
  | plan (text : String)
  | coverage (error : QueryCoverageError)
deriving DecidableEq, Repr

/-- The head of `LogexTableProvider::scan`: the filters of a scan, each of which the snapshot's coverage must admit. -/
def scanFilters (coverage : Option QueryCoverage) (filters : List DataFusionExpr) : Except ScanError (List NativeLogFilter) := do
  let selected ← (buildNativeScanFilters filters).mapError ScanError.plan
  selected.forM fun filter => (requireCoverage coverage filter).mapError ScanError.coverage
  return selected

/-! ## Parsed predicates -/

def sqlString : SqlAstExpr → Option String
  | .value (.singleQuotedString text) | .value (.doubleQuotedString text) | .value (.tripleSingleQuotedString text)
  | .value (.tripleDoubleQuotedString text) => some text
  | _ => none

def sqlU64 : SqlAstExpr → Option Nat
  | .value (.number text) => parseU64 text
  | _ => none

def normalizeSqlBinary (left right : SqlAstExpr) : Option (String × SqlAstExpr × Bool) :=
  match sqlIdentifier left, sqlIdentifier right with
  | some column, _ => some (column, right, false)
  | none, some column => some (column, left, true)
  | none, none => none

def sqlBinaryOperator : SqlBinaryOperator → Option Operator
  | .eq => some .eq
  | .gt => some .gt
  | .gtEq => some .gtEq
  | .lt => some .lt
  | .ltEq => some .ltEq
  | _ => none

/-- The filter an accepted predicate leaves, or none where it is not accepted. -/
def applySqlBinaryFilter (left : SqlAstExpr) (op : SqlBinaryOperator) (right : SqlAstExpr) : Option NativeLogFilter :=
  match normalizeSqlBinary left right with
  | none => none
  | some (column, literal, reversed) => match LogColumn.ofName column, reversed with
    | some .blockNumber, _ => do
      let value ← sqlU64 literal
      let op ← sqlBinaryOperator op
      return applyBlockNumberConstraint filter op value reversed
    | some .timestamp, _ => do
      let value ← sqlU64 literal
      let op ← sqlBinaryOperator op
      return applyTimestampConstraint filter op value reversed
    | some .dataLen, false =>
      if op = .eq then do
        let value ← sqlU64 literal
        return applyDataLenConstraint filter value
      else none
    | some .data, false => do
      let value ← (sqlString literal).bind parseSqlHexBytes
      if supportsDataOperator op.planned then return applyDataConstraint filter op.planned value else none
    | some .blockHash, false =>
      if op = .eq then do
        let value ← (sqlString literal).bind parseSqlB256
        return applyBlockHashConstraint filter value
      else none
    | some .address, false =>
      if op = .eq then do
        let value ← (sqlString literal).bind parseSqlAddress
        return mergeAddresses filter [value]
      else none
    | some (.topic index), false =>
      if op = .eq then do
        let value ← (sqlString literal).bind parseSqlB256
        return mergeTopic filter index (.one value)
      else none
    | _, _ => none

/-- `apply_sql_ast_filter`: the filter with whether the predicate was accepted. A conjunction keeps what its left side changed even
where its right side is not accepted. -/
def applySqlAstFilter (filter : NativeLogFilter) : SqlAstExpr → NativeLogFilter × Bool
  | .binaryOp left .and right =>
    match applySqlAstFilter filter left with
    | (filter, true) => applySqlAstFilter filter right
    | (filter, false) => (filter, false)
  | .binaryOp left op right => accepted filter (applySqlBinaryFilter filter left op right)
  | .between expr negated low high => accepted filter do
    let column ← if negated then none else sqlIdentifier expr
    let low ← sqlU64 low
    let high ← sqlU64 high
    match LogColumn.ofName column with
    | some .blockNumber => some (applyBlockRange filter low high)
    | some .timestamp => some (applyTimestampRange filter low high)
    | _ => none
  | .inList expr list negated => accepted filter do
    let column ← if negated then none else sqlIdentifier expr
    match LogColumn.ofName column with
    | some .address => do
      let addresses ← list.mapM fun item => (sqlString item).bind parseSqlAddress
      return mergeAddresses filter addresses
    | some (.topic index) => do
      let topics ← list.mapM fun item => (sqlString item).bind parseSqlB256
      return mergeTopic filter index (.anyOf topics)
    | _ => none
  | _ => (filter, false)
where
  /-- A predicate that is not accepted changes nothing by itself. -/
  accepted (filter : NativeLogFilter) : Option NativeLogFilter → NativeLogFilter × Bool
    | some changed => (changed, true)
    | none => (filter, false)

end Logex
