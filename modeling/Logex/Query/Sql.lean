import Logex.Query.Filter
import Logex.Lib.Hex

/-!
# SQL predicates on log rows

The expressions that reach native scans, as `sqlparser` parses them and as DataFusion plans them, with their meaning under SQL's
three-valued logic. Hashes, addresses, topics and data are exposed as lower-case, `0x`-prefixed hexadecimal strings and the other
columns as unsigned integers. An expression of a form that no filter looks into is kept as what it evaluates to.
-/

namespace Logex

open Lib

/-! ## Values -/

inductive SqlValue where
  | null
  | boolean (value : Bool)
  | number (value : Int)
  | text (value : List Char)
  | list (values : List (List Char))
deriving DecidableEq, Repr

/-- `Operator`, of which filters know these. -/
inductive Operator where
  | eq
  | notEq
  | lt
  | ltEq
  | gt
  | gtEq
  | and
  | or
deriving DecidableEq, Repr

/-- A comparison of two values of a linear order; `AND` and `OR` compare nothing. -/
def Operator.compare {α : Type} [LinearOrder α] (op : Operator) (a b : α) : Option Bool :=
  match op with
  | .eq => some (decide (a = b))
  | .notEq => some (decide (a ≠ b))
  | .lt => some (decide (a < b))
  | .ltEq => some (decide (a ≤ b))
  | .gt => some (decide (b < a))
  | .gtEq => some (decide (b ≤ a))
  | .and | .or => none

namespace SqlValue

def ofBool : Option Bool → SqlValue
  | some value => .boolean value
  | none => .null

def not : SqlValue → SqlValue
  | .boolean value => .boolean (!value)
  | _ => .null

def and : SqlValue → SqlValue → SqlValue
  | .boolean true, .boolean true => .boolean true
  | .boolean false, _ => .boolean false
  | _, .boolean false => .boolean false
  | _, _ => .null

def or : SqlValue → SqlValue → SqlValue
  | .boolean true, _ => .boolean true
  | _, .boolean true => .boolean true
  | .boolean false, .boolean false => .boolean false
  | _, _ => .null

/-- Comparisons are `NULL` where an operand is; planning has made the operands' types agree. -/
def binary (op : Operator) (a b : SqlValue) : SqlValue :=
  match op, a, b with
  | .and, a, b => a.and b
  | .or, a, b => a.or b
  | op, .number a, .number b => ofBool (op.compare a b)
  | op, .text a, .text b => ofBool (op.compare a b)
  | _, _, _ => .null

/-- `value BETWEEN low AND high`. -/
def between (value low high : SqlValue) : SqlValue := (binary .gtEq value low).and (binary .ltEq value high)

/-- `value IN (items)`. -/
def isIn (value : SqlValue) (items : List SqlValue) : SqlValue :=
  items.foldr (fun item found => (binary .eq value item).or found) (.boolean false)

/-- Negate where asked to. -/
def negateIf (negated : Bool) (value : SqlValue) : SqlValue := if negated then value.not else value

end SqlValue

/-! ## Columns -/

/-- The columns of `log_rows_schema`. -/
inductive LogColumn where
  | blockNumber
  | blockHash
  | timestamp
  | txHash
  | txIndex
  | logIndex
  | address
  | topic (index : Fin 4)
  | topics
  | data
  | dataLen
  | source
deriving DecidableEq, Repr

def LogColumn.ofName : String → Option LogColumn
  | "block_number" => some .blockNumber
  | "block_hash" => some .blockHash
  | "timestamp" => some .timestamp
  | "tx_hash" => some .txHash
  | "tx_index" => some .txIndex
  | "log_index" => some .logIndex
  | "address" => some .address
  | "topic0" => some (.topic 0)
  | "topic1" => some (.topic 1)
  | "topic2" => some (.topic 2)
  | "topic3" => some (.topic 3)
  | "topics" => some .topics
  | "data" => some .data
  | "data_len" => some .dataLen
  | "source" => some .source
  | _ => none

/-- `append_hex`. -/
def hexText (bytes : Bytes) : List Char := '0' :: 'x' :: hexEncode bytes

/-- What a column shows of a row. -/
def LogRow.column (row : LogRow) : LogColumn → SqlValue
  | .blockNumber => .number row.blockNumber
  | .blockHash => .text (hexText (FixedBytes.toBytes row.blockHash))
  | .timestamp => .number row.timestamp
  | .txHash => .text (hexText (FixedBytes.toBytes row.txHash))
  | .txIndex => .number row.txIndex
  | .logIndex => .number row.logIndex
  | .address => .text (hexText (FixedBytes.toBytes row.address))
  | .topic index => match row.topic index with
    | some topic => .text (hexText (FixedBytes.toBytes topic))
    | none => .null
  | .topics => .list ((row.topics.filterMap id).map fun topic => hexText (FixedBytes.toBytes topic))
  | .data => .text (hexText row.data)
  | .dataLen => .number row.dataLen
  | .source => .number row.source.toByte.toNat

/-- The column of a name; the planner refuses names the table does not have. -/
def LogRow.named (row : LogRow) (name : String) : SqlValue := (LogColumn.ofName name).elim .null row.column

/-! ## Planned expressions -/

/-- `ScalarValue`. -/
inductive ScalarValue where
  | uint64 (value : Option UInt64)
  | uint32 (value : Option UInt32)
  | uint16 (value : Option UInt16)
  | uint8 (value : Option UInt8)
  | int64 (value : Option Int64)
  | int32 (value : Option Int32)
  | int16 (value : Option Int16)
  | int8 (value : Option Int8)
  | utf8 (value : Option String)
  | utf8View (value : Option String)
  | largeUtf8 (value : Option String)
  | other (value : SqlValue)

namespace ScalarValue

def ofNumber : Option Int → SqlValue
  | some value => .number value
  | none => .null

def ofText : Option String → SqlValue
  | some value => .text value.toList
  | none => .null

/-- The value a literal stands for. -/
def value : ScalarValue → SqlValue
  | .uint64 value => ofNumber (value.map fun value => value.toNat)
  | .uint32 value => ofNumber (value.map fun value => value.toNat)
  | .uint16 value => ofNumber (value.map fun value => value.toNat)
  | .uint8 value => ofNumber (value.map fun value => value.toNat)
  | .int64 value => ofNumber (value.map Int64.toInt)
  | .int32 value => ofNumber (value.map Int32.toInt)
  | .int16 value => ofNumber (value.map Int16.toInt)
  | .int8 value => ofNumber (value.map Int8.toInt)
  | .utf8 value | .utf8View value | .largeUtf8 value => ofText value
  | .other value => value

end ScalarValue

/-- `datafusion::common::Column`. -/
structure SqlColumn where
  relation : Option String
  name : String
deriving DecidableEq, Repr

/-- `DataFusionExpr`. -/
inductive DataFusionExpr where
  | column (column : SqlColumn)
  | literal (value : ScalarValue)
  | binaryExpr (left : DataFusionExpr) (op : Operator) (right : DataFusionExpr)
  | between (expr : DataFusionExpr) (negated : Bool) (low high : DataFusionExpr)
  | inList (expr : DataFusionExpr) (list : List DataFusionExpr) (negated : Bool)
  | other (value : LogRow → SqlValue)

mutual

/-- What an expression evaluates to at a row. -/
def DataFusionExpr.eval (row : LogRow) : DataFusionExpr → SqlValue
  | .column named => row.named named.name
  | .literal value => value.value
  | .binaryExpr left op right => SqlValue.binary op (left.eval row) (right.eval row)
  | .between expr negated low high => SqlValue.negateIf negated (SqlValue.between (expr.eval row) (low.eval row) (high.eval row))
  | .inList expr list negated => SqlValue.negateIf negated (SqlValue.isIn (expr.eval row) (DataFusionExpr.evalList row list))
  | .other value => value row

def DataFusionExpr.evalList (row : LogRow) : List DataFusionExpr → List SqlValue
  | [] => []
  | expr :: rest => expr.eval row :: DataFusionExpr.evalList row rest

end

/-! ## Parsed expressions -/

/-- `Ident`. -/
structure SqlIdent where
  value : String
  quoteStyle : Option Char
deriving DecidableEq, Repr

/-- `SqlBinaryOperator`, of which filters know these. -/
inductive SqlBinaryOperator where
  | eq
  | notEq
  | gt
  | gtEq
  | lt
  | ltEq
  | and
  | or
deriving DecidableEq, Repr

/-- The operator planning makes of it. -/
def SqlBinaryOperator.planned : SqlBinaryOperator → Operator
  | .eq => .eq
  | .notEq => .notEq
  | .gt => .gt
  | .gtEq => .gtEq
  | .lt => .lt
  | .ltEq => .ltEq
  | .and => .and
  | .or => .or

/-- `SqlValue` of the parser. -/
inductive SqlAstValue where
  | number (text : String)
  | singleQuotedString (text : String)
  | doubleQuotedString (text : String)
  | tripleSingleQuotedString (text : String)
  | tripleDoubleQuotedString (text : String)
  | other (value : SqlValue)

/-- `SqlAstExpr`. -/
inductive SqlAstExpr where
  | identifier (ident : SqlIdent)
  | compoundIdentifier (parts : List SqlIdent)
  | value (value : SqlAstValue)
  | binaryOp (left : SqlAstExpr) (op : SqlBinaryOperator) (right : SqlAstExpr)
  | between (expr : SqlAstExpr) (negated : Bool) (low high : SqlAstExpr)
  | inList (expr : SqlAstExpr) (list : List SqlAstExpr) (negated : Bool)
  | other (value : LogRow → SqlValue)

/-- The number that decimal digits spell. -/
def decimalValue (digits : List Char) : Option Nat :=
  digits.foldl (fun value digit => value.bind fun value =>
    if digit.isDigit then some (value * 10 + (digit.toNat - 48)) else none) (if digits = [] then none else some 0)

/-- The digits of a number; a leading plus sign is allowed. -/
def numberDigits (text : String) : List Char :=
  match text.toList with
  | '+' :: digits => digits
  | digits => digits

/-- `str::parse::<u64>`. -/
def parseU64 (text : String) : Option Nat := (decimalValue (numberDigits text)).filter fun value => decide (value ≤ u64Max)

/-- The value of a literal. A number is written as digits; one with a fraction or an exponent is of the other kind. -/
def SqlAstValue.meaning : SqlAstValue → SqlValue
  | .number text => ScalarValue.ofNumber ((decimalValue (numberDigits text)).map Int.ofNat)
  | .singleQuotedString text | .doubleQuotedString text | .tripleSingleQuotedString text | .tripleDoubleQuotedString text =>
    .text text.toList
  | .other value => value

def normalizeSqlIdent (ident : SqlIdent) : String :=
  if ident.quoteStyle.isSome then ident.value else ident.value.map Char.toLower

def sqlIdentifier : SqlAstExpr → Option String
  | .identifier ident => some (normalizeSqlIdent ident)
  | .compoundIdentifier [table, column] => if normalizeSqlIdent table = "logs" then some (normalizeSqlIdent column) else none
  | _ => none

mutual

/-- What a parsed expression over the logs table evaluates to at a row. -/
def SqlAstExpr.eval (row : LogRow) : SqlAstExpr → SqlValue
  | .identifier ident => (sqlIdentifier (.identifier ident)).elim .null row.named
  | .compoundIdentifier parts => (sqlIdentifier (.compoundIdentifier parts)).elim .null row.named
  | .value constant => constant.meaning
  | .binaryOp left op right => SqlValue.binary op.planned (left.eval row) (right.eval row)
  | .between expr negated low high => SqlValue.negateIf negated (SqlValue.between (expr.eval row) (low.eval row) (high.eval row))
  | .inList expr list negated => SqlValue.negateIf negated (SqlValue.isIn (expr.eval row) (SqlAstExpr.evalList row list))
  | .other meaning => meaning row

def SqlAstExpr.evalList (row : LogRow) : List SqlAstExpr → List SqlValue
  | [] => []
  | expr :: rest => expr.eval row :: SqlAstExpr.evalList row rest

end

end Logex
