import Logex.Query.Lexer
import Logex.Query.Sql

/-!
# Legacy SQL

`sql.rs`, `rewrite_legacy_sql`: the four passes that turn legacy syntax into plain SQL before it is parsed. Texts are lists of
characters. A pass that jumps ahead passes over the characters it has dealt with, counted by `skip`. The hash of event signatures is
a parameter.
-/

namespace Logex.LegacySql

open Lib

/-- `SqlQueryError::LegacySyntax`. -/
structure LegacySyntax where
  message : String
deriving DecidableEq, Repr

/-! ## The omitted projection -/

/-- The white space and line comments at the start of a text: how many characters they take. -/
def leadingTrivia : Bool → List Char → Nat
  | _, [] => 0
  | true, ch :: rest => leadingTrivia (ch != '\n') rest + 1
  | false, ch :: rest =>
    if isWhitespace ch then leadingTrivia false rest + 1
    else if ch = '-' ∧ rest.head? = some '-' then leadingTrivia true rest + 1
    else 0

variable (keccak256 : Bytes → B256) (sql : List Char)

/-- Where the leading `SELECT` ends. -/
def findLeadingSelectEnd : Option Nat :=
  let start := leadingTrivia false sql
  let found := (sql.drop start).take 6
  let boundaryOk := (sql.take start).getLast?.all (!isIdentifierChar ·)
  let nextIsBoundary := sql[start + 6]?.all (!isIdentifierChar ·)
  if eqIgnoreAsciiCase found "select".toList && boundaryOk && nextIsBoundary then some (start + 6) else none

def rewriteMissingSelectProjection : List Char :=
  match tokenize sql with
  | .ok (.select :: .from :: _) =>
    match findLeadingSelectEnd sql with
    | some selectEnd => sql.take selectEnd ++ " *".toList ++ sql.drop selectEnd
    | none => sql
  | _ => sql

/-! ## `LATEST` -/

/-- A whole-word `LATEST` stands here, after the character `prev`. -/
def latestAt (prev : Option Char) (chars : List Char) : Bool :=
  eqIgnoreAsciiCase (chars.take 6) "latest".toList && prev.all (!isIdentifierChar ·) && chars[6]?.all (!isIdentifierChar ·)

/-- `head_block.to_string()`. -/
def decimal (n : Nat) : List Char := (toString n).toList

/-- The loop of `replace_latest_keyword`. -/
def replaceLatestFrom (headBlock : Nat) : Option Char → Bool → Nat → List Char → List Char
  | _, _, _, [] => []
  | _, inString, skip + 1, ch :: rest => replaceLatestFrom headBlock (some ch) inString skip rest
  | prev, inString, 0, ch :: rest =>
    if ch = '\'' then
      ch :: replaceLatestFrom headBlock (some ch) (!inString) 0 rest
    else if !inString ∧ latestAt prev (ch :: rest) then
      decimal headBlock ++ replaceLatestFrom headBlock (some ch) inString 5 rest
    else
      ch :: replaceLatestFrom headBlock (some ch) inString 0 rest

def replaceLatestKeyword (headBlock : Nat) : List Char := replaceLatestFrom headBlock none false 0 sql

/-! ## Prefixed literals -/

/-- The prefix stands here, with its quote and at least one more character. -/
def matchesPrefix (word chars : List Char) : Bool :=
  decide (word.length + 1 < chars.length) && eqIgnoreAsciiCase (chars.take word.length) word && chars[word.length]? == some '\''

/-- The loop of `rewrite_prefixed_literals`. -/
def rewritePrefixedFrom (word : List Char) (rewrite : List Char → Except LegacySyntax (List Char)) :
    Nat → List Char → Except LegacySyntax (List Char)
  | _, [] => .ok []
  | skip + 1, _ :: rest => rewritePrefixedFrom word rewrite skip rest
  | 0, ch :: rest =>
    if matchesPrefix word (ch :: rest) then do
      let literal ← okOr ⟨"unterminated " ++ String.ofList word ++ " literal"⟩ (quotedText ((ch :: rest).drop (word.length + 1)))
      let rewritten ← rewrite literal
      let out ← rewritePrefixedFrom word rewrite (word.length + literal.length + 1) rest
      return rewritten ++ out
    else do
      let out ← rewritePrefixedFrom word rewrite 0 rest
      return ch :: out

def rewritePrefixedLiterals (sql word : List Char) (rewrite : List Char → Except LegacySyntax (List Char)) :
    Except LegacySyntax (List Char) :=
  rewritePrefixedFrom word rewrite 0 sql

/-- `to_hex_hash`, in quotes. -/
def quotedHash (hash : B256) : List Char := '\'' :: hexText hash.toBytes ++ ['\'']

def parseAddress (value : List Char) : Option Address :=
  let hex := if value.take 2 = "0x".toList then value.drop 2 else value
  (hexDecode hex).bind fun bytes => if bytes.length = 20 then some (FixedBytes.ofBytes 20 bytes) else none

/-- An address behind twelve zero bytes. -/
def padded (address : Address) : B256 := FixedBytes.ofBytes 32 (List.replicate 12 0 ++ address.toBytes)

/-- The hash of an event signature. -/
def eventLiteral (literal : List Char) : Except LegacySyntax (List Char) :=
  .ok (quotedHash (keccak256 (String.ofList literal).toUTF8.toList))

def addressLiteral (literal : List Char) : Except LegacySyntax (List Char) := do
  let address ← okOr ⟨"invalid address literal: " ++ String.ofList literal⟩ (parseAddress literal)
  return quotedHash (padded address)

def rewriteEventLiterals : Except LegacySyntax (List Char) :=
  rewritePrefixedLiterals sql "event".toList (eventLiteral keccak256)

def rewriteAddressLiterals : Except LegacySyntax (List Char) :=
  rewritePrefixedLiterals sql "address".toList addressLiteral

def rewriteLegacySql (headBlock : Nat) : Except LegacySyntax (List Char) := do
  let sql := rewriteMissingSelectProjection sql
  let sql := replaceLatestKeyword sql headBlock
  let sql ← rewriteEventLiterals keccak256 sql
  rewriteAddressLiterals sql

end Logex.LegacySql
