import Logex.Lib.Except

/-!
# The LogSQL lexer

`lexer.rs`: the tokens of the legacy query language. A step looks at the text from one position on and says which token stands there,
if any, and how many characters it takes; the loop then passes over those characters. `pos` counts characters from the start of the
text.
-/

namespace Logex.LegacySql

open Lib

inductive Token where
  | select
  | from
  | where
  | and
  | or
  | not
  | as
  | between
  | in
  | groupBy
  | orderBy
  | asc
  | desc
  | limit
  | latest
  | ident (word : List Char)
  | number (n : Int)
  | stringLit (contents : List Char)
  /-- `event'...'`. -/
  | event (signature : List Char)
  /-- `address'...'`. -/
  | address (address : List Char)
  | star
  | comma
  | lParen
  | rParen
  | eq
  | ne
  | lt
  | gt
  | le
  | ge
  | plus
  | minus
  | semicolon
  | eof
deriving DecidableEq, Repr

structure LexError where
  pos : Nat
  message : String
deriving DecidableEq, Repr

variable (pos : Nat) (chars : List Char) (c : Char)

/-- `char::is_whitespace`: the Unicode property `White_Space`. -/
def isWhitespace : Bool :=
  let n := c.toNat
  (9 ≤ n && n ≤ 13) || n == 32 || n == 0x85 || n == 0xA0 || n == 0x1680 || (0x2000 ≤ n && n ≤ 0x200A) || n == 0x2028 || n == 0x2029 ||
    n == 0x202F || n == 0x205F || n == 0x3000

/-- `char::is_ascii_digit`. -/
def isAsciiDigit : Bool := '0' ≤ c && c ≤ '9'

/-- `char::is_ascii_alphabetic`. -/
def isAsciiAlphabetic : Bool := ('a' ≤ c && c ≤ 'z') || ('A' ≤ c && c ≤ 'Z')

/-- `char::is_ascii_alphanumeric`. -/
def isAsciiAlphanumeric : Bool := isAsciiAlphabetic c || isAsciiDigit c

/-- A character of a word: `is_identifier_char`. -/
def isIdentifierChar : Bool := isAsciiAlphanumeric c || c == '_'

/-- `eq_ignore_ascii_case`. -/
def eqIgnoreAsciiCase (a b : List Char) : Bool := a.map Char.toLower == b.map Char.toLower

/-- The text up to the next single quote, if there is one. -/
def quotedText : Option (List Char) :=
  let contents := chars.takeWhile (· ≠ '\'')
  if contents.length < chars.length then some contents else none

/-- The number a run of digits spells, as a 64-bit signed integer. -/
def parseI64 (negative : Bool) (digits : List Char) : Option Int :=
  let value : Int := digits.foldl (fun n c => 10 * n + (c.toNat - 48)) 0
  let value := if negative then -value else value
  if -(2 ^ 63) ≤ value ∧ value < 2 ^ 63 then some value else none

/-- The token of a number that starts here. -/
def lexNumber (ch : Char) (rest : List Char) : Except LexError (Option Token × Nat) :=
  let negative := ch == '-'
  let digits := (if negative then rest else ch :: rest).takeWhile isAsciiDigit
  let text := if negative then '-' :: digits else digits
  match parseI64 negative digits with
  | some n => .ok (some (.number n), text.length)
  | none => .error ⟨pos, "invalid number: " ++ String.ofList text⟩

/-- A literal with a prefix, `after` being what follows its word. -/
def lexPrefixed (word after : List Char) (token : List Char → Token) (unterminated : String) :
    Except LexError (Option Token × Nat) :=
  match quotedText (after.drop 1) with
  | some contents => .ok (some (token contents), word.length + contents.length + 2)
  | none => .error ⟨pos, unterminated⟩

/-- How far `BY` reaches after `GROUP` or `ORDER`. -/
def byLength (after : List Char) : Option Nat :=
  let gap := after.takeWhile isWhitespace
  let next := after.drop gap.length
  if 2 ≤ next.length ∧ eqIgnoreAsciiCase (next.take 2) "by".toList ∧ ¬∃ c ∈ next[2]?, isAsciiAlphanumeric c then
    some (gap.length + 2)
  else
    none

def keyword (word : List Char) : Token :=
  match String.ofList (word.map Char.toUpper) with
  | "SELECT" => .select
  | "FROM" => .from
  | "WHERE" => .where
  | "AND" => .and
  | "OR" => .or
  | "NOT" => .not
  | "AS" => .as
  | "BETWEEN" => .between
  | "IN" => .in
  | "ASC" => .asc
  | "DESC" => .desc
  | "LIMIT" => .limit
  | "LATEST" => .latest
  | _ => .ident word

/-- The token of an identifier or keyword that starts here. -/
def lexWord : Except LexError (Option Token × Nat) :=
  let word := chars.takeWhile isIdentifierChar
  let after := chars.drop word.length
  if eqIgnoreAsciiCase word "event".toList ∧ after.head? = some '\'' then
    lexPrefixed pos word after .event "unterminated event literal"
  else if eqIgnoreAsciiCase word "address".toList ∧ after.head? = some '\'' then
    lexPrefixed pos word after .address "unterminated address literal"
  else
    let group := eqIgnoreAsciiCase word "group".toList
    match if group ∨ eqIgnoreAsciiCase word "order".toList then byLength after else none with
    | some length => .ok (some (if group then .groupBy else .orderBy), word.length + length)
    | none => .ok (some (keyword word), word.length)

/-- The token that starts at a character, with the number of characters it takes; white space and line comments have none. -/
def lexNext (ch : Char) (rest : List Char) : Except LexError (Option Token × Nat) :=
  let next := rest.head?
  let one (token : Token) : Except LexError (Option Token × Nat) := .ok (some token, 1)
  let two (token : Token) : Except LexError (Option Token × Nat) := .ok (some token, 2)
  if isWhitespace ch then .ok (none, 1)
  else if ch = '-' ∧ next = some '-' then .ok (none, (rest.takeWhile (· ≠ '\n')).length + 1)
  else if ch = '*' then one .star
  else if ch = ',' then one .comma
  else if ch = '(' then one .lParen
  else if ch = ')' then one .rParen
  else if ch = '+' then one .plus
  else if ch = '-' ∧ ¬∃ c ∈ next, isAsciiDigit c then one .minus
  else if ch = ';' then one .semicolon
  else if ch = '=' then one .eq
  else if ch = '!' ∧ next = some '=' then two .ne
  else if ch = '<' ∧ next = some '>' then two .ne
  else if ch = '<' ∧ next = some '=' then two .le
  else if ch = '<' then one .lt
  else if ch = '>' ∧ next = some '=' then two .ge
  else if ch = '>' then one .gt
  else if ch = '\'' then
    match quotedText rest with
    | some contents => .ok (some (.stringLit contents), contents.length + 2)
    | none => .error ⟨pos, "unterminated string literal"⟩
  else if isAsciiDigit ch ∨ ch = '-' then lexNumber pos ch rest
  else if isAsciiAlphabetic ch ∨ ch = '_' then lexWord pos (ch :: rest)
  else .error ⟨pos, "unexpected character: '" ++ ch.toString ++ "'"⟩

/-- The loop of `tokenize`, from a position on; `skip` characters still belong to the token before it. -/
def tokenizeFrom : Nat → Nat → List Char → Except LexError (List Token)
  | _, _, [] => .ok [.eof]
  | pos, skip + 1, _ :: rest => tokenizeFrom (pos + 1) skip rest
  | pos, 0, ch :: rest => do
    let (token, length) ← lexNext pos ch rest
    let tokens ← tokenizeFrom (pos + 1) (length - 1) rest
    return token.toList ++ tokens

def tokenize : Except LexError (List Token) := tokenizeFrom 0 0 chars

end Logex.LegacySql
