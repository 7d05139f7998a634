import Logex.Query.Legacy

/-!
# The lexical structure of a SQL text

What the legacy passes are meant to respect: a text is a sequence of words, single characters, quoted strings and identifiers,
comments, and the two legacy literals. This is the reading of the text by the rules of SQL (a quote inside a comment opens nothing,
a word is a longest run of identifier characters), not a translation of the passes.
-/

namespace Logex.LegacySql

open Lib

/-- What encloses a part of the text that is not code. -/
inductive Enclosure where
  | string
  | identifier
  | lineComment
  | blockComment
deriving DecidableEq, Repr

def Enclosure.opening : Enclosure → List Char
  | .string => ['\'']
  | .identifier => ['"']
  | .lineComment => ['-', '-']
  | .blockComment => ['/', '*']

/-- A line comment ends before the end of its line. -/
def Enclosure.closing : Enclosure → List Char
  | .string => ['\'']
  | .identifier => ['"']
  | .lineComment => []
  | .blockComment => ['*', '/']

/-- The prefixes of legacy literals. -/
inductive LegacyPrefix where
  | event
  | address
deriving DecidableEq, Repr

def LegacyPrefix.word : LegacyPrefix → List Char
  | .event => "event".toList
  | .address => "address".toList

inductive Piece where
  /-- A longest run of identifier characters. -/
  | word (chars : List Char)
  | symbol (c : Char)
  /-- A string, identifier or comment; one that reaches the end of the text may be left open. -/
  | enclosed (kind : Enclosure) (contents : List Char) (closed : Bool)
  /-- A legacy literal, with its prefix as it is spelled. -/
  | literal (kind : LegacyPrefix) (spelled contents : List Char)
deriving DecidableEq, Repr

namespace Piece

def render : Piece → List Char
  | word chars => chars
  | symbol c => [c]
  | enclosed kind contents closed => kind.opening ++ contents ++ if closed then kind.closing else []
  | literal _ spelled contents => spelled ++ '\'' :: contents ++ ['\'']

/-- A quoted string. -/
def string (contents : List Char) : Piece := enclosed .string contents true

end Piece

/-- The text of a sequence of pieces. -/
def renderAll (pieces : List Piece) : List Char := pieces.flatMap Piece.render

/-- Every piece has the property, which depends on the character after it. -/
def Throughout (P : Option Char → Piece → Prop) : List Piece → Prop
  | [] => True
  | piece :: rest => P (renderAll rest).head? piece ∧ Throughout P rest

/-- The text up to a closing delimiter, if it occurs. -/
def untilClosing (closing : List Char) : List Char → Option (List Char)
  | [] => none
  | ch :: rest => if closing <+: ch :: rest then some [] else (untilClosing closing rest).map (ch :: ·)

/-- The enclosed piece after its opening. -/
def enclosedPiece (kind : Enclosure) (rest : List Char) : Piece :=
  match untilClosing kind.closing rest with
  | some contents => .enclosed kind contents true
  | none => .enclosed kind rest false

/-- The legacy literal that a word begins, if it does. -/
def literalPiece (word after : List Char) : Option Piece :=
  [LegacyPrefix.event, .address].firstM fun kind =>
    if eqIgnoreAsciiCase word kind.word ∧ after.head? = some '\'' then
      (quotedText (after.drop 1)).map (.literal kind word ·)
    else
      none

/-- The piece that starts at a character. -/
def nextPiece (ch : Char) (rest : List Char) : Piece :=
  if isIdentifierChar ch then
    let word := (ch :: rest).takeWhile isIdentifierChar
    (literalPiece word ((ch :: rest).drop word.length)).getD (.word word)
  else if ch = '\'' then enclosedPiece .string rest
  else if ch = '"' then enclosedPiece .identifier rest
  else if ch = '-' ∧ rest.head? = some '-' then .enclosed .lineComment ((rest.drop 1).takeWhile (· ≠ '\n')) true
  else if ch = '/' ∧ rest.head? = some '*' then enclosedPiece .blockComment (rest.drop 1)
  else .symbol ch

/-- The pieces of a text; `skip` characters still belong to the piece before it. -/
def piecesFrom : Nat → List Char → List Piece
  | _, [] => []
  | skip + 1, _ :: rest => piecesFrom skip rest
  | 0, ch :: rest => nextPiece ch rest :: piecesFrom ((nextPiece ch rest).render.length - 1) rest

def pieces (sql : List Char) : List Piece := piecesFrom 0 sql

/-! ## What the passes are to do -/

namespace Piece

/-- A white space character or a line comment. -/
def IsTrivia : Piece → Prop
  | symbol c => isWhitespace c
  | enclosed .lineComment _ _ => True
  | _ => False

/-- The piece that takes the place of one: the head for `LATEST`, a quoted hash for a legacy literal, every other piece as it is. -/
def rewrite (keccak256 : Bytes → B256) (headBlock : Nat) : Piece → Except LegacySyntax Piece
  | word chars => .ok (word (if eqIgnoreAsciiCase chars "latest".toList then decimal headBlock else chars))
  | literal .event _ contents => .ok (string (hexText (keccak256 (String.ofList contents).toUTF8.toList).toBytes))
  | literal .address _ contents => do
    let address ← okOr ⟨"invalid address literal: " ++ String.ofList contents⟩ (parseAddress contents)
    return string (hexText (padded address).toBytes)
  | piece => .ok piece

end Piece

/-- A leading `SELECT` directly followed by `FROM`: only white space and line comments stand before and between them. -/
structure MissingProjection (sql : List Char) (lead : List Piece) (select : List Char) (gap : List Piece) (rest : List Piece) : Prop where
  pieces_eq : pieces sql = lead ++ .word select :: gap ++ rest
  lead : ∀ piece ∈ lead, piece.IsTrivia
  select : eqIgnoreAsciiCase select "select".toList
  gap : ∀ piece ∈ gap, piece.IsTrivia
  from_eq : ∃ word rest', rest = .word word :: rest' ∧ eqIgnoreAsciiCase word "from".toList

/-- The lexer finds `SELECT` and `FROM` at the start of the text. -/
def OmitsProjection (sql : List Char) : Prop := ∃ tokens, tokenize sql = .ok (.select :: .from :: tokens)

/-- The pieces of a text with the projection it omits: `*` after the leading `SELECT`. -/
structure Projected (sql : List Char) (projected : List Piece) : Prop where
  inserted : OmitsProjection sql → ∃ lead select gap rest, MissingProjection sql lead select gap rest ∧
    projected = lead ++ .word select :: .symbol ' ' :: .symbol '*' :: gap ++ rest
  unchanged : ¬OmitsProjection sql → projected = pieces sql

/-! ## What the passes take for code -/

/-- Whether a quote is open after a text to the pass over `LATEST`, which counts single quotes wherever they stand. -/
def quoteOpen (inString : Bool) (chars : List Char) : Bool :=
  chars.foldl (fun inString ch => if ch = '\'' then !inString else inString) inString

/-- A whole-word `LATEST` stands in a text where that pass counts no open quote, `prev` being the character before the text. -/
def mentionsLatest : Bool → Option Char → List Char → Bool
  | _, _, [] => false
  | inString, prev, ch :: rest =>
    if ch = '\'' then mentionsLatest (!inString) (some ch) rest
    else (!inString && latestAt prev (ch :: rest)) || mentionsLatest inString (some ch) rest

/-- The word `LATEST`. -/
def Piece.isLatest : Piece → Bool
  | .word chars => eqIgnoreAsciiCase chars "latest".toList
  | _ => false

/-- The word `LATEST` stands only where the pass counts no open quote, and no other piece mentions it there. -/
def latestSafe : Bool → List Piece → Bool
  | _, [] => true
  | inString, piece :: rest =>
    (if piece.isLatest then !inString else !mentionsLatest inString none piece.render) &&
      latestSafe (quoteOpen inString piece.render) rest

/-- A prefix stands somewhere in a text, with a quote and one more character behind it, of which some may be in the text that follows. -/
def mentionsPrefix (word after : List Char) : List Char → Bool
  | [] => false
  | ch :: rest => matchesPrefix word (ch :: rest ++ after) || mentionsPrefix word after rest

/-- The literals that the pass over a prefix is to rewrite, or that an earlier pass has rewritten. -/
def Piece.expected (kind : LegacyPrefix) : Piece → Bool
  | .literal .event _ _ => true
  | .literal .address _ _ => kind = .address
  | _ => false

/-- No piece but the literals mentions the prefix. -/
def prefixSafe (kind : LegacyPrefix) : List Piece → Bool
  | [] => true
  | piece :: rest => (piece.expected kind || !mentionsPrefix kind.word (renderAll rest) piece.render) && prefixSafe kind rest

/-- The text ends in a prefix, in either case. -/
def endsInPrefix (kind : LegacyPrefix) (chars : List Char) : Bool :=
  eqIgnoreAsciiCase (chars.drop (chars.length - kind.word.length)) kind.word

end Logex.LegacySql
