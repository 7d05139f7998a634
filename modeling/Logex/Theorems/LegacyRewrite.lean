import Logex.Lemmas.LegacyProjection

/-!
# Legacy rewriting and ordinary SQL

`rewrite_legacy_sql` is meant to touch legacy syntax only. The pass over `LATEST` follows quotes and words, but knows neither quoted
identifiers nor comments; the passes over prefixed literals follow neither quotes nor words. Each pass does to every piece of the text
what it is meant to do, and nothing more, exactly where nothing else looks like legacy syntax to it.
-/

namespace Logex.LegacySql

open Lib

namespace LegacyRewriteWitness

/-- A text with comments, strings, two legacy literals and an omitted projection. -/
def query : List Char :=
  "select from logs -- it's\n where b > 'a' -- isn't\n and b = LATEST and t = 'latest' and e = event'A()' and a = ADDRESS'00'".toList

theorem query_safe : latestSafe false (pieces query) = true ∧ ∀ kind, prefixSafe kind (pieces query) = true := by
  refine ⟨by decide +kernel, fun kind => ?_⟩
  cases kind <;> decide +kernel

/-- A string that ends in a prefix with nothing behind it, and an apostrophe in a comment, are safe. -/
example : latestSafe false (pieces "SELECT 'event'".toList) = true ∧ prefixSafe .event (pieces "SELECT 'event'".toList) = true ∧
    latestSafe false (pieces "SELECT 1 -- it's".toList) = true := by
  decide +kernel

/-- Two ordinary strings, the first of which ends in a prefix. -/
def strings : List Char := "SELECT 'event', 'b'".toList

/-- What the prefix pass makes of them: the comma between them is taken for the literal. -/
def mangled (keccak256 : Bytes → B256) : List Char := "SELECT '".toList ++ quotedHash (keccak256 ", ".toUTF8.toList) ++ "b'".toList

/-- The last pass finds nothing in it, whatever the hash. -/
theorem address_pass {hash : List Char} (hq : '\'' ∉ hash) (hends : endsInPrefix .address hash = false) :
    rewriteAddressLiterals ("SELECT '".toList ++ ('\'' :: hash ++ ['\'']) ++ "b'".toList) =
      .ok ("SELECT '".toList ++ ('\'' :: hash ++ ['\'']) ++ "b'".toList) := by
  have hsplit : "SELECT '".toList ++ ('\'' :: hash ++ ['\'']) ++ "b'".toList =
      "SELECT ".toList ++ (['\''] ++ ((Piece.string hash).render ++ "b'".toList)) := by
    simp [Piece.string, Piece.render, Enclosure.opening, Enclosure.closing]
  have hselect : ∀ rest, mentionsPrefix LegacyPrefix.address.word (['\''] ++ rest) "SELECT ".toList = false := fun rest =>
    mentionsPrefix_eq_false (by decide) (endsWord_quote rest) fun _ => by decide
  have hquote : ∀ rest, mentionsPrefix LegacyPrefix.address.word rest ['\''] = false := by
    intro rest
    rw [mentionsPrefix, List.singleton_append, matchesPrefix_symbol (by decide)]
    rfl
  rw [hsplit]
  change rewritePrefixedFrom LegacyPrefix.address.word addressLiteral 0 _ = _
  rw [rewritePrefixed_copy (hselect _), rewritePrefixed_copy (hquote _), rewritePrefixed_copy (mentionsPrefix_string hq hends _)]
  rfl

end LegacyRewriteWitness

end Logex.LegacySql
