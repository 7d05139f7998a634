import Logex.QueryMemory

/-!
# Decimal text of exact sums

The bound `sql.rs` computes from the bit length of a `SUM` and the bounded string of `json.rs` its text is written into.
-/

namespace Logex

open Lib

/-- `SQL_RESULT_STAGE`. -/
def sqlResultStage : String := "structured SQL result"

/-- A `BigInt` of the library, whose `bits` is a `u64`. -/
structure BigInt where
  value : Int
  bits_le : value.natAbs.size ≤ u64Max

namespace BigInt

/-- What `Display` writes. -/
def text (v : BigInt) : List Char := (if v.value < 0 then ['-'] else []) ++ Nat.toDigits 10 v.value.natAbs

/-- `bigint_decimal_bound`. -/
def decimalBound (v : BigInt) : Except QueryMemoryError Nat := do
  let overflow := QueryMemoryError.sizeOverflow sqlResultStage
  rejectIf (u128Max < v.value.natAbs.size * 302) overflow
  rejectIf (u128Max < v.value.natAbs.size * 302 + 999) overflow
  let bound := max ((v.value.natAbs.size * 302 + 999) / 1000) 1 + if v.value < 0 then 1 else 0
  rejectIf (usizeMax < bound) overflow
  return bound

end BigInt

/-- `BoundedString::write_str`, for each text the formatter hands over: a length past `usize` is past every bound. -/
def writeBounded (bound : Nat) (written : List Char) (texts : List (List Char)) : Option (List Char) :=
  texts.foldlM (fun written text => if written.length + text.length ≤ bound then some (written ++ text) else none) written

end Logex
