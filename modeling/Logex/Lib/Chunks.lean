import Mathlib

/-!
# Lists of equally long items

The items of one width laid end to end: how long they are together, and where each of them stands.
-/

namespace Logex.Lib

variable {α : Type} {width : Nat} {items : List (List α)}

/-- Every item has the given width. -/
def OfWidth (width : Nat) (items : List (List α)) : Prop := ∀ item ∈ items, item.length = width

theorem ofWidth_nil : OfWidth width ([] : List (List α)) := nofun

theorem ofWidth_cons {item : List α} : OfWidth width (item :: items) ↔ item.length = width ∧ OfWidth width items := List.forall_mem_cons

theorem OfWidth.length_flatten (h : OfWidth width items) : items.flatten.length = items.length * width := by
  induction items with
  | nil => simp
  | cons item items ih =>
    rw [ofWidth_cons] at h
    rw [List.flatten_cons, List.length_append, h.1, ih h.2, List.length_cons, Nat.succ_mul, Nat.add_comm]

/-- Item `i` starts after `i` widths. -/
theorem OfWidth.take_drop_flatten (h : OfWidth width items) {i : Nat} {item : List α} (him : items[i]? = some item) :
    (items.flatten.drop (i * width)).take width = item := by
  induction items generalizing i with
  | nil => nomatch him
  | cons head items ih =>
    rw [ofWidth_cons] at h
    cases i with
    | zero =>
      obtain rfl : head = item := Option.some.inj him
      rw [Nat.zero_mul, List.drop_zero, List.flatten_cons, List.take_left' h.1]
    | succ i =>
      rw [List.getElem?_cons_succ] at him
      rw [List.flatten_cons, Nat.succ_mul, Nat.add_comm, ← h.1, List.drop_length_add_append, h.1]
      exact ih h.2 him

end Logex.Lib
