import Mathlib

/-!
# Bits packed into bytes

A vector of bits kept eight to a byte, lowest bit first. Setting a bit sets that bit and no other, so a filter filled by setting
positions holds exactly the positions that were set.
-/

namespace Logex.Lib

open List

/-- The bit at an index; bits beyond the end are clear. -/
def testBit (bits : List UInt8) (i : Nat) : Bool := (bits.getD (i / 8) 0).toNat.testBit (i % 8)

/-- Set the bit at an index; bits beyond the end stay clear. -/
def setBit (bits : List UInt8) (i : Nat) : List UInt8 := bits.modify (i / 8) fun byte => byte ||| UInt8.ofNat (2 ^ (i % 8))

@[simp] theorem length_setBit (bits : List UInt8) (i : Nat) : (setBit bits i).length = bits.length := length_modify ..

@[simp] theorem length_foldl_setBit (posi : List Nat) (bits : List UInt8) : (posi.foldl setBit bits).length = bits.length := by
  induction posi generalizing bits with
  | nil => rfl
  | cons i posi ih => rw [foldl_cons, ih, length_setBit]

theorem testBit_replicate_zero (n i : Nat) : testBit (List.replicate n 0) i = false := by
  have hb : (List.replicate n (0 : UInt8)).getD (i / 8) 0 = 0 := by
    rw [getD_eq_getElem?_getD, getElem?_replicate]
    split <;> rfl
  rw [testBit, hb]
  exact Nat.zero_testBit _

theorem testBit_setBit {bits : List UInt8} {i : Nat} (hi : i / 8 < bits.length) (j : Nat) :
    testBit (setBit bits i) j = (decide (i = j) || testBit bits j) := by
  have hpow : (UInt8.ofNat (2 ^ (i % 8))).toNat = 2 ^ (i % 8) := by
    rw [UInt8.toNat_ofNat', Nat.mod_eq_of_lt]
    exact Nat.pow_lt_pow_right (by omega) (Nat.mod_lt i (by omega))
  unfold testBit setBit
  rw [getD_eq_getElem?_getD, getD_eq_getElem?_getD, getElem?_modify]
  by_cases hb : i / 8 = j / 8
  · obtain ⟨byte, hget⟩ : ∃ byte, bits[j / 8]? = some byte := ⟨_, getElem?_eq_getElem (hb ▸ hi)⟩
    have hbit : i % 8 = j % 8 ↔ i = j := by omega
    simp only [hb, if_true, hget, Option.map_eq_map, Option.map_some, Option.getD_some, UInt8.toNat_or, hpow, Nat.testBit_or,
      Nat.testBit_two_pow, hbit]
    exact Bool.or_comm _ _
  · have hne : i ≠ j := fun h => hb (h ▸ rfl)
    simp only [hb, if_false, id_map', decide_eq_false hne, Bool.false_or]

/-- A filter filled by setting positions has a bit set when it was set before or is one of them. -/
theorem testBit_foldl_setBit {posi : List Nat} {bits : List UInt8} (hin : ∀ i ∈ posi, i / 8 < bits.length) (j : Nat) :
    testBit (posi.foldl setBit bits) j = true ↔ j ∈ posi ∨ testBit bits j = true := by
  induction posi generalizing bits with
  | nil => simp
  | cons i posi ih =>
    have hi := hin i mem_cons_self
    have hr : ∀ k ∈ posi, k / 8 < (setBit bits i).length := by
      intro k hk
      rw [length_setBit]
      exact hin k (mem_cons_of_mem _ hk)
    rw [foldl_cons, ih hr, testBit_setBit hi, mem_cons, Bool.or_eq_true, decide_eq_true_iff, or_comm (a := j = i),
      or_assoc, eq_comm (a := j)]

end Logex.Lib
