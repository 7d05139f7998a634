import Logex.Query.DecimalText

/-!
# The text of an exact sum fits its bound
-/

namespace Logex

open Lib List

namespace DecimalTextAux

theorem writeBounded_eq {bound : Nat} {written : List Char} {texts : List (List Char)}
    (h : (written ++ texts.flatten).length ≤ bound) : writeBounded bound written texts = some (written ++ texts.flatten) := by
  induction texts generalizing written with
  | nil => simp [writeBounded]
  | cons text texts ih =>
    rw [flatten_cons, ← List.append_assoc] at h ⊢
    have hle : written.length + text.length ≤ bound := by
      simp only [length_append] at h
      omega
    rw [writeBounded, foldlM_cons, if_pos hle]
    exact ih h

/-- A thousand bits take at most 302 decimal digits. -/
theorem two_pow_le_ten_pow {n e : Nat} (h : 302 * n ≤ 1000 * e) : 2 ^ n ≤ 10 ^ e := by
  refine (Nat.pow_le_pow_iff_left (show 1000 ≠ 0 by decide)).mp ?_
  calc (2 ^ n) ^ 1000 = (2 ^ 1000) ^ n := by rw [← Nat.pow_mul, ← Nat.pow_mul, Nat.mul_comm]
    _ ≤ (10 ^ 302) ^ n := Nat.pow_le_pow_left (by decide +kernel) n
    _ = 10 ^ (302 * n) := (Nat.pow_mul ..).symm
    _ ≤ 10 ^ (1000 * e) := Nat.pow_le_pow_right (by decide) h
    _ = (10 ^ e) ^ 1000 := by rw [← Nat.pow_mul, Nat.mul_comm]

theorem decimalBound_eq (v : BigInt) :
    v.decimalBound = .ok (max ((v.value.natAbs.size * 302 + 999) / 1000) 1 + if v.value < 0 then 1 else 0) := by
  have hb := v.bits_le
  unfold u64Max at hb
  refine rejectIf_bind.mpr ⟨?_, rejectIf_bind.mpr ⟨?_, rejectIf_bind.mpr ⟨?_, rfl⟩⟩⟩
  · unfold u128Max; omega
  · unfold u128Max; omega
  · unfold usizeMax u64Max; split <;> omega

end DecimalTextAux

open DecimalTextAux in
/-- The decimal text of any integer fits the bound computed for it, however the formatter cuts the text. -/
theorem sum_text_fits_its_bound (v : BigInt) : ∃ bound, v.decimalBound = .ok bound ∧ v.text.length ≤ bound ∧
    ∀ texts, texts.flatten = v.text → writeBounded bound [] texts = some v.text := by
  have hlen : v.text.length ≤ max ((v.value.natAbs.size * 302 + 999) / 1000) 1 + if v.value < 0 then 1 else 0 := by
    have hd := Nat.toDigits_length 10 v.value.natAbs (max ((v.value.natAbs.size * 302 + 999) / 1000) 1) (by omega)
      (v.value.natAbs.lt_size_self.trans_le (two_pow_le_ten_pow (by omega)))
    rw [BigInt.text, length_append]
    split <;> simp only [length_cons, length_nil] <;> omega
  refine ⟨_, decimalBound_eq v, hlen, fun texts h => ?_⟩
  rw [← h] at hlen ⊢
  exact writeBounded_eq hlen

end Logex
