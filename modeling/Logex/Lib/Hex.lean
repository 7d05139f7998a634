import Mathlib

/-!
# Hexadecimal text

Byte strings written as lower-case hexadecimal text. Text that decodes and has no upper-case letter is the encoding of what it
decodes to, and encoding keeps the lexicographic order, so texts compare as the bytes they spell.
-/

namespace Logex.Lib

/-- A digit, in lower case. -/
def hexDigit (n : Nat) : Char := if n < 10 then Char.ofNat (48 + n) else Char.ofNat (87 + n)

/-- The value of a digit of either case. -/
def hexValue (c : Char) : Option Nat :=
  if 48 ≤ c.toNat ∧ c.toNat ≤ 57 then some (c.toNat - 48)
  else if 97 ≤ c.toNat ∧ c.toNat ≤ 102 then some (c.toNat - 87)
  else if 65 ≤ c.toNat ∧ c.toNat ≤ 70 then some (c.toNat - 55)
  else none

/-- `hex::encode`. -/
def hexEncode : List UInt8 → List Char
  | [] => []
  | byte :: bytes => hexDigit (byte.toNat / 16) :: hexDigit (byte.toNat % 16) :: hexEncode bytes

/-- `hex::decode`, which takes digits of either case. -/
def hexDecode : List Char → Option (List UInt8)
  | [] => some []
  | [_] => none
  | high :: low :: rest => do
    let high ← hexValue high
    let low ← hexValue low
    let rest ← hexDecode rest
    return UInt8.ofNat (16 * high + low) :: rest

/-- An upper-case letter of ASCII. -/
def isAsciiUppercase (c : Char) : Bool := decide (65 ≤ c.toNat) && decide (c.toNat ≤ 90)

theorem hexDigit_lt {m n : Nat} (hm : m < 16) (hn : n < 16) : hexDigit m < hexDigit n ↔ m < n := by
  interval_cases m <;> interval_cases n <;> decide

theorem hexDigit_inj {m n : Nat} (hm : m < 16) (hn : n < 16) : hexDigit m = hexDigit n ↔ m = n := by
  constructor
  · intro h
    rcases lt_trichotomy m n with hlt | heq | hgt
    · exact absurd ((hexDigit_lt hm hn).mpr hlt) (h ▸ lt_irrefl _)
    · exact heq
    · exact absurd ((hexDigit_lt hn hm).mpr hgt) (h ▸ lt_irrefl _)
  · rintro rfl
    rfl

/-- A digit that is no upper-case letter is the one its value is written as. -/
theorem hexDigit_of_hexValue {c : Char} {n : Nat} (hl : isAsciiUppercase c = false) (h : hexValue c = some n) :
    n < 16 ∧ hexDigit n = c := by
  unfold hexValue at h
  split at h
  · rename_i hc
    cases h
    refine ⟨by omega, ?_⟩
    rw [hexDigit, if_pos (by omega), Nat.add_sub_cancel' hc.1, Char.ofNat_toNat]
  · split at h
    · rename_i hc
      cases h
      refine ⟨by omega, ?_⟩
      rw [hexDigit, if_neg (by omega), Nat.add_sub_cancel' (by omega), Char.ofNat_toNat]
    · split at h
      · rename_i hc
        simp only [isAsciiUppercase, Bool.and_eq_false_iff, decide_eq_false_iff_not] at hl
        omega
      · nomatch h

/-- Decoded text without upper-case letters is the encoding of its bytes. -/
theorem hexEncode_of_hexDecode {cha : List Char} {bs : List UInt8} (hl : ∀ c ∈ cha, isAsciiUppercase c = false)
    (h : hexDecode cha = some bs) : hexEncode bs = cha := by
  induction cha using hexDecode.induct generalizing bs with
  | case1 =>
    rw [← Option.some.inj h]
    rfl
  | case2 => nomatch h
  | case3 high low rest ih =>
    simp only [hexDecode, Option.bind_eq_bind, Option.bind_eq_some_iff] at h
    obtain ⟨m, hm, n, hn, bytes', hr, h⟩ := h
    cases h
    obtain ⟨hm16, hh⟩ := hexDigit_of_hexValue (hl _ (by simp)) hm
    obtain ⟨hn16, hlow⟩ := hexDigit_of_hexValue (hl _ (by simp)) hn
    have hb : (UInt8.ofNat (16 * m + n)).toNat = 16 * m + n := by
      rw [UInt8.toNat_ofNat']
      omega
    rw [hexEncode, hb, ih (fun c hc => hl c (by simp [hc])) hr]
    rw [show (16 * m + n) / 16 = m by omega, show (16 * m + n) % 16 = n by omega, hh, hlow]

theorem hexEncode_injective {a b : List UInt8} (h : hexEncode a = hexEncode b) : a = b := by
  induction a generalizing b with
  | nil =>
    cases b with
    | nil => rfl
    | cons y b => nomatch h
  | cons x a ih =>
    cases b with
    | nil => nomatch h
    | cons y b =>
      have hx := x.toNat_lt
      have hy := y.toNat_lt
      simp only [hexEncode, List.cons.injEq] at h
      obtain ⟨hh, hlow, hr⟩ := h
      rw [hexDigit_inj (by omega) (by omega)] at hh hlow
      rw [ih hr, UInt8.toNat_inj.mp (show x.toNat = y.toNat by omega)]

/-- Texts compare as the bytes they spell. -/
theorem hexEncode_lt {a b : List UInt8} : hexEncode a < hexEncode b ↔ a < b := by
  induction a generalizing b with
  | nil =>
    cases b with
    | nil | cons y b => simp [hexEncode]
  | cons x a ih =>
    cases b with
    | nil => simp [hexEncode]
    | cons y b =>
      have hx := x.toNat_lt
      have hy := y.toNat_lt
      simp only [hexEncode, List.cons_lt_cons_iff, ih]
      rw [hexDigit_lt (by omega) (by omega), hexDigit_lt (by omega) (by omega), hexDigit_inj (by omega) (by omega),
        hexDigit_inj (by omega) (by omega), UInt8.lt_iff_toNat_lt, ← UInt8.toNat_inj]
      constructor
      · rintro (h | ⟨h, h' | ⟨h', hlt⟩⟩)
        · exact .inl (by omega)
        · exact .inl (by omega)
        · exact .inr ⟨by omega, hlt⟩
      · rintro (h | ⟨h, hlt⟩)
        · omega
        · exact .inr ⟨by omega, .inr ⟨by omega, hlt⟩⟩

/-- The larger of two byte strings. -/
def maxBytes (a b : List UInt8) : List UInt8 := if a < b then b else a

/-- The smaller of two byte strings. -/
def minBytes (a b : List UInt8) : List UInt8 := if b < a then b else a

theorem lt_maxBytes {x a b : List UInt8} : x < maxBytes a b ↔ x < a ∨ x < b := by
  unfold maxBytes
  simp only [← hexEncode_lt]
  split
  · rename_i h
    exact ⟨.inr, fun hx => hx.elim (fun hxa => hxa.trans h) id⟩
  · rename_i h
    exact ⟨.inl, fun hx => hx.elim id fun hxb => hxb.trans_le (not_lt.mp h)⟩

theorem minBytes_lt {x a b : List UInt8} : minBytes a b < x ↔ a < x ∨ b < x := by
  unfold minBytes
  simp only [← hexEncode_lt]
  split
  · rename_i h
    exact ⟨.inr, fun hx => hx.elim (fun hax => h.trans hax) id⟩
  · rename_i h
    exact ⟨.inl, fun hx => hx.elim id fun hbx => (not_lt.mp h).trans_lt hbx⟩

end Logex.Lib
