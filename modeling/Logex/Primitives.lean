import Logex.Lib.Wire

/-!
# Primitives

The fixed-width values the crates share. A byte array of fixed length is kept as the number its big-endian bytes spell, so
that two of them are compared as the source compares them. Unsigned machine integers are natural numbers; the places where
the source saturates or checks a 64-bit result say so with `u64Max`.
-/

namespace Logex

/-- `FixedBytes<N>`, as the number its `n` big-endian bytes spell. -/
abbrev FixedBytes (n : Nat) := BitVec (8 * n)

abbrev B256 := FixedBytes 32

instance instLawfulBEqB256 : LawfulBEq B256 := inferInstance

abbrev Address := FixedBytes 20

variable (a b : Nat) {n : Nat} (x : FixedBytes n)

/-- The byte at index `i` of `as_slice()`. -/
def FixedBytes.byte (i : Nat) : UInt8 :=
  UInt8.ofNat (x.toNat >>> (8 * (n - 1 - i)))

/-- `as_slice()`. -/
def FixedBytes.toBytes : List UInt8 :=
  (List.range n).map (FixedBytes.byte x)

/-- `from_slice`, for a slice of exactly `n` bytes. -/
def FixedBytes.ofBytes (n : Nat) (bytes : List UInt8) : FixedBytes n :=
  BitVec.ofNat (8 * n) (bytes.foldl (fun acc b => acc * 256 + b.toNat) 0)

theorem FixedBytes.length_toBytes : (FixedBytes.toBytes x).length = n := by simp [FixedBytes.toBytes]

/-- The bytes of a value are those it was made from. -/
theorem FixedBytes.toBytes_ofBytes {bs : List UInt8} (h : bs.length = n) : FixedBytes.toBytes (FixedBytes.ofBytes n bs) = bs := by
  have hlt : ∀ bs : List UInt8, bs.foldl (fun acc b => acc * 256 + b.toNat) 0 < 256 ^ bs.length := by
    intro bs
    induction bs using List.reverseRecOn with
    | nil => exact Nat.one_pos
    | append_singleton bs b ih =>
      have hb := b.toNat_lt
      rw [List.foldl_append, List.length_append, List.length_singleton, Nat.pow_succ]
      simp only [List.foldl_cons, List.foldl_nil]
      omega
  have hget : ∀ (bs : List UInt8) (i : Nat), i < bs.length →
      bs[i]? = some (UInt8.ofNat (bs.foldl (fun acc b => acc * 256 + b.toNat) 0 >>> (8 * (bs.length - 1 - i)))) := by
    intro bs
    induction bs using List.reverseRecOn with
    | nil => exact fun i hi => absurd hi (Nat.not_lt_zero i)
    | append_singleton bs b ih =>
      intro i hi
      rw [List.length_append, List.length_singleton] at hi
      rw [List.foldl_append, List.length_append, List.length_singleton]
      simp only [List.foldl_cons, List.foldl_nil, Nat.add_sub_cancel]
      rcases Nat.lt_or_ge i bs.length with hlt | hge
      · have hs : 8 * (bs.length - i) = 8 + 8 * (bs.length - 1 - i) := by omega
        have hdiv : (bs.foldl (fun acc b => acc * 256 + b.toNat) 0 * 256 + b.toNat) >>> 8 =
            bs.foldl (fun acc b => acc * 256 + b.toNat) 0 := by
          have hb := b.toNat_lt
          rw [Nat.shiftRight_eq_div_pow]
          omega
        rw [List.getElem?_append_left hlt, hs, Nat.shiftRight_add, hdiv, ih i hlt]
      · obtain rfl : i = bs.length := by omega
        rw [List.getElem?_concat_length, Nat.sub_self, Nat.mul_zero, Nat.shiftRight_zero]
        simp
  subst h
  refine List.ext_getElem? fun i => ?_
  rcases Nat.lt_or_ge i bs.length with hlt' | hge
  · have hpow : 2 ^ (8 * bs.length) = 256 ^ bs.length := by rw [Nat.pow_mul]
    rw [hget bs i hlt']
    simp [FixedBytes.toBytes, FixedBytes.byte, FixedBytes.ofBytes, hpow, Nat.mod_eq_of_lt (hlt bs), hlt']
  · rw [List.getElem?_eq_none hge, List.getElem?_eq_none (by simpa [FixedBytes.toBytes] using hge)]

/-- The first bytes of a value spell its leading part. -/
theorem FixedBytes.foldl_take_toBytes {m : Nat} (hm : m ≤ n) :
    ((FixedBytes.toBytes x).take m).foldl (fun acc b => acc * 256 + b.toNat) 0 = x.toNat >>> (8 * (n - m)) := by
  induction m with
  | zero =>
    rw [List.take_zero, List.foldl_nil, Nat.sub_zero, Nat.shiftRight_eq_div_pow, Nat.div_eq_of_lt x.isLt]
  | succ m ih =>
    have hget : (FixedBytes.toBytes x)[m]? = some (FixedBytes.byte x m) := by
      simp [FixedBytes.toBytes, Nat.lt_of_succ_le hm]
    have hs : 8 * (n - m) = 8 * (n - (m + 1)) + 8 := by omega
    rw [List.take_add_one, hget, List.foldl_append, ih (by omega), hs, Nat.shiftRight_add, Nat.shiftRight_eq_div_pow _ 8]
    simp only [Option.toList_some, List.foldl_cons, List.foldl_nil, FixedBytes.byte, UInt8.toNat_ofNat']
    rw [show n - 1 - m = n - (m + 1) by omega]
    omega

theorem FixedBytes.toBytes_inj {x y : FixedBytes n} : FixedBytes.toBytes x = FixedBytes.toBytes y ↔ x = y := by
  constructor
  · intro h
    have hx := FixedBytes.foldl_take_toBytes x (Nat.le_refl n)
    rw [h, FixedBytes.foldl_take_toBytes y (Nat.le_refl n), Nat.sub_self, Nat.mul_zero, Nat.shiftRight_zero, Nat.shiftRight_zero] at hx
    exact BitVec.eq_of_toNat_eq hx.symm
  · rintro rfl
    rfl

/-- `u64::MAX`. -/
def u64Max : Nat := 2 ^ 64 - 1

/-- `u32::MAX`. -/
def u32Max : Nat := 2 ^ 32 - 1

/-- `u64::saturating_add`. -/
def saturatingAdd : Nat := min (a + b) u64Max

/-- `u64::checked_mul`. -/
def checkedMul : Option Nat := if a * b ≤ u64Max then some (a * b) else none

/-- `u64::checked_add`. -/
def checkedAdd : Option Nat := if a + b ≤ u64Max then some (a + b) else none

/-- `u64::checked_sub`. -/
def checkedSub : Option Nat := if b ≤ a then some (a - b) else none

theorem checkedAdd_eq_some {a b n : Nat} : checkedAdd a b = some n ↔ n = a + b ∧ a + b ≤ u64Max := by
  unfold checkedAdd
  split
  · next hle => exact ⟨fun h => ⟨(Option.some.inj h).symm, hle⟩, fun h => h.1 ▸ rfl⟩
  · next hgt => exact ⟨nofun, fun h => absurd h.2 hgt⟩

end Logex
