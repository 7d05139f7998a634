import Logex.Lib.Wire

/-!
# Numbers packed into a stream of bits

Numbers of one bit width, written one after another from the least significant bit of each byte on. The writer collects bits in a
machine word and sheds whole bytes; the reader loads a word at the byte a number starts in. Both are described by one number: the
packed numbers as the digits of a numeral in base `2 ^ bits`, whose little-endian bytes the writer produces and from which the reader
takes one digit.
-/

namespace Logex.Lib

open List

/-! ## Little-endian bytes of a number -/

theorem leBytes_add (k m x : Nat) : leBytes (k + m) x = leBytes k x ++ leBytes m (x / 256 ^ k) := by
  induction k generalizing x with
  | zero => rw [Nat.zero_add, Nat.pow_zero, Nat.div_one]; rfl
  | succ k ih => rw [Nat.add_right_comm, leBytes, ih, leBytes, Nat.div_div_eq_div_mul, Nat.pow_succ', cons_append]

theorem leBytes_congr {k x y : Nat} (h : x % 256 ^ k = y % 256 ^ k) : leBytes k x = leBytes k y := by
  induction k generalizing x y with
  | zero => rfl
  | succ k ih =>
    rw [Nat.pow_succ'] at h
    have hlow : x % 256 = y % 256 := by
      have := congrArg (· % 256) h
      simpa only [Nat.mod_mul_right_mod] using this
    have hh : x / 256 % 256 ^ k = y / 256 % 256 ^ k := by
      have := congrArg (· / 256) h
      simpa only [Nat.mod_mul_right_div_self] using this
    have hb : UInt8.ofNat x = UInt8.ofNat y := by
      refine UInt8.toNat_inj.mp ?_
      rw [UInt8.toNat_ofNat', UInt8.toNat_ofNat']
      exact hlow
    rw [leBytes, leBytes, hb, ih hh]

theorem ofLeBytes_leBytes_mod (k x : Nat) : ofLeBytes (leBytes k x) = x % 256 ^ k := by
  have hlt : x % 256 ^ k < 256 ^ k := Nat.mod_lt _ (Nat.pow_pos (by decide))
  rw [← ofLeBytes_leBytes hlt]
  exact congrArg ofLeBytes (leBytes_congr (Nat.mod_mod _ _).symm)

/-- A byte string is the number of its first bytes and that of the others. -/
theorem ofLeBytes_split (bs : List UInt8) (p : Nat) :
    ofLeBytes bs = ofLeBytes (bs.take p) + 256 ^ p * ofLeBytes (bs.drop p) ∧ ofLeBytes (bs.take p) < 256 ^ p := by
  have hlt := ofLeBytes_lt (bs.take p)
  rcases Nat.le_total bs.length p with hle | hle
  · have hpow : 256 ^ bs.length ≤ 256 ^ p := Nat.pow_le_pow_right (by decide) hle
    rw [take_of_length_le hle] at hlt ⊢
    rw [drop_eq_nil_of_le hle]
    exact ⟨rfl, by omega⟩
  · have happ := ofLeBytes_append (bs.take p) (bs.drop p)
    rw [length_take, Nat.min_eq_left hle] at happ hlt
    rw [take_append_drop] at happ
    exact ⟨happ, hlt⟩

theorem ofLeBytes_drop (bs : List UInt8) (p : Nat) : ofLeBytes (bs.drop p) = ofLeBytes bs / 256 ^ p := by
  obtain ⟨h, hlt⟩ := ofLeBytes_split bs p
  rw [h, Nat.add_mul_div_left _ _ (Nat.pow_pos (by decide)), Nat.div_eq_of_lt hlt, Nat.zero_add]

theorem ofLeBytes_take (bs : List UInt8) (w : Nat) : ofLeBytes (bs.take w) = ofLeBytes bs % 256 ^ w := by
  obtain ⟨h, hlt⟩ := ofLeBytes_split bs w
  rw [h, Nat.add_mul_mod_self_left, Nat.mod_eq_of_lt hlt]

theorem pow_256 (k : Nat) : 256 ^ k = 2 ^ (8 * k) := by
  rw [Nat.pow_mul]

/-! ## Numerals -/

/-- The numeral whose digits in base `2 ^ bits` are the given numbers, lowest first. -/
def packNat (bits : Nat) : List Nat → Nat
  | [] => 0
  | v :: vs => v % 2 ^ bits + 2 ^ bits * packNat bits vs

theorem packNat_lt (bits : Nat) (vs : List Nat) : packNat bits vs < 2 ^ (vs.length * bits) := by
  induction vs with
  | nil => simp [packNat]
  | cons v vs ih =>
    have hd := Nat.mod_lt v (Nat.two_pow_pos bits)
    have hr : 2 ^ bits * (packNat bits vs + 1) ≤ 2 ^ bits * 2 ^ (vs.length * bits) := Nat.mul_le_mul_left _ ih
    rw [Nat.mul_add, Nat.mul_one] at hr
    rw [packNat, length_cons, Nat.add_mul, Nat.one_mul, Nat.add_comm, Nat.pow_add _ (vs.length * bits),
      Nat.mul_comm (2 ^ (vs.length * bits))]
    omega

/-- Each number is a digit. -/
theorem packNat_digit {bits : Nat} {vs : List Nat} {i v : Nat} (h : vs[i]? = some v) :
    packNat bits vs / 2 ^ (i * bits) % 2 ^ bits = v % 2 ^ bits := by
  induction vs generalizing i with
  | nil => simp at h
  | cons w vs ih =>
    have hlt := Nat.mod_lt w (Nat.two_pow_pos bits)
    cases i with
    | zero =>
      obtain rfl : w = v := by simpa using h
      rw [Nat.zero_mul, Nat.pow_zero, Nat.div_one, packNat, Nat.add_mul_mod_self_left, Nat.mod_mod]
    | succ i =>
      rw [getElem?_cons_succ] at h
      rw [Nat.add_mul, Nat.one_mul, Nat.add_comm, Nat.pow_add, ← Nat.div_div_eq_div_mul, packNat,
        Nat.add_mul_div_left _ _ (Nat.two_pow_pos bits), Nat.div_eq_of_lt hlt, Nat.zero_add, ih h]

/-- The digits of a number, as far as they go, spell it. -/
theorem packNat_digits (bits n x : Nat) :
    packNat bits ((List.range n).map fun i => x / 2 ^ (0 + i * bits) % 2 ^ bits) = x % 2 ^ (n * bits) := by
  induction n generalizing x with
  | zero => rw [Nat.zero_mul, Nat.pow_zero, Nat.mod_one]; rfl
  | succ n ih =>
    rw [range_succ_eq_map, map_cons, map_map, packNat, Nat.succ_mul, Nat.add_comm (n * bits), Nat.pow_add 2 bits, Nat.mod_mul,
      ← ih (x / 2 ^ bits)]
    simp [Function.comp_def, Nat.div_div_eq_div_mul, ← Nat.pow_add, Nat.succ_mul, Nat.add_comm]

/-! ## The writer -/

/-- Shed the whole bytes of a word: while eight bits are buffered, push the lowest byte. -/
def drain (buffer bufBits : Nat) : List UInt8 × Nat × Nat :=
  if 8 ≤ bufBits then
    let rest := drain (buffer >>> 8) (bufBits - 8)
    (UInt8.ofNat buffer :: rest.1, rest.2)
  else
    ([], buffer, bufBits)
termination_by bufBits

/-- The loop of the writer over the numbers, with the bits buffered so far in a word of `word` bits. -/
def packFrom (word mask bits : Nat) : Nat → Nat → List Nat → List UInt8
  | buffer, bufBits, [] => if 0 < bufBits then [UInt8.ofNat buffer] else []
  | buffer, bufBits, v :: vs =>
    let shed := drain ((buffer ||| ((v &&& mask) <<< bufBits)) % 2 ^ word) (bufBits + bits)
    shed.1 ++ packFrom word mask bits shed.2.1 shed.2.2 vs

theorem drain_eq (buf bb : Nat) : drain buf bb = (leBytes (bb / 8) buf, buf / 256 ^ (bb / 8), bb % 8) := by
  induction bb using Nat.strongRecOn generalizing buf with
  | ind bb ih =>
    rw [drain]
    split
    · next hle =>
      have hdiv : bb / 8 = (bb - 8) / 8 + 1 := by omega
      have hmod : (bb - 8) % 8 = bb % 8 := by omega
      have hs : buf >>> 8 = buf / 256 := Nat.shiftRight_eq_div_pow buf 8
      rw [ih _ (by omega), hdiv, hmod, hs, leBytes, Nat.div_div_eq_div_mul, ← Nat.pow_succ']
    · next hlt =>
      have hdiv : bb / 8 = 0 := by omega
      rw [hdiv, Nat.mod_eq_of_lt (by omega), Nat.pow_zero, Nat.div_one]
      rfl

/-- The writer produces the bytes of the numeral, the buffered bits first. -/
theorem packFrom_eq {word bits : Nat} (hwo : 7 + bits ≤ word) (vs : List Nat) {buf bb : Nat} (hb : bb < 8) (hbuf : buf < 2 ^ bb) :
    packFrom word (2 ^ bits - 1) bits buf bb vs = leBytes ((bb + vs.length * bits + 7) / 8) (buf + 2 ^ bb * packNat bits vs) := by
  induction vs generalizing buf bb with
  | nil =>
    rw [packFrom, packNat, Nat.mul_zero, Nat.add_zero, length_nil, Nat.zero_mul, Nat.add_zero]
    by_cases h0 : 0 < bb
    · have hone : (bb + 7) / 8 = 1 := by omega
      rw [if_pos h0, hone]
      rfl
    · have hz : (bb + 7) / 8 = 0 := by omega
      rw [if_neg h0, hz]
      rfl
  | cons v vs ih =>
    have hlow : v &&& (2 ^ bits - 1) = v % 2 ^ bits := Nat.and_two_pow_sub_one_eq_mod v bits
    have hd := Nat.mod_lt v (Nat.two_pow_pos bits)
    -- The new digit lands above the buffered bits, within the word.
    have hm : (buf ||| ((v &&& (2 ^ bits - 1)) <<< bb)) = buf + 2 ^ bb * (v % 2 ^ bits) := by
      rw [hlow, Nat.or_comm, ← Nat.shiftLeft_add_eq_or_of_lt hbuf, Nat.shiftLeft_eq, Nat.mul_comm, Nat.add_comm]
    have hf : buf + 2 ^ bb * (v % 2 ^ bits) < 2 ^ (bb + bits) := by
      have hle : 2 ^ bb * (v % 2 ^ bits + 1) ≤ 2 ^ bb * 2 ^ bits := Nat.mul_le_mul_left _ hd
      rw [Nat.mul_add, Nat.mul_one] at hle
      rw [Nat.pow_add]
      omega
    have hfi : buf + 2 ^ bb * (v % 2 ^ bits) < 2 ^ word :=
      Nat.lt_of_lt_of_le hf (Nat.pow_le_pow_right (by decide) (by omega))
    have hs : bb + bits = 8 * ((bb + bits) / 8) + (bb + bits) % 8 := by omega
    have hpow : 2 ^ (bb + bits) = 256 ^ ((bb + bits) / 8) * 2 ^ ((bb + bits) % 8) := by
      rw [pow_256, ← Nat.pow_add, ← hs]
    generalize hw : buf + 2 ^ bb * (v % 2 ^ bits) = w at hm hf hfi
    have hv : buf + 2 ^ bb * packNat bits (v :: vs) = w + 2 ^ (bb + bits) * packNat bits vs := by
      rw [packNat, Nat.mul_add, ← Nat.add_assoc, hw, ← Nat.mul_assoc, ← Nat.pow_add]
    have hr : w / 256 ^ ((bb + bits) / 8) < 2 ^ ((bb + bits) % 8) := by
      rw [Nat.div_lt_iff_lt_mul (Nat.pow_pos (by decide)), Nat.mul_comm, ← hpow]
      exact hf
    have hc : (bb + (v :: vs).length * bits + 7) / 8 =
        (bb + bits) / 8 + ((bb + bits) % 8 + vs.length * bits + 7) / 8 := by
      rw [length_cons, Nat.add_mul, Nat.one_mul]
      omega
    rw [packFrom, hm, Nat.mod_eq_of_lt hfi, drain_eq]
    dsimp only
    rw [ih (Nat.mod_lt _ (by decide)) hr, hv, hc, leBytes_add]
    congr 1
    · refine leBytes_congr ?_
      rw [hpow, Nat.mul_assoc, Nat.add_mul_mod_self_left]
    · rw [hpow, Nat.mul_assoc, Nat.add_mul_div_left _ _ (Nat.pow_pos (by decide))]

/-! ## The reader -/

/-- A number at a bit offset, from the word that starts in its byte. -/
def packedAt (word mask offset : Nat) (bytes : List UInt8) : Nat :=
  (ofLeBytes ((bytes.drop (offset / 8)).take (word / 8)) >>> (offset % 8)) &&& mask

/-- The reader takes digits of the number the bytes spell. -/
theorem packedAt_eq {word bits : Nat} (hw : 7 + bits ≤ 8 * (word / 8)) (off : Nat) (bs : List UInt8) :
    packedAt word (2 ^ bits - 1) off bs = ofLeBytes bs / 2 ^ off % 2 ^ bits := by
  have hoff : off = 8 * (off / 8) + off % 8 := by omega
  have hdvd : 2 ^ (off % 8) * 2 ^ bits ∣ 256 ^ (word / 8) := by
    rw [pow_256, ← Nat.pow_add]
    exact Nat.pow_dvd_pow 2 (by omega)
  rw [packedAt, Nat.and_two_pow_sub_one_eq_mod, Nat.shiftRight_eq_div_pow, ofLeBytes_take, ofLeBytes_drop, ← Nat.mod_mul_right_div_self,
    Nat.mod_mod_of_dvd _ hdvd, Nat.mod_mul_right_div_self, Nat.div_div_eq_div_mul, pow_256, ← Nat.pow_add, ← hoff]

end Logex.Lib
