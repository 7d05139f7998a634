import Logex.Page.Pages

/-!
# Packed integers

What the packers write is the little-endian numeral of the packed numbers, so that an unpacker with the same width and count reads
them back, and refuses every other length.
-/

namespace Logex.Page

open Lib List
open Yields (failing passing)

variable {values : List Nat} {data : Bytes} {bits : Nat}

/-! ## Bit packing -/

theorem validatePackedBits_eq_ok {n bits w : Nat} : validatePackedBits data n bits w = .ok () ↔
      n * bits ≤ u64Max ∧ bits ≠ 0 ∧ bits ≤ w ∧ data.length = (n * bits + 7) / 8 ∧
        (n * bits % 8 = 0 ∨ ∀ byte ∈ data.getLast?, byte.toNat >>> (n * bits % 8) = 0) := by
  unfold validatePackedBits checkedMul
  by_cases hf : n * bits ≤ u64Max
  · rw [if_pos hf]
    change rejectIf _ _ = .ok () ↔ _
    rw [rejectIf_eq_ok]
    simp only [not_or, not_lt, not_and, not_exists, not_not, hf, true_and]
    refine and_congr_right fun _ => and_congr_right fun _ => and_congr_right fun _ => ?_
    by_cases hz : n * bits % 8 = 0 <;> simp [hz]
  · rw [if_neg hf]
    constructor
    · intro h
      nomatch h
    · intro h
      exact absurd h.1 hf

/-- The number a word starts at is within the data. -/
theorem unpackFrom_eq {word bits : Nat} (hw : 7 + bits ≤ 8 * (word / 8)) (n : Nat) {off : Nat}
    (h : off + n * bits ≤ 8 * data.length) : unpackFrom word (2 ^ bits - 1) bits data n off =
      .ok ((List.range n).map fun i => ofLeBytes data / 2 ^ (off + i * bits) % 2 ^ bits) := by
  induction n generalizing off with
  | zero => rfl
  | succ n ih =>
    rw [Nat.add_mul, Nat.one_mul] at h
    refine rejectIf_bind.mpr ⟨by omega, bind_eq_ok.mpr ⟨_, ih (by omega), ?_⟩⟩
    rw [packedAt_eq hw, range_succ_eq_map, map_cons, map_map, Nat.zero_mul, Nat.add_zero]
    refine congrArg (fun rest => Except.ok (_ :: rest)) (map_congr_left fun i _ => ?_)
    dsimp only [Function.comp]
    rw [Nat.succ_mul, Nat.add_assoc, Nat.add_comm bits]

theorem packFrom_zero {word bits : Nat} (hw : 7 + bits ≤ word) (values : List Nat) :
    packFrom word (2 ^ bits - 1) bits 0 0 values = leBytes ((values.length * bits + 7) / 8) (packNat bits values) := by
  rw [packFrom_eq hw values (by decide) (by decide), Nat.zero_add, Nat.zero_add, Nat.pow_zero, Nat.one_mul]

/-- The bytes a packer writes. -/
def packedBytes (values : List Nat) (bits : Nat) : Bytes := leBytes ((values.length * bits + 7) / 8) (packNat bits values)

theorem packedBytes_nil (bits : Nat) : packedBytes [] bits = [] := by
  unfold packedBytes
  rw [length_nil, Nat.zero_mul]
  rfl

theorem length_packedBytes (values : List Nat) (bits : Nat) : (packedBytes values bits).length = (values.length * bits + 7) / 8 :=
  length_leBytes _ _

theorem bitpackU32_eq (h0 : bits ≠ 0) (h : bits ≤ 32) (values : List Nat) : bitpackU32 values bits = packedBytes values bits := by
  unfold bitpackU32
  by_cases hnil : values = []
  · rw [if_pos (.inl hnil), hnil, packedBytes_nil]
  · rw [if_neg (not_or.mpr ⟨hnil, h0⟩), packFrom_zero (by omega)]
    rfl

/-- The mask of the 64-bit packers. -/
theorem mask_u64 (h : bits ≤ 64) : (if 64 ≤ bits then u64Max else 2 ^ bits - 1) = 2 ^ bits - 1 := by
  by_cases hf : 64 ≤ bits
  · obtain rfl : bits = 64 := by omega
    rfl
  · rw [if_neg hf]

theorem bitpackU64_eq (h0 : bits ≠ 0) (h : bits ≤ 64) (values : List Nat) : bitpackU64 values bits = packedBytes values bits := by
  unfold bitpackU64
  rw [mask_u64 h]
  by_cases hnil : values = []
  · rw [if_pos (.inl hnil), hnil, packedBytes_nil]
  · rw [if_neg (not_or.mpr ⟨hnil, h0⟩), packFrom_zero (by omega)]
    rfl

/-- The number of the packed bytes. -/
theorem ofLeBytes_packedBytes (values : List Nat) (bits : Nat) : ofLeBytes (packedBytes values bits) = packNat bits values := by
  have hlt := packNat_lt bits values
  have hpow : 2 ^ (values.length * bits) ≤ 256 ^ ((values.length * bits + 7) / 8) := by
    rw [pow_256]
    exact Nat.pow_le_pow_right (by decide) (by omega)
  unfold packedBytes
  rw [ofLeBytes_leBytes_mod, Nat.mod_eq_of_lt (by omega)]

/-- The unused bits of the last packed byte are zero. -/
theorem packedBytes_padding (h : values.length * bits % 8 ≠ 0) {byte : UInt8}
    (hl : byte ∈ (packedBytes values bits).getLast?) : byte.toNat >>> (values.length * bits % 8) = 0 := by
  have hlt := packNat_lt bits values
  generalize hlen : values.length * bits = len at h hlt
  have hc : (len + 7) / 8 = len / 8 + 1 := by omega
  have hs : packedBytes values bits = leBytes (len / 8) (packNat bits values) ++ [UInt8.ofNat (packNat bits values / 256 ^ (len / 8))] := by
    unfold packedBytes
    rw [hlen, hc, leBytes_add]
    rfl
  rw [hs, getLast?_concat] at hl
  cases hl
  have hpow : 2 ^ len = 256 ^ (len / 8) * 2 ^ (len % 8) := by
    rw [pow_256, ← Nat.pow_add]
    congr 1
    omega
  have hsm : packNat bits values / 256 ^ (len / 8) < 2 ^ (len % 8) := by
    rw [Nat.div_lt_iff_lt_mul (Nat.pow_pos (by decide)), Nat.mul_comm, ← hpow]
    exact hlt
  have hb : 2 ^ (len % 8) ≤ 2 ^ 8 := Nat.pow_le_pow_right (by decide) (by omega)
  rw [UInt8.toNat_ofNat', Nat.mod_eq_of_lt (by omega), Nat.shiftRight_eq_div_pow]
  exact Nat.div_eq_of_lt hsm

theorem validatePackedBits_packedBytes {bits w : Nat} (h0 : bits ≠ 0) (hw : bits ≤ w)
    (hf : values.length * bits ≤ u64Max) : validatePackedBits (packedBytes values bits) values.length bits w = .ok () := by
  refine validatePackedBits_eq_ok.mpr ⟨hf, h0, hw, length_packedBytes values bits, ?_⟩
  by_cases hz : values.length * bits % 8 = 0
  · exact .inl hz
  · exact .inr fun byte hb => packedBytes_padding hz hb

/-- The digits of the packed bytes are the numbers. -/
theorem digits_packedBytes (h : ∀ v ∈ values, v < 2 ^ bits) :
    (List.range values.length).map (fun i => ofLeBytes (packedBytes values bits) / 2 ^ (0 + i * bits) % 2 ^ bits) = values := by
  refine ext_getElem? fun i => ?_
  rw [ofLeBytes_packedBytes, getElem?_map]
  rcases Nat.lt_or_ge i values.length with hlt | hge
  · have hv := getElem?_eq_getElem hlt
    rw [getElem?_range hlt, Option.map_some, Nat.zero_add, packNat_digit hv, hv, Nat.mod_eq_of_lt (h _ (getElem_mem hlt))]
  · rw [getElem?_eq_none (by simpa using hge), getElem?_eq_none hge]
    rfl

/-- What an unpacker makes of packed numbers that fit the width. -/
theorem unpackFrom_packedBytes {word bits : Nat} (hw : 7 + bits ≤ 8 * (word / 8)) (h : ∀ v ∈ values, v < 2 ^ bits) :
    unpackFrom word (2 ^ bits - 1) bits (packedBytes values bits) values.length 0 = .ok values := by
  rw [unpackFrom_eq hw, digits_packedBytes h]
  rw [length_packedBytes]
  omega

theorem bitunpackU32_packedBytes (h0 : bits ≠ 0) (hw : bits ≤ 32)
    (hf : values.length * bits ≤ u64Max) (h : ∀ v ∈ values, v < 2 ^ bits) :
    bitunpackU32 (packedBytes values bits) values.length bits = .ok values := by
  exact check_bind_eq_ok.mpr ⟨validatePackedBits_packedBytes h0 hw hf, unpackFrom_packedBytes (by omega) h⟩

theorem bitunpackU64_packedBytes (h0 : bits ≠ 0) (hw : bits ≤ 64)
    (hf : values.length * bits ≤ u64Max) (h : ∀ v ∈ values, v < 2 ^ bits) :
    bitunpackU64 (packedBytes values bits) values.length bits = .ok values := by
  unfold bitunpackU64
  rw [mask_u64 hw]
  exact check_bind_eq_ok.mpr ⟨validatePackedBits_packedBytes h0 hw hf, unpackFrom_packedBytes (by omega) h⟩

theorem bitunpackU64_overflow {n bits : Nat} (h : u64Max < n * bits) :
    bitunpackU64 data n bits = .error (.invalidData "packed bit count overflow") := by
  unfold bitunpackU64 validatePackedBits checkedMul
  rw [if_neg (not_le.mpr h)]
  rfl

/-- Any other length is refused. -/
theorem bitunpackU64_length {n bits : Nat} (h : data.length ≠ (n * bits + 7) / 8) :
    ∃ error, bitunpackU64 data n bits = .error error := by
  cases hres : bitunpackU64 data n bits with
  | error error => exact ⟨error, rfl⟩
  | ok values =>
    obtain ⟨hv, -⟩ := check_bind_eq_ok.mp hres
    exact absurd (validatePackedBits_eq_ok.mp hv).2.2.2.1 h

/-- What passes the checks is below the bits it is to hold. -/
theorem ofLeBytes_lt_of_validatePackedBits {n w : Nat} (h : validatePackedBits data n bits w = .ok ()) : ofLeBytes data < 2 ^ (n * bits) := by
  obtain ⟨-, -, -, hlen, hpad⟩ := validatePackedBits_eq_ok.mp h
  generalize n * bits = m at hlen hpad
  rcases eq_nil_or_concat' data with rfl | ⟨front, byte, rfl⟩
  · exact Nat.two_pow_pos m
  · have hf := ofLeBytes_lt front
    rw [length_append, length_singleton] at hlen
    have hb : byte.toNat < 2 ^ (m - 8 * front.length) := by
      by_cases hz : m % 8 = 0
      · rw [show m - 8 * front.length = 8 by omega]
        exact byte.toNat_lt
      · have hs := hpad.resolve_left hz byte (getLast?_concat ..)
        rw [Nat.shiftRight_eq_div_pow, Nat.div_eq_zero_iff_lt (Nat.two_pow_pos _)] at hs
        rwa [show m - 8 * front.length = m % 8 by omega]
    have hm : 2 ^ m = 256 ^ front.length * 2 ^ (m - 8 * front.length) := by
      rw [pow_256, ← Nat.pow_add]
      congr 1
      omega
    have hle : 256 ^ front.length * (byte.toNat + 1) ≤ 256 ^ front.length * 2 ^ (m - 8 * front.length) := Nat.mul_le_mul_left _ hb
    rw [Nat.mul_add, Nat.mul_one] at hle
    rw [ofLeBytes_append, hm, ofLeBytes, ofLeBytes, Nat.mul_zero, Nat.add_zero]
    omega

/-- What an unpacker reads packs to the bytes it was read from. -/
theorem packedBytes_of_unpackFrom {n w word : Nat} (hw : 7 + bits ≤ 8 * (word / 8))
    (hv : validatePackedBits data n bits w = .ok ()) (h : unpackFrom word (2 ^ bits - 1) bits data n 0 = .ok values) :
    values.length = n ∧ (∀ v ∈ values, v < 2 ^ bits) ∧ data = packedBytes values bits := by
  have hlen := (validatePackedBits_eq_ok.mp hv).2.2.2.1
  rw [unpackFrom_eq hw n (by omega)] at h
  cases h
  have hn : ((List.range n).map fun i => ofLeBytes data / 2 ^ (0 + i * bits) % 2 ^ bits).length = n := by simp
  refine ⟨hn, ?_, ?_⟩
  · rintro v hv
    obtain ⟨i, -, rfl⟩ := mem_map.mp hv
    exact Nat.mod_lt _ (Nat.two_pow_pos bits)
  · rw [packedBytes, packNat_digits, hn, Nat.mod_eq_of_lt (ofLeBytes_lt_of_validatePackedBits hv), leBytes_ofLeBytes hlen]

/-! ## Widths -/

theorem le_foldl_max (values : List Nat) (a : Nat) : a ≤ values.foldl max a ∧ ∀ v ∈ values, v ≤ values.foldl max a := by
  induction values generalizing a with
  | nil => exact ⟨le_rfl, nofun⟩
  | cons head values ih =>
    obtain ⟨hs, hv⟩ := ih (max a head)
    refine ⟨(le_max_left _ _).trans hs, forall_mem_cons.mpr ⟨(le_max_right _ _).trans hs, hv⟩⟩

theorem foldl_max_lt {a bou : Nat} (hs : a < bou) (h : ∀ v ∈ values, v < bou) : values.foldl max a < bou := by
  induction values generalizing a with
  | nil => exact hs
  | cons head values ih =>
    rw [forall_mem_cons] at h
    exact ih (Nat.max_lt.mpr ⟨hs, h.1⟩) h.2

theorem packedBits_ne_zero (values : List Nat) : packedBits values ≠ 0 := by
  unfold packedBits
  dsimp only
  split <;> omega

/-- The width of the largest number holds every number. -/
theorem lt_packedBits {v : Nat} (h : v ∈ values) : v < 2 ^ packedBits values := by
  have hle := (le_foldl_max values 0).2 v h
  unfold packedBits
  dsimp only
  split
  · next hz => omega
  · exact lt_of_le_of_lt hle Nat.lt_log2_self

theorem packedBits_le {w : Nat} (hw : 0 < w) (h : ∀ v ∈ values, v < 2 ^ w) : packedBits values ≤ w := by
  have hlt := foldl_max_lt (Nat.two_pow_pos w) h
  unfold packedBits
  dsimp only
  split
  · omega
  · next hne => exact (Nat.log2_lt hne).mpr hlt

/-! ## Differences and sums -/

theorem length_wrappingDeltas (prev : BitVec 64) (values : List (BitVec 64)) :
    (wrappingDeltas prev values).length = values.length := by
  induction values generalizing prev with
  | nil => rfl
  | cons value values ih => rw [wrappingDeltas, length_cons, ih, length_cons]

/-- Summing the wrapping differences gives the values back. -/
theorem wrappingSums_wrappingDeltas (prev : BitVec 64) (values : List (BitVec 64)) :
    wrappingSums prev (wrappingDeltas prev values) = values := by
  induction values generalizing prev with
  | nil => rfl
  | cons v values ih =>
    have hsum : prev + (v - prev) = v := by
      rw [BitVec.add_comm, BitVec.sub_add_cancel]
    rw [wrappingDeltas, wrappingSums, hsum, ih]

/-- The sign of a number, spread over every bit. -/
theorem sshiftRight_sign (v : BitVec 64) : v.sshiftRight 63 = if v.msb then BitVec.allOnes 64 else 0#64 := by
  refine BitVec.eq_of_getLsbD_eq fun i hi => ?_
  have hs : v.getLsbD 63 = v.msb := rfl
  rw [BitVec.getLsbD_sshiftRight, decide_eq_false (not_le.mpr hi), Bool.not_false, Bool.true_and]
  have hbit : (if 63 + i < 64 then v.getLsbD (63 + i) else v.msb) = v.msb := by
    split
    · obtain rfl : i = 0 := by omega
      exact hs
    · rfl
  rw [hbit]
  cases v.msb
  · simp
  · rw [if_pos rfl, BitVec.getLsbD_allOnes, decide_eq_true hi]

/-- The last bit of a number, spread over every bit. -/
theorem neg_and_one (w : BitVec 64) : -(w &&& 1#64) = if w.getLsbD 0 then BitVec.allOnes 64 else 0#64 := by
  rw [BitVec.and_one_eq_setWidth_ofBool_getLsbD]
  cases w.getLsbD 0 <;> rfl

/-- Zigzag decoding inverts zigzag encoding. -/
theorem zigzagDecode_zigzagEncode (v : BitVec 64) : zigzagDecode (zigzagEncode v) = v := by
  have hs : v.getLsbD 63 = v.msb := rfl
  unfold zigzagDecode zigzagEncode
  change _ ^^^ -(_ &&& 1#64) = _
  rw [neg_and_one, sshiftRight_sign]
  by_cases hmsb : v.msb = true
  · rw [if_pos hmsb, BitVec.xor_allOnes]
    have hodd : (~~~(v <<< 1)).getLsbD 0 = true := by simp
    rw [if_pos hodd, BitVec.xor_allOnes]
    refine BitVec.eq_of_getLsbD_eq fun i hi => ?_
    rcases lt_or_ge (1 + i) 64 with hlt | hge
    · simp [hi, hlt]
    · obtain rfl : i = 63 := by omega
      rw [hs, hmsb]
      simp
  · rw [if_neg hmsb, BitVec.xor_zero]
    have hev : ¬(v <<< 1).getLsbD 0 = true := by simp
    refine BitVec.eq_of_getLsbD_eq fun i hi => ?_
    rcases lt_or_ge (1 + i) 64 with hlt | hge
    · simp [hi, hlt]
    · obtain rfl : i = 63 := by omega
      rw [hs, Bool.eq_false_of_not_eq_true hmsb]
      simp

theorem map_zigzag (values : List (BitVec 64)) : (values.map zigzagEncode).map zigzagDecode = values := by
  have hinv : zigzagDecode ∘ zigzagEncode = id := funext zigzagDecode_zigzagEncode
  rw [map_map, hinv, map_id]

/-! ## The packed part of an encoding -/

/-- The width the numbers are packed with. -/
def packedWidth (numbers : List (BitVec 64)) : Nat := packedBits (numbers.map BitVec.toNat)

variable (numbers : List (BitVec 64))

theorem packedWidth_ne_zero : packedWidth numbers ≠ 0 := packedBits_ne_zero _

theorem packedWidth_le : packedWidth numbers ≤ 64 := by
  refine packedBits_le (by decide) fun value hv => ?_
  obtain ⟨num, -, rfl⟩ := mem_map.mp hv
  exact num.isLt

theorem toNat_packedWidth : (UInt8.ofNat (packedWidth numbers)).toNat = packedWidth numbers := by
  have hle := packedWidth_le numbers
  rw [UInt8.toNat_ofNat', Nat.mod_eq_of_lt (by omega)]

theorem encodePacked_eq (hd : Bytes) (numbers : List (BitVec 64)) : encodePacked hd numbers =
      hd ++ UInt8.ofNat (packedWidth numbers) :: packedBytes (numbers.map BitVec.toNat) (packedWidth numbers) := by
  unfold encodePacked
  dsimp only
  rw [bitpackU64_eq (packedBits_ne_zero _) (packedWidth_le numbers)]
  rfl

/-- What the decoders read from the packed part: the numbers, unless their bits cannot be counted. -/
theorem decodePacked_encodePacked (hd : Bytes) (numbers : List (BitVec 64)) :
    decodePacked (encodePacked hd numbers) hd.length numbers.length =
      if numbers.length * packedWidth numbers ≤ u64Max then .ok numbers
      else .error (.invalidData "packed bit count overflow") := by
  have hw : (encodePacked hd numbers)[hd.length]? = some (UInt8.ofNat (packedWidth numbers)) := by
    rw [encodePacked_eq, getElem?_append_right le_rfl, Nat.sub_self]
    rfl
  have hpac : (encodePacked hd numbers).drop (hd.length + 1) =
      packedBytes (numbers.map BitVec.toNat) (packedWidth numbers) := by
    rw [encodePacked_eq, drop_length_add_append]
    rfl
  unfold decodePacked
  rw [hw, hpac]
  change (bitunpackU64 _ _ _ >>= _) = _
  rw [toNat_packedWidth]
  by_cases hf : numbers.length * packedWidth numbers ≤ u64Max
  · have hnum : bitunpackU64 (packedBytes (numbers.map BitVec.toNat) (packedWidth numbers)) numbers.length
        (packedWidth numbers) = .ok (numbers.map BitVec.toNat) := by
      have hunp := @bitunpackU64_packedBytes (numbers.map BitVec.toNat) _ (packedWidth_ne_zero numbers)
        (packedWidth_le numbers) (by rwa [length_map]) fun _ h => lt_packedBits h
      rwa [length_map] at hunp
    have hb : (numbers.map BitVec.toNat).map (BitVec.ofNat 64) = numbers := by
      simp [Function.comp_def]
    rw [hnum, if_pos hf]
    exact congrArg Except.ok hb
  · rw [bitunpackU64_overflow (not_le.mp hf), if_neg hf]
    rfl

/-- A shorter or longer form of an encoding: one is a proper prefix of the other. -/
def Resized (data encoded : Bytes) : Prop := data ≠ encoded ∧ (data <+: encoded ∨ encoded <+: data)

theorem Resized.length_ne {data enc : Bytes} (h : Resized data enc) : data.length ≠ enc.length := by
  obtain ⟨hne, hpre | hext⟩ := h
  · intro hleh
    exact hne (hpre.eq_of_length hleh)
  · intro hleh
    exact hne (hext.eq_of_length hleh.symm).symm

/-- A resized form has the bytes of the encoding as far as both go. -/
theorem Resized.getElem? {data enc : Bytes} (h : Resized data enc) {i : Nat} (hd : i < data.length)
    (henc : i < enc.length) : data[i]? = enc[i]? := by
  obtain ⟨-, ⟨rest, rfl⟩ | ⟨rest, rfl⟩⟩ := h
  · rw [getElem?_append_left hd]
  · rw [getElem?_append_left henc]

/-- The decoders refuse the packed part of a resized encoding. -/
theorem decodePacked_resized {hd : Bytes} {numbers : List (BitVec 64)}
    (h : Resized data (encodePacked hd numbers)) (hleh : hd.length < data.length) :
    ∃ error, decodePacked data hd.length numbers.length = .error error := by
  have henc : (encodePacked hd numbers).length =
      hd.length + (1 + (numbers.length * packedWidth numbers + 7) / 8) := by
    rw [encodePacked_eq, length_append, length_cons, length_packedBytes, length_map]
    omega
  have hw : data[hd.length]? = some (UInt8.ofNat (packedWidth numbers)) := by
    rw [h.getElem? hleh (by omega), encodePacked_eq, getElem?_append_right le_rfl, Nat.sub_self]
    rfl
  have hne := h.length_ne
  obtain ⟨error, her⟩ := @bitunpackU64_length (data.drop (hd.length + 1)) numbers.length (packedWidth numbers) (by
    rw [length_drop]
    omega)
  refine ⟨error, ?_⟩
  unfold decodePacked
  rw [hw]
  change (bitunpackU64 _ _ _ >>= _) = _
  rw [toNat_packedWidth, her]
  rfl

/-! ## The decoders -/

/-- The values of a vector whose size can be counted. -/
def vectorOf (rowCount : Nat) (values : List (BitVec 64)) : Except PageError (List (BitVec 64)) := do
  let _ ← arrayBytes rowCount 8 decodeStage
  return values

theorem vectorOf_eq_ok {n : Nat} (h : n * 8 ≤ u64Max) (values : List (BitVec 64)) : vectorOf n values = .ok values := by
  unfold vectorOf arrayBytes checkedMul
  rw [if_pos h]
  rfl

theorem yields_pushAllU64 (n : Nat) (values : List (BitVec 64)) :
    Yields (fun mem => pushAllU64 mem n values) (vectorOf n values) := by
  have hpush := (Yields.tryWithCapacity n 8 decodeStage).bind fun _ _ => Yields.pure values
  unfold vectorOf
  cases hb : arrayBytes n 8 decodeStage <;> rw [hb] at hpush <;> exact hpush

/-- The numbers of the packed part, then the values made from them. -/
theorem yields_numbers {count n : Nat} (hle : count ≤ n) (numbers : Except PageError (List (BitVec 64)))
    (values : List (BitVec 64) → List (BitVec 64)) :
    Yields (fun memory => decodeBuffer memory count 8 decodeStage numbers >>= fun ns => pushAllU64 memory n (values ns))
      (numbers >>= fun ns => vectorOf n (values ns)) := by
  by_cases hfit : n * 8 ≤ u64Max
  · exact (Yields.decodeBuffer count 8 decodeStage numbers fun _ => by omega).bind fun ns _ => yields_pushAllU64 n (values ns)
  cases numbers with
  | error error => exact (Yields.decodeBuffer count 8 decodeStage (.error error) nofun).bind_error
  | ok ns =>
    -- The vector of the values cannot be counted either.
    have hover : vectorOf n (values ns) = .error (.sizeOverflow decodeStage) := by
      rw [vectorOf, arrayBytes, checkedMul, if_neg hfit]
      rfl
    have hpush := yields_pushAllU64 n (values ns)
    change Yields _ (vectorOf n (values ns))
    rw [hover] at hpush ⊢
    exact Yields.decodeBuffer_error rfl hpush

theorem u64At_field (hd : Bytes) (v : BitVec 64) (rest : Bytes) : u64At (hd ++ (leBytes 8 v.toNat ++ rest)) hd.length = v := by
  unfold u64At
  rw [drop_left, take_left' (length_leBytes 8 _), ofLeBytes_leBytes_mod]
  rw [Nat.mod_eq_of_lt (show v.toNat < 256 ^ 8 from v.isLt), BitVec.ofNat_toNat, BitVec.setWidth_eq]

/-- What a decoder of a base and packed differences does: the differences, undone by `undo`, are added up from the base. -/
structure SumsFromBase (decode : Bytes → Nat → Option PageBudget → DecodeM (List (BitVec 64)))
    (undo : List (BitVec 64) → List (BitVec 64)) : Prop where
  none : Yields (decode [] 0) (.ok [])
  extra : ∀ data, data ≠ [] → ∃ error, Yields (decode data 0) (.error error)
  short : ∀ data rowCount, rowCount ≠ 0 → data.length < 9 → ∃ error, Yields (decode data rowCount) (.error error)
  sums : ∀ data rowCount, rowCount ≠ 0 → 9 ≤ data.length →
    Yields (decode data rowCount) (decodePacked data 8 (rowCount - 1) >>= fun numbers =>
      vectorOf rowCount (u64At data 0 :: wrappingSums (u64At data 0) (undo numbers)))

theorem deltaDecode_sums : SumsFromBase deltaDecode id where
  none := passing (fun h => h rfl) (Yields.pure [])
  extra data h := ⟨_, failing h⟩
  short data rowCount h0 h := by
    refine ⟨.invalidData "delta data too short", ?_⟩
    unfold deltaDecode
    simp only [if_neg h0]
    exact failing h
  sums data rowCount h0 h := by
    unfold deltaDecode
    simp only [if_neg h0]
    exact passing (not_lt.mpr h) (yields_numbers (Nat.sub_le ..) _ _)

theorem signedDeltaDecode_sums : SumsFromBase signedDeltaDecode (List.map zigzagDecode) where
  none := passing (fun h => h rfl) (Yields.pure [])
  extra data h := ⟨_, failing h⟩
  short data rowCount h0 h := by
    refine ⟨.invalidData "signed delta data too short", ?_⟩
    unfold signedDeltaDecode
    simp only [if_neg h0]
    exact failing h
  sums data rowCount h0 h := by
    unfold signedDeltaDecode
    simp only [if_neg h0]
    exact passing (not_lt.mpr h) (yields_numbers (Nat.sub_le ..) _ _)

/-- The values, unless the bits of their packed numbers cannot be counted. -/
def packedResult (numbers values : List (BitVec 64)) : Except PageError (List (BitVec 64)) :=
  if numbers.length * packedWidth numbers ≤ u64Max then .ok values else .error (.invalidData "packed bit count overflow")

theorem decodePacked_bind {hd : Bytes} {numbers : List (BitVec 64)} {n : Nat} (hr : n * 8 ≤ u64Max)
    (values : List (BitVec 64) → List (BitVec 64)) :
    (decodePacked (encodePacked hd numbers) hd.length numbers.length >>= fun ns => vectorOf n (values ns)) =
      packedResult numbers (values numbers) := by
  unfold packedResult
  rw [decodePacked_encodePacked]
  split
  · exact vectorOf_eq_ok hr _
  · rfl

section

variable {decode : Bytes → Nat → Option PageBudget → DecodeM (List (BitVec 64))} {undo : List (BitVec 64) → List (BitVec 64)}
variable {base : BitVec 64} {rest numbers : List (BitVec 64)}

/-- Such a decoder gives back the values whose differences were packed. -/
theorem SumsFromBase.decodes (h : SumsFromBase decode undo) (hleh : numbers.length = rest.length)
    (hu : undo numbers = wrappingDeltas base rest) (hr : (base :: rest).length * 8 ≤ u64Max) :
    Yields (decode (encodePacked (leBytes 8 base.toNat) numbers) (base :: rest).length) (packedResult numbers (base :: rest)) := by
  have hlen : 9 ≤ (encodePacked (leBytes 8 base.toNat) numbers).length := by
    rw [encodePacked_eq, length_append, length_cons, length_leBytes]
    omega
  have hb : u64At (encodePacked (leBytes 8 base.toNat) numbers) 0 = base := by
    exact u64At_field [] base _
  have hs := h.sums _ (base :: rest).length (Nat.succ_ne_zero _) hlen
  have hres := @decodePacked_bind (leBytes 8 base.toNat) numbers _ hr fun ns => base :: wrappingSums base (undo ns)
  rw [length_leBytes, hu, wrappingSums_wrappingDeltas, hleh, length_cons] at hres
  rw [hb, length_cons, Nat.add_sub_cancel, hres] at hs
  exact hs

/-- It refuses every resized form. -/
theorem SumsFromBase.refuses (h : SumsFromBase decode undo) (hleh : numbers.length = rest.length)
    (hd : Resized data (encodePacked (leBytes 8 base.toNat) numbers)) :
    ∃ error, Yields (decode data (base :: rest).length) (.error error) := by
  rcases lt_or_ge data.length 9 with hsh | hl
  · exact h.short data _ (Nat.succ_ne_zero _) hsh
  · have hs := h.sums data (base :: rest).length (Nat.succ_ne_zero _) hl
    obtain ⟨error, her⟩ := decodePacked_resized hd (by rw [length_leBytes]; omega)
    rw [length_leBytes, hleh] at her
    rw [length_cons, Nat.add_sub_cancel, her] at hs
    exact ⟨error, hs⟩

end

/-! ## Differences of differences -/

theorem deltaOfDeltaDecode_none : Yields (deltaOfDeltaDecode [] 0) (.ok []) := passing (fun h => h rfl) (Yields.pure [])

theorem deltaOfDeltaDecode_extra (h : data ≠ []) : ∃ error, Yields (deltaOfDeltaDecode data 0) (.error error) :=
  ⟨_, failing h⟩

/-- A single value is its eight bytes. -/
theorem deltaOfDeltaDecode_singleton (base : BitVec 64) : Yields (deltaOfDeltaDecode (leBytes 8 base.toNat) 1) (.ok [base]) := by
  have hlen : (leBytes 8 base.toNat).length = 8 := length_leBytes 8 _
  have hb : u64At (leBytes 8 base.toNat) 0 = base := by
    have hf := u64At_field [] base []
    rwa [nil_append, append_nil] at hf
  unfold deltaOfDeltaDecode
  simp only [if_neg Nat.one_ne_zero, if_true, hb]
  refine passing (by omega) (passing (not_not.mpr hlen) ?_)
  exact Yields.decodeBuffer 1 8 decodeStage (.ok [base]) fun _ => by decide

theorem deltaOfDeltaDecode_singleton_length (h : data.length ≠ 8) :
    ∃ error, Yields (deltaOfDeltaDecode data 1) (.error error) := by
  unfold deltaOfDeltaDecode
  rcases lt_or_ge data.length 8 with hs | hl
  · exact ⟨_, failing hs⟩
  · exact ⟨_, passing (not_lt.mpr hl) (failing h)⟩

/-- Two values or more: the base, the first difference and the packed changes of the difference. -/
theorem deltaOfDeltaDecode_sums (n : Nat) (h : 17 ≤ data.length) :
    Yields (deltaOfDeltaDecode data (n + 2)) (decodePacked data 16 n >>= fun zig =>
      vectorOf (n + 2) (u64At data 0 :: (u64At data 0 + u64At data 8) ::
        wrappingSums (u64At data 0 + u64At data 8) (wrappingSums (u64At data 8) (zig.map zigzagDecode)))) := by
  unfold deltaOfDeltaDecode
  exact passing (by omega) (passing (by omega) (yields_numbers (Nat.sub_le ..) _ _))

theorem deltaOfDeltaDecode_short (n : Nat) (h : data.length < 17) :
    ∃ error, Yields (deltaOfDeltaDecode data (n + 2)) (.error error) := by
  unfold deltaOfDeltaDecode
  rcases lt_or_ge data.length 8 with hs | hl
  · exact ⟨_, failing hs⟩
  · exact ⟨_, passing (not_lt.mpr hl) (failing h)⟩

/-- The changes of the difference that follow the first two values. -/
def deltaChanges (base second : BitVec 64) (rest : List (BitVec 64)) : List (BitVec 64) :=
  (wrappingDeltas (second - base) (wrappingDeltas second rest)).map zigzagEncode

theorem length_deltaChanges (base second : BitVec 64) (rest : List (BitVec 64)) :
    (deltaChanges base second rest).length = rest.length := by
  unfold deltaChanges
  rw [length_map, length_wrappingDeltas, length_wrappingDeltas]

section

variable (base second : BitVec 64) (rest : List (BitVec 64))

/-- The two fields before the packed changes. -/
def deltaHeader : Bytes := leBytes 8 base.toNat ++ leBytes 8 (second - base).toNat

theorem length_deltaHeader : (deltaHeader base second).length = 16 := by
  unfold deltaHeader
  rw [length_append, length_leBytes, length_leBytes]

theorem deltaOfDeltaEncode_eq :
    deltaOfDeltaEncode (base :: second :: rest) = encodePacked (deltaHeader base second) (deltaChanges base second rest) := rfl

theorem deltaOfDelta_decodes (hr : (base :: second :: rest).length * 8 ≤ u64Max) :
    Yields (deltaOfDeltaDecode (deltaOfDeltaEncode (base :: second :: rest)) (base :: second :: rest).length)
      (packedResult (deltaChanges base second rest) (base :: second :: rest)) := by
  have hlen : 17 ≤ (encodePacked (deltaHeader base second) (deltaChanges base second rest)).length := by
    rw [encodePacked_eq, length_append, length_cons, length_deltaHeader]
    omega
  have hb : u64At (encodePacked (deltaHeader base second) (deltaChanges base second rest)) 0 = base := by
    exact u64At_field [] base _
  have hf : u64At (encodePacked (deltaHeader base second) (deltaChanges base second rest)) 8 = second - base := by
    have hfi := u64At_field (leBytes 8 base.toNat) (second - base)
      (UInt8.ofNat (packedWidth (deltaChanges base second rest)) ::
        packedBytes ((deltaChanges base second rest).map BitVec.toNat) (packedWidth (deltaChanges base second rest)))
    rwa [length_leBytes] at hfi
  have hs := deltaOfDeltaDecode_sums rest.length hlen
  have hsec : base + (second - base) = second := by
    rw [BitVec.add_comm, BitVec.sub_add_cancel]
  have hres := @decodePacked_bind (deltaHeader base second) (deltaChanges base second rest) _ hr fun ns =>
    base :: second :: wrappingSums second (wrappingSums (second - base) (ns.map zigzagDecode))
  have hu : wrappingSums second (wrappingSums (second - base) ((deltaChanges base second rest).map zigzagDecode)) = rest := by
    rw [deltaChanges, map_zigzag, wrappingSums_wrappingDeltas, wrappingSums_wrappingDeltas]
  rw [length_deltaHeader, length_deltaChanges, hu, length_cons, length_cons] at hres
  rw [hb, hf, hsec, hres] at hs
  exact hs

theorem deltaOfDelta_refuses (hd : Resized data (deltaOfDeltaEncode (base :: second :: rest))) :
    ∃ error, Yields (deltaOfDeltaDecode data (base :: second :: rest).length) (.error error) := by
  rw [deltaOfDeltaEncode_eq] at hd
  rcases lt_or_ge data.length 17 with hsh | hl
  · exact deltaOfDeltaDecode_short rest.length hsh
  · have hs := deltaOfDeltaDecode_sums rest.length hl
    obtain ⟨error, her⟩ := decodePacked_resized hd (by rw [length_deltaHeader]; omega)
    rw [length_deltaHeader, length_deltaChanges] at her
    rw [her] at hs
    exact ⟨error, hs⟩

end

end Logex.Page
