import Logex.Lemmas.IntegerCodecs

/-!
# The integer codecs

Over the whole 64-bit domain, a page of integers written with one of the delta codecs is read back as it was, and nothing shorter or
longer is read at all. The one limit is the count of packed bits, which the decoder checks against the size of a machine word. The
packer below the codecs is exact for every width.
-/

namespace Logex.Page

open Lib List

/-- The delta codecs. -/
def integerCodecs : List CompressionCodec := [.delta, .deltaZigZag, .deltaOfDelta]

/-- The numbers a delta codec packs for a list of values. -/
def packedNumbers : CompressionCodec → List (BitVec 64) → List (BitVec 64)
  | .delta, base :: rest => wrappingDeltas base rest
  | .deltaZigZag, base :: rest => (wrappingDeltas base rest).map zigzagEncode
  | .deltaOfDelta, base :: second :: rest => deltaChanges base second rest
  | _, _ => []

/-- A codec reads back what it wrote, as far as the packed bits can be counted, and refuses every resized form. -/
def ReadsBack (decode : Bytes → Nat → Option PageBudget → DecodeM (List (BitVec 64))) (encoded : Bytes)
    (numbers values : List (BitVec 64)) : Prop :=
  Yields (decode encoded values.length) (packedResult numbers values) ∧
    ∀ data, Resized data encoded → ∃ error, Yields (decode data values.length) (.error error)

/-- A packer and its unpacker for numbers of up to `width` bits: packed numbers are read back where their bits can be counted, the
packing is the shortest whole number of bytes that holds them, and only packings are read. -/
def PacksExactly (width : Nat) (pack : List Nat → Nat → Bytes) (unpack : Bytes → Nat → Nat → Except PageError (List Nat)) : Prop :=
  ∀ bits, bits ≠ 0 → bits ≤ width →
    (∀ values, (∀ v ∈ values, v < 2 ^ bits) → unpack (pack values bits) values.length bits =
      if values.length * bits ≤ u64Max then .ok values else .error (.invalidData "packed bit count overflow")) ∧
    (∀ values, values.length * bits ≤ 8 * (pack values bits).length ∧
      ∀ n, values.length * bits ≤ 8 * n → (pack values bits).length ≤ n) ∧
    ∀ data n values, unpack data n bits = .ok values →
      values.length = n ∧ (∀ v ∈ values, v < 2 ^ bits) ∧ data = pack values bits

namespace IntegerCodecsAux

variable {values : List (BitVec 64)}

/-- Nothing to pack. -/
theorem packedResult_nil (values : List (BitVec 64)) : packedResult [] values = .ok values := by
  unfold packedResult
  rw [length_nil, Nat.zero_mul]
  rfl

theorem delta (hr : values.length * 8 ≤ u64Max) :
    ReadsBack deltaDecode (deltaEncode values) (packedNumbers .delta values) values := by
  cases values with
  | nil =>
    refine ⟨?_, fun data hd => deltaDecode_sums.extra data hd.1⟩
    rw [packedNumbers, packedResult_nil]
    exact deltaDecode_sums.none
    all_goals nofun
  | cons base rest =>
    have hleh : (wrappingDeltas base rest).length = rest.length := length_wrappingDeltas base rest
    exact ⟨deltaDecode_sums.decodes hleh rfl hr, fun data hd => deltaDecode_sums.refuses hleh hd⟩

theorem deltaZigZag (hr : values.length * 8 ≤ u64Max) :
    ReadsBack signedDeltaDecode (signedDeltaEncode values) (packedNumbers .deltaZigZag values) values := by
  cases values with
  | nil =>
    refine ⟨?_, fun data hd => signedDeltaDecode_sums.extra data hd.1⟩
    rw [packedNumbers, packedResult_nil]
    exact signedDeltaDecode_sums.none
    all_goals nofun
  | cons base rest =>
    have hleh : ((wrappingDeltas base rest).map zigzagEncode).length = rest.length := by
      rw [length_map, length_wrappingDeltas]
    exact ⟨signedDeltaDecode_sums.decodes hleh (map_zigzag _) hr, fun data hd => signedDeltaDecode_sums.refuses hleh hd⟩

theorem deltaOfDelta (hr : values.length * 8 ≤ u64Max) :
    ReadsBack deltaOfDeltaDecode (deltaOfDeltaEncode values) (packedNumbers .deltaOfDelta values) values := by
  match values with
  | [] =>
    refine ⟨?_, fun data hd => deltaOfDeltaDecode_extra hd.1⟩
    rw [packedNumbers, packedResult_nil]
    exact deltaOfDeltaDecode_none
    all_goals nofun
  | [base] =>
    refine ⟨?_, fun data hd => ?_⟩
    · rw [packedNumbers, packedResult_nil]
      exact deltaOfDeltaDecode_singleton base
      all_goals nofun
    · have hne := hd.length_ne
      rw [deltaOfDeltaEncode, length_leBytes] at hne
      exact deltaOfDeltaDecode_singleton_length hne
  | base :: second :: rest =>
    exact ⟨deltaOfDelta_decodes base second rest hr, fun data hd => deltaOfDelta_refuses base second rest hd⟩

/-- A codec packs fewer numbers than there are values. -/
theorem length_packedNumbers (c : CompressionCodec) (values : List (BitVec 64)) :
    (packedNumbers c values).length ≤ values.length - 1 := by
  unfold packedNumbers
  split
  · rw [length_wrappingDeltas, length_cons]
    omega
  · rw [length_map, length_wrappingDeltas, length_cons]
    omega
  · rw [length_deltaChanges, length_cons, length_cons]
    omega
  · exact Nat.zero_le _

/-- The packed bits of a list of moderate length can be counted. -/
theorem packedResult_eq_ok {c : CompressionCodec} (h : values.length ≤ 2 ^ 58) :
    packedResult (packedNumbers c values) values = .ok values := by
  have hc := length_packedNumbers c values
  have hw := packedWidth_le (packedNumbers c values)
  have hb : (packedNumbers c values).length * packedWidth (packedNumbers c values) ≤ (2 ^ 58 - 1) * 64 :=
    Nat.mul_le_mul (by omega) hw
  unfold packedResult
  rw [if_pos (hb.trans (by decide))]

theorem packsExactly {w : Nat} (word : Nat) (hword : 7 + w ≤ 8 * (word / 8)) {pack : List Nat → Nat → Bytes}
    {unpack : Bytes → Nat → Nat → Except PageError (List Nat)}
    (hp : ∀ bits, bits ≠ 0 → bits ≤ w → ∀ values, pack values bits = packedBytes values bits)
    (hu : ∀ bits ≤ w, ∀ data n, unpack data n bits =
      (validatePackedBits data n bits w >>= fun _ => unpackFrom word (2 ^ bits - 1) bits data n 0)) : PacksExactly w pack unpack := by
  intro bits h0 hw
  simp only [hp bits h0 hw, hu bits hw]
  refine ⟨fun values h => ?_, fun values => ?_, fun data n values h => ?_⟩
  · split
    · next hf =>
      exact check_bind_eq_ok.mpr ⟨validatePackedBits_packedBytes h0 hw hf, unpackFrom_packedBytes (by omega) h⟩
    · next hf =>
      unfold validatePackedBits checkedMul
      rw [if_neg hf]
      rfl
  · rw [length_packedBytes]
    exact ⟨by omega, fun n hn => by omega⟩
  · obtain ⟨hv, h⟩ := check_bind_eq_ok.mp h
    exact packedBytes_of_unpackFrom (by omega) hv h

end IntegerCodecsAux

open IntegerCodecsAux

/-- For every list of 64-bit values a slice can hold and each delta codec, the page that is written decodes, with the row count of
the list and under every memory budget, to the list, provided that the packed numbers times their width is at most the largest
machine word, as it is for at most `2 ^ 58` values; beyond that the decoder refuses the page. Every strict prefix and every proper
extension of the page is rejected. -/
theorem integer_codecs_read_back (codecs : PageCodecs) {codec : CompressionCodec} (hcodec : codec ∈ integerCodecs)
    (values : List (BitVec 64)) (hslice : values.length * 8 ≤ 2 ^ 63 - 1) :
    ∃ encoded, encodeU64Page codecs values codec = .ok encoded ∧
      ((packedNumbers codec values).length * packedWidth (packedNumbers codec values) ≤ u64Max →
        Yields (decodeU64Page codecs encoded values.length codec) (.ok values)) ∧
      (values.length ≤ 2 ^ 58 → Yields (decodeU64Page codecs encoded values.length codec) (.ok values)) ∧
      (u64Max < (packedNumbers codec values).length * packedWidth (packedNumbers codec values) →
        Yields (decodeU64Page codecs encoded values.length codec) (.error (.invalidData "packed bit count overflow"))) ∧
      ∀ data, Resized data encoded → ∃ error, Yields (decodeU64Page codecs data values.length codec) (.error error) := by
  have hro : values.length * 8 ≤ u64Max := hslice.trans (by decide)
  have hba : ∃ encoded, encodeU64Page codecs values codec = .ok encoded ∧
      ReadsBack (fun data n => decodeU64Page codecs data n codec) encoded (packedNumbers codec values) values := by
    unfold integerCodecs at hcodec
    rcases mem_cons.mp hcodec with rfl | hcodec
    · exact ⟨_, rfl, delta hro⟩
    rcases mem_cons.mp hcodec with rfl | hcodec
    · exact ⟨_, rfl, deltaZigZag hro⟩
    · obtain rfl := mem_singleton.mp hcodec
      exact ⟨_, rfl, deltaOfDelta hro⟩
  obtain ⟨encoded, henc, hr, hres⟩ := hba
  refine ⟨encoded, henc, fun hb => ?_, fun hfew => ?_, fun hb => ?_, hres⟩
  · unfold packedResult at hr
    rwa [if_pos hb] at hr
  · rwa [packedResult_eq_ok hfew] at hr
  · unfold packedResult at hr
    rwa [if_neg (not_le.mpr hb)] at hr

/-- For every bit width from 1 to 64 (to 32 with the 32-bit packer). The unpacker multiplies count and width in a machine word, so
it refuses packings of more bits than that counts. -/
theorem bit_packing_is_exact : PacksExactly 32 bitpackU32 bitunpackU32 ∧ PacksExactly 64 bitpackU64 bitunpackU64 := by
  refine ⟨packsExactly 64 (by decide) (fun _ => bitpackU32_eq) fun _ _ _ _ => rfl,
    packsExactly 128 (by decide) (fun _ => bitpackU64_eq) fun bits hw data n => ?_⟩
  rw [← mask_u64 hw]
  rfl

namespace IntegerCodecsWitness

/-- Values at both ends of the domain. -/
def extremes : List (BitVec 64) := [0, BitVec.allOnes 64, 5]

/-- Each codec reads them back, also under a budget that grants every request. -/
theorem extremes_read_back : extremes.length * 8 ≤ 2 ^ 63 - 1 ∧ ∀ codecs : PageCodecs, ∀ codec ∈ integerCodecs,
    ∃ encoded, encodeU64Page codecs extremes codec = .ok encoded ∧ ∀ memory ∈ [none, some fun _ _ => true], ∀ n, ∃ m,
      decodeU64Page codecs encoded 3 codec memory n = .ok extremes m := by
  refine ⟨by decide, fun codecs codec hc => ?_⟩
  obtain ⟨encoded, henc, -, hfew, -⟩ := integer_codecs_read_back codecs hc extremes (by decide)
  exact ⟨encoded, henc, (hfew (by decide)).granted⟩

/-- One zero, then one large value many times: every difference takes 64 bits because the first one does. -/
def wide (n : Nat) : List (BitVec 64) := 0 :: List.replicate n (BitVec.twoPow 64 63)

theorem packedWidth_wide (n : Nat) : packedWidth (packedNumbers .delta (wide (n + 1))) = 64 := by
  have hle := packedWidth_le (packedNumbers .delta (wide (n + 1)))
  have hmem : 2 ^ 63 ∈ (packedNumbers .delta (wide (n + 1))).map BitVec.toNat := by
    rw [wide, replicate_succ, packedNumbers, wrappingDeltas, map_cons]
    exact mem_cons_self
  have hlt : 2 ^ 63 < 2 ^ packedWidth (packedNumbers .delta (wide (n + 1))) := lt_packedBits hmem
  have hw := (Nat.pow_lt_pow_iff_right (show 1 < 2 by decide)).mp hlt
  omega

theorem length_wide (n : Nat) : (wide n).length = n + 1 := by
  rw [wide, length_cons, length_replicate]

/-- A list of `2 ^ 58 + 1` values, well within what a slice can hold, is written but not read back. -/
theorem wide_refused : (wide (2 ^ 58)).length * 8 ≤ 2 ^ 63 - 1 ∧ ∀ codecs : PageCodecs,
    ∃ encoded, encodeU64Page codecs (wide (2 ^ 58)) .delta = .ok encoded ∧ ∀ n, ∃ m,
      decodeU64Page codecs encoded (wide (2 ^ 58)).length .delta none n =
        .error (.invalidData "packed bit count overflow") m := by
  obtain ⟨k, hk⟩ : ∃ k, 2 ^ 58 = k + 1 := ⟨2 ^ 58 - 1, by decide⟩
  have hs : (k + 2) * 8 ≤ 2 ^ 63 - 1 := by omega
  have hb : u64Max < (k + 1) * 64 := by
    unfold u64Max
    omega
  rw [hk]
  have hleh := length_wide (k + 1)
  have hdel : (packedNumbers .delta (wide (k + 1))).length = k + 1 := by
    rw [wide, packedNumbers, length_wrappingDeltas, length_replicate]
  have hre := delta (show (wide (k + 1)).length * 8 ≤ u64Max by
    rw [hleh]
    exact hs.trans (by decide))
  refine ⟨by rwa [hleh], fun codecs => ⟨_, rfl, fun n => ?_⟩⟩
  have hr := hre.1
  unfold packedResult at hr
  rw [packedWidth_wide, hdel, if_neg (not_le.mpr hb)] at hr
  exact hr.unaccounted n

/-- A slice of `2 ^ 58` numbers of 64 bits is packed and not read back. -/
theorem long_packing_refused : ∃ values : List Nat, values.length * 8 ≤ 2 ^ 63 - 1 ∧ (∀ v ∈ values, v < 2 ^ 64) ∧
    bitunpackU64 (bitpackU64 values 64) values.length 64 = .error (.invalidData "packed bit count overflow") := by
  refine ⟨.replicate (2 ^ 58) 0, ?_, fun v hv => ?_, ?_⟩
  · rw [length_replicate]
    decide
  · rw [eq_of_mem_replicate hv]
    decide
  · rw [length_replicate]
    exact bitunpackU64_overflow (by decide)

end IntegerCodecsWitness

end Logex.Page
