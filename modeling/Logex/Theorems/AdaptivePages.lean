import Logex.Lemmas.FixedPages

/-!
# Adaptive fixed-width pages

Whichever representation the chooser takes, a page of items reads back as the items in order, as long as item size and row count fit
the 32-bit fields of the dictionary. Whatever the bytes, the decoders give exactly the items they were asked for or refuse, and never
read outside their input.
-/

namespace Logex.Page

open Lib List

namespace AdaptivePagesAux

variable {codecs : PageCodecs}

/-- The length check after an adaptive page that gave the items. -/
theorem yields_decodeFixedWidthPage {page : Bytes} {w : Nat} {xs : List Bytes} (hw : OfWidth w xs) (hf : xs.length * w ≤ u64Max)
    (h : Yields (decodeAdaptiveFixedWidthPage codecs page xs.length w) (.ok xs.flatten)) :
    Yields (decodeFixedWidthPage codecs page xs.length w .adaptiveFixed) (.ok xs.flatten) := by
  refine Yields.attempted (okLen hf) (h.bind_ok ?_)
  exact Yields.passing (not_not.mpr hw.length_flatten) (Yields.pure _)

theorem decodedFixedLen_within (rows w : Nat) :
    (∀ len, decodedFixedLen rows w = .ok len → len = rows * w) ∧ decodedFixedLen rows w ≠ .error .outOfBounds := by
  unfold decodedFixedLen checkedMul
  split
  · exact ⟨fun len h => (Except.ok.inj h).symm, nofun⟩
  · exact ⟨nofun, nofun⟩

/-- The adaptive decoder never reads out of bounds. -/
theorem decodeAdaptiveFixedWidthPage_within (enc : Bytes) (n w : Nat) :
    StaysWithin (decodeAdaptiveFixedWidthPage codecs enc n w) fun _ => True := by
  have hlen : ∀ rows wid, StaysWithin (fun _ => (attempt (decodedFixedLen rows wid) : DecodeM Nat)) fun _ => True := by
    intro rows wid
    exact StaysWithin.attempt (fun _ _ => trivial) (decodedFixedLen_within rows wid).2
  unfold decodeAdaptiveFixedWidthPage
  split
  · exact StaysWithin.throw nofun
  next tag pl =>
    by_cases hn : tag = adaptiveFixedNone
    · simp only [if_pos hn]
      refine (hlen n w).bind fun exp _ => StaysWithin.decodeBuffer _ _ _ (fun _ _ => trivial) ?_
      unfold decodePlainFixedWidthPage rejectIf
      split <;> nofun
    by_cases hdic : tag = adaptiveFixedDictionary
    · simp only [if_neg hn, if_pos hdic]
      exact (dictDecode_within pl n w).weaken fun _ _ => trivial
    by_cases hz : tag = adaptiveFixedZstd
    · simp only [if_neg hn, if_neg hdic, if_pos hz]
      exact (hlen n w).bind fun exp _ => zstdDecompress_within pl exp
    by_cases hlow20 : tag = adaptiveFixedZstdB256Low20
    · simp only [if_neg hn, if_neg hdic, if_neg hz, if_pos hlow20]
      refine StaysWithin.failIf nofun fun _ => (hlen n 20).bind fun tailLen _ => ?_
      refine (zstdDecompress_within pl tailLen).bind fun tails _ => StaysWithin.failIf nofun fun _ => ?_
      refine (hlen n 32).bind fun ol _ => (StaysWithin.tryWithCapacity ol 1 decodeStage).bind fun _ _ => ?_
      exact StaysWithin.pure trivial
    · simp only [if_neg hn, if_neg hdic, if_neg hz, if_neg hlow20]
      exact StaysWithin.throw nofun

theorem decodeFixedWidthPage_within (enc : Bytes) (n w : Nat) :
    StaysWithin (decodeFixedWidthPage codecs enc n w .adaptiveFixed) fun raw => raw.length = n * w := by
  obtain ⟨hlen, hbds⟩ := decodedFixedLen_within n w
  refine (StaysWithin.attempt hlen hbds).bind fun expected hexp => ?_
  subst hexp
  refine (decodeAdaptiveFixedWidthPage_within enc n w).bind fun raw _ => StaysWithin.failIf nofun fun hleh => ?_
  exact StaysWithin.pure (not_not.mp hleh)

end AdaptivePagesAux

open AdaptivePagesAux

/-- For every item size from one to the largest 32-bit number, every list of at most that many items of that size and every
representation the adaptive chooser picks from, the adaptive page decodes under every memory budget to the items in order; so does
the page that is written. For every byte string, row count and item size, the dictionary and the adaptive decoder refuse it or
return exactly the bytes of `rowCount` items, and never read outside the input or the dictionary. -/
theorem adaptive_pages_read_back (codecs : PageCodecs) (hcodecs : codecs.RoundTrips) :
    (∀ (itemSize : Nat) (items : List Bytes), 0 < itemSize → itemSize ≤ u32Max → items.length ≤ u32Max → OfWidth itemSize items →
      (∀ page, encodeFixedWidthPage codecs items.flatten itemSize .adaptiveFixed = .ok page →
        Yields (decodeFixedWidthPage codecs page items.length itemSize .adaptiveFixed) (.ok items.flatten)) ∧
      ∀ candidates, adaptiveCandidates codecs items.flatten itemSize = .ok candidates → ∀ candidate ∈ candidates,
        Yields (decodeFixedWidthPage codecs (candidate.1 :: candidate.2) items.length itemSize .adaptiveFixed) (.ok items.flatten)) ∧
    ∀ (data : Bytes) (rowCount itemSize : Nat),
      StaysWithin (dictDecode data rowCount itemSize) (fun raw => raw.length = rowCount * itemSize) ∧
      StaysWithin (decodeFixedWidthPage codecs data rowCount itemSize .adaptiveFixed) fun raw => raw.length = rowCount * itemSize := by
  refine ⟨fun itemSize items hpos him hc hw => ?_,
    fun data rowCount itemSize => ⟨dictDecode_within data rowCount itemSize, decodeFixedWidthPage_within data rowCount itemSize⟩⟩
  have hf : items.length * itemSize ≤ u64Max := (Nat.mul_le_mul hc him).trans (by decide)
  have hcae : ∀ candidates, adaptiveCandidates codecs items.flatten itemSize = .ok candidates → ∀ candidate ∈ candidates,
      Yields (decodeFixedWidthPage codecs (candidate.1 :: candidate.2) items.length itemSize .adaptiveFixed) (.ok items.flatten) := by
    intro candidates hcan candidate hmem
    exact yields_decodeFixedWidthPage hw hf (yields_candidate hcodecs hpos hw him hc hcan hmem)
  refine ⟨fun page hp => ?_, hcae⟩
  obtain ⟨-, henc⟩ := rejectIf_bind.mp hp
  rcases exists_candidate henc with rfl | ⟨candidates, hcan, candidate, hmem, rfl⟩
  · exact yields_decodeFixedWidthPage hw hf (dictDecode_dictEncodeRaw hpos hw him hc)
  · exact hcae candidates hcan candidate hmem

namespace AdaptivePagesWitness

/-- Two equal items of the given size. -/
def twins (size : Nat) : List Bytes := [List.replicate size 0, List.replicate size 0]

theorem twins_ofWidth (size : Nat) : OfWidth size (twins size) := by
  intro item him
  rcases mem_cons.mp him with rfl | him
  · exact length_replicate
  · obtain rfl := mem_singleton.mp him
    exact length_replicate

/-- Their dictionary has one entry. -/
theorem dictEncodeRaw_twins {size : Nat} (hs : 0 < size) :
    dictEncodeRaw (twins size).flatten size = leBytes 4 1 ++ leBytes 4 size ++ List.replicate size 0 ++ [1, 0] := by
  unfold dictEncodeRaw
  rw [chunksExact_flatten hs (twins_ofWidth size), twins]
  generalize List.replicate size (0 : UInt8) = item
  have hidx : dictIndices [] [item, item] = ([item], [0, 0]) := by
    simp [dictIndices, List.idxOf?, findIdx?_cons]
  have hpac : bitpackU32 [0, 0] 1 = [0] := by
    rw [bitpackU32_eq (by decide) (by decide)]
    decide
  rw [hidx]
  unfold encodeDictionaryParts
  dsimp only
  rw [flatten_singleton, length_singleton, Nat.mod_eq_of_lt (by decide), show dictionaryBits 1 = 1 from rfl, hpac]
  rfl

/-- Large enough, they take the dictionary at once. -/
theorem encode_twins (codecs : PageCodecs) {size : Nat} (hs : 20 ≤ size) (hf : size ≤ 2 ^ 32) :
    encodeFixedWidthPage codecs (twins size).flatten size .adaptiveFixed =
      .ok (adaptiveFixedDictionary :: dictEncodeRaw (twins size).flatten size) := by
  have hu64 : u64Max = 2 ^ 64 - 1 := rfl
  have hleh : (twins size).flatten.length = 2 * size := (twins_ofWidth size).length_flatten
  have hdic : (dictEncodeRaw (twins size).flatten size).length = size + 10 := by
    rw [dictEncodeRaw_twins (by omega)]
    simp only [length_append, length_leBytes, length_cons, length_nil, length_replicate]
    omega
  refine rejectIf_bind.mpr ⟨?_, ?_⟩
  · rw [hleh, Nat.mul_mod_left]
    omega
  · unfold encodeAdaptiveFixedWidthPage
    dsimp only
    rw [hdic, hleh, if_pos]
    · rfl
    · unfold saturatingMul
      omega

/-- Two items of twenty bytes read back, also under a budget that grants every request. -/
theorem twins_read_back : PageCodecs.stored.RoundTrips ∧ ∃ page, encodeFixedWidthPage .stored (twins 20).flatten 20 .adaptiveFixed = .ok page ∧
    ∀ memory ∈ [none, some fun _ _ => true], ∀ n, ∃ m,
      decodeFixedWidthPage .stored page 2 20 .adaptiveFixed memory n = .ok (twins 20).flatten m := by
  have hb := (adaptive_pages_read_back .stored PageCodecs.stored_roundTrips).1 20 (twins 20) (by decide) (by decide) (by decide)
    (twins_ofWidth 20)
  have hp := encode_twins .stored (show 20 ≤ 20 by decide) (by decide)
  exact ⟨PageCodecs.stored_roundTrips, _, hp, (hb.1 _ hp).granted⟩

/-- Two items of `2 ^ 32` zero bytes: the page is written with item size zero in its dictionary, and refused when it is read. -/
theorem twins_refused : OfWidth (2 ^ 32) (twins (2 ^ 32)) ∧ ∀ codecs : PageCodecs, ∃ page,
    encodeFixedWidthPage codecs (twins (2 ^ 32)).flatten (2 ^ 32) .adaptiveFixed = .ok page ∧ ∀ n, ∃ m,
      decodeFixedWidthPage codecs page 2 (2 ^ 32) .adaptiveFixed none n = .error (.invalidData "dict item size mismatch") m := by
  refine ⟨twins_ofWidth _, ?_⟩
  obtain ⟨size, hs⟩ : ∃ size, size = 2 ^ 32 := ⟨_, rfl⟩
  intro codecs
  rw [← hs]
  have hu64 : u64Max = 2 ^ 64 - 1 := rfl
  have hf : leBytes 4 size = [0, 0, 0, 0] := by
    rw [hs]
    decide
  have hdic := dictEncodeRaw_twins (show 0 < size by omega)
  rw [hf] at hdic
  have hr : Yields (dictDecode (dictEncodeRaw (twins size).flatten size) 2 size)
      (.error (.invalidData "dict item size mismatch")) := by
    rw [hdic]
    unfold dictDecode
    refine Yields.passing ?_ (Yields.failing ?_)
    · simp only [length_append, length_leBytes, length_cons]
      omega
    · change ofLeBytes [0, 0, 0, 0] ≠ size
      rw [hs]
      decide
  have hp : Yields (decodeFixedWidthPage codecs (adaptiveFixedDictionary :: dictEncodeRaw (twins size).flatten size) 2 size
      .adaptiveFixed) (.error (.invalidData "dict item size mismatch")) :=
    Yields.attempted (okLen (by omega)) hr.bind_error
  exact ⟨_, encode_twins codecs (by omega) (le_of_eq hs), fun n => hp.unaccounted n⟩

end AdaptivePagesWitness

end Logex.Page
