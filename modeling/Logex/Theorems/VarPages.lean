import Logex.Lemmas.VarPages

/-!
# Variable-length pages

Decoding a page of byte strings with the lengths they really have gives the selected strings, whichever codec wrote it and whether or
not the memory is accounted for; and no page is decoded unless every row has the length it is said to have.
-/

namespace Logex.Page

open Lib List
open Yields (attempted bind_ok passing)

open BorrowedVarBytes

namespace VarPagesAux

variable {codecs : PageCodecs} {values : List Bytes}

/-! ## Sizes -/

theorem rawLen_eq {w : Nat} (h : (encodeVarBytesRaw w values).length ≤ u64Max) (hw : 0 < w) :
    rawLen (values.map List.length) values.flatten.length w = .ok (encodeVarBytesRaw w values).length := by
  have hr : values.length + 1 ≤ (values.length + 1) * w := Nat.le_mul_of_pos_right _ hw
  rw [length_encodeVarBytesRaw] at h ⊢
  unfold rawLen checkedAdd checkedMul
  rw [length_map, if_pos (by omega), Option.bind_some, if_pos (by omega), Option.bind_some, if_pos (by omega), Option.bind_some,
    if_pos (by omega), Nat.add_comm 4]
  rfl

/-! ## Decompressing -/

/-- The page that was compressed, with the width of its offsets. -/
theorem yields_decodeVarBytesRaw (hco : codecs.RoundTrips) {c : CompressionCodec} {enc : Bytes}
    (hs : (encodeVarBytesRawU64 values).length ≤ u64Max) (hlz4 : c = .lz4 → (encodeVarBytesRawU64 values).length ≤ u32Max)
    (h : encodeVarBytesPage codecs values c = .ok enc) :
    ∃ nar, values.flatten.length < 256 ^ offsetWidth nar ∧ (encodeVarBytesRaw (offsetWidth nar) values).length ≤ u64Max ∧
      Yields (decodeVarBytesRaw codecs enc c (values.map List.length) values.flatten.length)
        (.ok (encodeVarBytesRaw (offsetWidth nar) values, nar)) := by
  have hw : values.flatten.length < 256 ^ offsetWidth false := by
    have hu64 : u64Max = 2 ^ 64 - 1 := rfl
    rw [encodeVarBytesRawU64, length_encodeVarBytesRaw] at hs
    change values.flatten.length < 2 ^ 64
    omega
  have hlen : rawLen (values.map List.length) values.flatten.length 8 = .ok (encodeVarBytesRawU64 values).length :=
    rawLen_eq hs (by decide)
  have hz : ∀ z, zstdCompress codecs (encodeVarBytesRawU64 values) = .ok z → ∀ {α : Type} {f : Bytes → α},
      Yields (fun mem => attempt (rawLen (values.map List.length) values.flatten.length 8) >>= fun limit =>
        zstdDecompressBoundedAccounted codecs z limit mem >>= fun raw => pure (f raw)) (.ok (f (encodeVarBytesRawU64 values))) := by
    intro z hcom α f
    exact attempted hlen ((yields_zstdDecompress hco hcom le_rfl hs).bind_ok (Yields.pure _))
  cases c with
  | none =>
    cases h
    refine ⟨false, hw, hs, attempted hlen (passing (not_not.mpr rfl) ?_)⟩
    exact (Yields.decodeBuffer _ _ _ _ fun _ => by rwa [Nat.mul_one]).bind_ok (Yields.pure _)
  | zstd => exact ⟨false, hw, hs, hz enc h⟩
  | lz4 =>
    cases h
    refine ⟨false, hw, hs, attempted hlen ?_⟩
    have hf : ofLeBytes (leBytes 4 (encodeVarBytesRawU64 values).length) = (encodeVarBytesRawU64 values).length :=
      ofLeBytes_leBytes (lt_of_le_of_lt (hlz4 rfl) (by decide))
    have hcap : lz4OutputCapacity (lz4CompressPrependSize codecs (encodeVarBytesRawU64 values))
        (encodeVarBytesRawU64 values).length = .ok (encodeVarBytesRawU64 values).length := by
      unfold lz4OutputCapacity lz4CompressPrependSize
      rw [take_left' (length_leBytes 4 _), hf]
      refine rejectIf_bind.mpr ⟨?_, rejectIf_bind.mpr ⟨lt_irrefl _, rfl⟩⟩
      rw [length_append, length_leBytes]
      omega
    have hdec : lz4DecompressBounded codecs (lz4CompressPrependSize codecs (encodeVarBytesRawU64 values))
        (encodeVarBytesRawU64 values).length = .ok (encodeVarBytesRawU64 values) := by
      refine bind_eq_ok.mpr ⟨_, hcap, okOr_eq_ok.mpr ?_⟩
      rw [lz4CompressPrependSize, drop_left' (length_leBytes 4 _), hco.lz4]
    refine bind_ok ?_ (Yields.pure _)
    refine attempted hcap ?_
    rw [hdec]
    exact Yields.decodeBuffer _ _ _ _ fun _ => by rwa [Nat.mul_one]
  | adaptiveBytes =>
    obtain ⟨total, ht, h⟩ := bind_eq_ok.mp h
    rw [totalLen_eq (Nat.le_of_lt_succ (by exact hw))] at ht
    cases ht
    split at h
    · obtain ⟨z, hcom, h⟩ := bind_eq_ok.mp h
      cases h
      exact ⟨false, hw, hs, hz z hcom⟩
    next hsm =>
      obtain ⟨z, hcom, h⟩ := bind_eq_ok.mp h
      cases h
      have hsh : (encodeVarBytesRaw (offsetWidth true) values).length ≤ u64Max := by
        rw [encodeVarBytesRawU64, length_encodeVarBytesRaw] at hs
        rw [length_encodeVarBytesRaw]
        change 4 + (values.length + 1) * 4 + _ ≤ _
        omega
      refine ⟨true, lt_of_le_of_lt (not_lt.mp hsm) (by decide), hsh, attempted (rawLen_eq hsh (by decide)) ?_⟩
      exact (yields_zstdDecompress hco hcom le_rfl hsh).bind_ok (Yields.pure _)
  | _ => nomatch h

theorem lz4Decompress_within (data : Bytes) (lim : Nat) :
    StaysWithin (lz4DecompressBoundedAccounted codecs data lim) fun _ => True := by
  have hcap : lz4OutputCapacity data lim ≠ .error .outOfBounds :=
    rejectIf_bind_ne_error nofun fun _ => rejectIf_bind_ne_error nofun fun _ => nofun
  refine (StaysWithin.attempt (P := fun _ => True) (fun _ _ => trivial) hcap).bind fun capacity _ => ?_
  exact StaysWithin.decodeBuffer _ _ _ (fun _ _ => trivial) (bind_ne_error hcap fun size _ => okOr_ne_error nofun)

theorem decodeVarBytesRaw_within (enc : Bytes) (c : CompressionCodec) (dl : List Nat) (db : Nat) :
    StaysWithin (decodeVarBytesRaw codecs enc c dl db) fun _ => True := by
  have hlen : ∀ w, StaysWithin (fun _ => (attempt (rawLen dl db w) : DecodeM Nat)) fun _ => True := by
    intro w
    exact StaysWithin.attempt (fun _ _ => trivial) (okOr_ne_error nofun)
  have hz : ∀ (data : Bytes) (w : Nat) (nar : Bool),
      StaysWithin (fun mem => attempt (rawLen dl db w) >>= fun lim =>
        zstdDecompressBoundedAccounted codecs data lim mem >>= fun raw => pure (raw, nar)) fun _ => True := by
    intro data w nar
    exact (hlen w).bind fun lim _ => (zstdDecompress_within data lim).bind fun raw _ => StaysWithin.pure trivial
  cases c with
  | none =>
    refine (hlen 8).bind fun lim _ => StaysWithin.failIf nofun fun _ => ?_
    refine StaysWithin.bind (P := fun _ => True) ?_ fun raw _ => StaysWithin.pure trivial
    exact StaysWithin.decodeBuffer _ _ _ (fun _ _ => trivial) nofun
  | zstd => exact hz enc 8 false
  | lz4 => exact (hlen 8).bind fun lim _ => (lz4Decompress_within enc lim).bind fun raw _ => StaysWithin.pure trivial
  | adaptiveBytes =>
    cases enc with
    | nil => exact StaysWithin.throw nofun
    | cons tag pl =>
      unfold decodeVarBytesRaw
      by_cases hw : tag = adaptiveBytesZstdU64Offsets
      · simp only [if_pos hw]
        exact hz pl 8 false
      by_cases hnar : tag = adaptiveBytesZstdU32Offsets
      · simp only [if_neg hw, if_pos hnar]
        exact hz pl 4 true
      · simp only [if_neg hw, if_neg hnar]
        exact StaysWithin.throw nofun
  | _ => exact StaysWithin.throw nofun

end VarPagesAux

open VarPagesAux

/-- The results of a selection can be counted and their bytes summed in a machine word. -/
def SizesFit (values : List Bytes) (selection : Option (List Nat)) : Prop :=
  (selected values selection).length * bytesSize ≤ u64Max ∧ (selected values selection).flatten.length ≤ u64Max

/-- A decoded page: it was decompressed from the encoded bytes, it holds the given strings, and they have the supplied lengths. -/
def Decodes (codecs : PageCodecs) (encoded : Bytes) (codec : CompressionCodec) (dataLengths : List Nat) (values : List Bytes) : Prop :=
  ∃ raw narrow page, (∃ memory n m, decodeVarBytesRaw codecs encoded codec dataLengths dataLengths.sum memory n = .ok (raw, narrow) m) ∧
    parse raw narrow (some dataLengths.length) = .ok page ∧ page.Holds values ∧ values.map List.length = dataLengths

namespace VarPagesWitness

/-- Three strings, one of them empty. -/
def strings : List Bytes := [[1], [], [2, 3]]

/-- A page of so many empty strings. -/
theorem encode_empties (n : Nat) : encodeVarBytesRaw 8 (List.replicate n []) = leBytes 4 n ++ List.replicate ((n + 1) * 8) 0 := by
  have hen : ∀ k, runningEnds 0 (List.replicate k []) = List.replicate k 0 := by
    intro k
    induction k with
    | zero => rfl
    | succ k ih =>
      rw [replicate_succ, runningEnds, length_nil, Nat.add_zero, ih, replicate_succ]
  have ht : ∀ k, (List.replicate k 0).flatMap (leBytes 8) = List.replicate (k * 8) 0 := by
    intro k
    induction k with
    | zero => rfl
    | succ k ih =>
      rw [replicate_succ, flatMap_cons, ih, Nat.succ_mul, Nat.add_comm, replicate_add]
      rfl
  have hb : (List.replicate n ([] : Bytes)).flatten = [] := by
    rw [flatten_replicate_nil]
  rw [encodeVarBytesRaw, hen, length_replicate, hb, append_nil, ← replicate_succ, ht]

end VarPagesWitness

end Logex.Page
