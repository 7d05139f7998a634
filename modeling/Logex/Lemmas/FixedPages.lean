import Logex.Lib.Chunks
import Logex.Lemmas.IntegerCodecs

/-!
# Fixed-width pages

The dictionary codec and the adaptive page that chooses among it, the raw values and compressed forms: what is written reads back as
the items, and what is read, from any bytes at all, is as many items as were asked for.
-/

namespace Logex.Page

open Lib List
open Yields (attempted passing)

variable {size : Nat} {ind : List Nat} {bs : Bytes}

/-! ## Items -/

theorem chunksExact_of_lt (h : bs.length < size) : chunksExact size bs = [] := by
  unfold chunksExact
  rw [dif_neg (by omega)]

theorem chunksExact_append (hs : 0 < size) {item : Bytes} (him : item.length = size) (rest : Bytes) :
    chunksExact size (item ++ rest) = item :: chunksExact size rest := by
  rw [chunksExact, dif_pos ⟨hs, by rw [length_append]; omega⟩, take_left' him, drop_left' him]

/-- Items laid end to end are cut apart again. -/
theorem chunksExact_flatten (hs : 0 < size) {xs : List Bytes} (h : OfWidth size xs) : chunksExact size xs.flatten = xs := by
  induction xs with
  | nil => exact chunksExact_of_lt hs
  | cons item xs ih =>
    rw [ofWidth_cons] at h
    rw [flatten_cons, chunksExact_append hs h.1, ih h.2]

/-- A whole number of items is what its chunks give. -/
theorem exists_items (n : Nat) (h : bs.length = n * size) :
    ∃ xs : List Bytes, OfWidth size xs ∧ xs.length = n ∧ xs.flatten = bs := by
  induction n generalizing bs with
  | zero =>
    rw [Nat.zero_mul] at h
    obtain rfl := eq_nil_of_length_eq_zero h
    exact ⟨[], ofWidth_nil, rfl, rfl⟩
  | succ n ih =>
    rw [Nat.succ_mul] at h
    obtain ⟨xs, hw, hleh, hfla⟩ := @ih (bs.drop size) (by rw [length_drop]; omega)
    refine ⟨bs.take size :: xs, ofWidth_cons.mpr ⟨by rw [length_take]; omega, hw⟩, ?_, ?_⟩
    · rw [length_cons, hleh]
    · rw [flatten_cons, hfla, take_append_drop]

/-! ## The dictionary -/

theorem getElem?_of_isPrefix {α : Type} {sta who : List α} (h : sta <+: who) {i : Nat} {a : α} (ha : sta[i]? = some a) :
    who[i]? = some a := by
  obtain ⟨rest, rfl⟩ := h
  rw [List.getElem?_append_left (List.getElem?_eq_some_iff.mp ha).1, ha]

/-- The loop keeps the dictionary it starts from, adds values of the page only, and gives each value the index of its entry. -/
theorem dictIndices_spec (vs dict : List Bytes) (hs : dict.length + vs.length ≤ 2 ^ 32) : dict <+: (dictIndices dict vs).1 ∧
      (dictIndices dict vs).1.length ≤ dict.length + vs.length ∧
      (∀ e ∈ (dictIndices dict vs).1, e ∈ dict ∨ e ∈ vs) ∧
      List.Forall₂ (fun i v => (dictIndices dict vs).1[i]? = some v) (dictIndices dict vs).2 vs := by
  induction vs generalizing dict with
  | nil => exact ⟨prefix_rfl, le_rfl, fun _ h => .inl h, .nil⟩
  | cons v vs ih =>
    rw [length_cons] at hs
    rw [dictIndices]
    cases hf : dict.idxOf? v with
    | some i =>
      obtain ⟨hk, hleh, hen, hidx⟩ := ih dict (by omega)
      obtain ⟨hin, hv, -⟩ := findIdx?_eq_some_iff_getElem.mp hf
      have hey : dict[i]? = some v := by
        rw [getElem?_eq_getElem hin, LawfulBEq.eq_of_beq hv]
      refine ⟨hk, by rw [length_cons]; dsimp only; omega, fun e h => ?_, .cons ?_ hidx⟩
      · exact (hen e h).imp_right (mem_cons_of_mem _)
      · dsimp only
        rw [Nat.mod_eq_of_lt (by omega)]
        exact getElem?_of_isPrefix hk hey
    | none =>
      obtain ⟨hk, hleh, hen, hidx⟩ := ih (dict ++ [v]) (by rw [length_append, length_singleton]; omega)
      rw [length_append, length_singleton] at hleh
      refine ⟨(prefix_append dict [v]).trans hk, by rw [length_cons]; dsimp only; omega, fun e h => ?_, .cons ?_ hidx⟩
      · rcases hen e h with hd | hva
        · rcases mem_append.mp hd with hd | hv
          · exact .inl hd
          · exact .inr (mem_singleton.mp hv ▸ mem_cons_self)
        · exact .inr (mem_cons_of_mem _ hva)
      · dsimp only
        rw [Nat.mod_eq_of_lt (by omega)]
        exact getElem?_of_isPrefix hk getElem?_concat_length

theorem dictionaryBits_ne_zero (size : Nat) : dictionaryBits size ≠ 0 := by
  unfold dictionaryBits
  split <;> omega

/-- The width holds every index of the dictionary. -/
theorem lt_dictionaryBits {size i : Nat} (h : i < size) : i < 2 ^ dictionaryBits size := by
  unfold dictionaryBits
  split
  · omega
  · exact lt_of_le_of_lt (show i ≤ size - 1 by omega) Nat.lt_log2_self

theorem dictionaryBits_le (h : size ≤ 2 ^ 32) : dictionaryBits size ≤ 32 := by
  unfold dictionaryBits
  split
  · omega
  · exact (Nat.log2_lt (by omega)).mpr (by omega)

theorem slice_eq_ok {a stop : Nat} (hs : a ≤ stop) (hst : stop ≤ bs.length) :
    slice bs a stop = .ok ((bs.drop a).take (stop - a)) := by
  unfold slice
  rw [if_pos ⟨hs, hst⟩]

theorem lt_of_entries {dict : List Bytes} {vs : List Bytes}
    (h : List.Forall₂ (fun i v => dict[i]? = some v) ind vs) : ∀ i ∈ ind, i < dict.length := by
  induction h with
  | nil => exact nofun
  | cons hen _ ih => exact List.forall_mem_cons.mpr ⟨(List.getElem?_eq_some_iff.mp hen).1, ih⟩

/-- Indices within the dictionary copy their entries. -/
theorem copyEntries_eq {w : Nat} {dict : List Bytes} (hd : OfWidth w dict) {vs : List Bytes}
    (h : List.Forall₂ (fun i v => dict[i]? = some v) ind vs) : copyEntries dict.flatten w ind = .ok vs.flatten := by
  induction h with
  | nil => rfl
  | cons hen _ ih =>
    have hin := (List.getElem?_eq_some_iff.mp hen).1
    have hf := Nat.mul_le_mul_right w (Nat.succ_le_of_lt hin)
    rw [Nat.succ_mul] at hf
    rw [copyEntries, ih, slice_eq_ok (Nat.le_add_right _ _) (by rwa [hd.length_flatten]), Nat.add_sub_cancel_left,
      hd.take_drop_flatten hen]
    rfl

/-- Any indices within the dictionary copy as many items. -/
theorem length_copyEntries {db : Bytes} {ds w : Nat} (hd : db.length = ds * w) (h : ∀ i ∈ ind, i < ds) :
    ∃ cop, copyEntries db w ind = .ok cop ∧ cop.length = ind.length * w := by
  induction ind with
  | nil => exact ⟨[], rfl, by simp⟩
  | cons i ind ih =>
    rw [forall_mem_cons] at h
    obtain ⟨cop, hcop, hleh⟩ := ih h.2
    have hf := Nat.mul_le_mul_right w (Nat.succ_le_of_lt h.1)
    rw [Nat.succ_mul, ← hd] at hf
    refine ⟨(db.drop (i * w)).take w ++ cop, ?_, ?_⟩
    · rw [copyEntries, hcop, slice_eq_ok (Nat.le_add_right _ _) hf, Nat.add_sub_cancel_left]
      rfl
    · rw [length_append, length_take, length_drop, hleh, length_cons, Nat.succ_mul]
      omega

theorem okOr_checkedMul {a b : Nat} {error : PageError} (h : a * b ≤ u64Max) : okOr error (checkedMul a b) = .ok (a * b) := by
  unfold checkedMul
  rw [if_pos h]
  rfl

/-- Where the parts of a dictionary page stand. -/
theorem dictionary_layout {ds w : Nat} (hdi : ds ≤ u32Max) (him : w ≤ u32Max) {es : Bytes}
    (hen : es.length = ds * w) (wid : UInt8) (pac : Bytes) {data : Bytes}
    (hd : data = leBytes 4 ds ++ leBytes 4 w ++ es ++ wid :: pac) :
    ofLeBytes (data.take 4) = ds ∧ ofLeBytes ((data.drop 4).take 4) = w ∧
      data.length = ds * w + 9 + pac.length ∧ slice data 8 (ds * w + 8) = .ok es ∧
      data[ds * w + 8]? = some wid ∧ data.drop (ds * w + 8 + 1) = pac := by
  have hf : ∀ n ≤ u32Max, ofLeBytes (leBytes 4 n) = n := by
    intro n hn
    rw [ofLeBytes_leBytes_mod, Nat.mod_eq_of_lt (Nat.lt_of_le_of_lt hn (by decide))]
  have hlen : (leBytes 4 ds ++ leBytes 4 w).length = 8 := by
    rw [length_append, length_leBytes, length_leBytes]
  have hh : (leBytes 4 ds ++ leBytes 4 w ++ es).length = ds * w + 8 := by
    rw [length_append, hlen, hen, Nat.add_comm]
  have hleh : data.length = ds * w + 9 + pac.length := by
    rw [hd, length_append, hh, length_cons]
    omega
  refine ⟨?_, ?_, hleh, ?_, ?_, ?_⟩
  · rw [hd, List.append_assoc, List.append_assoc, take_left' (length_leBytes 4 _), hf _ hdi]
  · rw [hd, List.append_assoc, List.append_assoc, drop_left' (length_leBytes 4 _), take_left' (length_leBytes 4 _), hf _ him]
  · rw [slice_eq_ok (by omega) (by omega), hd, List.append_assoc, drop_left' hlen, Nat.add_sub_cancel, take_left' hen]
  · rw [hd, getElem?_append_right (Nat.le_of_eq hh), hh, Nat.sub_self]
    rfl
  · rw [hd, ← hh, drop_length_add_append]
    rfl

/-- Items written through a dictionary read back as they were. -/
theorem dictDecode_dictEncodeRaw {w : Nat} {xs : List Bytes} (hpos : 0 < w) (hw : OfWidth w xs)
    (him : w ≤ u32Max) (hc : xs.length ≤ u32Max) :
    Yields (dictDecode (dictEncodeRaw xs.flatten w) xs.length w) (.ok xs.flatten) := by
  have hu32 : u32Max = 2 ^ 32 - 1 := rfl
  obtain ⟨-, hd, hen, hidx⟩ := dictIndices_spec xs [] (by rw [length_nil]; omega)
  rw [length_nil, Nat.zero_add] at hd
  generalize henc : dictEncodeRaw xs.flatten w = data
  unfold dictEncodeRaw at henc
  rw [chunksExact_flatten hpos hw] at henc
  dsimp only at henc
  generalize (dictIndices [] xs).1 = dict at hd hen hidx henc
  generalize (dictIndices [] xs).2 = ind at hidx henc
  have hdiW : OfWidth w dict := by
    intro e hey
    exact hw e ((hen e hey).resolve_left not_mem_nil)
  have hleh : ind.length = xs.length := hidx.length_eq
  have hbou := lt_of_entries hidx
  have hb : dictionaryBits dict.length ≤ 32 := dictionaryBits_le (by omega)
  unfold encodeDictionaryParts at henc
  dsimp only at henc
  rw [Nat.mod_eq_of_lt (show dict.length < 2 ^ 32 by omega), bitpackU32_eq (dictionaryBits_ne_zero _) hb] at henc
  obtain ⟨hsiF, hitF, hdaL, hs, hwiF, hpac⟩ :=
    dictionary_layout (hd.trans hc) him hdiW.length_flatten _ _ henc.symm
  have hpro : xs.length * w ≤ u32Max * u32Max := Nat.mul_le_mul hc him
  have hdiP : dict.length * w ≤ xs.length * w := Nat.mul_le_mul_right _ hd
  have hsqu : u32Max * u32Max + 8 ≤ u64Max := by decide
  have hpaF : ind.length * dictionaryBits dict.length ≤ u64Max := by
    refine (Nat.mul_le_mul (Nat.le_of_eq hleh |>.trans hc) hb).trans ?_
    decide
  have hunp := bitunpackU32_packedBytes (dictionaryBits_ne_zero dict.length) hb hpaF
    fun i h => lt_dictionaryBits (hbou i h)
  have hwiB : (UInt8.ofNat (dictionaryBits dict.length)).toNat = dictionaryBits dict.length := by
    rw [UInt8.toNat_ofNat', Nat.mod_eq_of_lt (by omega)]
  have hwiO : okOr PageError.outOfBounds data[dict.length * w + 8]? = .ok (UInt8.ofNat (dictionaryBits dict.length)) := by
    rw [hwiF]
    rfl
  have hdiE : okOr (PageError.invalidData "dictionary size overflow")
      ((checkedMul dict.length w).bind (checkedAdd · 8)) = .ok (dict.length * w + 8) := by
    unfold checkedMul checkedAdd
    rw [if_pos (by omega), Option.bind_some, if_pos (by omega)]
    rfl
  unfold dictDecode
  rw [hsiF, hitF]
  refine passing (by omega) (passing (not_not.mpr rfl) ?_)
  refine attempted hdiE (passing (by omega) (attempted hs (attempted hwiO ?_)))
  rw [hpac, hwiB, ← hleh, hunp]
  have hcount : ind.length * 4 ≤ u64Max := (Nat.mul_le_mul_right 4 (hleh.trans_le hc)).trans (by decide)
  refine (Yields.decodeBuffer _ _ _ _ fun _ => hcount).bind_ok (passing ?_ (attempted (okOr_checkedMul (by rw [hleh]; omega)) ?_))
  · rintro ⟨i, hmax, hov⟩
    exact absurd (hbou i (max?_mem hmax)) (Nat.not_lt.mpr hov)
  · have hcap := Yields.tryWithCapacity (ind.length * w) 1 decodeStage
    rw [arrayBytes, okOr_checkedMul (by rw [hleh]; omega)] at hcap
    refine hcap.bind_ok ?_
    rw [copyEntries_eq hdiW hidx]
    exact Yields.attempt _

/-- Unpacking gives as many numbers as were asked for, or refuses. -/
theorem bitunpackU32_within (data : Bytes) (n bits : Nat) : (∀ vs, bitunpackU32 data n bits = .ok vs → vs.length = n) ∧
      bitunpackU32 data n bits ≠ .error .outOfBounds := by
  have hval : validatePackedBits data n bits 32 ≠ .error .outOfBounds := by
    unfold validatePackedBits rejectIf
    cases checkedMul n bits with
    | none => nofun
    | some len =>
      change (if _ then _ else _) ≠ _
      split <;> nofun
  unfold bitunpackU32
  cases hv : validatePackedBits data n bits 32 with
  | error error =>
    refine ⟨nofun, fun h => hval ?_⟩
    obtain rfl := Except.error.inj (show Except.error error = Except.error PageError.outOfBounds from h)
    exact hv
  | ok checked =>
    obtain ⟨-, -, hw, hleh, -⟩ := validatePackedBits_eq_ok.mp hv
    rw [unpackFrom_eq (show 7 + bits ≤ 8 * (64 / 8) by omega) n (by omega)]
    refine ⟨fun vs h => ?_, nofun⟩
    cases h
    rw [length_map, length_range]

/-- Whatever the bytes, the dictionary decoder gives as many items as were asked for, or refuses. -/
theorem dictDecode_within (data : Bytes) (n w : Nat) : StaysWithin (dictDecode data n w) fun raw => raw.length = n * w := by
  refine StaysWithin.failIf nofun fun hhdr => StaysWithin.failIf nofun fun _ => ?_
  generalize ofLeBytes (data.take 4) = ds
  have hend : ∀ de, okOr (PageError.invalidData "dictionary size overflow")
      ((checkedMul ds w).bind (checkedAdd · 8)) = .ok de → de = ds * w + 8 := by
    intro de h
    obtain ⟨pro, hpro, hsum⟩ := Option.bind_eq_some_iff.mp (okOr_eq_ok.mp h)
    have hmul : pro = ds * w := by
      unfold checkedMul at hpro
      split at hpro
      · exact (Option.some.inj hpro).symm
      · nomatch hpro
    rw [(checkedAdd_eq_some.mp hsum).1, hmul]
  refine (StaysWithin.attempt hend ?_).bind fun de hdiE => ?_
  · cases (checkedMul ds w).bind (checkedAdd · 8) <;> nofun
  subst hdiE
  refine StaysWithin.failIf nofun fun hl => ?_
  have hs := @slice_eq_ok data 8 (ds * w + 8) (by omega) (by omega)
  refine (StaysWithin.attempt (P := fun es => es.length = ds * w) (fun es h => ?_) ?_).bind fun es hen => ?_
  · rw [hs] at h
    rw [← Except.ok.inj h, length_take, length_drop]
    omega
  · rw [hs]
    nofun
  have hw := getElem?_eq_getElem (not_le.mp hl)
  refine (StaysWithin.attempt (P := fun _ => True) (fun _ _ => trivial) ?_).bind fun width _ => ?_
  · rw [hw]
    nofun
  obtain ⟨hc, hwit⟩ := bitunpackU32_within (data.drop (ds * w + 8 + 1)) n width.toNat
  refine (StaysWithin.decodeBuffer n 4 decodeStage hc hwit).bind fun ind hidx => ?_
  refine StaysWithin.failIf nofun fun hbou => ?_
  refine (StaysWithin.attempt (P := fun _ => True) (fun _ _ => trivial) ?_).bind fun ol _ => ?_
  · cases checkedMul n w <;> nofun
  refine (StaysWithin.tryWithCapacity ol 1 decodeStage).bind fun _ _ => ?_
  have hall : ∀ i ∈ ind, i < ds := by
    intro i hin
    refine Nat.lt_of_not_le fun hle => hbou ?_
    cases hmax : ind.max? with
    | none =>
      rw [max?_eq_none_iff.mp hmax] at hin
      exact absurd hin not_mem_nil
    | some lar => exact ⟨lar, rfl, hle.trans ((max?_eq_some_iff.mp hmax).2 i hin)⟩
  obtain ⟨copied, hcop, hleh⟩ := length_copyEntries hen hall
  rw [hcop]
  refine StaysWithin.attempt (fun raw h => ?_) nofun
  rw [← Except.ok.inj h, hleh, hidx]

/-! ## Compressed pages -/

/-- The documented behaviour of the compressors: what was compressed decompresses to itself into a buffer large enough, Zstandard
never announces less than there is, and an LZ4 block fills an output of its exact size. -/
structure PageCodecs.RoundTrips (codecs : PageCodecs) : Prop where
  zstd : ∀ raw compressed, codecs.zstdEncodeAll raw = some compressed → ∀ capacity, raw.length ≤ capacity →
    codecs.zstdDecompressToBuffer compressed capacity = some raw
  bound : ∀ raw compressed n, codecs.zstdEncodeAll raw = some compressed → codecs.zstdUpperBound compressed = some n → raw.length ≤ n
  lz4 : ∀ raw, codecs.lz4DecompressInto (codecs.lz4Compress raw) raw.length = some raw

/-- Compressors that store their input behind a marker. -/
def PageCodecs.stored : PageCodecs where
  zstdEncodeAll raw := some (0x28 :: raw)
  zstdUpperBound data := some (data.length - 1)
  zstdDecompressToBuffer
    | 0x28 :: raw, capacity => if raw.length ≤ capacity then some raw else none
    | _, _ => none
  lz4Compress raw := raw
  lz4DecompressInto data size := if data.length ≤ size then some data else none

theorem PageCodecs.stored_roundTrips : stored.RoundTrips where
  zstd := by
    rintro raw z h capacity hcap
    cases h
    exact if_pos hcap
  bound := by
    rintro raw z n h hb
    cases h
    cases hb
    exact le_rfl
  lz4 := fun raw => if_pos le_rfl

section

variable {codecs : PageCodecs}

theorem zstdCompress_eq_ok {raw z : Bytes} : zstdCompress codecs raw = .ok z ↔ codecs.zstdEncodeAll raw = some z :=
  okOr_eq_ok

/-- A compressed form decompresses within any limit it fits. -/
theorem yields_zstdDecompress (hco : codecs.RoundTrips) {raw z : Bytes} (h : zstdCompress codecs raw = .ok z)
    {lim : Nat} (hl : raw.length ≤ lim) (hlim : lim ≤ u64Max) : Yields (zstdDecompressBoundedAccounted codecs z lim) (.ok raw) := by
  have henc := zstdCompress_eq_ok.mp h
  have hcap : raw.length ≤ zstdOutputCapacity codecs z lim := by
    unfold zstdOutputCapacity
    cases hb : codecs.zstdUpperBound z with
    | none => exact Nat.le_min.mpr ⟨hl, hl⟩
    | some n => exact Nat.le_min.mpr ⟨hco.bound raw z n henc hb, hl⟩
  have hdec : zstdDecompressBounded codecs z lim = .ok raw := by
    unfold zstdDecompressBounded
    rw [hco.zstd raw z henc _ hcap]
    rfl
  unfold zstdDecompressBoundedAccounted
  rw [hdec]
  refine Yields.decodeBuffer _ _ _ _ fun _ => ?_
  have hle : zstdOutputCapacity codecs z lim ≤ lim := min_le_right ..
  omega

theorem zstdDecompress_within (data : Bytes) (lim : Nat) :
    StaysWithin (zstdDecompressBoundedAccounted codecs data lim) fun _ => True := by
  refine StaysWithin.decodeBuffer _ _ _ (fun _ _ => trivial) ?_
  unfold zstdDecompressBounded
  cases codecs.zstdDecompressToBuffer data (zstdOutputCapacity codecs data lim) <;> nofun

/-! ## The adaptive page -/

theorem okLen {rows wid : Nat} (h : rows * wid ≤ u64Max) : decodedFixedLen rows wid = .ok (rows * wid) := okOr_checkedMul h

theorem flatMap_low20 {xs : List Bytes} (h : ∀ item ∈ xs, item.take 12 = List.replicate 12 0) :
    (xs.map (List.drop 12)).flatMap (fun tail => List.replicate 12 0 ++ tail) = xs.flatten := by
  induction xs with
  | nil => rfl
  | cons item xs ih =>
    rw [forall_mem_cons] at h
    rw [map_cons, flatMap_cons, ih h.2, flatten_cons, ← h.1, take_append_drop]

variable {w : Nat} {xs : List Bytes}

/-- The tails of values that are zero above them read back as the values. -/
theorem decodeB256Low20Page_eq (hco : codecs.RoundTrips) (hw : OfWidth w xs) (hc : xs.length ≤ u32Max)
    {tai low : Bytes} (ht : low20Tails xs.flatten w = some tai) (h : zstdCompress codecs tai = .ok low) :
    Yields (decodeB256Low20Page codecs low xs.length w) (.ok xs.flatten) := by
  have hu32 : u32Max = 2 ^ 32 - 1 := rfl
  have hu64 : u64Max = 2 ^ 64 - 1 := rfl
  unfold low20Tails at ht
  split at ht
  next hlow =>
    obtain ⟨rfl, -, hz⟩ := hlow
    rw [chunksExact_flatten (by decide) hw] at ht hz
    have htaW : OfWidth 20 (xs.map (List.drop 12)) := by
      intro tail hta
      obtain ⟨item, him, rfl⟩ := mem_map.mp hta
      rw [length_drop, hw item him]
    have hfla : (xs.map (List.drop 12)).flatten = tai := Option.some.inj ht
    have hleh : tai.length = xs.length * 20 := by
      rw [← hfla, htaW.length_flatten, length_map]
    refine passing (not_not.mpr rfl) (attempted (okLen (by omega)) ?_)
    refine (yields_zstdDecompress hco h (le_of_eq hleh) (by omega)).bind_ok (passing (not_not.mpr hleh) ?_)
    refine attempted (okLen (by omega)) ?_
    have hcap := Yields.tryWithCapacity (xs.length * 32) 1 decodeStage
    rw [arrayBytes, okOr_checkedMul (by omega)] at hcap
    refine hcap.bind_ok ?_
    rw [← hfla, chunksExact_flatten (by decide) htaW, flatMap_low20 hz]
    exact Yields.pure _
  · cases ht

/-- Every representation an adaptive page is chosen from reads back as the items. -/
theorem yields_candidate (hco : codecs.RoundTrips) (hpos : 0 < w) (hw : OfWidth w xs) (him : w ≤ u32Max)
    (hc : xs.length ≤ u32Max) {can : List (UInt8 × Bytes)}
    (h : adaptiveCandidates codecs xs.flatten w = .ok can) {cand : UInt8 × Bytes} (hmem : cand ∈ can) :
    Yields (decodeAdaptiveFixedWidthPage codecs (cand.1 :: cand.2) xs.length w) (.ok xs.flatten) := by
  have hf : xs.length * w ≤ u64Max := (Nat.mul_le_mul hc him).trans (by decide)
  have hleh := hw.length_flatten
  have hp : Yields (decodeAdaptiveFixedWidthPage codecs (adaptiveFixedNone :: xs.flatten) xs.length w)
      (.ok xs.flatten) := by
    refine attempted (okLen hf) ?_
    have hdec : decodePlainFixedWidthPage xs.flatten (xs.length * w) = .ok xs.flatten :=
      rejectIf_bind.mpr ⟨not_not.mpr hleh, rfl⟩
    rw [hdec]
    exact Yields.decodeBuffer _ _ _ _ fun _ => by rwa [Nat.mul_one]
  have hdic : Yields (decodeAdaptiveFixedWidthPage codecs (adaptiveFixedDictionary :: dictEncodeRaw xs.flatten w)
      xs.length w) (.ok xs.flatten) := dictDecode_dictEncodeRaw hpos hw him hc
  have hz : ∀ zstd, zstdCompress codecs xs.flatten = .ok zstd →
      Yields (decodeAdaptiveFixedWidthPage codecs (adaptiveFixedZstd :: zstd) xs.length w) (.ok xs.flatten) := by
    intro zstd h
    exact attempted (okLen hf) (yields_zstdDecompress hco h (le_of_eq hleh) hf)
  obtain ⟨zstd, hcom, hr⟩ := bind_eq_ok.mp h
  have ht : ∀ cand ∈ [(adaptiveFixedNone, xs.flatten), (adaptiveFixedDictionary, dictEncodeRaw xs.flatten w),
      (adaptiveFixedZstd, zstd)],
      Yields (decodeAdaptiveFixedWidthPage codecs (cand.1 :: cand.2) xs.length w) (.ok xs.flatten) := by
    rw [forall_mem_cons, forall_mem_cons, forall_mem_singleton]
    exact ⟨hp, hdic, hz zstd hcom⟩
  split at hr
  next tails hta =>
    obtain ⟨low20, hlow20, hcan⟩ := bind_eq_ok.mp hr
    cases hcan
    rcases mem_append.mp hmem with hmem | hmem
    · exact ht cand hmem
    · obtain rfl := mem_singleton.mp hmem
      exact decodeB256Low20Page_eq hco hw hc hta hlow20
  next hta =>
    cases hr
    exact ht cand hmem

/-- What an adaptive page is: the tag of a representation and its bytes. -/
theorem exists_candidate {page : Bytes} {raw : Bytes} (h : encodeAdaptiveFixedWidthPage codecs raw w = .ok page) :
    page = adaptiveFixedDictionary :: dictEncodeRaw raw w ∨
      ∃ can, adaptiveCandidates codecs raw w = .ok can ∧
        ∃ cand ∈ can, page = cand.1 :: cand.2 := by
  unfold encodeAdaptiveFixedWidthPage at h
  dsimp only at h
  split at h
  · exact .inl (Except.ok.inj h).symm
  · obtain ⟨can, hcan, hr⟩ := bind_eq_ok.mp h
    obtain ⟨chosen, hcho, hp⟩ := bind_eq_ok.mp hr
    have hmem := mem_of_mem_head? (okOr_eq_ok.mp hcho)
    exact .inr ⟨can, hcan, chosen, (mem_mergeSort.mp hmem), (Except.ok.inj hp).symm⟩

end

end Logex.Page
