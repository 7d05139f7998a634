import Logex.WalReader

/-!
# Write-ahead log payloads and frames

The decoder of a row accepts exactly the bytes the encoder writes for it, and so do the decoders of a payload and of a frame.
-/

namespace Logex

open Lib List FixedBytes
open Lib.Parser (bind_of_ok lift_eq_ok pure_eq_ok take_eq_ok uint_eq_ok)
open LogRow (topics walBytes)

/-! ## Fields -/

section Fields

variable {byt rest : Bytes}

theorem readU8_eq_ok {v : UInt8} : readU8 byt = .ok (v, rest) ↔ byt = v :: rest := by
  unfold readU8
  simp only [Parser.bind_eq_ok, pure_eq_ok, uint_eq_ok, leBytes]
  constructor
  · rintro ⟨x, mid, ⟨-, rfl⟩, rfl, rfl⟩
    rfl
  · rintro rfl
    refine ⟨v.toNat, rest, ⟨v.toNat_lt, ?_⟩, UInt8.ofNat_toNat.symm, rfl⟩
    rw [UInt8.ofNat_toNat]
    rfl

theorem readU32_eq_ok {v : Nat} : readU32 byt = .ok (v, rest) ↔ v ≤ u32Max ∧ byt = leBytes 4 v ++ rest := by
  unfold readU32 u32Max
  rw [uint_eq_ok]
  refine and_congr_left' ?_
  omega

theorem readU64_eq_ok {v : Nat} : readU64 byt = .ok (v, rest) ↔ v ≤ u64Max ∧ byt = leBytes 8 v ++ rest := by
  unfold readU64 u64Max
  rw [uint_eq_ok]
  refine and_congr_left' ?_
  omega

theorem takeFixed_eq_ok {n : Nat} {v : FixedBytes n} :
    (Parser.take unexpectedEof n >>= fun tak => pure (FixedBytes.ofBytes n tak) : Parser String (FixedBytes n)) byt =
      .ok (v, rest) ↔ byt = v.toBytes ++ rest := by
  simp only [Parser.bind_eq_ok, pure_eq_ok, take_eq_ok]
  constructor
  · rintro ⟨tak, mid, ⟨hleh, rfl⟩, rfl, rfl⟩
    rw [toBytes_ofBytes hleh]
  · rintro rfl
    refine ⟨v.toBytes, rest, ⟨length_toBytes v, rfl⟩, ?_, rfl⟩
    rw [← toBytes_inj, toBytes_ofBytes (length_toBytes v)]

theorem readB256_eq_ok {v : B256} : readB256 byt = .ok (v, rest) ↔ byt = v.toBytes ++ rest := takeFixed_eq_ok

theorem readAddress_eq_ok {v : Address} : readAddress byt = .ok (v, rest) ↔ byt = v.toBytes ++ rest := takeFixed_eq_ok

theorem readOptionalB256_eq_ok {mask i : UInt8} {v : Option B256} : readOptionalB256 mask i byt = .ok (v, rest) ↔
      v.isSome = hasTopic mask i ∧ byt = writeOptionalB256 v ++ rest := by
  unfold readOptionalB256
  cases hasTopic mask i with
  | false =>
    rw [if_pos rfl, pure_eq_ok]
    cases v <;> simp [writeOptionalB256, eq_comm]
  | true =>
    rw [if_neg (by decide)]
    simp only [Parser.bind_eq_ok, pure_eq_ok, readB256_eq_ok]
    cases v with
    | none => simp
    | some v =>
      simp only [Option.some.injEq, Option.isSome_some, writeOptionalB256, true_and]
      constructor
      · rintro ⟨_, _, rfl, rfl, rfl⟩
        rfl
      · rintro rfl
        exact ⟨v, rest, rfl, rfl, rfl⟩

end Fields

/-! ## Topic masks -/

/-- Every test of a byte that holds of all numbers below 256 holds. -/
theorem forall_uint8 {p : UInt8 → Prop} (h : ∀ n : Fin 256, p (UInt8.ofNat n)) (byte : UInt8) : p byte := by
  have := h ⟨byte.toNat, byte.toNat_lt⟩
  rwa [UInt8.ofNat_toNat] at this

/-- A mask without stray bits is the sum of its four bits. -/
theorem mask_eq : ∀ mask : UInt8, mask &&& 0xf0 = 0 →
    mask = UInt8.ofNat ((if hasTopic mask 0 then 1 else 0) + (if hasTopic mask 1 then 2 else 0) + (if hasTopic mask 2 then 4 else 0) +
      (if hasTopic mask 3 then 8 else 0)) :=
  forall_uint8 (by decide +kernel)

/-- The mask of a row has no stray bits, and a bit for each topic. -/
theorem topicPresenceMask_bits (row : LogRow) : topicPresenceMask row &&& 0xf0 = 0 ∧
    row.topic0.isSome = hasTopic (topicPresenceMask row) 0 ∧ row.topic1.isSome = hasTopic (topicPresenceMask row) 1 ∧
    row.topic2.isSome = hasTopic (topicPresenceMask row) 2 ∧ row.topic3.isSome = hasTopic (topicPresenceMask row) 3 := by
  have hb : ∀ a b c d : Bool,
      let mask := UInt8.ofNat ((if a then 1 else 0) + (if b then 2 else 0) + (if c then 4 else 0) + (if d then 8 else 0))
      mask &&& 0xf0 = 0 ∧ a = hasTopic mask 0 ∧ b = hasTopic mask 1 ∧ c = hasTopic mask 2 ∧ d = hasTopic mask 3 := by decide
  exact hb row.topic0.isSome row.topic1.isSome row.topic2.isSome row.topic3.isSome

/-- The mask of a row is the one whose bits say which topics it has. -/
theorem topicPresenceMask_eq {row : LogRow} {mask : UInt8} (hm : mask &&& 0xf0 = 0) (h0 : row.topic0.isSome = hasTopic mask 0)
    (h1 : row.topic1.isSome = hasTopic mask 1) (h2 : row.topic2.isSome = hasTopic mask 2)
    (h3 : row.topic3.isSome = hasTopic mask 3) : topicPresenceMask row = mask := by
  rw [topicPresenceMask, h0, h1, h2, h3]
  exact (mask_eq mask hm).symm

/-! ## Rows -/

theorem fromByte_eq_some {byte : UInt8} {src : Source} : Source.fromByte byte = some src ↔ byte = src.toByte := by
  constructor
  · intro h
    unfold Source.fromByte at h
    split at h
    · cases h
      rfl
    · cases h
      rfl
    · nomatch h
  · rintro rfl
    cases src <;> rfl

/-- A row is decoded from its own bytes and from no others. -/
theorem decodeRow_eq_ok {byt rest : Bytes} {row : LogRow} :
    decodeRow byt = .ok (row, rest) ↔ row.Typed ∧ row.dataLen = row.data.length ∧ byt = row.walBytes ++ rest := by
  unfold decodeRow
  simp only [Parser.bind_eq_ok, pure_eq_ok, lift_eq_ok, Parser.need_eq_ok, take_eq_ok, readU64_eq_ok, readU32_eq_ok,
    readB256_eq_ok, readAddress_eq_ok, readU8_eq_ok, readOptionalB256_eq_ok, rejectIf_eq_ok, okOr_eq_ok, fromByte_eq_some, not_not]
  constructor
  · rintro ⟨bn, _, ⟨hnum, rfl⟩, blockHash, _, rfl, timestamp, _, ⟨htim, rfl⟩, txHash, _, rfl, txIndex, _, ⟨htx, rfl⟩,
      logIndex, _, ⟨hlog, rfl⟩, address, _, rfl, mask, _, rfl, _, _, ⟨hm, rfl⟩, topic0, _, ⟨h0, rfl⟩, topic1, _, ⟨h1, rfl⟩,
      topic2, _, ⟨h2, rfl⟩, topic3, _, ⟨h3, rfl⟩, dataLen, _, ⟨hlen, rfl⟩, _, _, ⟨-, rfl⟩, _, _, ⟨rfl, rfl⟩, _, _, ⟨-, rfl⟩,
      data, _, ⟨hd, rfl⟩, _, _, rfl, source, _, ⟨rfl, rfl⟩, rfl, rfl⟩
    refine ⟨⟨hnum, htim, htx, hlog, hlen⟩, hd.symm, ?_⟩
    rw [walBytes, topicPresenceMask_eq hm h0 h1 h2 h3]
    simp [topics, List.append_assoc]
  · rintro ⟨ht, hd, rfl⟩
    obtain ⟨hm, h0, h1, h2, h3⟩ := topicPresenceMask_bits row
    obtain ⟨hnum, htim, htx, hlog, hlen⟩ := ht
    refine ⟨row.blockNumber, _, ⟨hnum, ?_⟩, row.blockHash, _, rfl, row.timestamp, _, ⟨htim, rfl⟩, row.txHash, _, rfl,
      row.txIndex, _, ⟨htx, rfl⟩, row.logIndex, _, ⟨hlog, rfl⟩, row.address, _, rfl, topicPresenceMask row, _, rfl, (), _, ⟨hm, rfl⟩,
      row.topic0, _, ⟨h0, rfl⟩, row.topic1, _, ⟨h1, rfl⟩, row.topic2, _, ⟨h2, rfl⟩, row.topic3, _, ⟨h3, rfl⟩, row.dataLen, _,
      ⟨hlen, rfl⟩, row.dataLen, _, ⟨hlen, rfl⟩, (), _, ⟨rfl, rfl⟩, (), _, ⟨?_, rfl⟩, row.data, _, ⟨hd.symm, rfl⟩,
      row.source.toByte, _, rfl, row.source, rest, ⟨rfl, rfl⟩, rfl, rfl⟩
    · simp [walBytes, topics, List.append_assoc]
    · simp [hd]

theorem length_topics (row : LogRow) : (row.topics.flatMap writeOptionalB256).length = row.topicCount * 32 := by
  have hone : ∀ t : Option B256, (writeOptionalB256 t).length = if t.isSome then 32 else 0 := by
    intro t
    cases t with
    | none => rfl
    | some t => exact length_toBytes t
  have hall : ∀ top : List (Option B256), (top.flatMap writeOptionalB256).length = (top.filter Option.isSome).length * 32 := by
    intro top
    induction top with
    | nil => rfl
    | cons t top ih =>
      rw [flatMap_cons, length_append, hone, ih]
      cases t with
      | none => simp
      | some t =>
        rw [filter_cons_of_pos rfl, length_cons, Option.isSome_some, if_pos rfl, Nat.add_one_mul, Nat.add_comm]
  exact hall row.topics

theorem length_walBytes (row : LogRow) : row.walBytes.length = walMinRowBytes + row.topicCount * 32 + row.data.length := by
  unfold walBytes walMinRowBytes
  simp only [length_append, length_leBytes, length_toBytes, length_topics, length_singleton]
  omega

/-! ## Payloads -/

variable {rows : List LogRow}

theorem decodeRowsFrom_eq_ok {n : Nat} {byt rest : Bytes} : decodeRowsFrom n byt = .ok (rows, rest) ↔
      rows.length = n ∧ (∀ row ∈ rows, row.Typed ∧ row.dataLen = row.data.length) ∧
        byt = rows.flatMap walBytes ++ rest := by
  induction n generalizing byt rows rest with
  | zero =>
    rw [decodeRowsFrom, pure_eq_ok]
    constructor
    · rintro ⟨rfl, rfl⟩
      exact ⟨rfl, forall_mem_nil _, rfl⟩
    · rintro ⟨hleh, -, rfl⟩
      obtain rfl := eq_nil_of_length_eq_zero hleh
      exact ⟨rfl, rfl⟩
  | succ n ih =>
    rw [decodeRowsFrom]
    simp only [Parser.bind_eq_ok, pure_eq_ok, decodeRow_eq_ok, ih]
    constructor
    · rintro ⟨row, _, ⟨ht, hd, rfl⟩, others, _, ⟨rfl, hoth, rfl⟩, rfl, rfl⟩
      refine ⟨rfl, forall_mem_cons.mpr ⟨⟨ht, hd⟩, hoth⟩, ?_⟩
      rw [flatMap_cons, List.append_assoc]
    · rintro ⟨hleh, hr, rfl⟩
      cases rows with
      | nil => cases hleh
      | cons row rows =>
        obtain ⟨⟨ht, hd⟩, hr⟩ := forall_mem_cons.mp hr
        refine ⟨row, _, ⟨ht, hd, ?_⟩, rows, rest, ⟨Nat.succ.inj hleh, hr, rfl⟩, rfl, rfl⟩
        rw [flatMap_cons, List.append_assoc]

/-- The bytes of a payload with these rows. -/
def payloadBytes (rows : List LogRow) : Bytes := walBinaryMagic ++ leBytes 4 walBinaryVersion ++ rows.flatMap LogRow.walBytes

theorem length_payloadBytes (rows : List LogRow) : (payloadBytes rows).length = 8 + (rows.flatMap walBytes).length := by
  rw [payloadBytes, length_append, length_append, length_leBytes]
  rfl

theorem isBinaryPayload_payloadBytes (rows : List LogRow) : isBinaryPayload (payloadBytes rows) = true := by
  have hleh : 8 ≤ (payloadBytes rows).length := by
    rw [length_payloadBytes]
    omega
  rw [isBinaryPayload, decide_eq_true hleh, Bool.true_and, decide_eq_true_iff, payloadBytes, List.append_assoc]
  exact take_left' rfl

theorem length_flatMap_walBytes (rows : List LogRow) : rows.length * walMinRowBytes ≤ (rows.flatMap walBytes).length := by
  induction rows with
  | nil => simp
  | cons row rows ih =>
    rw [flatMap_cons, length_append, length_walBytes, length_cons, Nat.add_mul]
    omega

/-- A binary payload is decoded into rows exactly when it is the payload of those rows. -/
theorem decodeRows_eq_ok {fj : Bytes → Except String (List LogRow)} {data : Bytes} {n : Nat}
    (hbin : isBinaryPayload data = true) : decodeRows fj data n = .ok rows ↔
      rows.length = n ∧ (∀ row ∈ rows, row.Typed ∧ row.dataLen = row.data.length) ∧ data = payloadBytes rows := by
  unfold decodeRows
  rw [if_neg (by rw [hbin]; decide)]
  rw [rejectIf_bind, rejectIf_bind, bind_eq_ok, not_not]
  simp only [Prod.exists, rejectIf_bind, not_not]
  simp only [isBinaryPayload, Bool.and_eq_true, decide_eq_true_iff] at hbin
  obtain ⟨hleh, hm⟩ := hbin
  constructor
  · rintro ⟨hver, -, others, rest, hdec, rfl, hr⟩
    obtain rfl := Except.ok.inj hr
    obtain ⟨hc, hr, hre⟩ := decodeRowsFrom_eq_ok.mp hdec
    refine ⟨hc, hr, ?_⟩
    have hf : (data.drop 4).take 4 = leBytes 4 walBinaryVersion := by
      rw [← hver]
      exact (leBytes_ofLeBytes (by simp; omega)).symm
    calc data = data.take 4 ++ ((data.drop 4).take 4 ++ data.drop 8) := by
          rw [show data.drop 8 = (data.drop 4).drop 4 by rw [drop_drop], take_append_drop, take_append_drop]
      _ = payloadBytes others := by rw [hm, hf, hre, append_nil, payloadBytes, List.append_assoc]
  · rintro ⟨rfl, hr, rfl⟩
    have hd : (payloadBytes rows).drop 8 = rows.flatMap walBytes ++ [] := by
      rw [append_nil]
      exact drop_left' (by simp [walBinaryMagic])
    have hver : ((payloadBytes rows).drop 4).take 4 = leBytes 4 walBinaryVersion := by
      rw [payloadBytes, List.append_assoc, drop_left' (show walBinaryMagic.length = 4 from rfl), take_left' (length_leBytes 4 _)]
    refine ⟨?_, ?_, rows, [], decodeRowsFrom_eq_ok.mpr ⟨rfl, hr, hd⟩, rfl, rfl⟩
    · rw [hver, ofLeBytes_leBytes (by decide)]
    · rw [length_payloadBytes, Nat.add_sub_cancel_left, not_lt, Nat.le_div_iff_mul_le (by decide)]
      exact length_flatMap_walBytes rows

theorem foldlM_addPayloadRow_eq_ok {a n : Nat} (hs : a ≤ u32Max) : rows.foldlM addPayloadRow a = .ok n ↔
      (∀ row ∈ rows, row.dataLen = row.data.length) ∧ n = a + (rows.flatMap walBytes).length ∧ n ≤ u32Max := by
  induction rows generalizing a with
  | nil =>
    constructor
    · intro h
      cases h
      exact ⟨forall_mem_nil _, rfl, hs⟩
    · rintro ⟨-, rfl, -⟩
      rfl
  | cons row rows ih =>
    rw [foldlM_cons]
    rw [bind_eq_ok, flatMap_cons, length_append, length_walBytes, forall_mem_cons]
    constructor
    · rintro ⟨next, hn, h⟩
      obtain ⟨hd, hn⟩ := rejectIf_bind.mp hn
      obtain ⟨hle, hn⟩ := rejectIf_bind.mp hn
      cases hn
      obtain ⟨hr, rfl, hb⟩ := (ih (not_lt.mp hle)).mp h
      exact ⟨⟨not_not.mp hd, hr⟩, by omega, hb⟩
    · rintro ⟨⟨hd, hr⟩, rfl, hb⟩
      refine ⟨a + (walMinRowBytes + row.topicCount * 32) + row.data.length,
        rejectIf_bind.mpr ⟨not_not.mpr hd, rejectIf_bind.mpr ⟨by omega, rfl⟩⟩, ?_⟩
      exact (ih (by omega)).mpr ⟨hr, by omega, hb⟩

/-- The length that is validated is the length that is written. -/
theorem validatedPayloadLen_eq_ok {n : Nat} : validatedPayloadLen rows = .ok n ↔
      rows.length ≤ u32Max ∧ (∀ row ∈ rows, row.dataLen = row.data.length) ∧ n = (payloadBytes rows).length ∧ n ≤ u32Max := by
  unfold validatedPayloadLen
  rw [rejectIf_bind, not_lt, foldlM_addPayloadRow_eq_ok (by decide), length_payloadBytes]

theorem encodeRows_eq_ok {byt : Bytes} :
    encodeRows rows = .ok byt ↔ (∃ n, validatedPayloadLen rows = .ok n) ∧ byt = payloadBytes rows := by
  unfold encodeRows
  rw [bind_eq_ok]
  constructor
  · rintro ⟨n, hn, h⟩
    exact ⟨⟨n, hn⟩, (Except.ok.inj h).symm⟩
  · rintro ⟨⟨n, hn⟩, rfl⟩
    exact ⟨n, hn, rfl⟩

/-! ## Frames -/

/-- The frame of a batch. -/
def frameOf (crc32 : Bytes → UInt32) (rows : List LogRow) : Bytes :=
  leBytes 4 rows.length ++ leBytes 4 (payloadBytes rows).length ++ payloadBytes rows ++ leBytes 4 (crc32 (payloadBytes rows)).toNat

/-- The length of the frame of a batch. -/
def frameLen (rows : List LogRow) : Nat := 8 + (payloadBytes rows).length + 4

theorem length_frameOf (crc32 : Bytes → UInt32) (rows : List LogRow) : (frameOf crc32 rows).length = frameLen rows := by
  simp only [frameOf, length_append, length_leBytes, frameLen]

/-- A batch that can be appended. -/
structure Appendable (rows : List LogRow) : Prop where
  valid : ∀ row ∈ rows, row.Typed ∧ row.dataLen = row.data.length
  count : rows.length ≤ u32Max
  length : (payloadBytes rows).length ≤ u32Max

theorem append_eq_ok {crc32 : Bytes → UInt32} {file file' : Bytes} (ht : ∀ row ∈ rows, row.Typed)
    (h : WriteAheadLog.append crc32 file rows = .ok file') : Appendable rows ∧ file' = file ++ frameOf crc32 rows := by
  obtain ⟨batch, hb, h⟩ := bind_eq_ok.mp h
  obtain ⟨hc, hb⟩ := rejectIf_bind.mp hb
  obtain ⟨ser, henc, hb⟩ := bind_eq_ok.mp hb
  obtain ⟨⟨n, hv⟩, rfl⟩ := encodeRows_eq_ok.mp henc
  obtain ⟨-, hd, rfl, hleh⟩ := validatedPayloadLen_eq_ok.mp hv
  obtain ⟨-, hb⟩ := rejectIf_bind.mp hb
  cases hb
  exact ⟨⟨fun row hrow => ⟨ht row hrow, hd row hrow⟩, not_lt.mp hc, hleh⟩, (Except.ok.inj h).symm⟩

section Frames

variable {crc32 : Bytes → UInt32} {fj : Bytes → Except String (List LogRow)} {rows : List LogRow} {lim : Option Nat}

open WriteAheadLog

/-- The part of a frame before its checksum. -/
def frameHead (rows : List LogRow) : Bytes := leBytes 4 rows.length ++ leBytes 4 (payloadBytes rows).length ++ payloadBytes rows

theorem length_frameHead (rows : List LogRow) : (frameHead rows).length = 8 + (payloadBytes rows).length := by
  simp only [frameHead, length_append, length_leBytes]

theorem frameOf_eq (crc32 : Bytes → UInt32) (rows : List LogRow) :
    frameOf crc32 rows = frameHead rows ++ leBytes 4 (crc32 (payloadBytes rows)).toNat := rfl

/-- An entry with a complete payload and the first bytes of its checksum: replayed only with all of them. -/
theorem readEntry_payload (crc32 : Bytes → UInt32) (fj : Bytes → Except String (List LogRow)) {rem n : Nat}
    (h : Appendable rows) (hl : ∀ n, lim = some n → rows.length ≤ n)
    (hlo : 8 + (payloadBytes rows).length ≤ rem) (hn : min (rem - 8 - (payloadBytes rows).length) 4 = n) (rest : Bytes) :
    readEntryWithLimit crc32 fj rem lim (frameHead rows ++ ((leBytes 4 (crc32 (payloadBytes rows)).toNat).take n ++ rest)) =
      .ok (if n < 4 then none else some (rows, frameLen rows), rest) := by
  have hall : ¬lim.any (fun n => decide (n < rows.length)) = true := by
    cases lim with
    | none => exact Bool.false_ne_true
    | some n => simpa using hl n rfl
  have hm : (payloadBytes rows).take 4 = walBinaryMagic := by
    rw [payloadBytes, List.append_assoc]
    exact take_left' rfl
  have hleh : 8 ≤ (payloadBytes rows).length := by
    rw [length_payloadBytes]
    omega
  have hcrc : ((leBytes 4 (crc32 (payloadBytes rows)).toNat).take n).length = n := by
    rw [length_take, length_leBytes]
    omega
  unfold readEntryWithLimit
  rw [if_neg (by omega), frameHead, List.append_assoc, List.append_assoc]
  refine Parser.bind_eq_ok.mpr ⟨_, _, readU32_eq_ok.mpr ⟨h.count, rfl⟩, ?_⟩
  refine Parser.bind_eq_ok.mpr ⟨_, _, readU32_eq_ok.mpr ⟨h.length, rfl⟩, ?_⟩
  refine Parser.bind_eq_ok.mpr ⟨(), _, lift_eq_ok.mpr ⟨rejectIf_eq_ok.mpr hall, rfl⟩, ?_⟩
  refine Parser.bind_eq_ok.mpr ⟨(), _, lift_eq_ok.mpr ⟨rejectIf_eq_ok.mpr (by omega), rfl⟩, ?_⟩
  refine Parser.bind_eq_ok.mpr ⟨_, _, take_eq_ok.mpr ⟨rfl, rfl⟩, ?_⟩
  rw [hn]
  refine Parser.bind_eq_ok.mpr ⟨_, _, take_eq_ok.mpr ⟨hcrc, rfl⟩, ?_⟩
  refine Parser.bind_eq_ok.mpr ⟨(), _, lift_eq_ok.mpr ⟨rejectIf_eq_ok.mpr (not_not.mpr rfl), rfl⟩, ?_⟩
  refine Parser.bind_eq_ok.mpr ⟨(), _, lift_eq_ok.mpr ⟨rejectIf_eq_ok.mpr fun hne => hne.2 hm, rfl⟩, ?_⟩
  refine Parser.bind_eq_ok.mpr ⟨(), _, lift_eq_ok.mpr ⟨rejectIf_eq_ok.mpr fun hlt => not_lt.mpr hleh hlt.2, rfl⟩, ?_⟩
  refine Parser.bind_eq_ok.mpr ⟨rows, _, lift_eq_ok.mpr
    ⟨(decodeRows_eq_ok (isBinaryPayload_payloadBytes rows)).mpr ⟨rfl, h.valid, rfl⟩, rfl⟩, ?_⟩
  split
  · exact pure_eq_ok.mpr ⟨rfl, rfl⟩
  · exact pure_eq_ok.mpr ⟨rfl, rfl⟩

/-- A partial final header is a safe tail. -/
theorem readEntry_header (crc32 : Bytes → UInt32) (fj : Bytes → Except String (List LogRow)) (lim : Option Nat) {byt : Bytes}
    (h : byt.length < 8) : readEntryWithLimit crc32 fj byt.length lim byt = .ok (none, []) := by
  unfold readEntryWithLimit
  rw [if_pos h]
  exact Parser.bind_eq_ok.mpr ⟨_, _, take_eq_ok.mpr ⟨rfl, (append_nil byt).symm⟩, rfl⟩

/-- A partial payload is an error: its length may conceal later entries. -/
theorem readEntry_torn (crc32 : Bytes → UInt32) (fj : Bytes → Except String (List LogRow)) (lim : Option Nat) {rem : Nat}
    (h : Appendable rows) (hs : 8 ≤ rem) (hl : rem < 8 + (payloadBytes rows).length) (byt : Bytes) :
    ∃ error, readEntryWithLimit crc32 fj rem lim
      (leBytes 4 rows.length ++ (leBytes 4 (payloadBytes rows).length ++ byt)) = .error error := by
  unfold readEntryWithLimit
  rw [if_neg (by omega), bind_of_ok (readU32_eq_ok.mpr ⟨h.count, rfl⟩), bind_of_ok (readU32_eq_ok.mpr ⟨h.length, rfl⟩)]
  by_cases hall : lim.any (fun n => decide (n < rows.length)) = true
  · exact ⟨_, Parser.reject_of hall⟩
  · rw [bind_of_ok (lift_eq_ok.mpr ⟨rejectIf_eq_ok (u := ()).mpr hall, rfl⟩)]
    exact ⟨_, Parser.reject_of (show rem - 8 < (payloadBytes rows).length by omega)⟩

/-! ## Scans -/

/-- The batches whose frames lie completely before a cut. -/
def completeBefore : List (List LogRow) → Nat → List (List LogRow)
  | [], _ => []
  | rows :: batches, n => if frameLen rows ≤ n then rows :: completeBefore batches (n - frameLen rows) else []

/-- The cut is inside the payload of a frame. -/
def CutsPayload : List (List LogRow) → Nat → Prop
  | [], _ => False
  | rows :: batches, n =>
    if frameLen rows ≤ n then CutsPayload batches (n - frameLen rows) else 8 ≤ n ∧ n < 8 + (payloadBytes rows).length

/-- What a scan makes of a log that was cut. -/
structure Scans (batches : List (List LogRow)) (n : Nat) (allRows : List LogRow) (result : Except String (List LogRow × Bytes)) :
    Prop where
  torn : CutsPayload batches n → ∃ error, result = .error error
  whole : ¬CutsPayload batches n → result = .ok (allRows ++ (completeBefore batches n).flatten, [])

/-- A cut inside the next frame. -/
theorem scans_incomplete {bs : List (List LogRow)} {n fl off fuel : Nat} {maxRows : Option Nat} {ar : List LogRow}
    (h : Appendable rows) (hcut : n < frameLen rows) (hl : ∀ lim, maxRows = some lim → ar.length + rows.length ≤ lim)
    (hlen : fl = off + ((frameOf crc32 rows).take n).length) : Scans (rows :: bs) n ar
      (readEntriesFrom crc32 fj fl maxRows (fuel + 1) off ar ((frameOf crc32 rows).take n)) := by
  have hta : ((frameOf crc32 rows).take n).length = n := by
    rw [length_take, length_frameOf]
    omega
  have hremaining : fl - off = n := by omega
  have hro : ∀ lim, (maxRows.map fun lim => lim - ar.length) = some lim → rows.length ≤ lim := by
    intro lim hl'
    obtain ⟨total, hto, rfl⟩ := Option.map_eq_some_iff.mp hl'
    have := hl total hto
    omega
  have ht : CutsPayload (rows :: bs) n ↔ 8 ≤ n ∧ n < 8 + (payloadBytes rows).length := by
    rw [CutsPayload, if_neg (by omega)]
  have hno : completeBefore (rows :: bs) n = [] := if_neg (by omega)
  unfold readEntriesFrom
  by_cases hz : fl ≤ off
  · have hn : n = 0 := by omega
    subst hn
    rw [if_pos hz]
    refine ⟨fun h => absurd (ht.mp h).1 (by omega), fun _ => ?_⟩
    rw [hno, flatten_nil, append_nil, take_zero]
  · rw [if_neg hz, hremaining]
    dsimp only
    by_cases hhdr : n < 8
    · have hr := readEntry_header crc32 fj (maxRows.map fun lim => lim - ar.length)
        (show ((frameOf crc32 rows).take n).length < 8 by omega)
      rw [hta] at hr
      rw [hr]
      refine ⟨fun h => absurd (ht.mp h).1 (by omega), fun _ => ?_⟩
      rw [hno, flatten_nil, append_nil]
    · by_cases hpay : n < 8 + (payloadBytes rows).length
      · obtain ⟨error, her⟩ := readEntry_torn crc32 fj (maxRows.map fun lim => lim - ar.length) h (not_lt.mp hhdr) hpay
          ((payloadBytes rows).take (n - 8))
        have hb : (frameOf crc32 rows).take n =
            leBytes 4 rows.length ++ (leBytes 4 (payloadBytes rows).length ++ (payloadBytes rows).take (n - 8)) := by
          have hhdr' : (leBytes 4 rows.length ++ leBytes 4 (payloadBytes rows).length).length = 8 := by
            rw [length_append, length_leBytes, length_leBytes]
          rw [frameOf, List.append_assoc _ (payloadBytes rows), take_append, hhdr', take_of_length_le (by omega),
            take_append_of_le_length (by omega), List.append_assoc]
        rw [hb, her]
        exact ⟨fun _ => ⟨_, rfl⟩, fun h => absurd (ht.mpr ⟨not_lt.mp hhdr, hpay⟩) h⟩
      · have hb : (frameOf crc32 rows).take n = frameHead rows ++
            ((leBytes 4 (crc32 (payloadBytes rows)).toNat).take (n - (8 + (payloadBytes rows).length)) ++ []) := by
          rw [frameOf_eq, append_nil, take_append, length_frameHead, take_of_length_le (by rw [length_frameHead]; omega)]
        rw [hb, readEntry_payload crc32 fj h hro (not_lt.mp hpay) (by unfold frameLen at hcut; omega)]
        rw [if_pos (by unfold frameLen at hcut; omega)]
        refine ⟨fun h => absurd (ht.mp h).2 hpay, fun _ => ?_⟩
        rw [hno, flatten_nil, append_nil]

/-- A scan returns the complete batches, unless the cut is inside a payload. -/
theorem readEntriesFrom_scans {bs : List (List LogRow)} {n fl off fuel : Nat} {maxRows : Option Nat}
    {ar : List LogRow} (h : ∀ rows ∈ bs, Appendable rows) (hl : ∀ lim, maxRows = some lim → ar.length + bs.flatten.length ≤ lim)
    (hlen : fl = off + ((bs.flatMap (frameOf crc32)).take n).length) (hf : ((bs.flatMap (frameOf crc32)).take n).length < fuel) :
    Scans bs n ar (readEntriesFrom crc32 fj fl maxRows fuel off ar ((bs.flatMap (frameOf crc32)).take n)) := by
  induction bs generalizing n off fuel ar with
  | nil =>
    cases fuel with
    | zero => exact absurd hf (Nat.not_lt_zero _)
    | succ fuel =>
      rw [flatMap_nil, take_nil, length_nil] at hlen
      unfold readEntriesFrom
      rw [if_pos (by omega)]
      refine ⟨fun h => h.elim, fun _ => ?_⟩
      rw [completeBefore, flatten_nil, append_nil, flatMap_nil, take_nil]
  | cons rows bs ih =>
    obtain ⟨hr, hbat⟩ := forall_mem_cons.mp h
    rw [flatten_cons, length_append] at hl
    cases fuel with
    | zero => exact absurd hf (Nat.not_lt_zero _)
    | succ fuel =>
      by_cases hcut : n < frameLen rows
      · have hfi : ((rows :: bs).flatMap (frameOf crc32)).take n = (frameOf crc32 rows).take n := by
          rw [flatMap_cons, take_append_of_le_length (by rw [length_frameOf]; omega)]
        rw [hfi] at hlen ⊢
        exact scans_incomplete hr hcut (fun lim hs => by have := hl lim hs; omega) hlen
      · have hsp : ((rows :: bs).flatMap (frameOf crc32)).take n =
            frameOf crc32 rows ++ (bs.flatMap (frameOf crc32)).take (n - frameLen rows) := by
          rw [flatMap_cons, take_append, length_frameOf, take_of_length_le (by rw [length_frameOf]; omega)]
        rw [hsp, length_append, length_frameOf] at hlen hf
        rw [hsp]
        unfold readEntriesFrom
        have hpos : 0 < frameLen rows := by
          unfold frameLen
          omega
        rw [if_neg (by omega)]
        dsimp only
        have hall : ∀ lim, (maxRows.map fun lim => lim - ar.length) = some lim → rows.length ≤ lim := by
          intro lim hl'
          obtain ⟨total, ht, rfl⟩ := Option.map_eq_some_iff.mp hl'
          have := hl total ht
          omega
        have hre := readEntry_payload crc32 fj (n := 4) hr hall
          (show 8 + (payloadBytes rows).length ≤ fl - off by unfold frameLen at hlen; omega)
          (by unfold frameLen at hlen; omega) ((bs.flatMap (frameOf crc32)).take (n - frameLen rows))
        rw [take_of_length_le (by rw [length_leBytes]), ← List.append_assoc, ← frameOf_eq, if_neg (by omega)] at hre
        rw [hre]
        have hn : Scans bs (n - frameLen rows) (ar ++ rows) (readEntriesFrom crc32 fj fl maxRows fuel
            (off + frameLen rows) (ar ++ rows) ((bs.flatMap (frameOf crc32)).take (n - frameLen rows))) := ih hbat
          (fun lim hs => by have := hl lim hs; rw [length_append]; omega) (by omega) (by omega)
        refine ⟨fun hto => hn.torn ?_, fun hw => (hn.whole ?_).trans ?_⟩
        · rwa [CutsPayload, if_pos (not_lt.mp hcut)] at hto
        · rwa [CutsPayload, if_pos (not_lt.mp hcut)] at hw
        · rw [completeBefore, if_pos (not_lt.mp hcut), flatten_cons, List.append_assoc]

end Frames

end Logex
