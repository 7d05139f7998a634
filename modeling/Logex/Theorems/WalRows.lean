import Logex.Lemmas.WalReader

/-!
# The row codec of the write-ahead log

Encoding and decoding of binary payloads are inverse to each other. The encoder alone bounds a payload by the 32-bit length field of
its frame.
-/

namespace Logex

open Lib

/-- Rows decode from what they encode to, in the length that was validated; a payload that decodes is the encoding of its rows if a
frame can carry it; and no two payloads decode to the same rows. -/
theorem wal_rows_roundtrip (fromJson : Bytes → Except String (List LogRow)) : (∀ rows : List LogRow, (∀ row ∈ rows, row.Typed) →
      ((∃ bytes, encodeRows rows = .ok bytes) ↔
        rows.length ≤ u32Max ∧ (∀ row ∈ rows, row.dataLen = row.data.length) ∧ (payloadBytes rows).length ≤ u32Max) ∧
      ∀ bytes, encodeRows rows = .ok bytes →
        decodeRows fromJson bytes rows.length = .ok rows ∧ validatedPayloadLen rows = .ok bytes.length) ∧
    (∀ data rowCount rows, isBinaryPayload data = true → decodeRows fromJson data rowCount = .ok rows → data.length ≤ u32Max →
      encodeRows rows = .ok data) ∧
    ∀ data data' rowCount rowCount' rows, isBinaryPayload data = true → isBinaryPayload data' = true →
      decodeRows fromJson data rowCount = .ok rows → decodeRows fromJson data' rowCount' = .ok rows → data = data' := by
  refine ⟨fun rows ht => ⟨?_, fun bytes henc => ?_⟩, ?_, ?_⟩
  · simp only [encodeRows_eq_ok, validatedPayloadLen_eq_ok]
    constructor
    · rintro ⟨_, ⟨n, hc, hd, rfl, hleh⟩, -⟩
      exact ⟨hc, hd, hleh⟩
    · rintro ⟨hc, hd, hleh⟩
      exact ⟨_, ⟨_, hc, hd, rfl, hleh⟩, rfl⟩
  · obtain ⟨⟨n, hv⟩, rfl⟩ := encodeRows_eq_ok.mp henc
    obtain ⟨-, hd, rfl, -⟩ := validatedPayloadLen_eq_ok.mp hv
    refine ⟨(decodeRows_eq_ok (isBinaryPayload_payloadBytes rows)).mpr ⟨rfl, fun row hrow => ?_, rfl⟩, hv⟩
    exact ⟨ht row hrow, hd row hrow⟩
  · intro data rowCount rows hbin hdec hleh
    obtain ⟨-, hr, rfl⟩ := (decodeRows_eq_ok hbin).mp hdec
    have hc : rows.length ≤ u32Max := by
      have hmin := length_flatMap_walBytes rows
      rw [length_payloadBytes] at hleh
      unfold walMinRowBytes at hmin
      omega
    exact encodeRows_eq_ok.mpr ⟨⟨_, validatedPayloadLen_eq_ok.mpr ⟨hc, fun row hrow => (hr row hrow).2, rfl, hleh⟩⟩, rfl⟩
  · intro data data' rowCount rowCount' rows hbin hbin' hdec hdec'
    rw [((decodeRows_eq_ok hbin).mp hdec).2.2, ((decodeRows_eq_ok hbin').mp hdec').2.2]

namespace WalRowsWitness

/-- A row with some data. -/
def row (data : Bytes) : LogRow where
  blockNumber := 1
  blockHash := 2
  timestamp := 3
  txHash := 4
  txIndex := 5
  logIndex := 6
  address := 7
  topic0 := none
  topic1 := none
  topic2 := none
  topic3 := none
  data := data
  dataLen := data.length
  source := .receipt

theorem decodes (fj : Bytes → Except String (List LogRow)) {data : Bytes} (h : data.length ≤ u32Max) :
    decodeRows fj (payloadBytes [row data]) 1 = .ok [row data] := by
  refine (decodeRows_eq_ok (isBinaryPayload_payloadBytes _)).mpr ⟨rfl, fun other hrow => ?_, rfl⟩
  rw [List.mem_singleton.mp hrow]
  have hone : 1 ≤ u64Max ∧ 3 ≤ u64Max ∧ 5 ≤ u32Max ∧ 6 ≤ u32Max := by decide
  exact ⟨⟨hone.1, hone.2.1, hone.2.2.1, hone.2.2.2, h⟩, rfl⟩

theorem refuses {data : Bytes} (h : u32Max < data.length + 126) :
    encodeRows [row data] = .error "WAL payload exceeds u32 length" := by
  have hone : ¬u32Max < 1 := by decide
  have hleh : 8 + (walMinRowBytes + (row data).topicCount * 32) + (row data).data.length = data.length + 126 := by
    show 8 + (118 + 0 * 32) + data.length = data.length + 126
    omega
  have hadd : addPayloadRow 8 (row data) = .error "WAL payload exceeds u32 length" := by
    unfold addPayloadRow
    dsimp only
    rw [hleh, rejectIf, if_neg (show ¬(row data).dataLen ≠ (row data).data.length from not_not.mpr rfl), rejectIf, if_pos h]
    rfl
  rw [encodeRows, validatedPayloadLen, rejectIf, if_neg (show ¬u32Max < [row data].length from hone), List.foldlM_cons, hadd]
  rfl

end WalRowsWitness

open WalRowsWitness in
/-- A payload longer than a frame can say is decoded, but its rows are not encoded again. -/
theorem oversized_payload_is_not_encoded : ∃ data rows, isBinaryPayload data = true ∧
    (∀ fromJson, decodeRows fromJson data rows.length = .ok rows) ∧ encodeRows rows = .error "WAL payload exceeds u32 length" := by
  have hleh : (List.replicate (u32Max - 100) (0 : UInt8)).length = u32Max - 100 := List.length_replicate
  generalize List.replicate (u32Max - 100) (0 : UInt8) = data at hleh
  refine ⟨payloadBytes [row data], [row data], isBinaryPayload_payloadBytes _, fun fromJson => decodes fromJson ?_, refuses ?_⟩
  · rw [hleh]
    exact Nat.sub_le _ _
  · rw [hleh]
    decide

end Logex
