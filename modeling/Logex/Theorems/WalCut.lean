import Logex.Lemmas.WalReader

/-!
# A log cut at any byte

Whatever is left of a log after a cut, the scan returns the batches that lie completely before the cut or fails, and it fails only
where the cut is inside a payload. Limits that cover the log change nothing.
-/

namespace Logex

open Lib List WriteAheadLog

variable {batches : List (List LogRow)}

/-- The length of the log of some batches. -/
def framesLen (batches : List (List LogRow)) : Nat := (batches.map frameLen).sum

namespace WalCutAux

variable {crc32 : Bytes → UInt32} {fromJson : Bytes → Except String (List LogRow)}

theorem foldlM_append_eq_ok {a file : Bytes} (ht : ∀ rows ∈ batches, ∀ row ∈ rows, row.Typed)
    (h : batches.foldlM (WriteAheadLog.append crc32) a = .ok file) :
    (∀ rows ∈ batches, Appendable rows) ∧ file = a ++ batches.flatMap (frameOf crc32) := by
  induction batches generalizing a with
  | nil =>
    obtain rfl := Except.ok.inj h
    exact ⟨nofun, (append_nil a).symm⟩
  | cons rows batches ih =>
    obtain ⟨hr, hbat⟩ := forall_mem_cons.mp ht
    rw [foldlM_cons] at h
    obtain ⟨next, hn, h⟩ := bind_eq_ok.mp h
    obtain ⟨happ, rfl⟩ := append_eq_ok hr hn
    obtain ⟨hall, rfl⟩ := ih hbat h
    exact ⟨forall_mem_cons.mpr ⟨happ, hall⟩, by rw [flatMap_cons, List.append_assoc]⟩

theorem length_frames (crc32 : Bytes → UInt32) (batches : List (List LogRow)) :
    (batches.flatMap (frameOf crc32)).length = framesLen batches := by
  induction batches with
  | nil => rfl
  | cons rows batches ih => rw [flatMap_cons, length_append, length_frameOf, ih, framesLen, framesLen, map_cons, sum_cons]

/-- The complete batches are the longest prefix before the cut. -/
theorem completeBefore_eq_take (batches : List (List LogRow)) (n : Nat) :
    ∃ k ≤ batches.length, completeBefore batches n = batches.take k ∧ framesLen (batches.take k) ≤ n ∧
      (k < batches.length → n < framesLen (batches.take (k + 1))) ∧
      (CutsPayload batches n ↔ ∃ rows, batches[k]? = some rows ∧ framesLen (batches.take k) + 8 ≤ n ∧
        n < framesLen (batches.take k) + 8 + (payloadBytes rows).length) := by
  induction batches generalizing n with
  | nil => exact ⟨0, le_rfl, rfl, Nat.zero_le _, fun h => absurd h (lt_irrefl _), iff_of_false id fun ⟨_, h, _⟩ => (nomatch h)⟩
  | cons rows batches ih =>
    by_cases hle : frameLen rows ≤ n
    · obtain ⟨k, hk, heq, hbef, ha, hcu⟩ := ih (n - frameLen rows)
      have hc : ∀ j, framesLen ((rows :: batches).take (j + 1)) = frameLen rows + framesLen (batches.take j) := fun j => by
        rw [framesLen, take_succ_cons, map_cons, sum_cons, framesLen]
      refine ⟨k + 1, Nat.succ_le_succ hk, ?_, ?_, fun hlt => ?_, ?_⟩
      · rw [completeBefore, if_pos hle, heq, take_succ_cons]
      · rw [hc]
        omega
      · have := ha (Nat.lt_of_succ_lt_succ hlt)
        rw [hc]
        omega
      · rw [CutsPayload, if_pos hle, hcu, hc, getElem?_cons_succ]
        refine exists_congr fun next => and_congr_right fun _ => ?_
        clear hcu
        omega
    · refine ⟨0, Nat.zero_le _, ?_, Nat.zero_le _, fun _ => ?_, ?_⟩
      · rw [completeBefore, if_neg hle, take_zero]
      · rw [framesLen, take_succ_cons, take_zero, map_singleton, sum_singleton]
        omega
      · rw [CutsPayload, if_neg hle, take_zero, getElem?_cons_zero]
        simp [framesLen]

/-- A scan of a cut log, with or without a limit on rows. -/
theorem readEntriesWithLimit_cut (crc32 : Bytes → UInt32) (fromJson : Bytes → Except String (List LogRow))
    {maxRows : Option Nat} (n : Nat) (h : ∀ rows ∈ batches, Appendable rows)
    (hl : ∀ lim, maxRows = some lim → batches.flatten.length ≤ lim) :
    (CutsPayload batches n → ∃ error, readEntriesWithLimit crc32 fromJson ((batches.flatMap (frameOf crc32)).take n)
      ((batches.flatMap (frameOf crc32)).take n).length maxRows = .error error) ∧
    (¬CutsPayload batches n → readEntriesWithLimit crc32 fromJson ((batches.flatMap (frameOf crc32)).take n)
      ((batches.flatMap (frameOf crc32)).take n).length maxRows = .ok (completeBefore batches n).flatten) := by
  have hs : Scans batches n [] (readEntriesFrom crc32 fromJson ((batches.flatMap (frameOf crc32)).take n).length maxRows
      (((batches.flatMap (frameOf crc32)).take n).length + 1) 0 [] ((batches.flatMap (frameOf crc32)).take n)) := readEntriesFrom_scans h
    (fun lim hso => by rw [length_nil, Nat.zero_add]; exact hl lim hso) (Nat.zero_add _).symm (Nat.lt_succ_self _)
  constructor
  · intro hc
    obtain ⟨error, her⟩ := hs.torn hc
    exact ⟨error, by rw [readEntriesWithLimit, her]; rfl⟩
  · intro hw
    rw [readEntriesWithLimit, hs.whole hw]
    rfl

/-- The error context of a caller does not change whether a scan returned. -/
theorem mapError_eq_ok {α : Type} {x : Except String α} {f : String → String} {a : α} : x.mapError f = .ok a ↔ x = .ok a := by
  cases x with
  | ok a' => exact Iff.rfl
  | error e => exact ⟨nofun, nofun⟩

theorem foldlM_append_of_appendable (h : ∀ rows ∈ batches, Appendable rows) (a : Bytes) :
    batches.foldlM (WriteAheadLog.append crc32) a = .ok (a ++ batches.flatMap (frameOf crc32)) := by
  induction batches generalizing a with
  | nil => rw [flatMap_nil, append_nil]; rfl
  | cons rows batches ih =>
    obtain ⟨hr, hbat⟩ := forall_mem_cons.mp h
    rw [foldlM_cons]
    refine bind_eq_ok.mpr ⟨a ++ frameOf crc32 rows, ?_, ?_⟩
    · have henc : encodeRows rows = .ok (payloadBytes rows) := encodeRows_eq_ok.mpr
        ⟨⟨_, validatedPayloadLen_eq_ok.mpr ⟨hr.count, fun row hrow => (hr.valid row hrow).2, rfl, hr.length⟩⟩, rfl⟩
      refine bind_eq_ok.mpr ⟨⟨payloadBytes rows, rows.length, (payloadBytes rows).length, crc32 (payloadBytes rows)⟩, ?_, rfl⟩
      refine rejectIf_bind.mpr ⟨not_lt.mpr hr.count, bind_eq_ok.mpr ⟨_, henc, ?_⟩⟩
      exact rejectIf_bind.mpr ⟨not_lt.mpr hr.length, rfl⟩
    · rw [ih hbat, flatMap_cons, List.append_assoc]

end WalCutAux

open WalCutAux in
/-- A log of any batches, cut at any byte: the scan returns the batches completely before the cut or an error. It returns them unless
the cut is inside a payload, at a frame boundary or inside a header in particular. Byte and row limits that cover the log give the
same answer as none. -/
theorem wal_cut_is_safe (crc32 : Bytes → UInt32) (fromJson : Bytes → Except String (List LogRow)) (batches : List (List LogRow))
    (htyped : ∀ rows ∈ batches, ∀ row ∈ rows, row.Typed) (file : Bytes)
    (hfile : batches.foldlM (WriteAheadLog.append crc32) [] = .ok file) (n : Nat) : ∃ k ≤ batches.length,
      (batches.take k).foldlM (WriteAheadLog.append crc32) [] = .ok (file.take (framesLen (batches.take k))) ∧
      framesLen (batches.take k) ≤ n ∧ (k < batches.length → n < framesLen (batches.take (k + 1))) ∧
      (WriteAheadLog.readEntries crc32 fromJson (file.take n) (file.take n).length = .ok (batches.take k).flatten ∨
        ∃ error, WriteAheadLog.readEntries crc32 fromJson (file.take n) (file.take n).length = .error error) ∧
      ((∀ rows, batches[k]? = some rows → n < framesLen (batches.take k) + 8 ∨
          framesLen (batches.take k) + 8 + (payloadBytes rows).length ≤ n) →
        WriteAheadLog.readEntries crc32 fromJson (file.take n) (file.take n).length = .ok (batches.take k).flatten) ∧
      ∀ path limits, (file.take n).length ≤ limits.maxBytes → batches.flatten.length ≤ limits.maxRows → ∀ rows,
        WriteAheadLog.readExistingBounded crc32 fromJson path limits (some (file.take n)) = .ok rows ↔
          WriteAheadLog.readAll crc32 fromJson path (some (file.take n)) = .ok rows := by
  obtain ⟨happ, rfl⟩ := foldlM_append_eq_ok htyped hfile
  obtain ⟨k, hk, hcom, hbef, ha, hc⟩ := completeBefore_eq_take batches n
  rw [nil_append]
  have hunl := readEntriesWithLimit_cut crc32 fromJson n happ (show ∀ lim, none = some lim → _ from nofun)
  rw [hcom] at hunl
  refine ⟨k, hk, ?_, hbef, ha, ?_, fun hw => hunl.2 fun hcut => ?_, fun path limits hb hr rows => ?_⟩
  · rw [foldlM_append_of_appendable fun rows hr => happ rows (mem_of_mem_take hr), nil_append]
    have hs : batches.flatMap (frameOf crc32) = (batches.take k).flatMap (frameOf crc32) ++ (batches.drop k).flatMap (frameOf crc32) := by
      rw [← flatMap_append, take_append_drop]
    rw [hs, take_left' (length_frames crc32 _)]
  · by_cases hcut : CutsPayload batches n
    · exact Or.inr (hunl.1 hcut)
    · exact Or.inl (hunl.2 hcut)
  · obtain ⟨rows, hr, hlow, hh⟩ := hc.mp hcut
    rcases hw rows hr with h | h <;> omega
  · have hlim := readEntriesWithLimit_cut crc32 fromJson n happ (show ∀ lim, some limits.maxRows = some lim → _ from
      fun lim h => Option.some.inj h ▸ hr)
    rw [hcom] at hlim
    unfold readExistingBounded WriteAheadLog.readAll readEntries
    dsimp only
    rw [rejectIf_bind, mapError_eq_ok, mapError_eq_ok, and_iff_right (not_lt.mpr hb)]
    by_cases hcut : CutsPayload batches n
    · obtain ⟨error, her⟩ := hlim.1 hcut
      obtain ⟨error', he'⟩ := hunl.1 hcut
      rw [her, he']
      exact ⟨nofun, nofun⟩
    · rw [hlim.2 hcut, hunl.2 hcut]

namespace WalCutWitness

def row : LogRow where
  blockNumber := 1
  blockHash := 2
  timestamp := 3
  txHash := 4
  txIndex := 5
  logIndex := 6
  address := 7
  topic0 := some 8
  topic1 := none
  topic2 := some 9
  topic3 := none
  data := [1, 2, 3]
  dataLen := 3
  source := .trace

/-- A checksum that depends on the payload. -/
def crc32 (payload : Bytes) : UInt32 := payload.foldl (fun sum byte => sum * 31 + byte.toUInt32) 7

def noJson (_ : Bytes) : Except String (List LogRow) := .error "not JSON"

theorem typed : ∀ rows ∈ [[row, row], [], [row]], ∀ row ∈ rows, row.Typed := by
  have hrow : row.Typed := ⟨by decide, by decide, by decide, by decide, by decide⟩
  intro rows hr other hother
  simp only [mem_cons, not_mem_nil, or_false] at hr
  rcases hr with rfl | rfl | rfl <;> simp_all

theorem appended : ∃ file, [[row, row], [], [row]].foldlM (WriteAheadLog.append crc32) [] = .ok file :=
  ⟨_, WalCutAux.foldlM_append_of_appendable (fun rows hr => by
    have hl : ∀ rows ∈ [[row, row], [], [row]], rows.length ≤ u32Max ∧ (payloadBytes rows).length ≤ u32Max ∧
        ∀ row ∈ rows, row.dataLen = row.data.length := by decide +kernel
    obtain ⟨hc, hleh, hd⟩ := hl rows hr
    exact ⟨fun row hrow => ⟨typed rows hr row hrow, hd row hrow⟩, hc, hleh⟩) []⟩

end WalCutWitness

open WalCutWitness in
/-- Three batches, one of them empty, cut somewhere. -/
theorem wal_cut_of_three_batches : ∃ file, [[row, row], [], [row]].foldlM (WriteAheadLog.append crc32) [] = .ok file ∧
    ∃ k ≤ 3, framesLen ([[row, row], [], [row]].take k) ≤ 400 ∧
      (WriteAheadLog.readEntries crc32 noJson (file.take 400) (file.take 400).length = .ok ([[row, row], [], [row]].take k).flatten ∨
        ∃ error, WriteAheadLog.readEntries crc32 noJson (file.take 400) (file.take 400).length = .error error) := by
  obtain ⟨file, hf⟩ := appended
  obtain ⟨k, hk, -, hbef, -, hr, -⟩ := wal_cut_is_safe crc32 noJson _ typed file hf 400
  exact ⟨file, hf, k, hk, hbef, hr⟩

end Logex
