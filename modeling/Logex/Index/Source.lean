import Logex.Index.File
import Logex.Lib.Decides

/-!
# The source of an index

A captured segment as indexes read it: one column at a time. `SegmentReader` opens no segment with more rows than a row ID can name
(`validate_read_bounds`, `raw_address_row_count`), so the bound is a field here.
-/

namespace Logex

open Lib

/-- `SegmentReader`, reduced to the rows it reads. -/
structure SegmentReader where
  rows : List LogRow
  bounded : rows.length ≤ u32Max

namespace SegmentReader

variable (reader : SegmentReader)

def readRowCount : Nat := reader.rows.length

def readAddress : List Address := reader.rows.map LogRow.address

/-- `read_nullable_b256` of a topic column. -/
def readTopic (position : Fin 4) : List (Option B256) := reader.rows.map (LogRow.topic · position)

def readBlockHash : List B256 := reader.rows.map LogRow.blockHash

def readBlockNumber : List Nat := reader.rows.map LogRow.blockNumber

def readTimestamp : List Nat := reader.rows.map LogRow.timestamp

end SegmentReader

/-- `"topic0"` to `"topic3"`. -/
def topicColumn (position : Fin 4) : String := "topic" ++ toString position.val

/-- `source_rows`. -/
def sourceRows (reader : SegmentReader) : Except String Nat := do
  rejectIf (u32Max < reader.readRowCount) "source exceeds index row-ID limit"
  return reader.readRowCount

/-- `validate_source_rows`. -/
def validateSourceRows (reader : SegmentReader) (columns : List (String × Nat)) : Except String Unit := do
  rejectIf (u32Max < reader.readRowCount) "index source exceeds row ID limit"
  columns.forM fun (column, length) =>
    rejectIf (length ≠ reader.readRowCount)
      s!"index source column {column} has {length} rows, expected {reader.readRowCount}"

theorem sourceRows_eq (reader : SegmentReader) : sourceRows reader = .ok reader.rows.length := by
  unfold sourceRows
  rw [rejectIf_bind]
  exact ⟨Nat.not_lt.mpr reader.bounded, rfl⟩

/-- Columns of one segment have one length. -/
theorem validateSourceRows_eq {reader : SegmentReader} {cols : List (String × Nat)}
    (h : ∀ col ∈ cols, col.2 = reader.rows.length) : validateSourceRows reader cols = .ok () := by
  unfold validateSourceRows
  rw [rejectIf_bind, forM_eq_ok]
  exact ⟨Nat.not_lt.mpr reader.bounded, fun col hmem => rejectIf_eq_ok.mpr fun hne => hne (h col hmem)⟩

/-! ## Cancellation -/

/-- A verification: its state is how often it has asked whether it is cancelled. -/
abbrev VerifyM := EStateM String Nat

/-- `check_cancelled`: `cancelled` answers the question asked so many times before. -/
def checkCancelled (cancelled : Nat → Bool) : VerifyM Unit := do
  let asked ← modifyGet fun asked => (asked, asked + 1)
  failIf (cancelled asked = true) "index verification cancelled"

/-- The verification returned, whatever it was asked before. -/
def Accepts (verification : VerifyM Unit) : Prop := ∃ asked, verification 0 = .ok () asked

/-- A verification that decides a property accepts only where it holds, and accepts where it holds under its condition. -/
theorem accepts_of_decides {c p : Prop} {verification : VerifyM Unit} (h : Decides c verification p) :
    (Accepts verification → p) ∧ (c → p → Accepts verification) := by
  refine ⟨fun ⟨_, hrun⟩ => h.sound hrun, fun hc hp => ?_⟩
  obtain ⟨_, asked, hrun⟩ := (h.accepts_iff hc 0).mpr hp
  exact ⟨asked, hrun⟩

/-- Asking decides nothing unless the answer is yes. -/
theorem decides_checkCancelled {cl : Nat → Bool} :
    Decides (∀ asd, cl asd = false) (checkCancelled cl) True := by
  intro asd
  unfold checkCancelled
  rw [wp_bind, wp_modifyGet, wp_failIf]
  refine ⟨fun _ => trivial, fun ht hn _ => ?_⟩
  rw [hn] at ht
  exact Bool.false_ne_true ht

end Logex
