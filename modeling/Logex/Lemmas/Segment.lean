import Logex.Storage.Operations

/-!
# Segments and their directories

What a descriptor says about the rows of its segment, and what the files of the segment read back. `SegmentHeld` is the agreement of
the two that every operation of storage keeps: the directory reads back as many rows as the descriptor counts, between exactly the
bounds it records, under a manifest that repeats it.
-/

namespace Logex

open Lib List SegmentDescriptor

variable {d : SegmentDescriptor} {reference : BundleReference} {dir : SegmentDir} {rows : List LogRow}
  {ws : List BundleWrite} {rowCount : Nat} {c : BundleCodec}

/-! ## Row bounds -/

namespace RowBounds

/-- The bounds of two batches together. -/
def merge (a b : RowBounds) : RowBounds where
  rowCount := a.rowCount + b.rowCount
  minBlock := min a.minBlock b.minBlock
  maxBlock := max a.maxBlock b.maxBlock
  minTimestamp := min a.minTimestamp b.minTimestamp
  maxTimestamp := max a.maxTimestamp b.maxTimestamp

theorem merge_include (a b : RowBounds) (row : LogRow) : (a.merge b).include row = a.merge (b.include row) := by
  simp only [merge, RowBounds.include, Nat.add_assoc, Nat.min_assoc, Nat.max_assoc]

theorem merge_foldl (a b : RowBounds) (rows : List LogRow) :
    rows.foldl RowBounds.include (a.merge b) = a.merge (rows.foldl RowBounds.include b) := by
  induction rows generalizing b with
  | nil => rfl
  | cons row rows ih => rw [foldl_cons, foldl_cons, merge_include, ih]

/-- Bounds of rows after others merge with the bounds of those. -/
theorem foldl_include (a : RowBounds) (row : LogRow) (rows : List LogRow) :
    (row :: rows).foldl RowBounds.include a = a.merge (rows.foldl RowBounds.include (.fromRow row)) :=
  merge_foldl a (.fromRow row) rows

/-- The bounds of a nonempty batch followed by another. -/
theorem fromRows_append {rows chu : List LogRow} {a b : RowBounds} (ha : fromRows rows = some a) (hb : fromRows chu = some b) :
    fromRows (rows ++ chu) = some (a.merge b) := by
  cases rows with
  | nil => cases ha
  | cons row rows =>
    cases chu with
    | nil => cases hb
    | cons first chu =>
      cases ha
      cases hb
      rw [cons_append, fromRows, foldl_append, foldl_include]

theorem foldl_rowCount (a : RowBounds) (rows : List LogRow) :
    (rows.foldl RowBounds.include a).rowCount = a.rowCount + rows.length := by
  induction rows generalizing a with
  | nil => rfl
  | cons row rows ih =>
    rw [foldl_cons, ih, length_cons]
    simp only [RowBounds.include]
    omega

theorem fromRows_rowCount {b : RowBounds} (h : fromRows rows = some b) : b.rowCount = rows.length := by
  cases rows with
  | nil => cases h
  | cons row rows =>
    cases h
    rw [foldl_rowCount, length_cons, Nat.add_comm]
    rfl

end RowBounds

/-- A descriptor records the exact count and extrema of these rows. -/
structure SegmentDescriptor.Describes (d : SegmentDescriptor) (rows : List LogRow) : Prop where
  rowCount : d.rowCount = rows.length
  minBlock : d.minBlock = (RowBounds.fromRows rows).map (·.minBlock)
  maxBlock : d.maxBlock = (RowBounds.fromRows rows).map (·.maxBlock)
  minTimestamp : d.minTimestamp = (RowBounds.fromRows rows).map (·.minTimestamp)
  maxTimestamp : d.maxTimestamp = (RowBounds.fromRows rows).map (·.maxTimestamp)

/-- `apply_row_bounds_to_descriptor` keeps the bounds exact. -/
theorem SegmentDescriptor.Describes.applyRowBounds (h : d.Describes rows)
    (chu : List LogRow) : (d.applyRowBounds (RowBounds.fromRows chu)).Describes (rows ++ chu) := by
  obtain ⟨hc, hmin, hmax, ht, htm⟩ := h
  cases hb : RowBounds.fromRows chu with
  | none =>
    cases chu with
    | nil =>
      rw [append_nil]
      exact ⟨hc, hmin, hmax, ht, htm⟩
    | cons row chu => cases hb
  | some b =>
    have hlen := RowBounds.fromRows_rowCount hb
    cases ha : RowBounds.fromRows rows with
    | none =>
      cases rows with
      | cons row rows => cases ha
      | nil => exact ⟨by simp [SegmentDescriptor.applyRowBounds, hc, hlen], by simp [SegmentDescriptor.applyRowBounds, hmin, ha, hb],
          by simp [SegmentDescriptor.applyRowBounds, hmax, ha, hb], by simp [SegmentDescriptor.applyRowBounds, ht, ha, hb],
          by simp [SegmentDescriptor.applyRowBounds, htm, ha, hb]⟩
    | some a =>
      have hab := RowBounds.fromRows_append ha hb
      exact ⟨by simp [SegmentDescriptor.applyRowBounds, hc, hlen],
        by simp [SegmentDescriptor.applyRowBounds, hmin, ha, hab, RowBounds.merge],
        by simp [SegmentDescriptor.applyRowBounds, hmax, ha, hab, RowBounds.merge],
        by simp [SegmentDescriptor.applyRowBounds, ht, ha, hab, RowBounds.merge],
        by simp [SegmentDescriptor.applyRowBounds, htm, ha, hab, RowBounds.merge]⟩

/-! ## Bundle files -/

/-- A table that the catalog can pin for a number of rows. -/
def BundleReference.Pins (reference : BundleReference) (rowCount : Nat) : Prop :=
  (∃ stop, reference.stop = .ok stop) ∧ reference.rowCount = rowCount

theorem BundleReference.Pins.le (h : reference.Pins rowCount) : rowCount ≤ u32Max := by
  obtain ⟨⟨stop, hs⟩, rfl⟩ := h
  obtain ⟨hv, -⟩ := rejectIf_bind.mp hs
  simp only [not_or, not_lt] at hv
  exact le_trans hv.2.1 (by decide)

theorem publishBundle_pins {wri : WriteState} {file : Bytes} (h : publishBundle c wri ws rowCount = .ok (reference, file)) :
    reference.Pins rowCount := by
  obtain ⟨state, -, h⟩ := bind_eq_ok.mp h
  obtain ⟨-, h⟩ := rejectIf_bind.mp h
  obtain ⟨parent, -, h⟩ := bind_eq_ok.mp h
  obtain ⟨table, -, h⟩ := bind_eq_ok.mp h
  obtain ⟨-, h⟩ := rejectIf_bind.mp h
  obtain ⟨stop, hs, h⟩ := bind_eq_ok.mp h
  cases h
  exact ⟨⟨stop, hs⟩, rfl⟩

variable {cs : List StoredRow}

theorem BundleFile.read_cons {file : Bytes} {sna : List (BundleReference × List StoredRow)} :
    (BundleFile.mk file ((reference, cs) :: sna)).read reference = some cs := by
  simp [BundleFile.read]

theorem BundleFile.create_ok {bd : BundleFile}
    (h : BundleFile.create c ws rowCount cs = .ok (reference, bd)) : reference.Pins rowCount ∧ bd.read reference = some cs := by
  obtain ⟨⟨r, file⟩, hp, h⟩ := bind_eq_ok.mp h
  cases h
  exact ⟨publishBundle_pins hp, BundleFile.read_cons⟩

theorem BundleFile.append_ok {bd bd' : BundleFile} {reference ref' : BundleReference}
    (h : bd.append c reference ws rowCount cs = .ok (ref', bd')) : ref'.Pins rowCount ∧ bd'.read ref' = some cs := by
  obtain ⟨reader, -, h⟩ := bind_eq_ok.mp h
  obtain ⟨writer, -, h⟩ := bind_eq_ok.mp h
  obtain ⟨⟨r, file⟩, hp, h⟩ := bind_eq_ok.mp h
  cases h
  exact ⟨publishBundle_pins hp, BundleFile.read_cons⟩

/-! ## Directories -/

theorem SegmentDir.read_of_manifest {cols : ColumnLayout} (h : dir.manifest = some (manifestWithColumns d cols)) :
    dir.read = match d.columnBundle with
      | none => .ok dir.rows
      | some reference => okOr "bundle snapshot is truncated" ((dir.bundles d.generation).read reference) := by
  rw [SegmentDir.read, h]
  rfl

/-- The rows of a segment: none where its descriptor counts none, whatever its files hold. -/
def SegmentDir.contents (dir : SegmentDir) (d : SegmentDescriptor) : List StoredRow :=
  if d.rowCount = 0 then [] else dir.read.toOption.getD []

theorem SegmentDir.contents_of_read {rows : List StoredRow} (hr : d.rowCount ≠ 0)
    (h : dir.read = .ok rows) : dir.contents d = rows := by
  rw [contents, if_neg hr, h]
  rfl

/-- The files of a segment hold what its descriptor says. -/
structure SegmentHeld (dir : SegmentDir) (d : SegmentDescriptor) : Prop where
  present : dir.present = true
  describes : d.Describes ((dir.contents d).map (·.row))
  blank : d.rowCount = 0 → d.columnBundle = none ∧ d.generation = 0
  manifest : d.rowCount ≠ 0 → ∃ columns, dir.manifest = some (manifestWithColumns d columns)
  read : d.rowCount ≠ 0 → dir.read = .ok (dir.contents d)

/-- A directory that publishes a descriptor with its rows holds the segment. -/
theorem SegmentHeld.of_read {rows : List StoredRow} {cols : ColumnLayout}
    (hpre : dir.present = true) (hman : dir.manifest = some (manifestWithColumns d cols)) (hr : dir.read = .ok rows)
    (hne : rows ≠ []) (hdes : d.Describes (rows.map (·.row))) : SegmentHeld dir d := by
  have hco : d.rowCount ≠ 0 := by
    rw [hdes.rowCount, length_map]
    exact length_eq_zero_iff.not.mpr hne
  have hc := SegmentDir.contents_of_read hco hr
  refine ⟨hpre, by rwa [hc], fun h => absurd h hco, fun _ => ⟨cols, hman⟩, fun _ => ?_⟩
  rw [hr, hc]

/-- A segment without rows needs only its directory. -/
theorem SegmentHeld.of_empty (hpre : dir.present = true)
    (hdes : d.Describes []) (hb : d.columnBundle = none ∧ d.generation = 0) : SegmentHeld dir d := by
  have hc : d.rowCount = 0 := hdes.rowCount
  have hco : dir.contents d = [] := if_pos hc
  exact ⟨hpre, by rwa [hco], fun _ => hb, fun h => absurd hc h, fun h => absurd hc h⟩

theorem SegmentHeld.length (h : SegmentHeld dir d) : (dir.contents d).length = d.rowCount := by
  rw [h.describes.rowCount, length_map]

end Logex
