import Logex.Index.File
import Logex.Lib.BitSet
import Logex.Lib.ByteOrder

/-!
# Row bitmaps

`RoaringBitmap` as the strictly increasing list of its rows, with the portable format the pinned `roaring` crate writes, and
`decode_bitmap` of `btree.rs`, which checks a payload before that crate decodes it.
-/

namespace Logex

open Lib

/-! ## Sets of row IDs -/

/-- `roaring::RoaringBitmap`. -/
structure RoaringBitmap where
  rows : List Nat
  sorted : rows.Pairwise (· < ·)
  bounded : ∀ row ∈ rows, row < 2 ^ 32
deriving DecidableEq

/-- Insert into an increasing list. -/
def insertRow (row : Nat) : List Nat → List Nat
  | [] => [row]
  | first :: rows => if row < first then row :: first :: rows else if row = first then first :: rows else first :: insertRow row rows

theorem mem_insertRow {row o : Nat} {rows : List Nat} : o ∈ insertRow row rows ↔ o = row ∨ o ∈ rows := by
  induction rows with
  | nil => simp [insertRow]
  | cons first rows ih =>
    unfold insertRow
    split
    · exact List.mem_cons
    · split
      · next heq =>
        subst heq
        rw [List.mem_cons]
        tauto
      · rw [List.mem_cons, List.mem_cons, ih]
        tauto

theorem pairwise_insertRow {row : Nat} {rows : List Nat} (h : rows.Pairwise (· < ·)) : (insertRow row rows).Pairwise (· < ·) := by
  induction rows with
  | nil => exact List.pairwise_singleton _ _
  | cons first rows ih =>
    obtain ⟨hf, hr⟩ := List.pairwise_cons.mp h
    unfold insertRow
    split
    · next hlt =>
      refine List.pairwise_cons.mpr ⟨fun o hother => ?_, h⟩
      rcases List.mem_cons.mp hother with rfl | hother
      · exact hlt
      · exact Nat.lt_trans hlt (hf o hother)
    · split
      · exact h
      · next hge hne =>
        refine List.pairwise_cons.mpr ⟨fun o hother => ?_, ih hr⟩
        rcases mem_insertRow.mp hother with rfl | hother
        · omega
        · exact hf o hother

theorem mem_foldr_insertRow {rows init : List Nat} {row : Nat} : row ∈ rows.foldr insertRow init ↔ row ∈ rows ∨ row ∈ init := by
  induction rows with
  | nil => simp
  | cons first rows ih =>
    rw [List.foldr_cons, mem_insertRow, ih, List.mem_cons, or_assoc]

theorem pairwise_foldr_insertRow {rows init : List Nat} (h : init.Pairwise (· < ·)) :
    (rows.foldr insertRow init).Pairwise (· < ·) := by
  induction rows with
  | nil => exact h
  | cons first rows ih => exact pairwise_insertRow ih

namespace RoaringBitmap

def new : RoaringBitmap := ⟨[], List.Pairwise.nil, fun _ h => absurd h List.not_mem_nil⟩

instance : Membership UInt32 RoaringBitmap := ⟨fun bitmap row => row.toNat ∈ bitmap.rows⟩

instance (row : UInt32) (bitmap : RoaringBitmap) : Decidable (row ∈ bitmap) := inferInstanceAs (Decidable (row.toNat ∈ bitmap.rows))

variable (bitmap : RoaringBitmap)

def insert (row : UInt32) : RoaringBitmap where
  rows := insertRow row.toNat bitmap.rows
  sorted := pairwise_insertRow bitmap.sorted
  bounded := by
    intro other hother
    rcases mem_insertRow.mp hother with rfl | hother
    · exact row.toNat_lt
    · exact bitmap.bounded other hother

/-- `|`. -/
def union (left right : RoaringBitmap) : RoaringBitmap where
  rows := right.rows.foldr insertRow left.rows
  sorted := pairwise_foldr_insertRow left.sorted
  bounded := by
    intro row hrow
    rcases mem_foldr_insertRow.mp hrow with hrow | hrow
    · exact right.bounded row hrow
    · exact left.bounded row hrow

/-- `from_lsb0_bytes`: the set bits, from an offset on. A row beyond the last ID, where the crate panics, is left out. -/
def fromLsb0Bytes (offset : Nat) (bytes : Bytes) : RoaringBitmap where
  rows := (((List.range (bytes.length * 8)).filter (testBit bytes)).map (offset + ·)).filter (· < 2 ^ 32)
  sorted := by
    refine List.Pairwise.filter _ (List.pairwise_map.mpr (List.Pairwise.filter _ ?_))
    exact List.pairwise_lt_range.imp fun h => Nat.add_lt_add_left h offset
  bounded := fun row hrow => of_decide_eq_true (List.mem_filter.mp hrow).2

/-! ### Serialized form -/

/-- The rows grouped by their high sixteen bits, each group with the low bits of its rows. -/
def containers : List Nat → List (Nat × List Nat)
  | [] => []
  | row :: rows => match containers rows with
    | [] => [(row / 65536, [row % 65536])]
    | (key, values) :: rest =>
      if row / 65536 = key then (key, row % 65536 :: values) :: rest
      else (row / 65536, [row % 65536]) :: (key, values) :: rest

/-- The store of a container: an array of values, or a bit for each value. -/
def storeBytes (values : List Nat) : Bytes :=
  if values.length ≤ 4096 then values.flatMap (leBytes 2) else values.foldl setBit (List.replicate 8192 0)

/-- Where the stores begin. -/
def storeOffsets : Nat → List (Nat × List Nat) → List Nat
  | _, [] => []
  | start, (_, values) :: rest => start :: storeOffsets (start + (storeBytes values).length) rest

/-- The key of a container and its cardinality less one. -/
def description (container : Nat × List Nat) : Bytes := leBytes 2 container.1 ++ leBytes 2 (container.2.length - 1)

/-- `serialize_into`: the portable format without run containers. -/
def serializeInto : Bytes :=
  let stores := containers bitmap.rows
  leBytes 4 12346 ++ leBytes 4 stores.length ++ stores.flatMap description ++
    (storeOffsets (8 + 8 * stores.length) stores).flatMap (leBytes 4) ++ stores.flatMap fun store => storeBytes store.2

def serializedSize : Nat := bitmap.serializeInto.length

end RoaringBitmap

/-- Decoding by the `roaring` crate; both entry points read back what it serialized. -/
structure RoaringCodec where
  deserializeFrom : Bytes → Except String RoaringBitmap
  /-- `prepare_deserialize`, then `deserialize`. -/
  prepareDeserialize : Bytes → Except String RoaringBitmap
  deserializeFrom_serializeInto : ∀ bitmap, deserializeFrom bitmap.serializeInto = .ok bitmap
  prepareDeserialize_serializeInto : ∀ bitmap, prepareDeserialize bitmap.serializeInto = .ok bitmap

/-! ## Checked decoding -/

variable (data : Bytes)

/-- `take_bytes`: the next bytes and the position after them. -/
def takeBytes (position length : Nat) : Except String (Bytes × Nat) := do
  rejectIf (data.length < position + length) "truncated index entry"
  return ((data.drop position).take length, position + length)

/-- `as_chunks::<4>().0`. -/
def chunksOfFour : Bytes → List Bytes
  | a :: b :: c :: d :: rest => [a, b, c, d] :: chunksOfFour rest
  | _ => []

def decodeDenseContainer (description payload : Bytes) : Except String RoaringBitmap := do
  let key := ofLeBytes (description.take 2)
  let expected := ofLeBytes (description.drop 2) + 1
  let bitmap := RoaringBitmap.fromLsb0Bytes (key * 65536) payload
  rejectIf (bitmap.rows.length ≠ expected) "Roaring dense container cardinality mismatch"
  return bitmap

/-- The containers of consecutive descriptions, united. -/
def decodeDenseContainers : List Bytes → Bytes → Except String RoaringBitmap
  | [], _ => .ok .new
  | description :: descriptions, payload => do
    let bitmap ← decodeDenseContainer description (payload.take 8192)
    let rest ← decodeDenseContainers descriptions (payload.drop 8192)
    return bitmap.union rest

def decodeDenseBitmaps (descriptions payload : Bytes) : Except String RoaringBitmap :=
  match chunksOfFour descriptions with
  | [description] => decodeDenseContainer description payload
  | descriptions => decodeDenseContainers descriptions payload

/-- The ranges of a run container and the number of values they hold. -/
def scanRuns : List Bytes → Option Nat → Nat → Except String Nat
  | [], _, cardinality => .ok cardinality
  | run :: runs, previousEnd, cardinality => do
    let start := ofLeBytes (run.take 2)
    let lengthMinusOne := ofLeBytes (run.drop 2)
    rejectIf (65535 < start + lengthMinusOne) "Roaring run range exceeds its container"
    rejectIf (previousEnd.any (fun previousEnd => decide (start ≤ previousEnd)) = true) "Roaring runs overlap or are not ordered"
    scanRuns runs (some (start + lengthMinusOne)) (cardinality + lengthMinusOne + 1)

structure ContainerScan where
  position : Nat
  denseOnly : Bool
  previous : Option Nat
deriving DecidableEq, Repr

/-- One turn of the loop over container descriptions. -/
def scanContainer (offsets runContainers : Option Bytes) (scan : ContainerScan) (index : Nat) (description : Bytes) :
    Except String ContainerScan := do
  let key := ofLeBytes (description.take 2)
  rejectIf (scan.previous.any (fun previous => decide (key ≤ previous)) = true) "Roaring container keys are not strictly increasing"
  rejectIf (offsets.any (fun offsets => decide (ofLeBytes ((offsets.drop (index * 4)).take 4) ≠ scan.position)) = true)
    "noncontiguous Roaring container offset"
  let cardinality := ofLeBytes (description.drop 2) + 1
  if runContainers.any (fun runs => testBit runs index) = true then do
    let (countBytes, position) ← takeBytes data scan.position 2
    let (runs, position) ← takeBytes data position (ofLeBytes countBytes * 4)
    let actualCardinality ← scanRuns (chunksOfFour runs) none 0
    rejectIf (actualCardinality ≠ cardinality) "Roaring run cardinality mismatch"
    return { position, denseOnly := false, previous := some key }
  else if cardinality ≤ 4096 then do
    let (_, position) ← takeBytes data scan.position (cardinality * 2)
    return { position, denseOnly := false, previous := some key }
  else do
    let (_, position) ← takeBytes data scan.position 8192
    return { scan with position, previous := some key }

def scanContainers (data : Bytes) (offsets runContainers : Option Bytes) : List Bytes → Nat → ContainerScan → Except String ContainerScan
  | [], _, scan => .ok scan
  | description :: descriptions, index, scan => do
    let scan ← scanContainer data offsets runContainers scan index description
    scanContainers data offsets runContainers descriptions (index + 1) scan

/-- The header of a payload: the container count, whether offsets follow, the run flags and the position reached. -/
def bitmapHeader : Except String (Nat × Bool × Option Bytes × Nat) := do
  let (cookieBytes, position) ← takeBytes data 0 4
  let cookie := ofLeBytes cookieBytes
  if cookie = 12346 then do
    let (countBytes, position) ← takeBytes data position 4
    return (ofLeBytes countBytes, true, none, position)
  else if cookie % 65536 = 12347 then do
    let count := cookie / 65536 + 1
    let (runs, position) ← takeBytes data position ((count + 7) / 8)
    return (count, decide (4 ≤ count), some runs, position)
  else throw "invalid Roaring bitmap cookie"

/-- The container offsets, where the header announces them. -/
def bitmapOffsets (hasOffsets : Bool) (position count : Nat) : Except String (Option Bytes × Nat) :=
  if hasOffsets then do
    let (offsets, position) ← takeBytes data position (count * 4)
    return (some offsets, position)
  else .ok (none, position)

/-- `decode_bitmap`: the dependency decodes only payloads whose extent, offsets, keys and runs were checked here. -/
def decodeBitmap (codec : RoaringCodec) (data : Bytes) : Except String RoaringBitmap :=
  if 16 ≤ data.length ∧ ofLeBytes (data.take 8) = 12346 + 2 ^ 32 then do
    -- One ordinary container: its fixed header proves the count.
    let header := data.take 16
    let cardinality := ofLeBytes ((header.drop 10).take 2) + 1
    let payloadLen := if cardinality ≤ 4096 then cardinality * 2 else 8192
    rejectIf (header.drop 12 ≠ leBytes 4 16 ∨ data.length ≠ 16 + payloadLen) "invalid single Roaring container extent"
    if 4096 < cardinality then decodeDenseBitmaps ((header.drop 8).take 4) (data.drop 16)
    else codec.deserializeFrom data
  else do
    let (count, hasOffsets, runContainers, position) ← bitmapHeader data
    rejectIf (65536 < count) "too many Roaring containers"
    let (descriptions, position) ← takeBytes data position (count * 4)
    let (offsets, position) ← bitmapOffsets data hasOffsets position count
    let payloadStart := position
    let scan ← scanContainers data offsets runContainers (chunksOfFour descriptions) 0
      { position, denseOnly := decide (count ≠ 0), previous := none }
    rejectIf (scan.position ≠ data.length) "trailing bitmap payload bytes"
    if scan.denseOnly then decodeDenseBitmaps descriptions (data.drop payloadStart) else codec.deserializeFrom data

end Logex
