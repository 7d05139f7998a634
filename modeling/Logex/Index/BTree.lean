import Logex.Index.Bitmap
import Logex.Lib.Search

/-!
# B+ tree index files

`btree.rs`: an index under construction, the file it is written to, and the readers of that file. A full reader decodes every entry;
point and range lookups search the sorted key table in the file and decode only what they select, except for legacy files and for a
small file with one entry, which are read whole.
-/

namespace Logex

open Lib

/-! ## Construction -/

/-- Keys with the rows inserted under them, in key order. -/
structure BTreeIndex where
  keySize : Nat
  entries : List (Bytes × RoaringBitmap)
  sorted : (entries.map Prod.fst).Pairwise (· < ·)

/-- `entries.entry(key).or_default().insert(row_id)`. -/
def insertEntry (key : Bytes) (rowId : UInt32) : List (Bytes × RoaringBitmap) → List (Bytes × RoaringBitmap)
  | [] => [(key, RoaringBitmap.new.insert rowId)]
  | (first, bitmap) :: entries =>
    if key < first then (key, RoaringBitmap.new.insert rowId) :: (first, bitmap) :: entries
    else if key = first then (first, bitmap.insert rowId) :: entries
    else (first, bitmap) :: insertEntry key rowId entries

theorem mem_keys_insertEntry {key o : Bytes} {ri : UInt32} {es : List (Bytes × RoaringBitmap)} :
    o ∈ (insertEntry key ri es).map Prod.fst ↔ o = key ∨ o ∈ es.map Prod.fst := by
  induction es with
  | nil => simp [insertEntry]
  | cons entry es ih =>
    unfold insertEntry
    split
    · simp only [List.map_cons, List.mem_cons]
    · split
      · next heq =>
        simp only [List.map_cons, List.mem_cons, heq]
        tauto
      · rw [List.map_cons, List.mem_cons, ih, List.map_cons, List.mem_cons]
        tauto

theorem pairwise_insertEntry {key : Bytes} {ri : UInt32} {es : List (Bytes × RoaringBitmap)}
    (h : (es.map Prod.fst).Pairwise (· < ·)) : ((insertEntry key ri es).map Prod.fst).Pairwise (· < ·) := by
  induction es with
  | nil => exact List.pairwise_singleton _ _
  | cons entry es ih =>
    obtain ⟨hf, hr⟩ := List.pairwise_cons.mp h
    unfold insertEntry
    split
    · next hlt =>
      refine List.pairwise_cons.mpr ⟨fun o hother => ?_, h⟩
      rcases List.mem_cons.mp hother with rfl | hother
      · exact hlt
      · exact lt_trans hlt (hf o hother)
    · split
      · exact h
      · next hge hne =>
        refine List.pairwise_cons.mpr ⟨fun o hother => ?_, ih hr⟩
        rcases mem_keys_insertEntry.mp hother with rfl | hother
        · exact lt_of_le_of_ne (not_lt.mp hge) (Ne.symm hne)
        · exact hf o hother

namespace BTreeIndex

def new (keySize : Nat) : BTreeIndex := { keySize, entries := [], sorted := List.Pairwise.nil }

def insert (index : BTreeIndex) (key : Bytes) (rowId : UInt32) : BTreeIndex :=
  { index with entries := insertEntry key rowId index.entries, sorted := pairwise_insertEntry index.sorted }

/-- The index after a sequence of insertions. -/
def build (keySize : Nat) (insertions : List (Bytes × UInt32)) : BTreeIndex :=
  insertions.foldl (fun index insertion => index.insert insertion.1 insertion.2) (new keySize)

end BTreeIndex

/-! ## File format -/

def indexHeaderLen : Nat := 20

def indexEntryTrailerLen : Nat := 8 + 4

/-- `LXIX`. -/
def indexMagic : Bytes := [76, 88, 73, 88]

def tableEnd (keySize entryCount : Nat) : Except String Nat := okOr "index table too large" do
  let size ← checkedAdd keySize indexEntryTrailerLen
  let length ← checkedMul size entryCount
  checkedAdd length indexHeaderLen

/-- The key table: each key with the extent of its bitmap. -/
def tableBytes : Nat → List (Bytes × RoaringBitmap) → Bytes
  | _, [] => []
  | offset, (key, bitmap) :: entries =>
    key ++ leBytes 8 offset ++ leBytes 4 bitmap.serializedSize ++ tableBytes (offset + bitmap.serializedSize) entries

/-- The length of the file, from the end of its table on. -/
def payloadEnd : Nat → List (Bytes × RoaringBitmap) → Except String Nat
  | length, [] => .ok length
  | length, (_, bitmap) :: entries => do
    rejectIf (u32Max < bitmap.serializedSize) "bitmap exceeds format limit"
    let length ← okOr "index file too large" (checkedAdd length bitmap.serializedSize)
    payloadEnd length entries

/-- The bytes of an index: header, key table and bitmaps. -/
def BTreeIndex.bytes (index : BTreeIndex) (tableEnd : Nat) : Bytes :=
  indexMagic ++ leBytes 4 2 ++ leBytes 4 index.keySize ++ leBytes 8 index.entries.length ++ tableBytes tableEnd index.entries ++
    index.entries.flatMap fun entry => entry.2.serializeInto

/-- `BTreeIndex::write_to_file`. -/
def BTreeIndex.writeToFile (index : BTreeIndex) (fileId : FixedBytes 16) : Except String IndexFile := do
  rejectIf (u32Max < index.keySize) "index key width exceeds format limit"
  rejectIf (index.keySize = 0 ∨ index.entries.any (fun entry => entry.1.length ≠ index.keySize) = true) "invalid index key width"
  rejectIf (u64Max < index.entries.length) "too many index entries"
  let tableEnd ← tableEnd index.keySize index.entries.length
  let logicalLen ← payloadEnd tableEnd index.entries
  writeIndexFile fileId logicalLen (index.bytes tableEnd)

structure IndexHeader where
  version : Nat
  keySize : Nat
  entryCount : Nat
deriving DecidableEq, Repr

namespace IndexHeader

def parse (data : Bytes) : Except String IndexHeader := do
  rejectIf (data.length < indexHeaderLen ∨ data.take 4 ≠ indexMagic) "invalid or truncated index header"
  let version := ofLeBytes ((data.drop 4).take 4)
  rejectIf (version ≠ 1 ∧ version ≠ 2) "unsupported index version"
  let keySize := ofLeBytes ((data.drop 8).take 4)
  rejectIf (keySize = 0) "zero index key width"
  return { version, keySize, entryCount := ofLeBytes ((data.drop 12).take 8) }

/-- Every supported bitmap payload occupies at least eight bytes. -/
def validateGeometry (header : IndexHeader) (logicalLen : Nat) : Except String Unit := do
  let entryMin ← okOr "index entry too large" (checkedAdd header.keySize (if header.version = 2 then 20 else 12))
  let minLen ← okOr "index file geometry overflows" do
    let length ← checkedMul header.entryCount entryMin
    checkedAdd length indexHeaderLen
  rejectIf (logicalLen < minLen ∨ (header.entryCount = 0 ∧ logicalLen ≠ indexHeaderLen)) "invalid index file extent"

end IndexHeader

/-! ## Complete readers -/

/-- Where a traversal of the entries stands. -/
structure IndexEntries where
  position : Nat
  payloadPosition : Nat
  previousKey : Option Bytes
deriving DecidableEq, Repr

namespace IndexEntries

/-- `IndexEntries::new`. -/
def new (data : Bytes) : Except String (IndexHeader × IndexEntries) := do
  let header ← IndexHeader.parse data
  header.validateGeometry data.length
  let payloadPosition ← (if header.version = 2 then tableEnd header.keySize header.entryCount else .ok indexHeaderLen)
  return (header, { position := indexHeaderLen, payloadPosition, previousKey := none })

/-- `next_entry` where entries remain: a key and its payload. -/
def nextEntry (data : Bytes) (header : IndexHeader) (input : IndexEntries) : Except String ((Bytes × Bytes) × IndexEntries) := do
  let (key, position) ← takeBytes data input.position header.keySize
  rejectIf (input.previousKey.any (fun previous => decide (key ≤ previous)) = true) "index keys are not strictly increasing"
  if header.version = 2 then do
    let (offset, position) ← takeBytes data position 8
    rejectIf (ofLeBytes offset ≠ input.payloadPosition) "noncontiguous index bitmap payload"
    let (length, position) ← takeBytes data position 4
    let (payload, payloadPosition) ← takeBytes data input.payloadPosition (ofLeBytes length)
    return ((key, payload), { position, payloadPosition, previousKey := some key })
  else do
    let (length, position) ← takeBytes data position 4
    let (payload, position) ← takeBytes data position (ofLeBytes length)
    return ((key, payload), { position, payloadPosition := input.payloadPosition, previousKey := some key })

/-- The remaining entries, each decoded as it is reached; after the last one nothing may follow. -/
def decodeAll (decode : Bytes → Except String RoaringBitmap) (data : Bytes) (header : IndexHeader) :
    Nat → IndexEntries → Except String (List (Bytes × RoaringBitmap))
  | 0, input => do
    rejectIf ((if header.version = 2 then input.payloadPosition else input.position) ≠ data.length) "trailing index file bytes"
    return []
  | remaining + 1, input => do
    let ((key, payload), input) ← nextEntry data header input
    let bitmap ← decode payload
    let entries ← decodeAll decode data header remaining input
    return (key, bitmap) :: entries

end IndexEntries

structure BTreeIndexReader where
  keySize : Nat
  entries : List (Bytes × RoaringBitmap)

/-- `union_entries` and `QueryBitmap::union_all`: both of the operations they choose between unite their operands. -/
def unionAll : List RoaringBitmap → RoaringBitmap
  | [] => .new
  | [bitmap] => bitmap
  | bitmaps => bitmaps.foldl RoaringBitmap.union .new

namespace BTreeIndexReader

/-- Load and structurally validate every entry and bitmap. -/
def openData (codec : RoaringCodec) (data : Bytes) : Except String BTreeIndexReader := do
  let (header, input) ← IndexEntries.new data
  let entries ← IndexEntries.decodeAll (decodeBitmap codec) data header header.entryCount input
  return { keySize := header.keySize, entries }

def openBound (codec : RoaringCodec) (file : IndexFile) (expectedFileId : FixedBytes 16) : Except String BTreeIndexReader := do
  file.requireBound expectedFileId
  openData codec file.data

variable (reader : BTreeIndexReader)

/-- Point lookup: `binary_search_by` finds the entry with the key, if there is one. -/
def get (key : Bytes) : Option RoaringBitmap :=
  (reader.entries.find? fun entry => decide (entry.1 = key)).map Prod.snd

/-- `partition_point`: how many leading entries satisfy a test that holds up to a boundary. -/
def partitionPoint (entries : List (Bytes × RoaringBitmap)) (test : Bytes → Bool) : Nat :=
  (entries.takeWhile fun entry => test entry.1).length

/-- Range scan over `[start, end)`. -/
def range (start stop : Bytes) : RoaringBitmap :=
  if stop ≤ start then .new
  else
    let lo := partitionPoint reader.entries fun key => decide (key < start)
    let hi := partitionPoint reader.entries fun key => decide (key < stop)
    unionAll (((reader.entries.take hi).drop lo).map Prod.snd)

/-- Range scan including both endpoints. -/
def rangeInclusive (start stop : Bytes) : RoaringBitmap :=
  if stop < start then .new
  else
    let lo := partitionPoint reader.entries fun key => decide (key < start)
    let hi := partitionPoint reader.entries fun key => decide (key ≤ stop)
    unionAll (((reader.entries.take hi).drop lo).map Prod.snd)

end BTreeIndexReader

/-! ## Lookups in a file -/

variable (file : IndexFile) (header : IndexHeader)

def validateLookupKey (key : Bytes) : Except String Unit :=
  rejectIf (key.length ≠ header.keySize) s!"lookup key has length {key.length}, expected {header.keySize}"

/-- `entry_offset`. -/
def entryOffset (entry : Nat) : Except String Nat := tableEnd header.keySize entry

/-- The key of an entry of the table. -/
def readEntryKey (entry : Nat) : Except String Bytes := do
  let offset ← entryOffset header entry
  file.readAt offset header.keySize

/-- The extent of an entry's bitmap. -/
def readDescriptor (entry tableEnd : Nat) : Except String (Nat × Nat) := do
  let base ← entryOffset header entry
  let offset ← okOr "index descriptor offset overflows" (checkedAdd base header.keySize)
  let descriptor ← file.readAt offset indexEntryTrailerLen
  let offset := ofLeBytes (descriptor.take 8)
  let length := ofLeBytes (descriptor.drop 8)
  let stop ← okOr "bitmap extent overflows" (checkedAdd offset length)
  rejectIf (offset < tableEnd ∨ length < 8 ∨ file.logicalLen < stop) "invalid bitmap payload extent"
  return (offset, length)

/-- The bitmaps fill the file from the end of the table on. -/
def validateExtent (tableEnd : Nat) : Except String Unit := do
  let first ← readDescriptor file header 0 tableEnd
  let last ← (if header.entryCount = 1 then .ok first else readDescriptor file header (header.entryCount - 1) tableEnd)
  rejectIf (first.1 ≠ tableEnd ∨ last.1 + last.2 ≠ file.logicalLen) "invalid index payload extent"

/-- Published protected files establish global ordering and contiguity; the search checks endpoint geometry and what it reads. -/
def findPointPayload (key : Bytes) : Except String (Option (Nat × Nat)) :=
  if header.entryCount = 0 then .ok none
  else do
    let tableEnd ← tableEnd header.keySize header.entryCount
    validateExtent file header tableEnd
    let found ← search (fun mid => do
      let currentKey ← readEntryKey file header mid
      return compareOfLessAndEq currentKey key) 0 header.entryCount
    match found with
    | none => return none
    | some mid => do
      let descriptor ← readDescriptor file header mid tableEnd
      return some descriptor

/-- A key lies before a boundary. -/
def beforeBound (bound : Bytes) (afterEqual : Bool) (key : Bytes) : Bool := decide (key < bound) || (afterEqual && decide (key = bound))

def findKeyBoundary (bound : Bytes) (afterEqual : Bool) : Except String Nat :=
  boundary (fun mid => do
    let key ← readEntryKey file header mid
    return beforeBound bound afterEqual key) 0 header.entryCount

/-- The entry before a searched boundary: where its bitmap ends. -/
def rangePredecessorEnd (boundary tableEnd : Nat) (bound : Bytes) (afterEqual : Bool) : Except String (Option Nat) :=
  if 0 < boundary then do
    let key ← readEntryKey file header (boundary - 1)
    rejectIf (beforeBound bound afterEqual key = false) "invalid range predecessor key"
    let (offset, length) ← readDescriptor file header (boundary - 1) tableEnd
    return some (offset + length)
  else .ok none

/-- Check the entries on both sides of a searched boundary. -/
def validateRangeBoundary (boundary tableEnd : Nat) (bound : Bytes) (afterEqual : Bool) : Except String Unit := do
  let predecessorEnd ← rangePredecessorEnd file header boundary tableEnd bound afterEqual
  if boundary < header.entryCount then do
    let key ← readEntryKey file header boundary
    rejectIf (beforeBound bound afterEqual key = true) "invalid range successor key"
    let (offset, _) ← readDescriptor file header boundary tableEnd
    rejectIf (predecessorEnd.any (fun stop => decide (stop ≠ offset)) = true) "noncontiguous index range boundary"
  else return ()

/-- The header of an open file. -/
def readHeader : Except String IndexHeader := do
  let bytes ← file.readAt 0 indexHeaderLen
  let header ← IndexHeader.parse bytes
  header.validateGeometry file.logicalLen
  return header

/-- The unverified first page, for files of more than one page up to the limit. -/
def IndexFile.pendingUnverifiedPrefix (maxLogicalLen : Nat) : Option Bytes :=
  if file.isProtected = true ∧ 4096 < file.logicalLen ∧ file.logicalLen ≤ maxLogicalLen then some (file.data.take 4096) else none

/-- `single_entry_bulk_route_hint`. -/
def singleEntryBulkRouteHint (requestedKey : Bytes) : Bool :=
  match file.pendingUnverifiedPrefix (1024 * 1024) with
  | none => false
  | some page => match IndexHeader.parse page with
    | .error _ => false
    | .ok header =>
      if header.version ≠ 2 ∨ header.entryCount ≠ 1 ∨ header.keySize ≠ requestedKey.length then false
      else match header.validateGeometry file.logicalLen, tableEnd header.keySize 1 with
        | .ok _, .ok tableEnd =>
          if page.length < tableEnd then false
          else
            let entry := (page.drop indexHeaderLen).take (tableEnd - indexHeaderLen)
            let descriptor := entry.drop header.keySize
            let offset := ofLeBytes (descriptor.take 8)
            let length := ofLeBytes (descriptor.drop 8)
            decide (entry.take header.keySize = requestedKey ∧ offset = tableEnd ∧ 8 ≤ length ∧
              checkedAdd offset length = some file.logicalLen)
        | _, _ => false

namespace BTreeIndexReader

variable (codec : RoaringCodec)

/-- Load a whole file. -/
def openFile (file : IndexFile) : Except String BTreeIndexReader := openData codec file.data

/-- `get_from_index_file`. -/
def getFromIndexFile (file : IndexFile) (key : Bytes) : Except String (Option RoaringBitmap) :=
  if singleEntryBulkRouteHint file key = true then do
    let reader ← openFile codec file
    rejectIf (reader.keySize ≠ key.length ∨ reader.entries.length ≠ 1) "single-entry route changed during validation"
    match reader.entries with
    | [] => throw "single-entry route changed during validation"
    | (validatedKey, bitmap) :: _ => do
      rejectIf (validatedKey ≠ key) "single-entry route key mismatch"
      return some bitmap
  else do
    let header ← readHeader file
    validateLookupKey header key
    if file.isProtected = false ∨ header.version = 1 then do
      let reader ← openFile codec file
      return reader.get key
    else match ← findPointPayload file header key with
      | none => return none
      | some (offset, length) => do
        let payload ← file.readAt offset length
        let bitmap ← decodeBitmap codec payload
        return some bitmap

/-- `get_from_complete_data_with_memory`. -/
def getFromCompleteDataWithMemory (data key : Bytes) (singleEntry : Bool) : Except String (Option RoaringBitmap) := do
  let (header, input) ← IndexEntries.new data
  validateLookupKey header key
  rejectIf (singleEntry = true ∧ header.entryCount ≠ 1) "single-entry route changed during validation"
  let entries ← IndexEntries.decodeAll codec.prepareDeserialize data header header.entryCount input
  let selected := (entries.reverse.find? fun entry => decide (entry.1 = key)).map Prod.snd
  rejectIf (singleEntry = true ∧ selected.isNone = true) "single-entry route key mismatch"
  return selected

/-- `get_from_index_file_with_memory`. -/
def getFromIndexFileWithMemory (file : IndexFile) (key : Bytes) : Except String (Option RoaringBitmap) :=
  if singleEntryBulkRouteHint file key = true then getFromCompleteDataWithMemory codec file.data key true
  else do
    let header ← readHeader file
    validateLookupKey header key
    if file.isProtected = false ∨ header.version = 1 then getFromCompleteDataWithMemory codec file.data key false
    else match ← findPointPayload file header key with
      | none => return none
      | some (offset, length) => do
        let payload ← file.readAt offset length
        let bitmap ← codec.prepareDeserialize payload
        return some bitmap

/-- The keys a range asks for. -/
def inRange (start stop : Bytes) (inclusive : Bool) (key : Bytes) : Bool :=
  decide (start ≤ key) && (decide (key < stop) || (inclusive && decide (key = stop)))

/-- The selected entries of a range, checked and decoded one after another. -/
def selectedEntries (codec : RoaringCodec) (file : IndexFile) (header : IndexHeader) (tableEnd : Nat) (test : Bytes → Bool) :
    Nat → Nat → Bytes → Option Nat → Except String (List RoaringBitmap)
  | 0, _, _, _ => .ok []
  | count + 1, entry, previousKey, previousEnd => do
    let key ← readEntryKey file header entry
    rejectIf (test key = false ∨ (previousKey ≠ [] ∧ key ≤ previousKey)) "invalid selected index key ordering"
    let (offset, length) ← readDescriptor file header entry tableEnd
    rejectIf (previousEnd.any (fun stop => decide (stop ≠ offset)) = true) "noncontiguous selected index payload"
    let payload ← file.readAt offset length
    let bitmap ← codec.prepareDeserialize payload
    let bitmaps ← selectedEntries codec file header tableEnd test count (entry + 1) key (some (offset + length))
    return bitmap :: bitmaps

/-- `range_from_index_file_with_memory` on a protected file of the current version. -/
def searchRange (file : IndexFile) (header : IndexHeader) (start stop : Bytes) (inclusive : Bool) :
    Except String RoaringBitmap := do
  let tableEnd ← tableEnd header.keySize header.entryCount
  if header.entryCount = 0 then return unionAll []
  else do
    let first ← readDescriptor file header 0 tableEnd
    let last ← readDescriptor file header (header.entryCount - 1) tableEnd
    rejectIf (first.1 ≠ tableEnd ∨ last.1 + last.2 ≠ file.logicalLen) "invalid index payload extent"
    let lo ← findKeyBoundary file header start false
    let hi ← (if stop < start then .ok lo else findKeyBoundary file header stop inclusive)
    rejectIf (hi < lo) "invalid index range ordering"
    validateRangeBoundary file header lo tableEnd start false
    (if start ≤ stop then validateRangeBoundary file header hi tableEnd stop inclusive else .ok ())
    if hi = lo then return .new
    else do
      let bitmaps ← selectedEntries codec file header tableEnd (inRange start stop inclusive) (hi - lo) lo [] none
      return unionAll bitmaps

/-- `range_from_index_file_with_memory`. -/
def rangeFromIndexFileWithMemory (file : IndexFile) (start stop : Bytes) (inclusive : Bool) : Except String RoaringBitmap := do
  let header ← readHeader file
  validateLookupKey header start
  validateLookupKey header stop
  if file.isProtected = false ∨ header.version = 1 then do
    let (header, input) ← IndexEntries.new file.data
    let entries ← IndexEntries.decodeAll codec.prepareDeserialize file.data header header.entryCount input
    return unionAll ((entries.filter fun entry => inRange start stop inclusive entry.1).map Prod.snd)
  else searchRange codec file header start stop inclusive

end BTreeIndexReader

end Logex
