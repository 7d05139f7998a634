import Logex.Lib.BitPack
import Logex.Page.Memory
import Logex.Bundle

/-!
# Column codecs

`compression.rs`: bit packing, the dictionary codec for fixed-size values and the three integer codecs, and the bounded wrappers of
Zstandard and LZ4. The two compressors are parameters.
-/

namespace Logex.Page

open Lib

def decodeStage : String := "query storage decode"

/-! ## Bit packing -/

/-- `bitpack_u32`, through a 64-bit word. -/
def bitpackU32 (values : List Nat) (bits : Nat) : Bytes :=
  if values = [] ∨ bits = 0 then [] else packFrom 64 (2 ^ bits - 1) bits 0 0 values

/-- `bitpack_u64`, through a 128-bit word. -/
def bitpackU64 (values : List Nat) (bits : Nat) : Bytes :=
  if values = [] ∨ bits = 0 then [] else packFrom 128 (if 64 ≤ bits then u64Max else 2 ^ bits - 1) bits 0 0 values

variable (codecs : PageCodecs) (data : Bytes)

/-- `validate_packed_bits`: the exact length, and no bits beyond the last number. -/
def validatePackedBits (count bits width : Nat) : Except PageError Unit := do
  let bitLen ← okOr (.invalidData "packed bit count overflow") (checkedMul count bits)
  rejectIf (bits = 0 ∨ width < bits ∨ data.length ≠ (bitLen + 7) / 8 ∨
      bitLen % 8 ≠ 0 ∧ ∃ byte ∈ data.getLast?, byte.toNat >>> (bitLen % 8) ≠ 0)
    (.invalidData "invalid packed width, length or padding")

/-- The loop of the unpackers: one word read at each bit offset. A word that starts past the data is out of range. -/
def unpackFrom (word mask bits : Nat) (data : Bytes) : Nat → Nat → Except PageError (List Nat)
  | 0, _ => .ok []
  | count + 1, offset => do
    rejectIf (data.length < offset / 8) .outOfBounds
    let rest ← unpackFrom word mask bits data count (offset + bits)
    return packedAt word mask offset data :: rest

/-- `bitunpack_u32`. -/
def bitunpackU32 (count bits : Nat) : Except PageError (List Nat) := do
  validatePackedBits data count bits 32
  unpackFrom 64 (2 ^ bits - 1) bits data count 0

/-- `bitunpack_u64`. -/
def bitunpackU64 (count bits : Nat) : Except PageError (List Nat) := do
  validatePackedBits data count bits 64
  unpackFrom 128 (if 64 ≤ bits then u64Max else 2 ^ bits - 1) bits data count 0

/-- `64 - max.leading_zeros()` of the largest number, and one bit when there is none or it is zero. -/
def packedBits (values : List Nat) : Nat :=
  let largest := values.foldl max 0
  if largest = 0 then 1 else largest.log2 + 1

/-! ## Integer codecs -/

/-- The wrapping differences of successive values. -/
def wrappingDeltas (prev : BitVec 64) : List (BitVec 64) → List (BitVec 64)
  | [] => []
  | value :: rest => (value - prev) :: wrappingDeltas value rest

/-- The values that start from a wrapping sum. -/
def wrappingSums (prev : BitVec 64) : List (BitVec 64) → List (BitVec 64)
  | [] => []
  | delta :: rest => (prev + delta) :: wrappingSums (prev + delta) rest

def zigzagEncode (v : BitVec 64) : BitVec 64 := (v <<< 1) ^^^ v.sshiftRight 63

def zigzagDecode (v : BitVec 64) : BitVec 64 := (v >>> 1) ^^^ -(v &&& 1)

/-- The base, the width and the packed numbers, as the delta codecs write them. -/
def encodePacked (header : Bytes) (numbers : List (BitVec 64)) : Bytes :=
  let bits := packedBits (numbers.map BitVec.toNat)
  header ++ UInt8.ofNat bits :: bitpackU64 (numbers.map BitVec.toNat) bits

def deltaEncode : List (BitVec 64) → Bytes
  | [] => []
  | base :: rest => encodePacked (leBytes 8 base.toNat) (wrappingDeltas base rest)

def signedDeltaEncode : List (BitVec 64) → Bytes
  | [] => []
  | base :: rest => encodePacked (leBytes 8 base.toNat) ((wrappingDeltas base rest).map zigzagEncode)

def deltaOfDeltaEncode : List (BitVec 64) → Bytes
  | [] => []
  | [base] => leBytes 8 base.toNat
  | base :: second :: rest =>
    let firstDelta := second - base
    encodePacked (leBytes 8 base.toNat ++ leBytes 8 firstDelta.toNat)
      ((wrappingDeltas firstDelta (wrappingDeltas second rest)).map zigzagEncode)

/-- The numbers of an encoding whose width byte stands at `start`. -/
def decodePacked (start count : Nat) : Except PageError (List (BitVec 64)) := do
  let bits ← okOr .outOfBounds data[start]?
  let numbers ← bitunpackU64 (data.drop (start + 1)) count bits.toNat
  return numbers.map (BitVec.ofNat 64)

/-- A little-endian 64-bit field. -/
def u64At (offset : Nat) : BitVec 64 := BitVec.ofNat 64 (ofLeBytes ((data.drop offset).take 8))

variable (rowCount limit : Nat) (memory : Option PageBudget)

/-- The result vector of an integer decoder. -/
def pushAllU64 (rowCount : Nat) (values : List (BitVec 64)) : DecodeM (List (BitVec 64)) := do
  tryWithCapacity memory rowCount 8 decodeStage
  return values

def nonemptyForZeroRows : PageError := .invalidData "nonempty encoding for zero rows"

def deltaDecode : DecodeM (List (BitVec 64)) := do
  if rowCount = 0 then
    failIf (data ≠ []) nonemptyForZeroRows
    return []
  failIf (data.length < 9) (.invalidData "delta data too short")
  let base := u64At data 0
  let deltas ← decodeBuffer memory (rowCount - 1) 8 decodeStage (decodePacked data 8 (rowCount - 1))
  pushAllU64 memory rowCount (base :: wrappingSums base deltas)

def signedDeltaDecode : DecodeM (List (BitVec 64)) := do
  if rowCount = 0 then
    failIf (data ≠ []) nonemptyForZeroRows
    return []
  failIf (data.length < 9) (.invalidData "signed delta data too short")
  let base := u64At data 0
  let deltas ← decodeBuffer memory (rowCount - 1) 8 decodeStage (decodePacked data 8 (rowCount - 1))
  pushAllU64 memory rowCount (base :: wrappingSums base (deltas.map zigzagDecode))

def deltaOfDeltaDecode : DecodeM (List (BitVec 64)) := do
  if rowCount = 0 then
    failIf (data ≠ []) nonemptyForZeroRows
    return []
  failIf (data.length < 8) (.invalidData "dod data too short")
  let base := u64At data 0
  if rowCount = 1 then
    failIf (data.length ≠ 8) (.invalidData "timestamp singleton has trailing bytes")
    decodeBuffer memory 1 8 decodeStage (.ok [base])
  else
    failIf (data.length < 17) (.invalidData "dod data too short for first_delta")
    let firstDelta := u64At data 8
    let zigzag ← decodeBuffer memory (rowCount - 2) 8 decodeStage (decodePacked data 16 (rowCount - 2))
    let second := base + firstDelta
    pushAllU64 memory rowCount
      (base :: second :: wrappingSums second (wrappingSums firstDelta (zigzag.map zigzagDecode)))

/-! ## Dictionary codec -/

/-- `chunks_exact`: the whole items, dropping a remainder. -/
def chunksExact (size : Nat) (bytes : Bytes) : List Bytes :=
  if _h : 0 < size ∧ size ≤ bytes.length then
    bytes.take size :: chunksExact size (bytes.drop size)
  else
    []
termination_by bytes.length
decreasing_by
  rw [List.length_drop]
  omega

/-- The loop of the dictionary encoder: a value seen before takes its index, a new one the next index. Indices are 32-bit. -/
def dictIndices : List Bytes → List Bytes → List Bytes × List Nat
  | dict, [] => (dict, [])
  | dict, value :: rest =>
    match dict.idxOf? value with
    | some index =>
      let indexed := dictIndices dict rest
      (indexed.1, index % 2 ^ 32 :: indexed.2)
    | none =>
      let indexed := dictIndices (dict ++ [value]) rest
      (indexed.1, dict.length % 2 ^ 32 :: indexed.2)

/-- `32 - (dict_size - 1).leading_zeros()`, and one bit for at most one entry. -/
def dictionaryBits (dictSize : Nat) : Nat := if dictSize ≤ 1 then 1 else (dictSize - 1).log2 + 1

def encodeDictionaryParts (dict : List Bytes) (itemSize : Nat) (indices : List Nat) : Bytes :=
  let dictSize := dict.length % 2 ^ 32
  let bitsNeeded := dictionaryBits dictSize
  leBytes 4 dictSize ++ leBytes 4 itemSize ++ dict.flatten ++ UInt8.ofNat bitsNeeded :: bitpackU32 indices bitsNeeded

def dictEncodeRaw (rawValues : Bytes) (itemSize : Nat) : Bytes :=
  let parts := dictIndices [] (chunksExact itemSize rawValues)
  encodeDictionaryParts parts.1 itemSize parts.2

/-- `&bytes[start..end]`. -/
def slice (bytes : Bytes) (start stop : Nat) : Except PageError Bytes :=
  if start ≤ stop ∧ stop ≤ bytes.length then .ok ((bytes.drop start).take (stop - start)) else .error .outOfBounds

/-- The loop that copies the entry of each index. -/
def copyEntries (dictBytes : Bytes) (itemSize : Nat) : List Nat → Except PageError Bytes
  | [] => .ok []
  | index :: rest => do
    let entry ← slice dictBytes (index * itemSize) (index * itemSize + itemSize)
    let copied ← copyEntries dictBytes itemSize rest
    return entry ++ copied

def dictDecode (rowCount itemSize : Nat) (memory : Option PageBudget) : DecodeM Bytes := do
  failIf (data.length < 8) (.invalidData "dict too short")
  let dictSize := ofLeBytes (data.take 4)
  let storedItemSize := ofLeBytes ((data.drop 4).take 4)
  failIf (storedItemSize ≠ itemSize) (.invalidData "dict item size mismatch")
  let dictEnd ← attempt (okOr (.invalidData "dictionary size overflow") ((checkedMul dictSize itemSize).bind (checkedAdd · 8)))
  failIf (data.length ≤ dictEnd) (.invalidData "dict data truncated")
  let dictBytes ← attempt (slice data 8 dictEnd)
  let bitsNeeded ← attempt (okOr .outOfBounds data[dictEnd]?)
  let indices ← decodeBuffer memory rowCount 4 decodeStage (bitunpackU32 (data.drop (dictEnd + 1)) rowCount bitsNeeded.toNat)
  failIf (∃ index ∈ indices.max?, dictSize ≤ index) (.invalidData "dictionary index is out of bounds")
  let outputLen ← attempt (okOr (.invalidData "dictionary output size overflow") (checkedMul rowCount itemSize))
  tryWithCapacity memory outputLen 1 decodeStage
  attempt (copyEntries dictBytes itemSize indices)

/-! ## Compressors -/

/-- Zstandard at the storage level and LZ4 blocks. -/
structure PageCodecs where
  /-- `zstd::encode_all`. -/
  zstdEncodeAll : Bytes → Option Bytes
  /-- `Decompressor::upper_bound`. -/
  zstdUpperBound : Bytes → Option Nat
  /-- `decompress_to_buffer` into a buffer of the given capacity. -/
  zstdDecompressToBuffer : Bytes → Nat → Option Bytes
  /-- `lz4_flex::block::compress`. -/
  lz4Compress : Bytes → Bytes
  /-- `lz4_flex::block::decompress_into` an output of the given size: the bytes written. -/
  lz4DecompressInto : Bytes → Nat → Option Bytes

def zstdCompress : Except PageError Bytes :=
  okOr (.invalidData "zstd") (codecs.zstdEncodeAll data)

def zstdOutputCapacity : Nat :=
  min ((codecs.zstdUpperBound data).getD limit) limit

/-- Bound output independently of the size advertised by an untrusted frame. -/
def zstdDecompressBounded : Except PageError Bytes :=
  okOr (.invalidData "zstd") (codecs.zstdDecompressToBuffer data (zstdOutputCapacity codecs data limit))

def zstdDecompressBoundedAccounted : DecodeM Bytes :=
  decodeBuffer memory (zstdOutputCapacity codecs data limit) 1 decodeStage (zstdDecompressBounded codecs data limit)

/-- `lz4_flex::compress_prepend_size`: the size as 32 bits, then the block. -/
def lz4CompressPrependSize : Bytes := leBytes 4 data.length ++ codecs.lz4Compress data

def lz4OutputCapacity : Except PageError Nat := do
  rejectIf (data.length < 4) (.invalidData "truncated LZ4 size")
  let size := ofLeBytes (data.take 4)
  rejectIf (limit < size) (.invalidData "decoded page exceeds its byte budget")
  return size

def lz4DecompressBounded : Except PageError Bytes := do
  let size ← lz4OutputCapacity data limit
  okOr (.invalidData "lz4") (codecs.lz4DecompressInto (data.drop 4) size)

def lz4DecompressBoundedAccounted : DecodeM Bytes := do
  let capacity ← attempt (lz4OutputCapacity data limit)
  decodeBuffer memory capacity 1 decodeStage (lz4DecompressBounded codecs data limit)

end Logex.Page
