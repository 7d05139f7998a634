import Logex.Index.Source
import Logex.Lib.BitSet

/-!
# Bloom filters of a segment

The skip filters of `bloom.rs`, `event_bloom.rs` and `transfer_bloom.rs`: how they are built from a segment, probed by queries and
checked against their source before publication.
-/

namespace Logex

open Lib

/-- The hashes of the filters: `alloy_primitives::keccak256` and `twox_hash::XxHash3_64::oneshot`. -/
structure BloomHashes where
  keccak256 : Bytes → B256
  xxHash3 : Bytes → UInt64

/-! ## Framing and bit addresses -/

def bloomHeaderLen : Nat := 8 + 8 + 4

def minFilterBytes : Nat := 256 * 1024

def maxFilterBytes : Nat := 2 * 1024 * 1024

def maxFilterBits : Nat := maxFilterBytes * 8

def hashRounds : Nat := 4

/-- `usize::next_power_of_two`. -/
def nextPowerOfTwo (n : Nat) : Nat := 2 ^ Nat.clog 2 n

/-- `u64::is_power_of_two`. -/
def isPowerOfTwo (n : Nat) : Bool := decide (n = 2 ^ Nat.log2 n)

/-- Size by source rows, with a floor of 256 KiB and a ceiling of 2 MiB. -/
def filterBytes (rowCount : Nat) : Nat := max (nextPowerOfTwo (min rowCount (maxFilterBytes / 32) * 32)) minFilterBytes

/-- `open_bloom`: the file and the mask of its bit addresses. -/
def openBloom (reader : IndexFile) (expectedMagic : Bytes) : Except String (IndexFile × UInt64) := do
  rejectIf (reader.isProtected = false) "legacy bloom has no integrity checks; rebuild derived indexes"
  let header ← reader.readAt 0 bloomHeaderLen
  let bitLen := ofLeBytes ((header.drop 8).take 8)
  rejectIf (header.take 8 ≠ expectedMagic ∨ isPowerOfTwo bitLen = false ∨
      ¬(minFilterBytes * 8 ≤ bitLen ∧ bitLen ≤ maxFilterBits) ∨ header.drop 16 ≠ leBytes 4 hashRounds ∨
      reader.logicalLen ≠ bloomHeaderLen + bitLen / 8)
    "invalid bloom file geometry"
  return (reader, UInt64.ofNat (bitLen - 1))

/-- `key_bits`: double hashing, one address for each round. -/
def keyBits (hashes : UInt64 × UInt64) (mask : UInt64) : List Nat :=
  (List.range hashRounds).map fun round => ((hashes.1 + UInt64.ofNat round * hashes.2) &&& mask).toNat

/-- The probes of `read_key`, ended by the first clear bit. -/
def readBits (reader : IndexFile) : List Nat → Except String Bool
  | [] => .ok true
  | bit :: bits => do
    let byte ← reader.readAt (bloomHeaderLen + bit / 8) 1
    if testBit byte (bit % 8) = false then return false
    readBits reader bits

/-- Probe protected pages with the same bit addressing used by the builder. -/
def readKey (reader : IndexFile) (mask : UInt64) (hashes : UInt64 × UInt64) : Except String Bool :=
  readBits reader (keyBits hashes mask)

/-- The loop with which every builder sets the bits of a key. -/
def insertHashes (bits : Bytes) (hashes : UInt64 × UInt64) : Bytes :=
  (keyBits hashes (UInt64.ofNat bits.length * 8 - 1)).foldl setBit bits

/-- The file every builder writes. -/
def writeBloom (magic : Bytes) (fileId : FixedBytes 16) (bits : Bytes) : Except String IndexFile :=
  writeIndexFile fileId (bloomHeaderLen + bits.length) (magic ++ leBytes 8 (bits.length * 8) ++ leBytes 4 hashRounds ++ bits)

/-- The two halves of a digest that address its bits. -/
def digestHalves (digest : B256) : UInt64 × UInt64 :=
  (UInt64.ofNat (ofLeBytes ((FixedBytes.toBytes digest).take 8)),
    UInt64.ofNat (ofLeBytes (((FixedBytes.toBytes digest).drop 8).take 8)) ||| 1)

/-! ## Event filter -/

/-- `LXEVBF1\0`. -/
def eventMagic : Bytes := [76, 88, 69, 86, 66, 70, 49, 0]

def eventBloomFile : String := "events.bloom"

/-- Ninety-three bytes. -/
abbrev EventKey := Bytes

/-- Position zero is a separate presence domain, including for zero arguments. -/
def eventKey (topic0 : B256) (address : Address) (position : UInt8) (value : B256) : EventKey :=
  eventMagic ++ FixedBytes.toBytes topic0 ++ FixedBytes.toBytes address ++ [position] ++ FixedBytes.toBytes value

def hashKey (hashes : BloomHashes) (key : EventKey) : UInt64 × UInt64 := digestHalves (hashes.keccak256 key)

def keyHashes (hashes : BloomHashes) (topic0 : B256) (address : Address) (position : UInt8) (value : B256) : UInt64 × UInt64 :=
  hashKey hashes (eventKey topic0 address position value)

structure CachedKey where
  key : EventKey
  hashes : UInt64 × UInt64
  occupied : Bool

def keyCacheEntries : Nat := 1024

/-- Direct-mapped memory of hashed keys. -/
structure KeyHashCache where
  entries : Nat → CachedKey

namespace KeyHashCache

def new : KeyHashCache := ⟨fun _ => { key := List.replicate 93 0, hashes := (0, 0), occupied := false }⟩

def slot (hashes : BloomHashes) (key : EventKey) : Nat := (hashes.xxHash3 key).toNat &&& (keyCacheEntries - 1)

/-- `KeyHashCache::hashes`: a hit needs the complete key, a slot collision evicts. -/
def hashes (cache : KeyHashCache) (world : BloomHashes) (key : EventKey) : (UInt64 × UInt64) × KeyHashCache :=
  let entry := cache.entries (slot world key)
  if entry.occupied = true ∧ entry.key = key then (entry.hashes, cache)
  else (hashKey world key, ⟨Function.update cache.entries (slot world key) { key, hashes := hashKey world key, occupied := true }⟩)

end KeyHashCache

section Visit

variable {σ : Type} (world : BloomHashes) (visit : Nat → UInt64 × UInt64 → EStateM String σ Unit)

/-- One loop of `visit_source_keys`: the keys of some rows, through the cache. -/
def visitKeys : List (Nat × Option EventKey) → KeyHashCache → EStateM String σ KeyHashCache
  | [], cache => pure cache
  | (_, none) :: keys, cache => visitKeys keys cache
  | (row, some key) :: keys, cache => do
    let (hashes, cache) := cache.hashes world key
    visit row hashes
    visitKeys keys cache

/-- The loop over one argument column. -/
def visitTopic (reader : SegmentReader) (addresses : List Address) (events : List (Option B256)) (position : Fin 4)
    (cache : KeyHashCache) : EStateM String σ KeyHashCache := do
  let values := reader.readTopic position
  attempt (validateSourceRows reader [(topicColumn position, values.length)])
  visitKeys world visit
    ((events.zip values).zipIdx.map fun ((event, value), row) => (row, do
      let event ← event
      let value ← value
      return eventKey event (addresses.getD row 0) (UInt8.ofNat position) value)) cache

def visitSourceKeys (reader : SegmentReader) : EStateM String σ Unit := do
  discard (attempt (sourceRows reader))
  let addresses := reader.readAddress
  let events := reader.readTopic 0
  attempt (validateSourceRows reader [("address", addresses.length), ("topic0", events.length)])
  let cache ← visitKeys world visit
    (events.zipIdx.map fun (event, row) => (row, event.map fun event => eventKey event (addresses.getD row 0) 0 0)) .new
  let cache ← visitTopic world visit reader addresses events 1 cache
  let cache ← visitTopic world visit reader addresses events 2 cache
  discard (visitTopic world visit reader addresses events 3 cache)

end Visit

/-- `EventBloom::build`. -/
def EventBloom.build (world : BloomHashes) (fileId : FixedBytes 16) (source : SegmentReader) : Except String IndexFile := do
  let rows ← sourceRows source
  let insert (_ : Nat) (hashes : UInt64 × UInt64) : EStateM String Bytes Unit := modify fun bits => insertHashes bits hashes
  match visitSourceKeys world insert source (List.replicate (filterBytes rows) 0) with
  | .ok _ bits => writeBloom eventMagic fileId bits
  | .error error _ => throw error

/-- `EventBloomReader`, `Erc20EventBloomReader` and `TransferBloomReader`. -/
structure BloomReader where
  reader : IndexFile
  mask : UInt64

variable (file : IndexFile)

/-- `EventBloomReader::open`. -/
def EventBloomReader.open : Except String BloomReader := do
  let (reader, mask) ← openBloom file eventMagic
  return { reader, mask }

namespace EventBloomReader

variable (world : BloomHashes) (bloom : BloomReader)

def mayContainEvent (topic0 : B256) (address : Address) : Except String Bool :=
  readKey bloom.reader bloom.mask (keyHashes world topic0 address 0 0)

def mayContainTopic (topic0 : B256) (address : Address) (position : Nat) (value : B256) : Except String Bool := do
  rejectIf (¬(1 ≤ position ∧ position ≤ 3)) "indexed topic position must be 1, 2 or 3"
  readKey bloom.reader bloom.mask (keyHashes world topic0 address (UInt8.ofNat position) value)

end EventBloomReader

/-- The bits of an open filter: what follows its header, up to the last address. -/
def readFilter (mask : UInt64) : Except String Bytes := file.readAt bloomHeaderLen ((mask.toNat + 1) / 8)

/-- `event_bloom::verify_captured_membership`. -/
def EventBloom.verifyCapturedMembership (world : BloomHashes) (reader : SegmentReader) (file : IndexFile) (fileId : FixedBytes 16)
    (cancelled : Nat → Bool) : VerifyM Unit := do
  checkCancelled cancelled
  attempt (file.requireBound fileId)
  let (file, mask) ← attempt (openBloom file eventMagic)
  let bits ← attempt (readFilter file mask)
  visitSourceKeys world (fun row hashes => do
    runIf (row % 16384 = 0) (checkCancelled cancelled)
    failIf ((keyBits hashes mask).any (fun bit => !testBit bits bit) = true) s!"bloom omits source row {row}") reader
  checkCancelled cancelled

/-! ## ERC20 filters -/

/-- `LXTRBF1\0`. -/
def transferMagic : Bytes := [76, 88, 84, 82, 66, 70, 49, 0]

/-- `LXE2BF1\0`. -/
def erc20EventsMagic : Bytes := [76, 88, 69, 50, 66, 70, 49, 0]

def erc20EventsBloomFile : String := "erc20_events.bloom"

def transferBloomFile : String := "erc20_transfer.bloom"

/-- `Transfer(address,address,uint256)`. -/
def transferSignature : Bytes := "Transfer(address,address,uint256)".toUTF8.toList

/-- `Approval(address,address,uint256)`. -/
def approvalSignature : Bytes := "Approval(address,address,uint256)".toUTF8.toList

def transferTopic0 (world : BloomHashes) : B256 := world.keccak256 transferSignature

def approvalTopic0 (world : BloomHashes) : B256 := world.keccak256 approvalSignature

def transferKeyHashes (world : BloomHashes) (address : Address) (topicIndex : UInt8) (topic : B256) : UInt64 × UInt64 :=
  digestHalves (world.keccak256 ([topicIndex] ++ FixedBytes.toBytes address ++ FixedBytes.toBytes topic))

def erc20EventKeyHashes (world : BloomHashes) (topic0 : B256) (address : Address) (topicIndex : UInt8) (topic : B256) :
    UInt64 × UInt64 :=
  digestHalves (world.keccak256
    (FixedBytes.toBytes topic0 ++ [topicIndex] ++ FixedBytes.toBytes address ++ FixedBytes.toBytes topic))

/-- The columns both builders and the verifier read. -/
def validateTransferColumns (reader : SegmentReader) : Except String Unit :=
  validateSourceRows reader [("address", reader.readAddress.length), ("topic0", (reader.readTopic 0).length),
    ("topic1", (reader.readTopic 1).length), ("topic2", (reader.readTopic 2).length)]

/-- The loop of both builders: rows whose first topic is selected enter with their second and third. -/
def insertTransferRows (selected : Option B256 → Option B256) (keyHashes : B256 → Address → UInt8 → B256 → UInt64 × UInt64) :
    List (((Address × Option B256) × Option B256) × Option B256) → Bytes → Bytes
  | [], bits => bits
  | (((address, topic0), topic1), topic2) :: rows, bits =>
    let bits := match selected topic0 with
      | none => bits
      | some topic0 =>
        let bits := match topic1 with
          | some topic1 => insertHashes bits (keyHashes topic0 address 1 topic1)
          | none => bits
        match topic2 with
        | some topic2 => insertHashes bits (keyHashes topic0 address 2 topic2)
        | none => bits
    insertTransferRows selected keyHashes rows bits

/-- The part `Erc20EventBloom::build` and `TransferBloom::build` share. -/
def buildTransferBloom (selected : Option B256 → Option B256) (keyHashes : B256 → Address → UInt8 → B256 → UInt64 × UInt64)
    (magic : Bytes) (fileId : FixedBytes 16) (reader : SegmentReader) : Except String IndexFile := do
  let addresses := reader.readAddress
  validateTransferColumns reader
  let bits := insertTransferRows selected keyHashes
    (((addresses.zip (reader.readTopic 0)).zip (reader.readTopic 1)).zip (reader.readTopic 2))
    (List.replicate (filterBytes addresses.length) 0)
  writeBloom magic fileId bits

/-- `Erc20EventBloom::build`. -/
def Erc20EventBloom.build (world : BloomHashes) : FixedBytes 16 → SegmentReader → Except String IndexFile :=
  buildTransferBloom (fun topic0 => topic0.filter fun topic0 => topic0 = transferTopic0 world ∨ topic0 = approvalTopic0 world)
    (erc20EventKeyHashes world) erc20EventsMagic

/-- `TransferBloom::build`. -/
def TransferBloom.build (world : BloomHashes) : FixedBytes 16 → SegmentReader → Except String IndexFile :=
  buildTransferBloom (fun topic0 => topic0.filter fun topic0 => topic0 = transferTopic0 world)
    (fun _ => transferKeyHashes world) transferMagic

/-- `Erc20EventBloomReader::open`. -/
def Erc20EventBloomReader.open : Except String BloomReader := do
  let (reader, mask) ← openBloom file erc20EventsMagic
  return { reader, mask }

/-- `TransferBloomReader::open`. -/
def TransferBloomReader.open : Except String BloomReader := do
  let (reader, mask) ← openBloom file transferMagic
  return { reader, mask }

def Erc20EventBloomReader.mayContain (world : BloomHashes) (bloom : BloomReader) (topic0 : B256) (address : Address)
    (topicIndex : Nat) (topic : B256) : Except String Bool := do
  rejectIf (255 < topicIndex) "topic index is out of range"
  readKey bloom.reader bloom.mask (erc20EventKeyHashes world topic0 address (UInt8.ofNat topicIndex) topic)

def TransferBloomReader.mayContain (world : BloomHashes) (bloom : BloomReader) (address : Address) (topicIndex : Nat)
    (topic : B256) : Except String Bool := do
  rejectIf (255 < topicIndex) "topic index is out of range"
  readKey bloom.reader bloom.mask (transferKeyHashes world address (UInt8.ofNat topicIndex) topic)

/-- `transfer_bloom::verify_captured_membership`. -/
def TransferBloom.verifyCapturedMembership (world : BloomHashes) (reader : SegmentReader) (file : IndexFile) (name : String)
    (fileId : FixedBytes 16) (cancelled : Nat → Bool) : VerifyM Unit := do
  checkCancelled cancelled
  let legacy := name == transferBloomFile
  let magic := if legacy then transferMagic else erc20EventsMagic
  attempt (file.requireBound fileId)
  let (file, mask) ← attempt (openBloom file magic)
  let bits ← attempt (readFilter file mask)
  discard (attempt (sourceRows reader))
  let addresses := reader.readAddress
  let topic0s := reader.readTopic 0
  let topic1s := reader.readTopic 1
  let topic2s := reader.readTopic 2
  attempt (validateTransferColumns reader)
  (List.range addresses.length).forM fun row => do
    runIf (row % 16384 = 0) (checkCancelled cancelled)
    match topic0s.getD row none with
    | none => pure ()
    | some topic0 =>
      if topic0 ≠ transferTopic0 world ∧ (legacy = true ∨ topic0 ≠ approvalTopic0 world) then pure ()
      else [((1 : UInt8), topic1s.getD row none), (2, topic2s.getD row none)].forM fun (position, topic) =>
        match topic with
        | none => pure ()
        | some topic =>
          let hashes := if legacy then transferKeyHashes world (addresses.getD row 0) position topic
            else erc20EventKeyHashes world topic0 (addresses.getD row 0) position topic
          failIf ((keyBits hashes mask).any (fun bit => !testBit bits bit) = true)
            s!"bloom omits source row {row} topic {position}"
  checkCancelled cancelled

end Logex
