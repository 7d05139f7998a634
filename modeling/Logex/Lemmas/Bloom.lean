import Logex.Index.Bloom
import Logex.Lib.Decides

/-!
# Bloom filters: bits, files and visited keys

A builder sets the bits of its keys in a vector whose size is a power of two, and a reader masks hashes by that size, so both compute
the same addresses. The key-hash cache drops out: visiting the keys of a source through it is visiting them with their own hashes.
-/

namespace Logex

open Lib List IndexFile SegmentReader

variable {reader : SegmentReader} {bits : Bytes} {cache : KeyHashCache} {file : IndexFile} {key : EventKey} {n : Nat}
  {i : Nat}

/-! ## Sizes and addresses -/

/-- The sizes in bytes a filter can have. -/
def FilterSize (n : Nat) : Prop := ∃ k, 18 ≤ k ∧ k ≤ 21 ∧ n = 2 ^ k

/-- The mask of the addresses of a filter. -/
def filterMask (n : Nat) : UInt64 := UInt64.ofNat (n * 8 - 1)

theorem FilterSize.bounds (h : FilterSize n) : 2 ^ 18 ≤ n ∧ n ≤ 2 ^ 21 := by
  obtain ⟨k, hlow, hh, rfl⟩ := h
  exact ⟨Nat.pow_le_pow_right (by omega) hlow, Nat.pow_le_pow_right (by omega) hh⟩

theorem filterSize_filterBytes (rc : Nat) : FilterSize (filterBytes rc) := by
  have hc : Nat.clog 2 (min rc (maxFilterBytes / 32) * 32) ≤ 21 := by
    refine Nat.clog_le_of_le_pow ?_
    have hmax : maxFilterBytes / 32 = 65536 := rfl
    omega
  refine ⟨max (Nat.clog 2 (min rc (maxFilterBytes / 32) * 32)) 18, le_max_right _ _, by omega, ?_⟩
  rw [filterBytes, nextPowerOfTwo, show minFilterBytes = 2 ^ 18 from rfl]
  rcases le_total (Nat.clog 2 (min rc (maxFilterBytes / 32) * 32)) 18 with h | h
  · rw [max_eq_right h, max_eq_right (Nat.pow_le_pow_right (by omega) h)]
  · rw [max_eq_left h, max_eq_left (Nat.pow_le_pow_right (by omega) h)]

theorem FilterSize.toNat_mask (h : FilterSize n) : (filterMask n).toNat = n * 8 - 1 := by
  have hbds := h.bounds
  rw [filterMask, UInt64.toNat_ofNat', Nat.mod_eq_of_lt]
  omega

/-- `bits.len() as u64 * 8 - 1`. -/
theorem FilterSize.mask_eq (h : FilterSize n) : UInt64.ofNat n * 8 - 1 = filterMask n := by
  have hbds := h.bounds
  have hone : (1 : UInt64) ≤ UInt64.ofNat n * 8 := by
    rw [UInt64.le_iff_toNat_le, UInt64.toNat_mul, UInt64.toNat_ofNat', Nat.mod_eq_of_lt (a := n) (by omega)]
    change 1 ≤ n * 8 % 2 ^ 64
    omega
  refine UInt64.toNat_inj.mp ?_
  rw [h.toNat_mask, UInt64.toNat_sub_of_le _ _ hone, UInt64.toNat_mul, UInt64.toNat_ofNat', Nat.mod_eq_of_lt (a := n) (by omega)]
  change n * 8 % 2 ^ 64 - 1 = n * 8 - 1
  omega

theorem FilterSize.address_lt (h : FilterSize n) {hs : UInt64 × UInt64} {bit : Nat}
    (hbit : bit ∈ keyBits hs (filterMask n)) : bit / 8 < n := by
  obtain ⟨round, -, rfl⟩ := mem_map.mp hbit
  have hle : ((hs.1 + UInt64.ofNat round * hs.2) &&& filterMask n).toNat ≤ n * 8 - 1 := by
    rw [UInt64.toNat_and, ← h.toNat_mask]
    exact Nat.and_le_right
  have hbds := h.bounds
  omega

/-! ## Keys in a filter -/

/-- Every bit of a key is set. -/
def Holds (bits : Bytes) (hashes : UInt64 × UInt64) : Prop :=
  ∀ bit ∈ keyBits hashes (filterMask bits.length), testBit bits bit = true

instance (bits : Bytes) (hashes : UInt64 × UInt64) : Decidable (Holds bits hashes) := List.decidableBAll _ _

theorem FilterSize.insertHashes_eq (h : FilterSize bits.length) (hs : UInt64 × UInt64) :
    insertHashes bits hs = (keyBits hs (filterMask bits.length)).foldl setBit bits := by
  rw [insertHashes, h.mask_eq]

@[simp] theorem length_insertHashes (bits : Bytes) (hs : UInt64 × UInt64) : (insertHashes bits hs).length = bits.length := by
  rw [insertHashes, length_foldl_setBit]

theorem holds_insertHashes (h : FilterSize bits.length) (hs : UInt64 × UInt64) : Holds (insertHashes bits hs) hs := by
  intro bit hbit
  rw [length_insertHashes] at hbit
  rw [h.insertHashes_eq, testBit_foldl_setBit fun _ => h.address_lt]
  exact Or.inl hbit

/-- An insertion clears nothing. -/
theorem Holds.insertHashes {key : UInt64 × UInt64} (hkey : Holds bits key) (h : FilterSize bits.length)
    (hs : UInt64 × UInt64) : Holds (insertHashes bits hs) key := by
  intro bit hbit
  rw [length_insertHashes] at hbit
  rw [h.insertHashes_eq, testBit_foldl_setBit fun _ => h.address_lt]
  exact Or.inr (hkey bit hbit)

/-- A fold of insertions keeps the size and holds what it inserted. -/
theorem holds_foldl_insertHashes (keys : List (UInt64 × UInt64)) (h : FilterSize bits.length) :
    (keys.foldl insertHashes bits).length = bits.length ∧
      ∀ key, key ∈ keys ∨ Holds bits key → Holds (keys.foldl insertHashes bits) key := by
  induction keys generalizing bits with
  | nil => exact ⟨rfl, fun key hkey => hkey.resolve_left not_mem_nil⟩
  | cons fst keys ih =>
    obtain ⟨hleh, hh⟩ := ih (by rwa [length_insertHashes bits fst] : FilterSize (insertHashes bits fst).length)
    refine ⟨by rw [foldl_cons, hleh, length_insertHashes], fun key hkey => hh key ?_⟩
    rcases hkey with hkey | hkey
    · rcases mem_cons.mp hkey with rfl | hkey
      · exact Or.inr (holds_insertHashes h key)
      · exact Or.inl hkey
    · exact Or.inr (hkey.insertHashes h fst)

/-! ## Files -/

/-- The file opens as a filter with these bits. -/
structure OpensAs (file : IndexFile) (magic bits : Bytes) : Prop where
  size : FilterSize bits.length
  opens : openBloom file magic = .ok (file, filterMask bits.length)
  reads : readFilter file (filterMask bits.length) = .ok bits

theorem isPowerOfTwo_pow (k : Nat) : isPowerOfTwo (2 ^ k) = true := by
  rw [isPowerOfTwo, Nat.log2_two_pow]
  exact decide_eq_true rfl

theorem OpensAs.data {magic bits : Bytes} (h : OpensAs file magic bits) :
    bits = (file.data.drop bloomHeaderLen).take bits.length ∧ bloomHeaderLen + bits.length ≤ file.data.length := by
  have hleh : ((filterMask bits.length).toNat + 1) / 8 = bits.length := by
    rw [h.size.toNat_mask]
    omega
  obtain ⟨hle, hb⟩ := readAt_eq_ok.mp h.reads
  rw [hleh] at hle hb
  exact ⟨hb, hle⟩

/-- The shape a file needs to open as a filter. -/
theorem openBloom_eq_ok {file reader : IndexFile} {mag : Bytes} {mask : UInt64} :
    openBloom file mag = .ok (reader, mask) ↔ reader = file ∧ ∃ bits, mask = filterMask bits.length ∧ OpensAs file mag bits := by
  constructor
  · intro h
    have hop := h
    unfold openBloom at h
    rw [rejectIf_bind, bind_eq_ok] at h
    obtain ⟨-, header, -, h⟩ := h
    rw [rejectIf_bind] at h
    obtain ⟨hgeo, hres⟩ := h
    cases hres
    simp only [not_or, not_not, Bool.not_eq_false] at hgeo
    obtain ⟨-, hp, ⟨hlow, hh⟩, -, hleh⟩ := hgeo
    generalize ofLeBytes _ = bl at hp hlow hh hleh hop
    -- A power of two within the limits is eight times a supported size.
    have hpow : bl = 2 ^ Nat.log2 bl := of_decide_eq_true hp
    have hmin : 21 ≤ Nat.log2 bl := by
      refine Nat.le_of_not_lt fun hlt => ?_
      have hle : bl ≤ 2 ^ 20 := hpow ▸ Nat.pow_le_pow_right (by omega) (by omega)
      rw [show minFilterBytes * 8 = 2 ^ 21 from rfl] at hlow
      omega
    have hmax : Nat.log2 bl ≤ 24 := by
      refine Nat.le_of_not_lt fun hlt => ?_
      have hle : 2 ^ 25 ≤ bl := hpow ▸ Nat.pow_le_pow_right (by omega) hlt
      rw [show maxFilterBits = 2 ^ 24 from rfl] at hh
      omega
    have hb : bl = 2 ^ (Nat.log2 bl - 3) * 8 := by
      rw [show (8 : Nat) = 2 ^ 3 from rfl, ← Nat.pow_add, Nat.sub_add_cancel (by omega)]
      exact hpow
    have hs : FilterSize (bl / 8) := ⟨Nat.log2 bl - 3, by omega, by omega, by omega⟩
    have hmul : bl / 8 * 8 = bl := by omega
    have hlen : ((file.data.drop bloomHeaderLen).take (bl / 8)).length = bl / 8 := by
      rw [length_take, length_drop, show file.data.length = _ from hleh]
      omega
    refine ⟨rfl, (file.data.drop bloomHeaderLen).take (bl / 8), ?_, ?_, ?_, ?_⟩
    · rw [hlen, filterMask, hmul]
    · rwa [hlen]
    · rw [hlen, filterMask, hmul]
      exact hop
    · have hr : ((filterMask (bl / 8)).toNat + 1) / 8 = bl / 8 := by
        rw [hs.toNat_mask]
        omega
      rw [hlen, readFilter, readAt_eq_ok, hr]
      exact ⟨Nat.le_of_eq hleh.symm, rfl⟩
  · rintro ⟨rfl, bits, rfl, hos⟩
    exact hos.opens

/-- What the builders write opens as what they built. -/
theorem writeBloom_opensAs (mag : Bytes) (hm : mag.length = 8) (hs : FilterSize bits.length) (fileId : FixedBytes 16) :
    ∃ file, writeBloom mag fileId bits = .ok file ∧ file.fileId = some fileId ∧ OpensAs file mag bits := by
  have hbds := hs.bounds
  obtain ⟨k, hlow, hh, hk⟩ := hs
  have hleh : (mag ++ leBytes 8 (bits.length * 8) ++ leBytes 4 hashRounds ++ bits).length = bloomHeaderLen + bits.length := by
    simp only [length_append, length_leBytes, hm, bloomHeaderLen]
  have hw : writeBloom mag fileId bits =
      .ok { fileId := some fileId, data := mag ++ leBytes 8 (bits.length * 8) ++ leBytes 4 hashRounds ++ bits } := by
    rw [writeBloom, ← hleh, writeIndexFile_eq_ok]
    refine ⟨physicalLen_of_le ?_, rfl⟩
    rw [hleh, bloomHeaderLen]
    omega
  refine ⟨_, hw, rfl, ⟨k, hlow, hh, hk⟩, ?_, ?_⟩
  · have hhdr : (mag ++ leBytes 8 (bits.length * 8) ++ leBytes 4 hashRounds ++ bits).take bloomHeaderLen =
        mag ++ leBytes 8 (bits.length * 8) ++ leBytes 4 hashRounds := by
      rw [take_append_of_le_length (by simp [hm, bloomHeaderLen]), take_of_length_le (by simp [hm, bloomHeaderLen])]
    have ht : (mag ++ leBytes 8 (bits.length * 8) ++ leBytes 4 hashRounds).drop 8 =
        leBytes 8 (bits.length * 8) ++ leBytes 4 hashRounds := by
      rw [List.append_assoc, ← hm, drop_left]
    have hbiL : ofLeBytes (((mag ++ leBytes 8 (bits.length * 8) ++ leBytes 4 hashRounds).drop 8).take 8) = bits.length * 8 := by
      rw [ht, take_append_of_le_length (by simp), take_of_length_le (by simp), ofLeBytes_leBytes (by omega)]
    have hp : isPowerOfTwo (bits.length * 8) = true := by
      rw [hk, show (8 : Nat) = 2 ^ 3 from rfl, ← Nat.pow_add]
      exact isPowerOfTwo_pow _
    unfold openBloom
    rw [rejectIf_bind, bind_eq_ok]
    refine ⟨by simp [isProtected], _, readAt_eq_ok.mpr ⟨?_, rfl⟩, ?_⟩
    · rw [hleh]
      omega
    rw [drop_zero, hhdr, hbiL, rejectIf_bind]
    refine ⟨?_, rfl⟩
    · simp only [not_or, not_not, Bool.not_eq_false]
      refine ⟨?_, hp, ⟨?_, ?_⟩, ?_, ?_⟩
      · rw [List.append_assoc, take_append_of_le_length (by omega), take_of_length_le (by omega)]
      · rw [show minFilterBytes = 2 ^ 18 from rfl]
        omega
      · rw [show maxFilterBits = 2 ^ 24 from rfl]
        omega
      · exact drop_left' (by simp [hm])
      · rw [logicalLen, hleh, Nat.mul_div_cancel _ (by omega)]
  · rw [readFilter, readAt_eq_ok, FilterSize.toNat_mask ⟨k, hlow, hh, hk⟩, hleh]
    have hr : (bits.length * 8 - 1 + 1) / 8 = bits.length := by omega
    rw [hr]
    refine ⟨le_rfl, ?_⟩
    rw [drop_left' (by simp [hm, bloomHeaderLen]), take_of_length_le le_rfl]

/-- One probe reads the bit the builder addressed. -/
theorem OpensAs.readBits_eq {magic bits : Bytes} (h : OpensAs file magic bits) {add : List Nat}
    (hin : ∀ bit ∈ add, bit / 8 < bits.length) : readBits file add = .ok (add.all fun bit => testBit bits bit) := by
  obtain ⟨hbi, hle⟩ := h.data
  induction add with
  | nil => rfl
  | cons bit add ih =>
    obtain ⟨hbit, hr⟩ := forall_mem_cons.mp hin
    have hget : ((file.data.drop (bloomHeaderLen + bit / 8)).take 1).getD 0 0 = bits.getD (bit / 8) 0 := by
      rw [hbi]
      simp [hbit]
    have ht : testBit ((file.data.drop (bloomHeaderLen + bit / 8)).take 1) (bit % 8) = testBit bits bit := by
      rw [testBit, testBit, Nat.div_eq_of_lt (Nat.mod_lt _ (by omega)), Nat.mod_mod, hget]
    have hre : file.readAt (bloomHeaderLen + bit / 8) 1 = .ok ((file.data.drop (bloomHeaderLen + bit / 8)).take 1) :=
      readAt_eq_ok.mpr ⟨by omega, rfl⟩
    rw [readBits, hre, all_cons]
    change (if testBit ((file.data.drop (bloomHeaderLen + bit / 8)).take 1) (bit % 8) = false then _ else _) = _
    rw [ht]
    cases hb : testBit bits bit with
    | false => rfl
    | true => exact ih hr

theorem OpensAs.readKey_eq {magic bits : Bytes} (h : OpensAs file magic bits) (hs : UInt64 × UInt64) :
    readKey file (filterMask bits.length) hs = .ok (decide (Holds bits hs)) := by
  have hall : ((keyBits hs (filterMask bits.length)).all fun bit => testBit bits bit) = decide (Holds bits hs) := by
    rw [Bool.eq_iff_iff, all_eq_true, decide_eq_true_iff]
    exact Iff.rfl
  rw [readKey, h.readBits_eq fun _ => h.size.address_lt, hall]

/-! ## Visited keys -/

/-- Every entry in use holds the hashes of its key. -/
def KeyHashCache.Valid (world : BloomHashes) (cache : KeyHashCache) : Prop :=
  ∀ slot, (cache.entries slot).occupied = true → (cache.entries slot).hashes = hashKey world (cache.entries slot).key

theorem KeyHashCache.valid_new (world : BloomHashes) : KeyHashCache.new.Valid world := nofun

/-- Whatever a slot holds, the cache answers with the hashes of the key asked for. -/
theorem KeyHashCache.Valid.hashes {world : BloomHashes} (h : cache.Valid world) (key : EventKey) :
    (cache.hashes world key).1 = hashKey world key ∧ (cache.hashes world key).2.Valid world := by
  unfold KeyHashCache.hashes
  dsimp only
  split
  · next hhit =>
    refine ⟨?_, h⟩
    rw [h _ hhit.1, hhit.2]
  · refine ⟨rfl, fun slot hs => ?_⟩
    by_cases heq : slot = KeyHashCache.slot world key
    · subst heq
      simp
    · simp only [Function.update_of_ne heq] at hs ⊢
      exact h slot hs

section Visit

variable {σ : Type} {world : BloomHashes} (vis : Nat → UInt64 × UInt64 → EStateM String σ Unit)

/-- The keys of a loop, without the rows that have none. -/
def presentKeys (keys : List (Nat × Option EventKey)) : List (Nat × EventKey) :=
  keys.filterMap fun (row, key) => key.map (row, ·)

/-- Visiting through the cache is visiting each key with its own hashes. -/
theorem visitKeys_eq (keys : List (Nat × Option EventKey)) (h : cache.Valid world) :
    ∃ cac' : KeyHashCache, cac'.Valid world ∧ visitKeys world vis keys cache =
      ((presentKeys keys).forM fun (row, key) => vis row (hashKey world key)) >>= fun _ => pure cac' := by
  induction keys generalizing cache with
  | nil => exact ⟨cache, h, rfl⟩
  | cons e keys ih =>
    obtain ⟨row, key⟩ := e
    cases key with
    | none => exact ih h
    | some key =>
      obtain ⟨hhas, hv⟩ := h.hashes key
      obtain ⟨cac', hc', heq⟩ := ih hv
      refine ⟨cac', hc', ?_⟩
      change (vis row (cache.hashes world key).1 >>= fun _ => visitKeys world vis keys (cache.hashes world key).2) =
        (vis row (hashKey world key) >>= fun _ => (presentKeys keys).forM fun (row, key) => vis row (hashKey world key)) >>=
          fun _ => pure cac'
      rw [hhas, heq, bind_assoc]

/-- The keys of the presence loop. -/
def eventKeys (reader : SegmentReader) : List (Nat × EventKey) :=
  presentKeys ((reader.readTopic 0).zipIdx.map fun (event, row) =>
    (row, event.map fun event => eventKey event (reader.readAddress.getD row 0) 0 0))

/-- The keys of the loop over one argument column. -/
def topicKeys (reader : SegmentReader) (position : Fin 4) : List (Nat × EventKey) :=
  presentKeys (((reader.readTopic 0).zip (reader.readTopic position)).zipIdx.map fun ((event, value), row) => (row, do
    let event ← event
    let value ← value return eventKey event (reader.readAddress.getD row 0) (UInt8.ofNat position) value))

/-- Every key of a source, in the order it is visited. -/
def sourceKeys (reader : SegmentReader) : List (Nat × EventKey) :=
  eventKeys reader ++ (topicKeys reader 1 ++ (topicKeys reader 2 ++ topicKeys reader 3))

theorem visitTopic_eq (reader : SegmentReader) (p : Fin 4) (h : cache.Valid world) : ∃ cac' : KeyHashCache, cac'.Valid world ∧
      visitTopic world vis reader reader.readAddress (reader.readTopic 0) p cache =
        ((topicKeys reader p).forM fun (row, key) => vis row (hashKey world key)) >>= fun _ => pure cac' := by
  have hc : validateSourceRows reader [(topicColumn p, (reader.readTopic p).length)] = .ok () :=
    validateSourceRows_eq (by simp [readTopic])
  obtain ⟨cac', hc', heq⟩ := visitKeys_eq vis _ h
  refine ⟨cac', hc', ?_⟩
  unfold visitTopic
  dsimp only
  rw [hc]
  exact heq

theorem visitSourceKeys_eq (reader : SegmentReader) :
    visitSourceKeys world vis reader = (sourceKeys reader).forM fun (row, key) => vis row (hashKey world key) := by
  have hc : validateSourceRows reader [("address", reader.readAddress.length), ("topic0", (reader.readTopic 0).length)] =
      .ok () := validateSourceRows_eq (by simp [readTopic, readAddress])
  obtain ⟨cache0, hvalid0, heq0⟩ := visitKeys_eq vis ((reader.readTopic 0).zipIdx.map fun (ev, row) =>
    (row, ev.map fun ev => eventKey ev (reader.readAddress.getD row 0) 0 0)) (KeyHashCache.valid_new world)
  obtain ⟨cache1, hvalid1, heq1⟩ := visitTopic_eq vis reader 1 hvalid0
  obtain ⟨cache2, hvalid2, heq2⟩ := visitTopic_eq vis reader 2 hvalid1
  obtain ⟨cac, -, heq3⟩ := visitTopic_eq vis reader 3 hvalid2
  unfold visitSourceKeys
  dsimp only
  rw [sourceRows_eq, hc]
  change (visitKeys world vis _ KeyHashCache.new >>= fun cache =>
    visitTopic world vis reader reader.readAddress (reader.readTopic 0) 1 cache >>= fun cache =>
    visitTopic world vis reader reader.readAddress (reader.readTopic 0) 2 cache >>= fun cache =>
    discard (visitTopic world vis reader reader.readAddress (reader.readTopic 0) 3 cache)) = _
  rw [heq0, bind_assoc]
  simp only [pure_bind]
  rw [heq1, bind_assoc]
  simp only [pure_bind]
  rw [heq2, bind_assoc]
  simp only [pure_bind]
  have happ : ∀ (fst rest : List (Nat × EventKey)) (f : Nat × EventKey → EStateM String σ Unit),
      (fst ++ rest).forM f = fst.forM f >>= fun _ => rest.forM f := fun _ _ _ => forM_append
  have hdis : ∀ x : EStateM String σ Unit, discard (x >>= fun _ => pure cac) = x := by
    intro x
    rw [show discard (x >>= fun _ => pure cac) = (x >>= fun _ => pure cac) >>= fun _ => pure () from rfl, bind_assoc]
    exact bind_pure x
  rw [heq3, hdis, sourceKeys, happ, happ, happ]
  rfl

end Visit

/-- A key a row contributes to the event filter. -/
def EventRequires (world : BloomHashes) (row : LogRow) (hashes : UInt64 × UInt64) : Prop :=
  ∃ topic0, row.topic0 = some topic0 ∧ (hashes = keyHashes world topic0 row.address 0 0 ∨
    ∃ position ∈ [(1 : Fin 4), 2, 3], ∃ value, row.topic position = some value ∧
      hashes = keyHashes world topic0 row.address (UInt8.ofNat position) value)

theorem mem_presentKeys {keys : List (Nat × Option EventKey)} {row : Nat} :
    (row, key) ∈ presentKeys keys ↔ (row, some key) ∈ keys := by
  unfold presentKeys
  rw [mem_filterMap]
  constructor
  · rintro ⟨⟨row', key'⟩, hmem, hkey⟩
    obtain ⟨key', rfl, hp⟩ := Option.map_eq_some_iff.mp hkey
    obtain ⟨rfl, rfl⟩ := Prod.mk.inj hp
    exact hmem
  · intro hmem
    exact ⟨_, hmem, rfl⟩

theorem getD_readAddress {row : LogRow} (h : reader.rows[i]? = some row) : reader.readAddress.getD i 0 = row.address := by
  simp [readAddress, h]

theorem mem_eventKeys : (i, key) ∈ eventKeys reader ↔
      ∃ row topic0, reader.rows[i]? = some row ∧ row.topic0 = some topic0 ∧ key = eventKey topic0 row.address 0 0 := by
  rw [eventKeys, mem_presentKeys, mem_map]
  constructor
  · rintro ⟨⟨event, i'⟩, hmem, hp⟩
    obtain ⟨rfl, hkey⟩ := Prod.mk.inj hp
    obtain ⟨topic0, rfl, rfl⟩ := Option.map_eq_some_iff.mp hkey
    rw [mem_zipIdx_iff_getElem?, readTopic, getElem?_map] at hmem
    obtain ⟨row, hrow, ht⟩ := Option.map_eq_some_iff.mp hmem
    exact ⟨row, topic0, hrow, ht, by rw [getD_readAddress hrow]⟩
  · rintro ⟨row, topic0, hrow, ht, rfl⟩
    refine ⟨(some topic0, i), ?_, ?_⟩
    · rw [mem_zipIdx_iff_getElem?, readTopic, getElem?_map, hrow]
      exact congrArg some ht
    · rw [← getD_readAddress hrow]
      rfl

theorem mem_topicKeys {p : Fin 4} :
    (i, key) ∈ topicKeys reader p ↔ ∃ row topic0 value, reader.rows[i]? = some row ∧ row.topic0 = some topic0 ∧
      row.topic p = some value ∧ key = eventKey topic0 row.address (UInt8.ofNat p) value := by
  rw [topicKeys, mem_presentKeys, mem_map, readTopic, readTopic, zip_map']
  constructor
  · rintro ⟨⟨⟨event, value⟩, i'⟩, hmem, hp⟩
    obtain ⟨rfl, hkey⟩ := Prod.mk.inj hp
    obtain ⟨topic0, rfl, hv⟩ := Option.bind_eq_some_iff.mp hkey
    obtain ⟨value, rfl, hkey⟩ := Option.bind_eq_some_iff.mp hv
    rw [mem_zipIdx_iff_getElem?, getElem?_map] at hmem
    obtain ⟨row, hrow, htop⟩ := Option.map_eq_some_iff.mp hmem
    obtain ⟨ht, hv⟩ := Prod.mk.inj htop
    refine ⟨row, topic0, value, hrow, ht, hv, ?_⟩
    rw [← getD_readAddress hrow]
    exact (Option.some.inj hkey).symm
  · rintro ⟨row, topic0, value, hrow, ht, hv, rfl⟩
    refine ⟨((some topic0, some value), i), ?_, ?_⟩
    · rw [mem_zipIdx_iff_getElem?, getElem?_map, hrow, ← hv, ← ht]
      rfl
    · rw [← getD_readAddress hrow]
      rfl

/-- The visited keys are those the rows contribute. -/
theorem eventRequires_iff {world : BloomHashes} {hs : UInt64 × UInt64} :
    (∃ row ∈ reader.rows, EventRequires world row hs) ↔ ∃ e ∈ sourceKeys reader, hashKey world e.2 = hs := by
  constructor
  · rintro ⟨row, hmem, topic0, ht, hhas⟩
    obtain ⟨i, hrow⟩ := mem_iff_getElem?.mp hmem
    rcases hhas with rfl | ⟨p, hpos, value, hv, rfl⟩
    · exact ⟨(i, _), mem_append_left _ (mem_eventKeys.mpr ⟨row, topic0, hrow, ht, rfl⟩), rfl⟩
    · refine ⟨(i, _), mem_append_right _ ?_, rfl⟩
      have hkey := mem_topicKeys.mpr ⟨row, topic0, value, hrow, ht, hv, rfl⟩
      simp only [mem_cons, not_mem_nil, or_false] at hpos
      rw [mem_append, mem_append]
      rcases hpos with rfl | rfl | rfl
      · exact Or.inl hkey
      · exact Or.inr (Or.inl hkey)
      · exact Or.inr (Or.inr hkey)
  · rintro ⟨⟨i, key⟩, hmem, rfl⟩
    have htop : ∀ p ∈ [(1 : Fin 4), 2, 3], (i, key) ∈ topicKeys reader p →
        ∃ row ∈ reader.rows, EventRequires world row (hashKey world key) := by
      intro p hpos hkey
      obtain ⟨row, topic0, value, hrow, ht, hv, rfl⟩ := mem_topicKeys.mp hkey
      exact ⟨row, mem_of_getElem? hrow, topic0, ht, Or.inr ⟨p, hpos, value, hv, rfl⟩⟩
    rw [sourceKeys, mem_append, mem_append, mem_append] at hmem
    rcases hmem with hmem | hmem | hmem | hmem
    · obtain ⟨row, topic0, hrow, ht, rfl⟩ := mem_eventKeys.mp hmem
      exact ⟨row, mem_of_getElem? hrow, topic0, ht, Or.inl rfl⟩
    · exact htop 1 (by simp) hmem
    · exact htop 2 (by simp) hmem
    · exact htop 3 (by simp) hmem

/-- The event builder sets the bits of the visited keys and of nothing else. -/
theorem EventBloom.build_eq (world : BloomHashes) (fi : FixedBytes 16) (src : SegmentReader) :
    EventBloom.build world fi src = writeBloom eventMagic fi (((sourceKeys src).map fun e => hashKey world e.2).foldl insertHashes
        (List.replicate (filterBytes src.rows.length) 0)) := by
  have hrun : ∀ (keys : List (Nat × EventKey)) (bits : Bytes),
      keys.forM (fun e => (modify fun bits => insertHashes bits (hashKey world e.2) : EStateM String Bytes Unit)) bits =
        .ok () ((keys.map fun e => hashKey world e.2).foldl insertHashes bits) := by
    intro keys
    induction keys with
    | nil => intro bits; rfl
    | cons e keys ih => intro bits; exact ih _
  unfold EventBloom.build
  rw [sourceRows_eq]
  dsimp only [bind, Except.bind]
  rw [visitSourceKeys_eq]
  simp [hrun]

/-! ## Transfer filters -/

/-- A key a row contributes to a transfer filter. -/
def TransferRequires (selected : Option B256 → Option B256) (keyHashes : B256 → Address → UInt8 → B256 → UInt64 × UInt64)
    (row : LogRow) (hashes : UInt64 × UInt64) : Prop :=
  ∃ topic0, selected row.topic0 = some topic0 ∧ ∃ position ∈ [(1 : Fin 4), 2], ∃ value, row.topic position = some value ∧
    hashes = keyHashes topic0 row.address (UInt8.ofNat position) value

section Transfer

variable (selected : Option B256 → Option B256) (keyHashes : B256 → Address → UInt8 → B256 → UInt64 × UInt64)

/-- The loop keeps the size and holds every key of its rows. -/
theorem holds_insertTransferRows (rows : List LogRow) (h : FilterSize bits.length) :
    let result := insertTransferRows selected keyHashes
      (rows.map fun row => (((row.address, row.topic 0), row.topic 1), row.topic 2)) bits
    result.length = bits.length ∧ ∀ has, (∃ row ∈ rows, TransferRequires selected keyHashes row has) ∨ Holds bits has →
      Holds result has := by
  induction rows generalizing bits with
  | nil =>
    refine ⟨rfl, fun has hhas => hhas.resolve_left ?_⟩
    rintro ⟨row, hmem, -⟩
    exact not_mem_nil hmem
  | cons row rows ih =>
    -- The keys of one row, in the order they are inserted.
    let keys := (selected (row.topic 0)).toList.flatMap fun top =>
      (row.topic 1).toList.map (keyHashes top row.address 1) ++ (row.topic 2).toList.map (keyHashes top row.address 2)
    have hs : insertTransferRows selected keyHashes
          ((row :: rows).map fun row => (((row.address, row.topic 0), row.topic 1), row.topic 2)) bits =
        insertTransferRows selected keyHashes (rows.map fun row => (((row.address, row.topic 0), row.topic 1), row.topic 2))
          (keys.foldl insertHashes bits) := by
      rw [map_cons, insertTransferRows]
      cases h0 : selected (row.topic 0) with
      | none => simp [keys, h0]
      | some top =>
        cases h1 : row.topic 1 <;> cases h2 : row.topic 2 <;> simp [keys, h0, h1, h2]
    obtain ⟨hleh, hh⟩ := holds_foldl_insertHashes keys h
    obtain ⟨hlen', hh'⟩ := ih (by rwa [hleh] : FilterSize (keys.foldl insertHashes bits).length)
    rw [hs]
    refine ⟨hlen'.trans hleh, fun has hhas => hh' has ?_⟩
    rcases hhas with ⟨row', hmem, hreq⟩ | hhas
    · rcases mem_cons.mp hmem with rfl | hmem
      · refine Or.inr (hh has (Or.inl ?_))
        obtain ⟨top, ht, position, hpos, value, hv, rfl⟩ := hreq
        refine mem_flatMap.mpr ⟨top, ?_, ?_⟩
        · exact Option.mem_toList.mpr ht
        · simp only [mem_cons, not_mem_nil, or_false] at hpos
          rw [mem_append]
          rcases hpos with rfl | rfl
          · exact Or.inl (mem_map.mpr ⟨value, Option.mem_toList.mpr hv, rfl⟩)
          · exact Or.inr (mem_map.mpr ⟨value, Option.mem_toList.mpr hv, rfl⟩)
      · exact Or.inl ⟨row', hmem, hreq⟩
    · exact Or.inr (hh has (Or.inr hhas))

theorem validateTransferColumns_eq (reader : SegmentReader) : validateTransferColumns reader = .ok () :=
  validateSourceRows_eq (by simp [readTopic, readAddress])

/-- What a transfer builder writes opens as a filter that holds every key of the source. -/
theorem buildTransferBloom_opensAs (mag : Bytes) (hm : mag.length = 8) (fi : FixedBytes 16) (reader : SegmentReader) :
    ∃ file bits, buildTransferBloom selected keyHashes mag fi reader = .ok file ∧ OpensAs file mag bits ∧
      ∀ row ∈ reader.rows, ∀ has, TransferRequires selected keyHashes row has → Holds bits has := by
  have hzip : ((reader.readAddress.zip (reader.readTopic 0)).zip (reader.readTopic 1)).zip (reader.readTopic 2) =
      reader.rows.map fun row => (((row.address, row.topic 0), row.topic 1), row.topic 2) := by
    simp [readAddress, readTopic, zip_map']
  have hs : FilterSize (List.replicate (filterBytes reader.readAddress.length) (0 : UInt8)).length := by
    rw [length_replicate]
    exact filterSize_filterBytes _
  obtain ⟨hleh, hh⟩ := holds_insertTransferRows selected keyHashes reader.rows hs
  obtain ⟨file, hw, -, hop⟩ := writeBloom_opensAs mag hm (by rwa [← hleh] at hs) fi
  refine ⟨file, _, ?_, hop, fun row hmem has hreq => hh has (Or.inl ⟨row, hmem, hreq⟩)⟩
  unfold buildTransferBloom
  dsimp only
  rw [validateTransferColumns_eq, hzip]
  exact hw

end Transfer

end Logex
