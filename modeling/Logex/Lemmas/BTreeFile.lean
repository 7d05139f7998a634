import Logex.Lemmas.BTree

/-!
# B+ tree index files: the layout of a written file

Where the header, the keys, the extents and the bitmaps of a written index stand, and what reading there returns.
-/

namespace Logex

open Lib List
open IndexEntries (decodeAll nextEntry)

/-- The bytes some bitmaps occupy. -/
def payloadLen (entries : List (Bytes × RoaringBitmap)) : Nat := (entries.map fun entry => entry.2.serializedSize).sum

variable (es : List (Bytes × RoaringBitmap))

theorem length_payloads : (es.flatMap fun entry => entry.2.serializeInto).length = payloadLen es := by
  rw [length_flatMap, payloadLen]
  rfl

@[simp] theorem payloadLen_nil : payloadLen [] = 0 := rfl

@[simp] theorem payloadLen_cons (entry : Bytes × RoaringBitmap) (es : List (Bytes × RoaringBitmap)) :
    payloadLen (entry :: es) = entry.2.serializedSize + payloadLen es := sum_cons

@[simp] theorem payloadLen_append (fst rest : List (Bytes × RoaringBitmap)) :
    payloadLen (fst ++ rest) = payloadLen fst + payloadLen rest := by
  rw [payloadLen, map_append, sum_append]
  rfl

theorem payloadLen_ge : 8 * es.length ≤ payloadLen es := by
  induction es with
  | nil => exact le_refl 0
  | cons entry es ih =>
    have hs := entry.2.serializedSize_bounds.1
    rw [payloadLen_cons, length_cons]
    omega

theorem tableBytes_append (a : Nat) (fst rest : List (Bytes × RoaringBitmap)) :
    tableBytes a (fst ++ rest) = tableBytes a fst ++ tableBytes (a + payloadLen fst) rest := by
  induction fst generalizing a with
  | nil => rfl
  | cons entry fst ih =>
    rw [cons_append, tableBytes, tableBytes, ih, payloadLen_cons, Nat.add_assoc]
    simp only [List.append_assoc]

theorem length_tableBytes {ks : Nat} {es : List (Bytes × RoaringBitmap)} (h : ∀ entry ∈ es, entry.1.length = ks)
    (a : Nat) : (tableBytes a es).length = (ks + 12) * es.length := by
  induction es generalizing a with
  | nil => rfl
  | cons entry es ih =>
    obtain ⟨hen, hr⟩ := forall_mem_cons.mp h
    simp only [tableBytes, length_append, length_leBytes, hen, ih hr, length_cons, Nat.mul_succ]
    omega

theorem tableEnd_eq_ok {ks n stop : Nat} : tableEnd ks n = .ok stop ↔
    stop = (ks + 12) * n + 20 ∧ ks + 12 ≤ u64Max ∧ (ks + 12) * n + 20 ≤ u64Max := by
  unfold tableEnd
  simp only [okOr_eq_ok, Option.bind_eq_bind, Option.bind_eq_some_iff, checkedAdd_eq_some, indexEntryTrailerLen, indexHeaderLen]
  constructor
  · rintro ⟨size, ⟨rfl, hsi⟩, length, hleh, rfl, hs⟩
    unfold checkedMul at hleh
    split at hleh
    · cases hleh
      exact ⟨rfl, hsi, hs⟩
    · cases hleh
  · rintro ⟨rfl, hsi, hs⟩
    exact ⟨_, ⟨rfl, hsi⟩, _, if_pos (le_trans (Nat.le_add_right _ _) hs), rfl, hs⟩

/-- The end of the key table. -/
def BTreeIndex.tableStop (index : BTreeIndex) : Nat := (index.keySize + 12) * index.entries.length + 20

def BTreeIndex.header (index : BTreeIndex) : IndexHeader := { version := 2, keySize := index.keySize, entryCount := index.entries.length }

/-- The first twenty bytes. -/
def BTreeIndex.headerBytes (index : BTreeIndex) : Bytes :=
  indexMagic ++ leBytes 4 2 ++ leBytes 4 index.keySize ++ leBytes 8 index.entries.length

/-- A file that holds an index. -/
structure Written (index : BTreeIndex) (file : IndexFile) : Prop where
  isProtected : file.isProtected = true
  pos : 0 < index.keySize
  width : index.keySize ≤ u32Max
  widths : ∀ entry ∈ index.entries, entry.1.length = index.keySize
  data : file.data = index.bytes index.tableStop
  short : file.data.length ≤ u64Max

theorem writeToFile_written {index : BTreeIndex} {fi : FixedBytes 16} {file : IndexFile} (h : index.writeToFile fi = .ok file) :
    Written index file := by
  unfold BTreeIndex.writeToFile at h
  simp only [rejectIf_bind] at h
  obtain ⟨hwi, hwid, -, h⟩ := h
  obtain ⟨stop, hs, h⟩ := bind_eq_ok.mp h
  obtain ⟨length, -, hw⟩ := bind_eq_ok.mp h
  obtain ⟨rfl, -, -⟩ := tableEnd_eq_ok.mp hs
  unfold writeIndexFile at hw
  obtain ⟨physical, hphy, hw⟩ := bind_eq_ok.mp hw
  simp only [rejectIf_bind, not_not] at hw
  obtain ⟨-, hleh, hfi⟩ := hw
  cases hfi
  rw [not_or] at hwid
  refine ⟨rfl, Nat.pos_of_ne_zero hwid.1, not_lt.mp hwi, ?_, rfl, ?_⟩
  · intro entry hen
    by_contra hne
    exact hwid.2 (any_eq_true.mpr ⟨entry, hen, by simpa using hne⟩)
  · -- The physical length, which fits, exceeds the logical one.
    have hf := okOr_eq_ok.mp hphy
    simp only [Option.bind_eq_bind, Option.bind_eq_some_iff, checkedAdd_eq_some] at hf
    obtain ⟨_, -, _, ⟨rfl, hb⟩, -⟩ := hf
    change (index.bytes _).length ≤ u64Max
    rw [hleh]
    omega

/-- A written file has the identity that was drawn for it. -/
theorem writeToFile_fileId {index : BTreeIndex} {fi : FixedBytes 16} {file : IndexFile} (h : index.writeToFile fi = .ok file) :
    file.fileId = some fi := by
  unfold BTreeIndex.writeToFile at h
  simp only [rejectIf_bind] at h
  obtain ⟨-, -, -, h⟩ := h
  obtain ⟨stop, -, h⟩ := bind_eq_ok.mp h
  obtain ⟨length, -, h⟩ := bind_eq_ok.mp h
  unfold writeIndexFile at h
  obtain ⟨physical, -, h⟩ := bind_eq_ok.mp h
  simp only [rejectIf_bind] at h
  obtain ⟨-, -, h⟩ := h
  rw [← Except.ok.inj h]

section Layout

variable {index : BTreeIndex} {file : IndexFile} {pre post : List (Bytes × RoaringBitmap)} {entry : Bytes × RoaringBitmap}

/-- Reading the middle of three parts. -/
theorem IndexFile.readAt_middle {bef mid after : Bytes} {off len : Nat} (hd : file.data = bef ++ (mid ++ after))
    (hoff : bef.length = off) (hleh : mid.length = len) : file.readAt off len = .ok mid := by
  subst hoff hleh
  rw [IndexFile.readAt_eq_ok, hd, drop_left, take_left]
  exact ⟨by simp only [length_append]; omega, rfl⟩

theorem BTreeIndex.length_headerBytes (index : BTreeIndex) : index.headerBytes.length = 20 := by
  simp [BTreeIndex.headerBytes, indexMagic]

namespace Written

section

variable (h : Written index file)

include h

theorem data_eq : file.data = index.headerBytes ++ (tableBytes index.tableStop index.entries ++
    index.entries.flatMap fun entry => entry.2.serializeInto) := by
  rw [h.data, BTreeIndex.bytes, BTreeIndex.headerBytes]
  simp only [List.append_assoc]

theorem length_data : file.data.length = index.tableStop + payloadLen index.entries := by
  rw [h.data_eq, length_append, length_append, index.length_headerBytes, length_tableBytes h.widths, length_payloads,
    BTreeIndex.tableStop]
  omega

section

variable (hen : index.entries = pre ++ entry :: post)

include hen

/-- The entry after a prefix of the entries: its key and its extent in the table. -/
theorem data_entry :
    file.data = (index.headerBytes ++ tableBytes index.tableStop pre) ++ (entry.1 ++ (leBytes 8 (index.tableStop + payloadLen pre) ++
      (leBytes 4 entry.2.serializedSize ++ (tableBytes (index.tableStop + payloadLen pre + entry.2.serializedSize) post ++
        index.entries.flatMap fun entry => entry.2.serializeInto)))) := by
  rw [h.data_eq]
  conv_lhs => rw [hen, tableBytes_append, tableBytes, ← hen]
  simp only [List.append_assoc]

/-- The bitmap of the entry after a prefix of the entries. -/
theorem data_payload :
    file.data = (index.headerBytes ++ tableBytes index.tableStop index.entries ++ pre.flatMap fun entry => entry.2.serializeInto) ++
      (entry.2.serializeInto ++ post.flatMap fun entry => entry.2.serializeInto) := by
  have hpay : (index.entries.flatMap fun entry => entry.2.serializeInto) = (pre.flatMap fun entry => entry.2.serializeInto) ++
      (entry.2.serializeInto ++ post.flatMap fun entry => entry.2.serializeInto) := by
    rw [hen, flatMap_append, flatMap_cons]
  rw [h.data_eq, hpay]
  simp only [List.append_assoc]

omit hen in
theorem length_table (hen : index.entries = pre ++ post) :
    (index.headerBytes ++ tableBytes index.tableStop pre).length = (index.keySize + 12) * pre.length + 20 := by
  rw [length_append, index.length_headerBytes, length_tableBytes fun entry hey => h.widths entry (by
    rw [hen]
    exact mem_append_left _ hey)]
  omega

omit hen in
theorem length_before_payload :
    (index.headerBytes ++ tableBytes index.tableStop index.entries ++ pre.flatMap fun entry => entry.2.serializeInto).length =
      index.tableStop + payloadLen pre := by
  rw [length_append, length_append, index.length_headerBytes, length_tableBytes h.widths, length_payloads, BTreeIndex.tableStop]
  omega

/-- Offsets of the table and of the payloads stay inside the file. -/
theorem offsets : (index.keySize + 12) * pre.length + 20 + (index.keySize + 12) ≤ index.tableStop ∧
      index.tableStop + payloadLen pre + entry.2.serializedSize ≤ file.data.length := by
  have hmul : (index.keySize + 12) * index.entries.length = (index.keySize + 12) * pre.length + (index.keySize + 12) * (post.length + 1) := by
    rw [hen, length_append, length_cons, Nat.mul_add]
  have hone : index.keySize + 12 ≤ (index.keySize + 12) * (post.length + 1) := Nat.le_mul_of_pos_right _ (Nat.succ_pos _)
  have hsum : payloadLen index.entries = payloadLen pre + (entry.2.serializedSize + payloadLen post) := by
    rw [hen, payloadLen_append, payloadLen_cons]
  rw [h.length_data, BTreeIndex.tableStop]
  omega

omit hen in
theorem tableEnd_eq {n : Nat} (hc : n ≤ index.entries.length) :
    tableEnd index.keySize n = .ok ((index.keySize + 12) * n + 20) := by
  have hs := h.short
  have hmul : (index.keySize + 12) * n ≤ (index.keySize + 12) * index.entries.length := Nat.mul_le_mul_left _ hc
  have hw := h.width
  rw [h.length_data, BTreeIndex.tableStop] at hs
  unfold u32Max at hw
  refine tableEnd_eq_ok.mpr ⟨rfl, ?_, ?_⟩
  · unfold u64Max
    omega
  · omega

theorem readEntryKey_eq : readEntryKey file index.header pre.length = .ok entry.1 := by
  have hkey : entry.1.length = index.keySize := h.widths entry (by simp [hen])
  unfold readEntryKey entryOffset
  refine bind_eq_ok.mpr ⟨_, h.tableEnd_eq (by simp [hen]), ?_⟩
  exact IndexFile.readAt_middle (h.data_entry hen) (h.length_table hen) hkey

theorem readDescriptor_eq : readDescriptor file index.header pre.length index.tableStop =
      .ok (index.tableStop + payloadLen pre, entry.2.serializedSize) := by
  have hkey : entry.1.length = index.keySize := h.widths entry (by simp [hen])
  obtain ⟨ht, hpay⟩ := h.offsets hen
  obtain ⟨hmin, hmax⟩ := entry.2.serializedSize_bounds
  have hs := h.short
  have hlog : file.logicalLen = file.data.length := rfl
  have hd := h.data_entry hen
  rw [← List.append_assoc] at hd
  have hd' : file.data = (index.headerBytes ++ tableBytes index.tableStop pre ++ entry.1) ++
      ((leBytes 8 (index.tableStop + payloadLen pre) ++ leBytes 4 entry.2.serializedSize) ++
        (tableBytes (index.tableStop + payloadLen pre + entry.2.serializedSize) post ++
          index.entries.flatMap fun entry => entry.2.serializeInto)) := by
    rw [hd]
    simp only [List.append_assoc]
  have hr : file.readAt ((index.keySize + 12) * pre.length + 20 + index.keySize) 12 =
      .ok (leBytes 8 (index.tableStop + payloadLen pre) ++ leBytes 4 entry.2.serializedSize) := by
    refine IndexFile.readAt_middle hd' ?_ (by simp)
    rw [length_append, h.length_table hen, hkey]
  have hoff : ofLeBytes (leBytes 8 (index.tableStop + payloadLen pre)) = index.tableStop + payloadLen pre := by
    refine ofLeBytes_leBytes ?_
    unfold u64Max at hs
    omega
  have hleh : ofLeBytes (leBytes 4 entry.2.serializedSize) = entry.2.serializedSize := ofLeBytes_leBytes hmax
  unfold readDescriptor entryOffset
  refine bind_eq_ok.mpr ⟨_, h.tableEnd_eq (by simp [hen]), bind_eq_ok.mpr ⟨_, okOr_eq_ok.mpr
    (checkedAdd_eq_some.mpr ⟨rfl, by simp only [BTreeIndex.header]; omega⟩), bind_eq_ok.mpr ⟨_, hr, ?_⟩⟩⟩
  rw [take_left' (length_leBytes 8 _), drop_left' (length_leBytes 8 _), hoff, hleh]
  refine bind_eq_ok.mpr ⟨_, okOr_eq_ok.mpr (checkedAdd_eq_some.mpr ⟨rfl, by omega⟩), rejectIf_bind.mpr ⟨by omega, rfl⟩⟩

theorem readPayload_eq : file.readAt (index.tableStop + payloadLen pre) entry.2.serializedSize = .ok entry.2.serializeInto :=
  IndexFile.readAt_middle (h.data_payload hen) h.length_before_payload rfl

/-! ### Header -/

omit hen in
theorem parse_eq {data : Bytes} (hd : ∃ rest, data = index.headerBytes ++ rest) : IndexHeader.parse data = .ok index.header := by
  obtain ⟨rest, rfl⟩ := hd
  have hleh := index.length_headerBytes
  have hpos := h.pos
  have hw := h.width
  have hc : index.entries.length < 256 ^ 8 := by
    have hsh := h.short
    have hmin := payloadLen_ge index.entries
    rw [h.length_data] at hsh
    unfold u64Max at hsh
    omega
  have hkeS : ofLeBytes (leBytes 4 index.keySize) = index.keySize := by
    refine ofLeBytes_leBytes ?_
    unfold u32Max at hw
    omega
  have hs : index.headerBytes ++ rest =
      indexMagic ++ (leBytes 4 2 ++ (leBytes 4 index.keySize ++ (leBytes 8 index.entries.length ++ rest))) := by
    simp only [BTreeIndex.headerBytes, List.append_assoc]
  have hm : (index.headerBytes ++ rest).take 4 = indexMagic := by
    rw [hs]
    exact take_left' rfl
  have hver : ((index.headerBytes ++ rest).drop 4).take 4 = leBytes 4 2 := by
    rw [hs, drop_left' (show indexMagic.length = 4 from rfl)]
    exact take_left' (length_leBytes 4 _)
  have hkey : ((index.headerBytes ++ rest).drop 8).take 4 = leBytes 4 index.keySize := by
    rw [hs, ← List.append_assoc, drop_left' (by simp [indexMagic])]
    exact take_left' (length_leBytes 4 _)
  have hen : ((index.headerBytes ++ rest).drop 12).take 8 = leBytes 8 index.entries.length := by
    rw [hs, ← List.append_assoc, ← List.append_assoc, drop_left' (by simp [indexMagic])]
    exact take_left' (length_leBytes 8 _)
  unfold IndexHeader.parse
  rw [hm, hver, hkey, hen, hkeS, ofLeBytes_leBytes (by omega), ofLeBytes_leBytes hc]
  refine rejectIf_bind.mpr ⟨?_, rejectIf_bind.mpr ⟨by omega, rejectIf_bind.mpr ⟨by omega, rfl⟩⟩⟩
  rw [length_append, hleh, indexHeaderLen]
  simp

omit hen in
theorem validateGeometry_eq : index.header.validateGeometry file.data.length = .ok () := by
  have hs := h.short
  have hw := h.width
  have hmin := payloadLen_ge index.entries
  have hleh := h.length_data
  have hmul : index.entries.length * (index.keySize + 20) = (index.keySize + 12) * index.entries.length + 8 * index.entries.length := by
    rw [← Nat.add_mul, Nat.mul_comm]
  unfold BTreeIndex.tableStop at hleh
  unfold u32Max at hw
  unfold IndexHeader.validateGeometry
  refine bind_eq_ok.mpr ⟨index.keySize + 20, okOr_eq_ok.mpr (checkedAdd_eq_some.mpr ⟨rfl, ?_⟩), bind_eq_ok.mpr
    ⟨index.entries.length * (index.keySize + 20) + 20, okOr_eq_ok.mpr ?_, rejectIf_eq_ok.mpr ?_⟩⟩
  · change index.keySize + 20 ≤ u64Max
    unfold u64Max
    omega
  · refine Option.bind_eq_some_iff.mpr ⟨_, if_pos ?_, checkedAdd_eq_some.mpr ⟨rfl, ?_⟩⟩
    · change index.entries.length * (index.keySize + 20) ≤ u64Max
      omega
    · change index.entries.length * (index.keySize + 20) + indexHeaderLen ≤ u64Max
      unfold indexHeaderLen
      omega
  · rintro (hlt | ⟨hz, hne⟩)
    · omega
    · have hnil : index.entries = [] := eq_nil_of_length_eq_zero hz
      rw [hnil, payloadLen_nil, length_nil] at hleh
      exact hne hleh

omit hen in
theorem readHeader_eq : readHeader file = .ok index.header := by
  have hh : file.readAt 0 indexHeaderLen = .ok index.headerBytes :=
    IndexFile.readAt_middle (((nil_append _).trans h.data_eq.symm).symm) rfl index.length_headerBytes
  unfold readHeader
  exact bind_eq_ok.mpr ⟨_, hh, bind_eq_ok.mpr ⟨_, h.parse_eq ⟨[], (append_nil _).symm⟩,
    bind_eq_ok.mpr ⟨_, h.validateGeometry_eq, rfl⟩⟩⟩

/-! ### Complete reads -/

omit hen in
theorem new_eq : IndexEntries.new file.data =
    .ok (index.header, { position := 20, payloadPosition := index.tableStop, previousKey := none }) := by
  unfold IndexEntries.new
  exact bind_eq_ok.mpr ⟨_, h.parse_eq ⟨_, h.data_eq⟩, bind_eq_ok.mpr ⟨_, h.validateGeometry_eq,
    bind_eq_ok.mpr ⟨_, h.tableEnd_eq le_rfl, rfl⟩⟩⟩

theorem nextEntry_eq : nextEntry file.data index.header
      { position := (index.keySize + 12) * pre.length + 20, payloadPosition := index.tableStop + payloadLen pre,
        previousKey := pre.getLast?.map Prod.fst } =
      .ok ((entry.1, entry.2.serializeInto),
        { position := (index.keySize + 12) * (pre ++ [entry]).length + 20, payloadPosition := index.tableStop + payloadLen (pre ++ [entry]),
          previousKey := (pre ++ [entry]).getLast?.map Prod.fst }) := by
  have hkey : entry.1.length = index.keySize := h.widths entry (by simp [hen])
  obtain ⟨ht, hpay⟩ := h.offsets hen
  obtain ⟨hmin, hmax⟩ := entry.2.serializedSize_bounds
  have hsh := h.short
  have hoff : ofLeBytes (leBytes 8 (index.tableStop + payloadLen pre)) = index.tableStop + payloadLen pre := by
    refine ofLeBytes_leBytes ?_
    unfold u64Max at hsh
    omega
  have hleh : ofLeBytes (leBytes 4 entry.2.serializedSize) = entry.2.serializedSize := ofLeBytes_leBytes hmax
  have hp : ¬((pre.getLast?.map Prod.fst).any fun prev => decide (entry.1 ≤ prev)) = true := by
    rw [Option.any_eq_true]
    rintro ⟨prev, hp, hle⟩
    obtain ⟨last, hl, rfl⟩ := Option.map_eq_some_iff.mp hp
    have hsrt := index.sorted
    rw [hen, map_append, pairwise_append] at hsrt
    have hlt := hsrt.2.2 last.1 (mem_map.mpr ⟨last, mem_of_getLast? hl, rfl⟩) entry.1 (by simp)
    exact absurd (of_decide_eq_true hle) (not_le.mpr hlt)
  have hd := h.data_entry hen
  have hdata1 := hd
  rw [← List.append_assoc] at hdata1
  have hdata2 := hdata1
  rw [← List.append_assoc] at hdata2
  have hs := h.length_table hen
  unfold nextEntry
  refine bind_eq_ok.mpr ⟨_, takeBytes_eq hd hs hkey, rejectIf_bind.mpr ⟨hp, ?_⟩⟩
  rw [if_pos (show index.header.version = 2 from rfl)]
  refine bind_eq_ok.mpr ⟨_, takeBytes_eq hdata1 (by rw [length_append, hs, hkey]; rfl) (length_leBytes 8 _), ?_⟩
  refine rejectIf_bind.mpr ⟨fun hne => hne hoff, ?_⟩
  refine bind_eq_ok.mpr ⟨_, takeBytes_eq hdata2 (by simp only [length_append, hkey, length_leBytes] at hs ⊢; rw [hs]; rfl)
    (length_leBytes 4 _), ?_⟩
  dsimp only
  rw [hleh]
  refine bind_eq_ok.mpr ⟨_, takeBytes_eq (h.data_payload hen) h.length_before_payload rfl, ?_⟩
  rw [length_append, length_singleton, Nat.mul_succ, payloadLen_append, payloadLen_cons, payloadLen_nil, getLast?_concat]
  have hpos : (index.keySize + 12) * pre.length + 20 + index.header.keySize + 8 + 4 =
      (index.keySize + 12) * pre.length + (index.keySize + 12) + 20 := by
    simp only [BTreeIndex.header]
    omega
  rw [hpos, Nat.add_zero, ← Nat.add_assoc index.tableStop]
  rfl

end

variable {dec : Bytes → Except String RoaringBitmap}

/-- Reading the entries one after another gives the entries. -/
theorem decodeAll_eq (hdec : ∀ bm : RoaringBitmap, dec bm.serializeInto = .ok bm) {rest : List (Bytes × RoaringBitmap)}
    (hen : index.entries = pre ++ rest) : decodeAll dec file.data index.header rest.length
      { position := (index.keySize + 12) * pre.length + 20, payloadPosition := index.tableStop + payloadLen pre,
        previousKey := pre.getLast?.map Prod.fst } = .ok rest := by
  induction rest generalizing pre with
  | nil =>
    rw [append_nil] at hen
    rw [length_nil, decodeAll]
    refine rejectIf_bind.mpr ⟨?_, rfl⟩
    rw [if_pos (show index.header.version = 2 from rfl), h.length_data, hen]
    exact fun hne => hne rfl
  | cons entry rest ih =>
    rw [length_cons, decodeAll]
    refine bind_eq_ok.mpr ⟨_, h.nextEntry_eq hen, bind_eq_ok.mpr ⟨_, hdec entry.2, bind_eq_ok.mpr ⟨rest, ?_, rfl⟩⟩⟩
    exact ih (by rw [hen, List.append_assoc, singleton_append])

theorem decodeEntries_eq (hdec : ∀ bm : RoaringBitmap, dec bm.serializeInto = .ok bm) :
    decodeAll dec file.data index.header index.header.entryCount
      { position := 20, payloadPosition := index.tableStop, previousKey := none } = .ok index.entries :=
  h.decodeAll_eq hdec (nil_append _).symm

theorem openData_eq (c : RoaringCodec) :
    BTreeIndexReader.openData c file.data = .ok { keySize := index.keySize, entries := index.entries } := by
  unfold BTreeIndexReader.openData
  exact bind_eq_ok.mpr ⟨_, h.new_eq, bind_eq_ok.mpr ⟨_, h.decodeEntries_eq (decodeBitmap_serializeInto c), rfl⟩⟩

end

/-! ### Searches -/

/-- An entry with the entries before and after it. -/
theorem exists_split {es : List (Bytes × RoaringBitmap)} {i : Nat} {entry : Bytes × RoaringBitmap} (h : es[i]? = some entry) :
    ∃ pre post, es = pre ++ entry :: post ∧ pre.length = i := by
  obtain ⟨hi, rfl⟩ := List.getElem?_eq_some_iff.mp h
  exact ⟨es.take i, es.drop (i + 1), by rw [← List.drop_eq_getElem_cons hi, List.take_append_drop],
    List.length_take_of_le (le_of_lt hi)⟩

/-- Where the bitmap of an entry begins. -/
def payloadOffset (index : BTreeIndex) (i : Nat) : Nat := index.tableStop + payloadLen (index.entries.take i)

section At

variable {i : Nat} (h : Written index file) (hi : index.entries[i]? = some entry)

include h hi

theorem readEntryKey_at : readEntryKey file index.header i = .ok entry.1 := by
  obtain ⟨pre, post, hen, rfl⟩ := exists_split hi
  exact h.readEntryKey_eq hen

theorem readDescriptor_at :
    readDescriptor file index.header i index.tableStop = .ok (payloadOffset index i, entry.2.serializedSize) := by
  obtain ⟨pre, post, hen, rfl⟩ := exists_split hi
  rw [payloadOffset, hen, take_left, h.readDescriptor_eq hen]

theorem readPayload_at : file.readAt (payloadOffset index i) entry.2.serializedSize = .ok entry.2.serializeInto := by
  obtain ⟨pre, post, hen, rfl⟩ := exists_split hi
  rw [payloadOffset, hen, take_left, h.readPayload_eq hen]

omit h in
/-- The bitmap of the next entry follows. -/
theorem payloadOffset_succ : payloadOffset index i + entry.2.serializedSize = payloadOffset index (i + 1) := by
  rw [payloadOffset, payloadOffset, take_add_one, hi, Option.toList_some, payloadLen_append, payloadLen_cons, payloadLen_nil]
  omega

end At

section

variable (h : Written index file)

include h

theorem payloadOffset_length : payloadOffset index index.entries.length = file.logicalLen := by
  rw [payloadOffset, take_length, IndexFile.logicalLen, h.length_data]

/-- The first bitmap follows the table and the last one ends the file. -/
theorem descriptors_eq (hpos : 0 < index.entries.length) : ∃ fst last : Nat × Nat,
    readDescriptor file index.header 0 index.tableStop = .ok fst ∧
    readDescriptor file index.header (index.entries.length - 1) index.tableStop = .ok last ∧
    ¬(fst.1 ≠ index.tableStop ∨ last.1 + last.2 ≠ file.logicalLen) ∧ (index.entries.length = 1 → last = fst) := by
  obtain ⟨entry, hen⟩ : ∃ entry, index.entries[0]? = some entry := ⟨_, getElem?_eq_getElem hpos⟩
  obtain ⟨entry', he'⟩ : ∃ entry, index.entries[index.entries.length - 1]? = some entry :=
    ⟨_, getElem?_eq_getElem (by omega)⟩
  refine ⟨_, _, h.readDescriptor_at hen, h.readDescriptor_at he', ?_, ?_⟩
  · simp only [not_or, not_not]
    refine ⟨rfl, ?_⟩
    rw [payloadOffset_succ he', Nat.sub_add_cancel hpos, h.payloadOffset_length]
  · intro hone
    rw [hone] at he' ⊢
    rw [Nat.sub_self, hen] at he'
    cases he'
    rfl

theorem validateExtent_eq (hpos : 0 < index.entries.length) : validateExtent file index.header index.tableStop = .ok () := by
  obtain ⟨fst, last, hf, hl, hext, hone⟩ := h.descriptors_eq hpos
  unfold validateExtent
  refine bind_eq_ok.mpr ⟨fst, hf, bind_eq_ok.mpr ⟨last, ?_, rejectIf_eq_ok.mpr hext⟩⟩
  change (if index.entries.length = 1 then Except.ok fst else readDescriptor file index.header (index.entries.length - 1) _) = _
  split
  · next heq => rw [hone heq]
  · exact hl

/-- The point search finds the extent of the entry with the key, if there is one. -/
theorem findPointPayload_eq (key : Bytes) : (∃ i bitmap, index.entries[i]? = some (key, bitmap) ∧
      findPointPayload file index.header key = .ok (some (payloadOffset index i, bitmap.serializedSize))) ∨
    (∀ bitmap, (key, bitmap) ∉ index.entries) ∧ findPointPayload file index.header key = .ok none := by
  unfold findPointPayload
  by_cases hz : index.entries.length = 0
  · rw [if_pos (show index.header.entryCount = 0 from hz)]
    refine Or.inr ⟨fun bitmap hmem => ?_, rfl⟩
    rw [List.eq_nil_of_length_eq_zero hz] at hmem
    exact List.not_mem_nil hmem
  · rw [if_neg (show ¬index.header.entryCount = 0 from hz)]
    have hp : ∀ i < index.entries.length, (do
        let currentKey ← readEntryKey file index.header i return compareOfLessAndEq currentKey key : Except String Ordering) =
          .ok (compareOfLessAndEq ((index.entries.map Prod.fst).getD i []) key) := by
      intro i hi
      have hen : index.entries[i]? = some index.entries[i] := List.getElem?_eq_getElem hi
      refine bind_eq_ok.mpr ⟨_, h.readEntryKey_at hen, ?_⟩
      rw [List.getD_eq_getElem?_getD, List.getElem?_map, hen]
      rfl
    have hget : ∀ {i}, i < index.entries.length → ∃ bitmap, index.entries[i]? = some ((index.entries.map Prod.fst).getD i [], bitmap) := by
      intro i hi
      have hen : index.entries[i]? = some index.entries[i] := List.getElem?_eq_getElem hi
      refine ⟨index.entries[i].2, ?_⟩
      rw [List.getD_eq_getElem?_getD, List.getElem?_map, hen]
      rfl
    have hsrt : ∀ i j, i < j → j < index.entries.length →
        compareOfLessAndEq ((index.entries.map Prod.fst).getD j []) key ≠ .gt →
        compareOfLessAndEq ((index.entries.map Prod.fst).getD i []) key = .lt := by
      intro i j hij hj hle
      have hk : (index.entries.map Prod.fst).getD i [] < (index.entries.map Prod.fst).getD j [] := by
        have hpa := List.pairwise_iff_getElem.mp index.sorted i j (by rw [List.length_map]; omega) (by rwa [List.length_map]) hij
        simpa [List.getD_eq_getElem?_getD, List.getElem?_eq_getElem, hj, lt_trans hij hj] using hpa
      have hle' : (index.entries.map Prod.fst).getD j [] ≤ key := by
        by_contra hgt
        refine hle ?_
        unfold compareOfLessAndEq
        rw [if_neg fun hlt => hgt (le_of_lt hlt), if_neg fun heq => hgt (le_of_eq heq)]
      unfold compareOfLessAndEq
      rw [if_pos (lt_of_lt_of_le hk hle')]
    have hf := search_eq hp hsrt
    have ht := h.tableEnd_eq le_rfl
    have hext := h.validateExtent_eq (Nat.pos_of_ne_zero hz)
    rcases hf with ⟨i, hi, heq, hsea⟩ | ⟨hne, hsea⟩
    · obtain ⟨bitmap, hen⟩ := hget hi
      have hkey : (index.entries.map Prod.fst).getD i [] = key := by
        unfold compareOfLessAndEq at heq
        split at heq
        · nomatch heq
        · split at heq
          · next hkey => exact hkey
          · nomatch heq
      rw [hkey] at hen
      refine Or.inl ⟨i, bitmap, hen, ?_⟩
      refine bind_eq_ok.mpr ⟨_, ht, bind_eq_ok.mpr ⟨_, hext, bind_eq_ok.mpr ⟨_, hsea, ?_⟩⟩⟩
      exact bind_eq_ok.mpr ⟨_, h.readDescriptor_at hen, rfl⟩
    · refine Or.inr ⟨fun bitmap hmem => ?_, ?_⟩
      · obtain ⟨i, hen⟩ := List.mem_iff_getElem?.mp hmem
        have hi := (List.getElem?_eq_some_iff.mp hen).1
        refine hne i hi ?_
        rw [List.getD_eq_getElem?_getD, List.getElem?_map, hen, Option.map_some, Option.getD_some]
        unfold compareOfLessAndEq
        rw [if_neg (lt_irrefl _), if_pos rfl]
      · exact bind_eq_ok.mpr ⟨_, ht, bind_eq_ok.mpr ⟨_, hext, bind_eq_ok.mpr ⟨_, hsea, rfl⟩⟩⟩

end

/-! ### Ranges -/

open BTreeIndexReader

variable (h : Written index file)

include h

theorem findKeyBoundary_eq (bou : Bytes) (ae : Bool) :
    findKeyBoundary file index.header bou ae = .ok (partitionPoint index.entries (beforeBound bou ae)) := by
  have hb := below_beforeBound bou ae
  have hen : ∀ {i}, i < index.entries.length → index.entries[i]? = some (index.entries.getD i ([], .new)) := by
    intro i hi
    rw [getD_eq_getElem?_getD, getElem?_eq_getElem hi]
    rfl
  refine boundary_eq (m := partitionPoint index.entries (beforeBound bou ae))
    (fun i hi => bind_eq_ok.mpr ⟨_, h.readEntryKey_at (hen hi), rfl⟩) (partitionPoint_le _) (fun i hi => ?_) (fun i hge hi => ?_)
  · have hlt := lt_of_lt_of_le hi (partitionPoint_le _)
    rw [partitionPoint_spec index.sorted hb (hen hlt), decide_eq_true hi]
  · rw [partitionPoint_spec index.sorted hb (hen hi), decide_eq_false (not_lt.mpr hge)]

theorem validateRangeBoundary_eq (bou : Bytes) (ae : Bool) :
    validateRangeBoundary file index.header (partitionPoint index.entries (beforeBound bou ae)) index.tableStop bou
      ae = .ok () := by
  have hb := below_beforeBound bou ae
  have hle := @partitionPoint_le index.entries (beforeBound bou ae)
  have hs := fun i entry => @partitionPoint_spec index.entries (beforeBound bou ae) entry index.sorted hb i
  generalize partitionPoint index.entries (beforeBound bou ae) = p at *
  have hpre : ∃ stop, rangePredecessorEnd file index.header p index.tableStop bou ae = .ok stop ∧
      ∀ end', stop = some end' → end' = payloadOffset index p := by
    unfold rangePredecessorEnd
    by_cases hpos : 0 < p
    · obtain ⟨entry, hen⟩ : ∃ entry, index.entries[p - 1]? = some entry := ⟨_, getElem?_eq_getElem (by omega)⟩
      have ht : beforeBound bou ae entry.1 = true := by rw [hs _ _ hen, decide_eq_true (by omega)]
      rw [if_pos hpos]
      refine ⟨_, bind_eq_ok.mpr ⟨_, h.readEntryKey_at hen, rejectIf_bind.mpr ⟨by simp [ht],
        bind_eq_ok.mpr ⟨_, h.readDescriptor_at hen, rfl⟩⟩⟩, ?_⟩
      rintro _ ⟨⟩
      rw [payloadOffset_succ hen, Nat.sub_add_cancel hpos]
    · rw [if_neg hpos]
      exact ⟨none, rfl, nofun⟩
  obtain ⟨stop, hst, hoff⟩ := hpre
  unfold validateRangeBoundary
  refine bind_eq_ok.mpr ⟨stop, hst, ?_⟩
  by_cases hlt : p < index.entries.length
  · obtain ⟨entry, hen⟩ : ∃ entry, index.entries[p]? = some entry := ⟨_, getElem?_eq_getElem hlt⟩
    have ht : beforeBound bou ae entry.1 = false := by rw [hs _ _ hen, decide_eq_false (by omega)]
    rw [if_pos (show p < index.header.entryCount from hlt)]
    refine bind_eq_ok.mpr ⟨_, h.readEntryKey_at hen, rejectIf_bind.mpr ⟨by simp [ht],
      bind_eq_ok.mpr ⟨_, h.readDescriptor_at hen, rejectIf_eq_ok.mpr ?_⟩⟩⟩
    rw [Option.any_eq_true]
    rintro ⟨end', hend, hne⟩
    exact of_decide_eq_true hne (hoff end' hend)
  · rw [if_neg (show ¬p < index.header.entryCount from hlt)]
    rfl

/-- Reading consecutive entries that pass the test. -/
theorem selectedEntries_eq (c : RoaringCodec) {test : Bytes → Bool} {n fst : Nat} {pk : Bytes}
    {pe : Option Nat} (hin : fst + n ≤ index.entries.length)
    (ht : ∀ i entry, fst ≤ i → i < fst + n → index.entries[i]? = some entry → test entry.1 = true)
    (hkey : pk ≠ [] → ∀ entry, index.entries[fst]? = some entry → pk < entry.1)
    (hend : ∀ stop, pe = some stop → stop = payloadOffset index fst) :
    selectedEntries c file index.header index.tableStop test n fst pk pe =
      .ok (((index.entries.drop fst).take n).map Prod.snd) := by
  induction n generalizing fst pk pe with
  | zero => simp [selectedEntries]
  | succ n ih =>
    obtain ⟨entry, hen⟩ : ∃ entry, index.entries[fst]? = some entry := ⟨_, List.getElem?_eq_getElem (by omega)⟩
    obtain ⟨hlt, hget⟩ := List.getElem?_eq_some_iff.mp hen
    have hr := @ih (fst + 1) entry.1 (some (payloadOffset index fst + entry.2.serializedSize)) (by omega)
      (fun i o hge hlt hot => ht i o (by omega) (by omega) hot)
      (fun _ o hot => by
        obtain ⟨hlt', hget'⟩ := List.getElem?_eq_some_iff.mp hot
        have hp := List.pairwise_iff_getElem.mp index.sorted fst (fst + 1) (by rw [List.length_map]; omega)
          (by rw [List.length_map]; omega) (Nat.lt_succ_self fst)
        rw [List.getElem_map, List.getElem_map, hget, hget'] at hp
        exact hp)
      (fun stop hs => by rw [← Option.some.inj hs, payloadOffset_succ hen])
    rw [selectedEntries]
    refine bind_eq_ok.mpr ⟨_, h.readEntryKey_at hen, rejectIf_bind.mpr ⟨?_, bind_eq_ok.mpr ⟨_, h.readDescriptor_at hen,
      rejectIf_bind.mpr ⟨?_, bind_eq_ok.mpr ⟨_, h.readPayload_at hen, bind_eq_ok.mpr ⟨_,
        c.prepareDeserialize_serializeInto entry.2, bind_eq_ok.mpr ⟨_, hr, ?_⟩⟩⟩⟩⟩⟩⟩
    · rw [ht fst entry le_rfl (by omega) hen]
      rintro (hf | ⟨hne, hle⟩)
      · nomatch hf
      · exact absurd hle (not_le.mpr (hkey hne entry hen))
    · rw [Option.any_eq_true]
      rintro ⟨stop, hs, hne⟩
      exact of_decide_eq_true hne (hend stop hs)
    · rw [List.drop_eq_getElem_cons hlt, hget, List.take_succ_cons, List.map_cons]
      rfl

omit h in
/-- The keys in a range are those before its end and not before its start. -/
theorem inRange_eq (a stop : Bytes) (inc : Bool) (key : Bytes) :
    inRange a stop inc key = (!beforeBound a false key && beforeBound stop inc key) := by
  have hs : decide (a ≤ key) = !decide (key < a) := by
    rw [Bool.eq_iff_iff, decide_eq_true_iff, Bool.not_eq_true', decide_eq_false_iff_not, not_lt]
  simp only [inRange, beforeBound, Bool.false_and, Bool.or_false, hs]

theorem searchRange_eq (c : RoaringCodec) (a stop : Bytes) (inc : Bool) : searchRange c file index.header a stop inc =
      .ok (unionAll ((index.entries.filter fun entry => inRange a stop inc entry.1).map Prod.snd)) := by
  have ht := h.tableEnd_eq le_rfl
  unfold searchRange
  refine bind_eq_ok.mpr ⟨_, ht, ?_⟩
  by_cases hz : index.entries.length = 0
  · rw [if_pos (show index.header.entryCount = 0 from hz), eq_nil_of_length_eq_zero hz]
    rfl
  rw [if_neg (show ¬index.header.entryCount = 0 from hz)]
  obtain ⟨first, last, hf, hl, hext, -⟩ := h.descriptors_eq (Nat.pos_of_ne_zero hz)
  have hlow := h.findKeyBoundary_eq a false
  have hh := h.findKeyBoundary_eq stop inc
  refine bind_eq_ok.mpr ⟨first, hf, bind_eq_ok.mpr ⟨last, hl, rejectIf_bind.mpr ⟨hext, bind_eq_ok.mpr ⟨_, hlow, ?_⟩⟩⟩⟩
  by_cases hinv : stop < a
  · -- An inverted range selects nothing.
    have hn : (index.entries.filter fun entry => inRange a stop inc entry.1) = [] := by
      refine filter_eq_nil_iff.mpr fun entry _ hin => ?_
      simp only [inRange, Bool.and_eq_true, Bool.or_eq_true, decide_eq_true_iff] at hin
      rcases hin.2 with hlt | ⟨-, heq⟩
      · exact absurd (lt_of_le_of_lt hin.1 hlt) (not_lt.mpr (le_of_lt hinv))
      · exact absurd (heq ▸ hin.1) (not_le.mpr hinv)
    rw [if_pos hinv, hn]
    refine bind_eq_ok.mpr ⟨_, rfl, rejectIf_bind.mpr ⟨lt_irrefl _, bind_eq_ok.mpr ⟨_, h.validateRangeBoundary_eq a false, ?_⟩⟩⟩
    rw [if_neg (not_le.mpr hinv)]
    refine bind_eq_ok.mpr ⟨(), rfl, ?_⟩
    rw [if_pos rfl]
    rfl
  · have hle : ∀ key, beforeBound a false key = true → beforeBound stop inc key = true := by
      intro key hkey
      simp only [beforeBound, Bool.false_and, Bool.or_false, Bool.or_eq_true, decide_eq_true_iff] at hkey ⊢
      exact Or.inl (lt_of_lt_of_le hkey (not_lt.mp hinv))
    have hsel := drop_take_eq_filter index.sorted (below_beforeBound a false) (below_beforeBound stop inc) hle
    have hspL := fun i entry => @partitionPoint_spec index.entries (beforeBound a false) entry index.sorted (below_beforeBound _ _) i
    have hspH := fun i entry => @partitionPoint_spec index.entries (beforeBound stop inc) entry index.sorted (below_beforeBound _ _) i
    have hmax := @partitionPoint_le index.entries (beforeBound stop inc)
    have hvaL := h.validateRangeBoundary_eq a false
    have hvaH := h.validateRangeBoundary_eq stop inc
    have hor : partitionPoint index.entries (beforeBound a false) ≤ partitionPoint index.entries (beforeBound stop inc) := by
      by_contra hgt
      obtain ⟨entry, hen⟩ : ∃ entry, index.entries[partitionPoint index.entries (beforeBound stop inc)]? = some entry :=
        ⟨_, getElem?_eq_getElem (lt_of_lt_of_le (Nat.lt_of_not_le hgt) (partitionPoint_le _))⟩
      have hbef := hspL _ _ hen
      rw [decide_eq_true (by omega)] at hbef
      have ha := hspH _ _ hen
      rw [hle _ hbef, decide_eq_false (lt_irrefl _)] at ha
      cases ha
    simp only [inRange_eq]
    rw [if_neg hinv, ← hsel]
    generalize partitionPoint index.entries (beforeBound a false) = lo at *
    generalize partitionPoint index.entries (beforeBound stop inc) = hi at *
    refine bind_eq_ok.mpr ⟨_, hh, rejectIf_bind.mpr ⟨not_lt.mpr hor, bind_eq_ok.mpr ⟨_, hvaL, ?_⟩⟩⟩
    rw [if_pos (not_lt.mp hinv)]
    refine bind_eq_ok.mpr ⟨_, hvaH, ?_⟩
    by_cases hem : hi = lo
    · rw [if_pos hem, hem, drop_take, Nat.sub_self, take_zero]
      rfl
    · rw [if_neg hem]
      have hte : ∀ i entry, lo ≤ i → i < lo + (hi - lo) → index.entries[i]? = some entry →
          inRange a stop inc entry.1 = true := by
        intro i entry hge hlt hen
        rw [inRange_eq, hspL _ _ hen, hspH _ _ hen, decide_eq_false (by omega), decide_eq_true (by omega)]
        rfl
      refine bind_eq_ok.mpr ⟨_, h.selectedEntries_eq c (by omega) hte (fun hne => absurd rfl hne) (fun _ he => by cases he), ?_⟩
      rw [drop_take]
      rfl

end Written

end Layout

end Logex
