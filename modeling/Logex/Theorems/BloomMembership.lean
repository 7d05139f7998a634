import Logex.Lemmas.Bloom

/-!
# Bloom filters have no false negatives

A filter built from a segment answers every probe for a key of one of its rows with true, and the verifier that admits a filter for
publication accepts exactly the files in which every bit such a probe reads is set.
-/

namespace Logex

open Lib List

variable {file : IndexFile} {fileId : FixedBytes 16} {bits : Bytes}

/-- The filter in a file has the shape its reader asks for, and every bit the rows of the source require is set. -/
def FilterCovers (magic : Bytes) (required : LogRow → UInt64 × UInt64 → Prop) (source : SegmentReader) (file : IndexFile) : Prop :=
  ∃ mask bits, openBloom file magic = .ok (file, mask) ∧ readFilter file mask = .ok bits ∧
    ∀ row ∈ source.rows, ∀ hashes, required row hashes → ∀ bit ∈ keyBits hashes mask, testBit bits bit = true

/-- Which first topics a transfer filter takes. -/
def transferSelected (world : BloomHashes) (legacy : Bool) (topic0 : Option B256) : Option B256 :=
  topic0.filter fun topic0 => topic0 = transferTopic0 world ∨ (legacy = false ∧ topic0 = approvalTopic0 world)

/-- How a transfer filter hashes a key. -/
def transferHashes (world : BloomHashes) (legacy : Bool) (topic0 : B256) (address : Address) (position : UInt8) (topic : B256) :
    UInt64 × UInt64 :=
  if legacy then transferKeyHashes world address position topic else erc20EventKeyHashes world topic0 address position topic

namespace BloomAux

variable {world : BloomHashes} {cancelled : Nat → Bool}

variable {required : LogRow → UInt64 × UInt64 → Prop}

theorem filterCovers_iff {magic : Bytes} {src : SegmentReader} : FilterCovers magic required src file ↔
      ∃ bits, OpensAs file magic bits ∧ ∀ row ∈ src.rows, ∀ hs, required row hs → Holds bits hs := by
  constructor
  · rintro ⟨mask, bits, hop, hr, hall⟩
    obtain ⟨-, bits', rfl, hopA⟩ := openBloom_eq_ok.mp hop
    obtain rfl := Except.ok.inj (hopA.reads.symm.trans hr)
    exact ⟨bits', hopA, hall⟩
  · rintro ⟨bits, hopA, hall⟩
    exact ⟨_, bits, hopA.opens, hopA.reads, hall⟩

/-- The check of one key. -/
theorem decides_holds {hs : UInt64 × UInt64} {message : String} : Decides (∀ asked, cancelled asked = false)
      (failIf ((keyBits hs (filterMask bits.length)).any (fun bit => !testBit bits bit) = true) message : VerifyM Unit)
      (Holds bits hs) := by
  refine Decides.failIf.congr ?_
  simp [Holds]

/-- A verifier that opens a filter and then checks it against its source. -/
theorem decides_filter {src : SegmentReader} {magic : Bytes} {check : IndexFile × UInt64 → Bytes → VerifyM Unit}
    (hc : ∀ bits, OpensAs file magic bits → Decides (∀ asked, cancelled asked = false)
      (check (file, filterMask bits.length) bits) (∀ row ∈ src.rows, ∀ hs, required row hs → Holds bits hs)) :
    Decides (∀ asked, cancelled asked = false)
      (do
        checkCancelled cancelled
        attempt (file.requireBound fileId)
        let opened ← attempt (openBloom file magic)
        let bits ← attempt (readFilter opened.1 opened.2)
        check opened bits)
      (file.fileId = some fileId ∧ FilterCovers magic required src file) := by
  refine (decides_checkCancelled.bind fun _ => Decides.attempt_bind (p := fun _ => ∃ opened, openBloom file magic = .ok opened ∧
    ∃ bits, readFilter opened.1 opened.2 = .ok bits ∧ ∀ row ∈ src.rows, ∀ hs, required row hs → Holds bits hs)
      fun _ _ => Decides.attempt_bind fun opened hopened => Decides.attempt_bind fun bits hb => ?_).congr ?_
  · obtain ⟨r, mask⟩ := opened
    obtain ⟨rfl, bits', rfl, hop⟩ := openBloom_eq_ok.mp hopened
    obtain rfl := Except.ok.inj (hop.reads.symm.trans hb)
    exact hc _ hop
  · rw [filterCovers_iff]
    constructor
    · rintro ⟨-, ⟨⟩, hbound, ⟨r, mask⟩, hopened, bits, hb, hall⟩
      obtain ⟨rfl, bits', rfl, hop⟩ := openBloom_eq_ok.mp hopened
      obtain rfl := Except.ok.inj (hop.reads.symm.trans hb)
      exact ⟨not_not.mp (rejectIf_eq_ok.mp hbound), bits', hop, hall⟩
    · rintro ⟨hbound, bits, hop, hall⟩
      exact ⟨trivial, (), rejectIf_eq_ok.mpr (not_not.mpr hbound), _, hop.opens, bits, hop.reads, hall⟩

theorem decides_event {r : SegmentReader} :
    Decides (∀ asked, cancelled asked = false) (EventBloom.verifyCapturedMembership world r file fileId cancelled)
      (file.fileId = some fileId ∧ FilterCovers eventMagic (EventRequires world) r file) := by
  unfold EventBloom.verifyCapturedMembership
  refine decides_filter fun bits _ => ?_
  have hk : Decides (∀ asked, cancelled asked = false)
      (visitSourceKeys world (fun row hs => do
        runIf (row % 16384 = 0) (checkCancelled cancelled)
        failIf ((keyBits hs (filterMask bits.length)).any (fun bit => !testBit bits bit) = true)
          s!"bloom omits source row {row}") r)
      (∀ e ∈ sourceKeys r, True ∧ Holds bits (hashKey world e.2)) := by
    rw [visitSourceKeys_eq]
    exact Decides.forM fun _ _ => (Decides.runIf decides_checkCancelled).bind fun _ => decides_holds
  refine (hk.bind fun _ => decides_checkCancelled).congr ⟨?_, ?_⟩
  · rintro ⟨hall, -⟩ row hmem hs hreq
    obtain ⟨e, hentry, rfl⟩ := eventRequires_iff.mp ⟨row, hmem, hreq⟩
    exact (hall e hentry).2
  · refine fun hall => ⟨fun e hentry => ⟨trivial, ?_⟩, trivial⟩
    obtain ⟨row, hmem, hreq⟩ := eventRequires_iff.mpr ⟨e, hentry, rfl⟩
    exact hall row hmem _ hreq

/-- The check of one topic of one row. -/
theorem decides_topic {legacy : Bool} {topic : B256} {add : Address} {p : UInt8} {t : Option B256} {message : String} :
    Decides (∀ asked, cancelled asked = false) (match t with
        | none => pure ()
        | some t =>
          let hashes := if legacy then transferKeyHashes world add p t
            else erc20EventKeyHashes world topic add p t
          failIf ((keyBits hashes (filterMask bits.length)).any (fun bit => !testBit bits bit) = true) message : VerifyM Unit)
      (∀ v, t = some v → Holds bits (transferHashes world legacy topic add p v)) := by
  cases t with
  | none => exact (Decides.pure ()).congr ⟨nofun, fun _ => trivial⟩
  | some t =>
    refine decides_holds.congr ⟨?_, fun h => h t rfl⟩
    rintro h _ ⟨⟩
    exact h

/-- The check of one row. -/
theorem decides_row {legacy : Bool} {row : LogRow} {index : Nat} : Decides (∀ asked, cancelled asked = false) (match row.topic 0 with
        | none => pure ()
        | some topic =>
          if topic ≠ transferTopic0 world ∧ (legacy = true ∨ topic ≠ approvalTopic0 world) then pure ()
          else [((1 : UInt8), row.topic 1), (2, row.topic 2)].forM fun (position, t) =>
            match t with
            | none => pure ()
            | some t =>
              let hs := if legacy then transferKeyHashes world row.address position t
                else erc20EventKeyHashes world topic row.address position t
              failIf ((keyBits hs (filterMask bits.length)).any (fun bit => !testBit bits bit) = true)
                s!"bloom omits source row {index} topic {position}" : VerifyM Unit)
      (∀ hs, TransferRequires (transferSelected world legacy) (transferHashes world legacy) row hs → Holds bits hs) := by
  cases ht : row.topic 0 with
  | none =>
    refine (Decides.pure ()).congr ⟨?_, fun _ => trivial⟩
    rintro - hs ⟨topic, hsel, -⟩
    rw [show row.topic0 = none from ht] at hsel
    nomatch hsel
  | some topic =>
    have hsel : transferSelected world legacy row.topic0 = some topic ↔
        ¬(topic ≠ transferTopic0 world ∧ (legacy = true ∨ topic ≠ approvalTopic0 world)) := by
      rw [show row.topic0 = some topic from ht, transferSelected, Option.filter_eq_some_iff, decide_eq_true_iff]
      by_cases h1 : topic = transferTopic0 world <;> by_cases h2 : topic = approvalTopic0 world <;> cases legacy <;> simp [h1, h2]
    have honly : ∀ topic', transferSelected world legacy row.topic0 = some topic' → topic' = topic := by
      intro topic' h
      rw [show row.topic0 = some topic from ht] at h
      exact (Option.some.inj (Option.filter_eq_some_iff.mp h).1).symm
    refine (Decides.ite (fun _ => Decides.pure ()) (fun _ => Decides.forM fun e _ => decides_topic)).congr ⟨?_, ?_⟩
    · rintro ⟨-, hall⟩ hs ⟨topic', htopic0', position, hpos, value, hv, rfl⟩
      obtain rfl := honly topic' htopic0'
      have hrow := hall (hsel.mp htopic0')
      simp only [mem_cons, not_mem_nil, or_false] at hpos
      rcases hpos with rfl | rfl
      · exact hrow (1, row.topic 1) (by simp) value hv
      · exact hrow (2, row.topic 2) (by simp) value hv
    · refine fun hall => ⟨fun _ => trivial, fun hcon e hentry value hv => ?_⟩
      have hreq : ∀ position ∈ [(1 : Fin 4), 2], row.topic position = some value →
          Holds bits (transferHashes world legacy topic row.address (UInt8.ofNat position) value) :=
        fun position hpos hv => hall _ ⟨topic, hsel.mpr hcon, position, hpos, value, hv, rfl⟩
      simp only [mem_cons, not_mem_nil, or_false] at hentry
      rcases hentry with rfl | rfl
      · exact hreq 1 (by simp) hv
      · exact hreq 2 (by simp) hv

theorem decides_transfer {r : SegmentReader} {name : String} :
    Decides (∀ asked, cancelled asked = false) (TransferBloom.verifyCapturedMembership world r file name fileId cancelled)
      (file.fileId = some fileId ∧ FilterCovers (if name == transferBloomFile then transferMagic else erc20EventsMagic)
        (TransferRequires (transferSelected world (name == transferBloomFile)) (transferHashes world (name == transferBloomFile)))
        r file) := by
  unfold TransferBloom.verifyCapturedMembership
  refine decides_filter fun bits _ => ?_
  rw [sourceRows_eq, validateTransferColumns_eq]
  have hr : ∀ i ∈ List.range r.readAddress.length, ∃ row, r.rows[i]? = some row := by
    intro i hin
    rw [List.mem_range, SegmentReader.readAddress, List.length_map] at hin
    exact ⟨_, List.getElem?_eq_getElem hin⟩
  have ht : ∀ {i row} (position : Fin 4), r.rows[i]? = some row →
      (r.readTopic position).getD i none = row.topic position := by
    intro i row position hrow
    simp [SegmentReader.readTopic, hrow]
  refine (Decides.bind (p := ∀ i ∈ List.range r.readAddress.length, ∀ row, r.rows[i]? = some row → ∀ hs,
    TransferRequires (transferSelected world (name == transferBloomFile)) (transferHashes world (name == transferBloomFile))
      row hs → Holds bits hs) (Decides.forM fun i hin => ?_) fun _ => decides_checkCancelled).congr ⟨?_, ?_⟩
  · obtain ⟨row, hrow⟩ := hr i hin
    rw [ht 0 hrow, ht 1 hrow, ht 2 hrow, getD_readAddress hrow]
    refine ((Decides.runIf decides_checkCancelled).bind fun _ => decides_row).congr ⟨?_, ?_⟩
    · rintro ⟨-, h⟩ row' hrow'
      rw [hrow] at hrow'
      exact Option.some.inj hrow' ▸ h
    · exact fun h => ⟨trivial, h row hrow⟩
  · rintro ⟨hall, -⟩ row hmem hs hreq
    obtain ⟨i, hrow⟩ := List.mem_iff_getElem?.mp hmem
    have hin : i < r.rows.length := (List.getElem?_eq_some_iff.mp hrow).1
    exact hall i (by simpa [SegmentReader.readAddress] using hin) row hrow hs hreq
  · exact fun hall => ⟨fun i _ row hrow => hall row (List.mem_of_getElem? hrow), trivial⟩

/-- A check that decides a property accepts only what has it, and all of it when never cancelled. -/
theorem exact_of_decides {verification : VerifyM Unit} {p : Prop} (h : Decides (∀ asked, cancelled asked = false) verification p) :
    (Accepts verification → p) ∧ ((∀ asked, cancelled asked = false) → (Accepts verification ↔ p)) :=
  have hp := accepts_of_decides h
  ⟨hp.1, fun hn => ⟨hp.1, hp.2 hn⟩⟩

theorem event_build (world : BloomHashes) (fileId : FixedBytes 16) (src : SegmentReader) :
    ∃ file bits, EventBloom.build world fileId src = .ok file ∧ OpensAs file eventMagic bits ∧
      ∀ row ∈ src.rows, ∀ has, EventRequires world row has → Holds bits has := by
  have hs : FilterSize (List.replicate (filterBytes src.rows.length) (0 : UInt8)).length := by
    rw [length_replicate]
    exact filterSize_filterBytes _
  obtain ⟨hlen, hh⟩ := holds_foldl_insertHashes ((sourceKeys src).map fun e => hashKey world e.2) hs
  obtain ⟨file, hw, -, hop⟩ := writeBloom_opensAs eventMagic rfl (by rwa [← hlen] at hs) fileId
  refine ⟨file, _, (EventBloom.build_eq world fileId src).trans hw, hop, fun row hmem has hreq => ?_⟩
  obtain ⟨e, hentry, rfl⟩ := eventRequires_iff.mp ⟨row, hmem, hreq⟩
  exact hh _ (Or.inl (mem_map.mpr ⟨e, hentry, rfl⟩))

/-- A probe for a key the filter holds. -/
theorem readKey_of_holds {magic bits : Bytes} {hs : UInt64 × UInt64} (h : OpensAs file magic bits)
    (hh : Holds bits hs) : readKey file (filterMask bits.length) hs = .ok true := by
  rw [h.readKey_eq, decide_eq_true hh]

end BloomAux

open BloomAux in
/-- For every segment and every pair of hash functions the three builders succeed, and what they write answers every probe for a key
of a row with true. The verifiers accept a file only if it covers its source, and every such file when nobody cancels them. -/
theorem bloom_filters_have_no_false_negatives (world : BloomHashes) (fileId : FixedBytes 16) (source : SegmentReader) :
    (∃ file bloom, EventBloom.build world fileId source = .ok file ∧ EventBloomReader.open file = .ok bloom ∧
      ∀ row ∈ source.rows, ∀ topic0, row.topic0 = some topic0 →
        EventBloomReader.mayContainEvent world bloom topic0 row.address = .ok true ∧
        ∀ position : Fin 4, position ≠ 0 → ∀ value, row.topic position = some value →
          EventBloomReader.mayContainTopic world bloom topic0 row.address position value = .ok true) ∧
    (∃ file bloom, Erc20EventBloom.build world fileId source = .ok file ∧ Erc20EventBloomReader.open file = .ok bloom ∧
      ∀ row ∈ source.rows, ∀ topic0, row.topic0 = some topic0 → topic0 = transferTopic0 world ∨ topic0 = approvalTopic0 world →
        ∀ position ∈ [(1 : Fin 4), 2], ∀ value, row.topic position = some value →
          Erc20EventBloomReader.mayContain world bloom topic0 row.address position value = .ok true) ∧
    (∃ file bloom, TransferBloom.build world fileId source = .ok file ∧ TransferBloomReader.open file = .ok bloom ∧
      ∀ row ∈ source.rows, row.topic0 = some (transferTopic0 world) →
        ∀ position ∈ [(1 : Fin 4), 2], ∀ value, row.topic position = some value →
          TransferBloomReader.mayContain world bloom row.address position value = .ok true) ∧
    (∀ file cancelled, (Accepts (EventBloom.verifyCapturedMembership world source file fileId cancelled) →
        file.fileId = some fileId ∧ FilterCovers eventMagic (EventRequires world) source file) ∧
      ((∀ asked, cancelled asked = false) → (Accepts (EventBloom.verifyCapturedMembership world source file fileId cancelled) ↔
        file.fileId = some fileId ∧ FilterCovers eventMagic (EventRequires world) source file))) ∧
    ∀ file name cancelled, (Accepts (TransferBloom.verifyCapturedMembership world source file name fileId cancelled) →
        file.fileId = some fileId ∧ FilterCovers (if name == transferBloomFile then transferMagic else erc20EventsMagic)
          (TransferRequires (transferSelected world (name == transferBloomFile)) (transferHashes world (name == transferBloomFile)))
          source file) ∧
      ((∀ asked, cancelled asked = false) →
        (Accepts (TransferBloom.verifyCapturedMembership world source file name fileId cancelled) ↔
          file.fileId = some fileId ∧ FilterCovers (if name == transferBloomFile then transferMagic else erc20EventsMagic)
            (TransferRequires (transferSelected world (name == transferBloomFile)) (transferHashes world (name == transferBloomFile)))
            source file)) := by
  refine ⟨?_, ?_, ?_, fun file cancelled => exact_of_decides decides_event,
    fun file name cancelled => exact_of_decides decides_transfer⟩
  · obtain ⟨file, bits, hb, hop, hh⟩ := event_build world fileId source
    refine ⟨file, ⟨file, filterMask bits.length⟩, hb, ?_, fun row hmem topic0 ht => ⟨?_, ?_⟩⟩
    · rw [EventBloomReader.open, hop.opens]
      rfl
    · exact readKey_of_holds hop (hh row hmem _ ⟨topic0, ht, Or.inl rfl⟩)
    · intro position hpos value hv
      have hin : ∀ position : Fin 4, position ≠ 0 → position ∈ [(1 : Fin 4), 2, 3] ∧ ¬¬(1 ≤ position.val ∧ position.val ≤ 3) := by
        decide
      obtain ⟨hin, hr⟩ := hin position hpos
      rw [EventBloomReader.mayContainTopic, rejectIf_bind]
      exact ⟨hr, readKey_of_holds hop (hh row hmem _ ⟨topic0, ht, Or.inr ⟨position, hin, value, hv, rfl⟩⟩)⟩
  · obtain ⟨file, bits, hb, hop, hh⟩ := buildTransferBloom_opensAs _ _ erc20EventsMagic rfl fileId source
    refine ⟨file, ⟨file, filterMask bits.length⟩, hb, ?_, ?_⟩
    · rw [Erc20EventBloomReader.open, hop.opens]
      rfl
    · intro row hmem topic0 ht hsel position hpos value hv
      rw [Erc20EventBloomReader.mayContain, rejectIf_bind]
      refine ⟨by omega, readKey_of_holds hop (hh row hmem _ ⟨topic0, ?_, position, hpos, value, hv, rfl⟩)⟩
      exact Option.filter_eq_some_iff.mpr ⟨ht, decide_eq_true hsel⟩
  · obtain ⟨file, bits, hb, hop, hh⟩ := buildTransferBloom_opensAs _ _ transferMagic rfl fileId source
    refine ⟨file, ⟨file, filterMask bits.length⟩, hb, ?_, ?_⟩
    · rw [TransferBloomReader.open, hop.opens]
      rfl
    · intro row hmem ht position hpos value hv
      rw [TransferBloomReader.mayContain, rejectIf_bind]
      refine ⟨by omega, readKey_of_holds hop (hh row hmem _ ⟨transferTopic0 world, ?_, position, hpos, value, hv, rfl⟩)⟩
      exact Option.filter_eq_some_iff.mpr ⟨ht, decide_eq_true rfl⟩

end Logex
