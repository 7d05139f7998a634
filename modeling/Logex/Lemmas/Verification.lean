import Logex.Index.Builder
import Logex.Lemmas.BTreeFile

/-!
# Verification of derived indexes: what the loops decide

The two loops of the verifier together say that the entries hold each source row that has a key under that key and nothing else. The
entries of an opened file have increasing keys, so no row can be met twice.
-/

namespace Logex

open Lib List SegmentReader RoaringBitmap
open Column (ofField)

variable {entries : List (Bytes × RoaringBitmap)} {seen : RoaringBitmap} {reader : SegmentReader} {row : UInt32}

/-! ## Keys of source rows -/

/-- What a field contributes to the key of a row. -/
def Field.keyOf : Field → LogRow → Option Bytes
  | .address, row => some row.address.toBytes
  | .topic position, row => (row.topic position.castSucc).map FixedBytes.toBytes
  | .blockNumber, row => some (toBeBytes row.blockNumber)
  | .timestamp, row => some (toBeBytes row.timestamp)
  | .blockHash, row => some row.blockHash.toBytes

/-- The key of a row: its fields one after another, or none if a topic of it is null. -/
def rowKey (fields : List Field) (row : LogRow) : Option Bytes := (fields.mapM (Field.keyOf · row)).map List.flatten

/-- The rows of a source with a key. -/
def sourcePostings (reader : SegmentReader) (fields : List Field) (key : Bytes) : Set UInt32 :=
  {row | ∃ log, reader.rows[row.toNat]? = some log ∧ rowKey fields log = some key}

theorem rowKey_cons (fd : Field) (fs : List Field) (row : LogRow) :
    rowKey (fd :: fs) row = (fd.keyOf row).bind fun bs => (rowKey fs row).map (bs ++ ·) := by
  unfold rowKey
  rw [mapM_cons]
  cases fd.keyOf row with
  | none => rfl
  | some bs => cases fs.mapM (Field.keyOf · row) <;> rfl

theorem writeKey_ofField {row : Nat} {log : LogRow} (h : reader.rows[row]? = some log) (fd : Field) :
    (ofField reader fd).writeKey row = fd.keyOf log := by
  cases fd <;> simp [ofField, Column.writeKey, Field.keyOf, readAddress, readTopic,
    readBlockHash, readBlockNumber, readTimestamp, h]

/-- The columns give a row the key it has. -/
theorem sourceKey_eq {row : Nat} {log : LogRow} (h : reader.rows[row]? = some log) (fs : List Field) :
    sourceKey row (fs.map (ofField reader)) = rowKey fs log := by
  induction fs with
  | nil => rfl
  | cons fd fs ih =>
    rw [map_cons, sourceKey, writeKey_ofField h, ih, rowKey_cons]
    cases fd.keyOf log with
    | none => rfl
    | some bytes => cases rowKey fs log <;> rfl

theorem length_ofField (reader : SegmentReader) (fd : Field) : (ofField reader fd).length = reader.rows.length := by
  cases fd <;> simp [ofField, Column.length, readAddress, readTopic, readBlockHash, readBlockNumber, readTimestamp]

/-! ## Entries of an opened file -/

theorem decodeAll_sorted {dec : Bytes → Except String RoaringBitmap} {data : Bytes} {hd : IndexHeader} {rem : Nat}
    {inp : IndexEntries} (h : IndexEntries.decodeAll dec data hd rem inp = .ok entries) :
    (∀ prev, inp.previousKey = some prev → ∀ key ∈ entries.map Prod.fst, prev < key) ∧
      (entries.map Prod.fst).Pairwise (· < ·) := by
  induction rem generalizing inp entries with
  | zero =>
    obtain ⟨-, h⟩ := rejectIf_bind.mp h
    cases h
    exact ⟨nofun, List.Pairwise.nil⟩
  | succ rem ih =>
    obtain ⟨⟨⟨key, payload⟩, next⟩, hn, h⟩ := bind_eq_ok.mp h
    obtain ⟨bitmap, -, h⟩ := bind_eq_ok.mp h
    obtain ⟨rest, hr, h⟩ := bind_eq_ok.mp h
    cases h
    obtain ⟨hbef, hsrt⟩ := ih hr
    have hkey : next.previousKey = some key ∧ ∀ prev, inp.previousKey = some prev → prev < key := by
      obtain ⟨⟨key', p⟩, -, hn⟩ := bind_eq_ok.mp hn
      obtain ⟨hinc, hn⟩ := rejectIf_bind.mp hn
      have hlt : ∀ prev, inp.previousKey = some prev → prev < key' := by
        intro prev hp
        rw [hp, Option.any_some, decide_eq_true_iff] at hinc
        exact not_le.mp hinc
      split at hn
      · obtain ⟨offset, -, hn⟩ := bind_eq_ok.mp hn
        obtain ⟨-, hn⟩ := rejectIf_bind.mp hn
        obtain ⟨len, -, hn⟩ := bind_eq_ok.mp hn
        obtain ⟨sto, -, hn⟩ := bind_eq_ok.mp hn
        obtain ⟨hen, rfl⟩ := Prod.mk.inj (Except.ok.inj hn)
        obtain ⟨rfl, -⟩ := Prod.mk.inj hen
        exact ⟨rfl, hlt⟩
      · obtain ⟨len, -, hn⟩ := bind_eq_ok.mp hn
        obtain ⟨sto, -, hn⟩ := bind_eq_ok.mp hn
        obtain ⟨hen, rfl⟩ := Prod.mk.inj (Except.ok.inj hn)
        obtain ⟨rfl, -⟩ := Prod.mk.inj hen
        exact ⟨rfl, hlt⟩
    refine ⟨?_, pairwise_cons.mpr ⟨hbef key hkey.1, hsrt⟩⟩
    intro prev hp o hother
    rcases mem_cons.mp hother with rfl | hother
    · exact hkey.2 prev hp
    · exact lt_trans (hkey.2 prev hp) (hbef key hkey.1 o hother)

/-- An opened file has increasing keys. -/
theorem openBound_sorted {c : RoaringCodec} {file : IndexFile} {fi : FixedBytes 16} {i : BTreeIndexReader}
    (h : BTreeIndexReader.openBound c file fi = .ok i) : (i.entries.map Prod.fst).Pairwise (· < ·) := by
  obtain ⟨-, -, h⟩ := bind_eq_ok.mp h
  obtain ⟨⟨header, input⟩, -, h⟩ := bind_eq_ok.mp h
  obtain ⟨entries, hen, h⟩ := bind_eq_ok.mp h
  cases h
  exact (decodeAll_sorted hen).2

/-! ## The loops -/

theorem RoaringBitmap.mem_iter {bm : RoaringBitmap} : row ∈ bm.iter ↔ row ∈ bm := by
  constructor
  · intro h
    obtain ⟨n, hn, rfl⟩ := mem_map.mp h
    show (UInt32.ofNat n).toNat ∈ bm.rows
    rwa [UInt32.toNat_ofNat_of_lt' (bm.bounded n hn)]
  · intro h
    exact mem_map.mpr ⟨row.toNat, h, UInt32.ofNat_toNat⟩

theorem RoaringBitmap.nodup_iter (bm : RoaringBitmap) : bm.iter.Nodup := by
  refine List.Nodup.map_on ?_ (bm.sorted.imp fun hlt => ne_of_lt hlt)
  intro left hl right hr heq
  have h := congrArg UInt32.toNat heq
  rwa [UInt32.toNat_ofNat_of_lt' (bm.bounded left hl), UInt32.toNat_ofNat_of_lt' (bm.bounded right hr)] at h

section Loops

variable {cl : Nat → Bool} {rows : Nat} {cols : List Column}

/-- The rows of one entry: each in the source, new, and with the key of the entry. -/
theorem decidesTo_verifyRows {key : Bytes} {list : List UInt32} (hn : list.Nodup) :
    DecidesTo (∀ asked, cl asked = false) (verifyRows cl rows cols key list seen)
      (∀ row ∈ list, row.toNat < rows ∧ row ∉ seen ∧ sourceKey row.toNat cols = some key)
      (list.foldl RoaringBitmap.insert seen) := by
  induction list generalizing seen with
  | nil => exact (DecidesTo.pure _).congr ⟨nofun, fun _ => trivial⟩
  | cons row list ih =>
    obtain ⟨hnew, hn⟩ := nodup_cons.mp hn
    refine ((Decides.runIf decides_checkCancelled).bindTo fun _ => Decides.failIf.bindTo fun _ => Decides.failIf.bindTo fun _ =>
      Decides.failIf.bindTo fun _ => ih hn).congr ?_
    rw [forall_mem_cons, not_le, not_not]
    constructor
    · rintro ⟨-, hlt, hs, hkey, hr⟩
      refine ⟨⟨hlt, hs, hkey⟩, fun o hot => ?_⟩
      obtain ⟨hlt, hs, hkey⟩ := hr o hot
      exact ⟨hlt, fun hmem => hs (mem_insert.mpr (Or.inr hmem)), hkey⟩
    · rintro ⟨⟨hlt, hs, hkey⟩, hr⟩
      refine ⟨trivial, hlt, hs, hkey, fun o hot => ?_⟩
      obtain ⟨hlt, hs, hkey⟩ := hr o hot
      refine ⟨hlt, fun hmem => ?_, hkey⟩
      rcases mem_insert.mp hmem with rfl | hmem
      · exact hnew hot
      · exact hs hmem

theorem mem_foldl_insert {list : List UInt32} : row ∈ list.foldl RoaringBitmap.insert seen ↔ row ∈ list ∨ row ∈ seen := by
  induction list generalizing seen with
  | nil => simp
  | cons first list ih =>
    rw [foldl_cons, ih, mem_insert, mem_cons, or_left_comm, or_assoc]

/-- What has been seen after the entries. -/
def seenAfter (entries : List (Bytes × RoaringBitmap)) (seen : RoaringBitmap) : RoaringBitmap :=
  entries.foldl (fun seen entry => entry.2.iter.foldl RoaringBitmap.insert seen) seen

theorem mem_seenAfter : row ∈ seenAfter entries seen ↔ (∃ key, Holding entries key row) ∨ row ∈ seen := by
  induction entries generalizing seen with
  | nil => exact (or_iff_right fun ⟨_, h⟩ => not_holding_nil h).symm
  | cons entry entries ih =>
    rw [seenAfter, foldl_cons, ← seenAfter, ih, mem_foldl_insert, mem_iter]
    simp only [holding_cons, exists_or, exists_and_right, exists_eq, true_and]
    tauto

/-- The entries: none empty, and each row new, in the source and under its key. A row under two keys would have two keys. -/
theorem decidesTo_verifyEntries (hsrt : (entries.map Prod.fst).Pairwise (· < ·)) :
    DecidesTo (∀ asked, cl asked = false) (verifyEntries cl rows cols entries seen)
      ((∀ e ∈ entries, e.2.rows ≠ []) ∧ ∀ key row, Holding entries key row →
        row.toNat < rows ∧ row ∉ seen ∧ sourceKey row.toNat cols = some key) (seenAfter entries seen) := by
  induction entries generalizing seen with
  | nil =>
    exact (DecidesTo.pure _).congr ⟨fun _ => ⟨nofun, fun _ _ h => absurd h not_holding_nil⟩, fun _ => trivial⟩
  | cons e entries ih =>
    obtain ⟨key, bm⟩ := e
    obtain ⟨hf, hsrt⟩ := pairwise_cons.mp hsrt
    have hother : ∀ o row, Holding entries o row → o ≠ key := by
      rintro o row ⟨bitmap', hmem, -⟩ rfl
      exact lt_irrefl _ (hf o (mem_map.mpr ⟨_, hmem, rfl⟩))
    refine (decides_checkCancelled.bindTo fun _ => Decides.failIf.bindTo fun _ =>
      (decidesTo_verifyRows bm.nodup_iter).bindTo (ih hsrt)).congr ?_
    simp only [forall_mem_cons, holding_cons, mem_iter, mem_foldl_insert]
    constructor
    · rintro ⟨-, hne, hro, hall, hr⟩
      refine ⟨⟨hne, hall⟩, ?_⟩
      rintro o row (⟨rfl, hrow⟩ | hh)
      · exact hro row hrow
      · obtain ⟨hlt, hs, hkey⟩ := hr o row hh
        exact ⟨hlt, fun hmem => hs (Or.inr hmem), hkey⟩
    · rintro ⟨⟨hne, hall⟩, hr⟩
      refine ⟨trivial, hne, fun row hrow => hr key row (Or.inl ⟨rfl, hrow⟩), hall, fun o row hh => ?_⟩
      obtain ⟨hlt, hs, hkey⟩ := hr o row (Or.inr hh)
      refine ⟨hlt, ?_, hkey⟩
      rintro (hrow | hmem)
      · have hsa := (hr key row (Or.inl ⟨rfl, hrow⟩)).2.2
        rw [hkey] at hsa
        exact hother o row hh (Option.some.inj hsa)
      · exact hs hmem

theorem decides_verifyOmissions : Decides (∀ asked, cl asked = false) (verifyOmissions cl rows cols seen)
      (∀ row < rows, (sourceKey row cols).isSome = true ↔ row ∈ seen.rows) := by
  refine (Decides.forM (p := fun row => True ∧ ¬(sourceKey row cols).isSome ≠ decide (row ∈ seen.rows)) fun row _ =>
    (Decides.runIf decides_checkCancelled).bind fun _ => Decides.failIf).congr ?_
  refine forall_congr' fun row => ?_
  rw [List.mem_range, true_and, not_not, Bool.eq_iff_iff, decide_eq_true_iff]

end Loops

theorem decidesTo_readColumns {cl : Nat → Bool} (reader : SegmentReader) (fs : List Field) :
    DecidesTo (∀ asked, cl asked = false) (readColumns cl reader reader.rows.length fs) True (fs.map (ofField reader)) := by
  induction fs with
  | nil => exact DecidesTo.pure _
  | cons fd fs ih =>
    have hr : Column.read reader fd reader.rows.length = .ok (ofField reader fd) :=
      rejectIf_bind.mpr ⟨not_not.mpr (length_ofField reader fd), rfl⟩
    refine (decides_checkCancelled.bindTo fun _ => (DecidesTo.attempt hr).bindTo
      (ih.bindTo (DecidesTo.pure (ofField reader fd :: fs.map (ofField reader))))).congr ?_
    simp

/-! ## Exactness -/

/-- An index file agrees with a source: it opens as the artifact of the identity, with keys of the width of the fields, none without
rows, and under every key it holds exactly the source rows with that key. -/
structure IndexAgrees (codec : RoaringCodec) (reader : SegmentReader) (fields : List Field) (file : IndexFile) (fileId : FixedBytes 16)
    (index : BTreeIndexReader) : Prop where
  opens : BTreeIndexReader.openBound codec file fileId = .ok index
  width : index.keySize = keyWidth fields
  nonempty : ∀ entry ∈ index.entries, entry.2.rows ≠ []
  postings : ∀ key, rowsOf (index.get key) = sourcePostings reader fields key

theorem rowsOf_get {i : BTreeIndexReader} (hsrt : (i.entries.map Prod.fst).Pairwise (· < ·)) (key : Bytes) :
    rowsOf (i.get key) = {row | Holding i.entries key row} :=
  rowsOf_find fun _ => find_entry hsrt

/-- A row ID in the source, and its row. -/
theorem exists_row {row : Nat} (h : row < reader.rows.length) : ∃ log, reader.rows[row]? = some log :=
  ⟨_, getElem?_eq_getElem h⟩

/-- The two loops accept exactly when the entries hold the rows of the source under their keys. -/
theorem loops_iff {fs : List Field} :
    ((∀ key row, Holding entries key row → row.toNat < reader.rows.length ∧ row ∉ RoaringBitmap.new ∧
        sourceKey row.toNat (fs.map (ofField reader)) = some key) ∧
      ∀ row < reader.rows.length, (sourceKey row (fs.map (ofField reader))).isSome = true ↔
        row ∈ (seenAfter entries .new).rows) ↔
    ∀ key, {row | Holding entries key row} = sourcePostings reader fs key := by
  constructor
  · rintro ⟨hh, homi⟩ key
    ext row
    constructor
    · intro hhol
      obtain ⟨hlt, -, hkey⟩ := hh key row hhol
      obtain ⟨log, hlog⟩ := exists_row hlt
      exact ⟨log, hlog, sourceKey_eq hlog fs ▸ hkey⟩
    · rintro ⟨log, hlog, hkey⟩
      have hlt : row.toNat < reader.rows.length := (List.getElem?_eq_some_iff.mp hlog).1
      rw [← sourceKey_eq hlog fs] at hkey
      have hs : row ∈ seenAfter entries .new := (homi row.toNat hlt).mp (Option.isSome_of_mem hkey)
      rcases mem_seenAfter.mp hs with ⟨o, hhol⟩ | hnew
      · have hother := (hh o row hhol).2.2
        rw [hkey] at hother
        exact Option.some.inj hother ▸ hhol
      · exact absurd hnew (not_mem_new row)
  · intro h
    have hmem : ∀ key row, Holding entries key row ↔ row ∈ sourcePostings reader fs key := fun key row => by
      rw [← h key]
      exact Iff.rfl
    refine ⟨fun key row hhol => ?_, fun row hlt => ?_⟩
    · obtain ⟨log, hlog, hkey⟩ := (hmem key row).mp hhol
      exact ⟨(List.getElem?_eq_some_iff.mp hlog).1, not_mem_new row, sourceKey_eq hlog fs ▸ hkey⟩
    · obtain ⟨log, hlog⟩ := exists_row hlt
      have hsm : row < 2 ^ 32 := by
        have := reader.bounded
        unfold u32Max at this
        omega
      have hrow : (UInt32.ofNat row).toNat = row := UInt32.toNat_ofNat_of_lt' hsm
      have hs : row ∈ (seenAfter entries .new).rows ↔ UInt32.ofNat row ∈ seenAfter entries .new := by
        show _ ↔ (UInt32.ofNat row).toNat ∈ (seenAfter entries .new).rows
        rw [hrow]
      rw [sourceKey_eq hlog fs, Option.isSome_iff_exists, hs, mem_seenAfter, or_iff_left (not_mem_new _)]
      refine exists_congr fun key => ?_
      rw [hmem]
      constructor
      · intro hkey
        exact ⟨log, by rwa [hrow], hkey⟩
      · rintro ⟨log', hlog', hkey⟩
        rw [hrow, hlog] at hlog'
        exact Option.some.inj hlog' ▸ hkey

theorem decides_verifyCapturedIndex (c : RoaringCodec) (reader : SegmentReader) (file : IndexFile) (fs : List Field)
    (fi : FixedBytes 16) (cl : Nat → Bool) : Decides (∀ asked, cl asked = false) (verifyCapturedIndex c reader file fs fi cl)
      (∃ i, IndexAgrees c reader fs file fi i) := by
  refine ((DecidesTo.attempt (sourceRows_eq reader)).bind ((decidesTo_readColumns reader fs).bind
    (Decides.attempt_bind fun i hop => Decides.failIf.bind fun _ =>
      (decidesTo_verifyEntries (openBound_sorted hop)).bind (decides_verifyOmissions.bind fun _ =>
        decides_checkCancelled)))).congr ?_
  simp only [true_and, and_true, not_not]
  refine exists_congr fun i => ?_
  constructor
  · rintro ⟨hop, hw, ⟨hnon, hh⟩, homi⟩
    refine ⟨hop, hw, hnon, fun key => ?_⟩
    rw [rowsOf_get (openBound_sorted hop)]
    exact loops_iff.mp ⟨hh, homi⟩ key
  · rintro ⟨hop, hw, hnon, hpos⟩
    have hl := loops_iff.mpr fun key => (rowsOf_get (openBound_sorted hop) key).symm.trans (hpos key)
    exact ⟨hop, hw, ⟨hnon, hl.1⟩, hl.2⟩

end Logex
