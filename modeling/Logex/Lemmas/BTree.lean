import Logex.Index.BTree
import Logex.Lemmas.Bitmap

/-!
# B+ tree index files: what the readers see

A written file holds the entries of its index, each at its place in the key table and each with its bitmap. Every reader is shown to
compute a function of those entries, and a range of sorted entries to be the entries whose keys are in the range.
-/

namespace Logex

open Lib List
open RoaringBitmap (mem_insert not_mem_new union)

variable {key : Bytes} {row : UInt32}

/-! ## Insertions -/

/-- The pairs an index holds. -/
def Holding (entries : List (Bytes × RoaringBitmap)) (key : Bytes) (row : UInt32) : Prop := ∃ bitmap, (key, bitmap) ∈ entries ∧ row ∈ bitmap

variable {entries : List (Bytes × RoaringBitmap)} {ins : List (Bytes × UInt32)}

theorem holding_cons {e : Bytes × RoaringBitmap} :
    Holding (e :: entries) key row ↔ (key = e.1 ∧ row ∈ e.2) ∨ Holding entries key row := by
  constructor
  · rintro ⟨bm, hmem, hrow⟩
    rcases mem_cons.mp hmem with rfl | hmem
    · exact Or.inl ⟨rfl, hrow⟩
    · exact Or.inr ⟨bm, hmem, hrow⟩
  · rintro (⟨rfl, hrow⟩ | ⟨bm, hmem, hrow⟩)
    · exact ⟨e.2, mem_cons_self, hrow⟩
    · exact ⟨bm, mem_cons_of_mem _ hmem, hrow⟩

theorem not_holding_nil : ¬Holding [] key row := fun ⟨_, hmem, _⟩ => not_mem_nil hmem

theorem holding_insertEntry {key o : Bytes} {row ri : UInt32} :
    Holding (insertEntry key ri entries) o row ↔ (o = key ∧ row = ri) ∨ Holding entries o row := by
  have hnew : row ∈ RoaringBitmap.new.insert ri ↔ row = ri := by
    rw [mem_insert]
    exact or_iff_left (not_mem_new row)
  induction entries with
  | nil =>
    rw [insertEntry, holding_cons, hnew]
  | cons e entries ih =>
    unfold insertEntry
    split
    · rw [holding_cons, hnew]
    · split
      · next heq =>
        subst heq
        rw [holding_cons, holding_cons, mem_insert]
        tauto
      · simp only [holding_cons, ih]
        tauto

theorem BTreeIndex.build_concat (ks : Nat) (inse : List (Bytes × UInt32)) (ins : Bytes × UInt32) :
    BTreeIndex.build ks (inse ++ [ins]) = (BTreeIndex.build ks inse).insert ins.1 ins.2 := by
  simp only [BTreeIndex.build, foldl_append, foldl_cons, foldl_nil]

theorem BTreeIndex.keySize_build (ks : Nat) (ins : List (Bytes × UInt32)) : (BTreeIndex.build ks ins).keySize = ks := by
  induction ins using List.reverseRecOn with
  | nil => rfl
  | append_singleton ins inn ih => rw [BTreeIndex.build_concat, BTreeIndex.insert, ih]

/-- An index holds what was inserted. -/
theorem BTreeIndex.holding_build {ks : Nat} : Holding (BTreeIndex.build ks ins).entries key row ↔ (key, row) ∈ ins := by
  induction ins using List.reverseRecOn with
  | nil => exact iff_of_false not_holding_nil not_mem_nil
  | append_singleton ins inn ih =>
    rw [BTreeIndex.build_concat, BTreeIndex.insert, holding_insertEntry, ih, mem_append, mem_singleton, or_comm, Prod.ext_iff]

theorem BTreeIndex.mem_keys_build {ks : Nat} : key ∈ (BTreeIndex.build ks ins).entries.map Prod.fst ↔ key ∈ ins.map Prod.fst := by
  induction ins using List.reverseRecOn with
  | nil => exact Iff.rfl
  | append_singleton ins inn ih =>
    rw [BTreeIndex.build_concat, BTreeIndex.insert, mem_keys_insertEntry, ih, map_append, mem_append, or_comm,
      map_singleton, mem_singleton]

/-! ## Entries and ranges -/

section Entries

variable {entries : List (Bytes × RoaringBitmap)}

/-- Distinct keys: an entry is found under its key and nowhere else. -/
theorem find_entry (hsrt : (entries.map Prod.fst).Pairwise (· < ·)) {bm : RoaringBitmap} :
    (entries.find? fun e => decide (e.1 = key)).map Prod.snd = some bm ↔ (key, bm) ∈ entries := by
  induction entries with
  | nil => simp
  | cons e entries ih =>
    obtain ⟨fst, bitmap'⟩ := e
    obtain ⟨hf, hr⟩ := pairwise_cons.mp hsrt
    rw [mem_cons]
    by_cases heq : fst = key
    · subst heq
      rw [find?_cons_of_pos (by simp), Option.map_some, Option.some_inj]
      constructor
      · rintro rfl
        exact Or.inl rfl
      · rintro (h | h)
        · exact (Prod.mk.inj h).2.symm
        · exact absurd (hf fst (mem_map.mpr ⟨_, h, rfl⟩)) (lt_irrefl fst)
    · rw [find?_cons_of_neg (by simpa using heq), ih hr]
      constructor
      · exact Or.inr
      · rintro (h | h)
        · exact absurd (Prod.mk.inj h).1.symm heq
        · exact h

/-- An entry is the only one under its key. -/
theorem holding_iff (hsrt : (entries.map Prod.fst).Pairwise (· < ·)) {bm : RoaringBitmap} (h : (key, bm) ∈ entries)
    (row : UInt32) : Holding entries key row ↔ row ∈ bm := by
  refine ⟨fun ⟨bitmap', hmem, hrow⟩ => ?_, fun hrow => ⟨bm, h, hrow⟩⟩
  have heq := (find_entry hsrt).mpr h
  rw [(find_entry hsrt).mpr hmem] at heq
  exact Option.some.inj heq ▸ hrow

/-- What a point lookup returns, as a set. -/
def rowsOf (result : Option RoaringBitmap) : Set UInt32 := {row | ∃ bitmap, result = some bitmap ∧ row ∈ bitmap}

theorem rowsOf_find {res : Option RoaringBitmap}
    (h : ∀ bm, res = some bm ↔ (key, bm) ∈ entries) : rowsOf res = {row | Holding entries key row} := by
  ext row
  constructor
  · rintro ⟨bm, hbm, hrow⟩
    exact ⟨bm, (h bm).mp hbm, hrow⟩
  · rintro ⟨bm, hmem, hrow⟩
    exact ⟨bm, (h bm).mpr hmem, hrow⟩

theorem mem_foldl_union {bit : List RoaringBitmap} {init : RoaringBitmap} :
    row ∈ bit.foldl union init ↔ row ∈ init ∨ ∃ bm ∈ bit, row ∈ bm := by
  induction bit generalizing init with
  | nil => simp
  | cons bm bit ih =>
    rw [foldl_cons, ih, RoaringBitmap.mem_union, exists_mem_cons_iff, or_assoc]

theorem mem_unionAll {bit : List RoaringBitmap} : row ∈ unionAll bit ↔ ∃ bm ∈ bit, row ∈ bm := by
  unfold unionAll
  split
  · simpa using not_mem_new row
  · simp
  · rw [mem_foldl_union]
    exact or_iff_right (not_mem_new row)

/-- The union of some entries is what is held under their keys. -/
theorem mem_unionAll_filter (test : Bytes → Bool) :
    row ∈ unionAll ((entries.filter fun e => test e.1).map Prod.snd) ↔ ∃ key, test key = true ∧ Holding entries key row := by
  rw [mem_unionAll]
  constructor
  · rintro ⟨bitmap, hmem, hrow⟩
    obtain ⟨⟨key, bitmap'⟩, hen, rfl⟩ := mem_map.mp hmem
    obtain ⟨hen, ht⟩ := mem_filter.mp hen
    exact ⟨key, ht, bitmap', hen, hrow⟩
  · rintro ⟨key, ht, bitmap, hen, hrow⟩
    exact ⟨bitmap, mem_map.mpr ⟨(key, bitmap), mem_filter.mpr ⟨hen, ht⟩, rfl⟩, hrow⟩

/-- A test that holds up to a boundary of the sorted keys. -/
def Below (test : Bytes → Bool) : Prop := ∀ key other, key ≤ other → test other = true → test key = true

section Partition

open BTreeIndexReader

variable {test : Bytes → Bool} {e : Bytes × RoaringBitmap}

theorem partitionPoint_cons_of_pos (h : test e.1 = true) :
    partitionPoint (e :: entries) test = partitionPoint entries test + 1 := by
  simp only [partitionPoint, takeWhile_cons, h, if_true, length_cons]

theorem partitionPoint_cons_of_neg (h : test e.1 = false) : partitionPoint (e :: entries) test = 0 := by
  simp only [partitionPoint, takeWhile_cons, h, Bool.false_eq_true, if_false, length_nil]

theorem partitionPoint_le (test : Bytes → Bool) : partitionPoint entries test ≤ entries.length :=
  ( takeWhile_prefix _).length_le

/-- No later entry passes a test the first one fails. -/
theorem test_of_first (hsrt : ((e :: entries).map Prod.fst).Pairwise (· < ·)) (ht : Below test) (h : test e.1 = false) :
    ∀ o ∈ entries, test o.1 = false := by
  intro o hother
  have hlt := (pairwise_cons.mp hsrt).1 o.1 (mem_map.mpr ⟨o, hother, rfl⟩)
  by_contra hne
  rw [ht e.1 o.1 (le_of_lt hlt) (Bool.eq_true_of_not_eq_false hne)] at h
  nomatch h

variable (hsrt : (entries.map Prod.fst).Pairwise (· < ·))

include hsrt

theorem filter_eq_take (ht : Below test) : (entries.filter fun e => test e.1) = entries.take (partitionPoint entries test) := by
  induction entries with
  | nil => rfl
  | cons e entries ih =>
    cases h : test e.1 with
    | true => simp only [filter_cons, h, if_true, partitionPoint_cons_of_pos h, take_succ_cons, ih (pairwise_cons.mp hsrt).2]
    | false =>
      rw [partitionPoint_cons_of_neg h, take_zero, filter_eq_nil_iff]
      intro o hother
      rcases mem_cons.mp hother with rfl | hother
      · simp [h]
      · simp [test_of_first hsrt ht h o hother]

/-- The entries between two boundaries are those before the second and not before the first. -/
theorem drop_take_eq_filter {low high : Bytes → Bool} (hlow : Below low)
    (hh : Below high) (hle : ∀ key, low key = true → high key = true) :
    (entries.take (partitionPoint entries high)).drop (partitionPoint entries low) =
      entries.filter fun e => !low e.1 && high e.1 := by
  induction entries with
  | nil => rfl
  | cons e entries ih =>
    cases h : low e.1 with
    | true => simp only [partitionPoint_cons_of_pos h, partitionPoint_cons_of_pos (hle _ h), take_succ_cons, drop_succ_cons,
        ih (pairwise_cons.mp hsrt).2, filter_cons, h, Bool.not_true, Bool.false_and, Bool.false_eq_true, if_false]
    | false =>
      rw [partitionPoint_cons_of_neg h, drop_zero, ← filter_eq_take hsrt hh]
      refine filter_congr fun o hother => ?_
      rcases mem_cons.mp hother with rfl | hother
      · rw [h, Bool.not_false, Bool.true_and]
      · rw [test_of_first hsrt hlow h o hother, Bool.not_false, Bool.true_and]

/-- The entries before a boundary pass its test, those from it on do not. -/
theorem partitionPoint_spec (ht : Below test) {i : Nat}
    (h : entries[i]? = some e) : test e.1 = decide (i < partitionPoint entries test) := by
  induction entries generalizing i with
  | nil => nomatch h
  | cons first entries ih =>
    cases hc : test first.1 with
    | true =>
      rw [partitionPoint_cons_of_pos hc]
      cases i with
      | zero =>
        cases h
        simpa using hc
      | succ i =>
        rw [ih (pairwise_cons.mp hsrt).2 h]
        simp
    | false =>
      have hf : test e.1 = false := by
        rcases mem_cons.mp (mem_of_getElem? h) with rfl | hmem
        · exact hc
        · exact test_of_first hsrt ht hc e hmem
      rw [partitionPoint_cons_of_neg hc, hf]
      simp

end Partition

theorem below_lt (bound : Bytes) : Below fun key => decide (key < bound) := by
  intro key other hle hot
  exact decide_eq_true (lt_of_le_of_lt hle (of_decide_eq_true hot))

theorem below_le (bound : Bytes) : Below fun key => decide (key ≤ bound) := by
  intro key other hle hot
  exact decide_eq_true (le_trans hle (of_decide_eq_true hot))

theorem below_beforeBound (bou : Bytes) (ae : Bool) : Below (beforeBound bou ae) := by
  intro key o hle hot
  cases ae with
  | false =>
    simp only [beforeBound, Bool.false_and, Bool.or_false] at hot ⊢
    exact below_lt bou key o hle hot
  | true =>
    simp only [beforeBound, Bool.true_and, Bool.or_eq_true, decide_eq_true_iff] at hot ⊢
    exact (le_trans hle (le_iff_lt_or_eq.mpr hot)).lt_or_eq

end Entries

end Logex
