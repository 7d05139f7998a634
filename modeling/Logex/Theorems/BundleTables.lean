import Logex.Lemmas.BundleDecode
import Logex.Theorems.BundleSnapshots

/-!
# Bundle tables

A table that a writer publishes decodes to the streams it was encoded from. Any bytes the decoder accepts, whoever wrote them, name
extents that are not empty, lie between the end of the parent and the table, do not overlap, and follow one another without a gap in
the logical range of their stream.
-/

namespace Logex

open Lib

/-! ## What an accepted table has to say -/

/-- Every position of a logical range lies in exactly one extent, the extents taken one after the other. -/
def Tiles (extents : List Extent) (len : Nat) : Prop :=
  extentBytes extents = len ∧ ∀ position < len, ∃! index, index < extents.length ∧
    extentBytes (extents.take index) ≤ position ∧ position < extentBytes (extents.take (index + 1))

/-- The extents of a table, in a window of the file. -/
structure StreamMap.WellPlaced (start limit : Nat) (m : StreamMap) : Prop where
  nonempty : ∀ id s, m id = some s → ∀ e ∈ s.extents, 0 < e.len
  inside : ∀ id s, m id = some s → ∀ e ∈ s.extents, start ≤ e.offset ∧ e.offset + e.len ≤ limit
  disjoint : m.physical.Pairwise fun a b => a.offset + a.len ≤ b.offset ∨ b.offset + b.len ≤ a.offset
  tiles : ∀ id s, m id = some s → inlineIndex id = false → Tiles s.extents s.len
  /-- The index streams have no extents: their bytes stand in the table. -/
  inlined : ∀ id s, m id = some s → inlineIndex id = true → s.extents = [] ∧ s.inlined.length = s.len

namespace BundleTablesAux

theorem extentBytes_take_mono (xs : List Extent) {i j : Nat} (h : i ≤ j) : extentBytes (xs.take i) ≤ extentBytes (xs.take j) := by
  have hs := List.take_append_drop i (xs.take j)
  rw [List.take_take, min_eq_left h] at hs
  rw [← hs, extentBytes_append]
  exact Nat.le_add_right _ _

/-- The running lengths of a list of extents cut its total into consecutive parts. -/
theorem tiles_extentBytes (xs : List Extent) : Tiles xs (extentBytes xs) := by
  refine ⟨rfl, fun p hpos => ?_⟩
  have hexi : ∃ i, i < xs.length ∧ extentBytes (xs.take i) ≤ p ∧
      p < extentBytes (xs.take (i + 1)) := by
    induction xs using List.reverseRecOn with
    | nil => exact absurd hpos (Nat.not_lt_zero _)
    | append_singleton xs last ih =>
      rcases lt_or_ge p (extentBytes xs) with hlt | hge
      · obtain ⟨i, hin, hlow, hh⟩ := ih hlt
        refine ⟨i, by rw [List.length_append]; omega, ?_, ?_⟩
        · rwa [List.take_append_of_le_length (le_of_lt hin)]
        · rwa [List.take_append_of_le_length hin]
      · refine ⟨xs.length, by simp, ?_, ?_⟩
        · rwa [List.take_left]
        · rwa [List.take_of_length_le (by simp)]
  obtain ⟨i, hin, hlow, hh⟩ := hexi
  refine ⟨i, ⟨hin, hlow, hh⟩, fun o hother => ?_⟩
  rcases lt_trichotomy o i with hlt | heq | hgt
  · have hm := extentBytes_take_mono xs (show o + 1 ≤ i from hlt)
    omega
  · exact heq
  · have hm := extentBytes_take_mono xs (show i + 1 ≤ o from hgt)
    omega

theorem wellPlaced_of_decodeTable {bs : Bytes} {ref : BundleReference} {m : StreamMap} {par : Option BundleReference}
    (h : decodeTable bs ref = .ok (m, par)) : m.WellPlaced (payloadStart par) ref.tableOffset := by
  obtain ⟨hst, hdis⟩ := decodeTable_sound h
  refine ⟨?_, ?_, hdis, ?_, ?_⟩
  · intro id s hs e he
    exact ((hst id s hs).2 e he).nonempty
  · intro id s hs e he
    have hwit := (hst id s hs).2 e he
    exact ⟨hwit.lower, hwit.upper⟩
  · intro id s hs hid
    have hok := (hst id s hs).1
    have hlen : s.len = extentBytes s.extents := by
      rw [hok.size, hok.noInline hid, List.length_nil, Nat.add_zero]
    rw [hlen]
    exact tiles_extentBytes s.extents
  · intro id s hs hid
    have hok := (hst id s hs).1
    have hn := hok.noExtents hid
    refine ⟨hn, ?_⟩
    rw [hok.size, hn, extentBytes_nil, Nat.zero_add]

/-- A publication after a run of publications writes a table that decodes. -/
theorem publication_decodes {c : BundleCodec} {pubs : List Publication} {bd : PublishedBundle}
    (hso : BundleAux.Sound c pubs bd) {ws : List BundleWrite} {wri st : WriteState}
    (hwri : bd.writer c = .ok wri) (hst : ws.foldlM (WriteState.write c) wri = .ok st)
    {n : Nat} {ref : BundleReference} {file : Bytes} (hfin : st.finish c n = .ok (ref, file)) :
    ∃ m parent bs, st.Encodes m ∧ encodeTable n ref.sequence m parent = .ok bs ∧
      file = st.file ++ encodeRecord c bs ∧ decodeTable bs ref = .ok (m, parent) := by
  obtain ⟨base, bound, hwriting, hori, hsh⟩ := hso.writer hwri
  obtain ⟨hwr', hs, -⟩ := Writing.writes ws hwriting hsh hst
  have hori' : ∃ file, Origin c file base bound st := by
    rcases hori with ⟨-, hori⟩ | ⟨-, hori⟩
    · exact ⟨_, hori.same hs⟩
    · exact ⟨_, hori.same hs⟩
  obtain ⟨_, hori'⟩ := hori'
  obtain ⟨table, hcho, rfl, hsp, rfl⟩ := hwr'.finish_chosen hori' hfin
  obtain ⟨m, parent, henc, hend, hdec⟩ := hcho.decoded hwr' hsp
  exact ⟨m, parent, table.bytes, henc, hend, rfl, hdec⟩

end BundleTablesAux

open BundleTablesAux

/-- Tables written by a bundle writer, in any run of publications, decode to what was encoded; accepted tables are well placed. -/
theorem bundle_tables_decode (codec : BundleCodec) :
    (∀ (publications : List Publication) (bundle : PublishedBundle) (writes : List BundleWrite) (writer state : WriteState)
      (rowCount : Nat) (reference : BundleReference) (file : Bytes), publishAll codec publications = .ok bundle →
      bundle.writer codec = .ok writer → writes.foldlM (WriteState.write codec) writer = .ok state →
      state.finish codec rowCount = .ok (reference, file) →
      ∃ m parent bytes, state.Encodes m ∧ encodeTable rowCount reference.sequence m parent = .ok bytes ∧
        file = state.file ++ encodeRecord codec bytes ∧ decodeTable bytes reference = .ok (m, parent)) ∧
    ∀ bytes reference m parent, decodeTable bytes reference = .ok (m, parent) →
      m.WellPlaced (payloadStart parent) reference.tableOffset := by
  refine ⟨?_, fun bytes reference m parent h => wellPlaced_of_decodeTable h⟩
  intro publications bundle writes writer state rowCount reference file hrun hwri hs hfin
  have hso := BundleAux.Sound.run publications (BundleAux.sound_empty codec) hrun
  exact publication_decodes hso hwri hs hfin

end Logex
