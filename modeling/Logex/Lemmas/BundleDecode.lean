import Logex.Lemmas.BundleTable

/-!
# What a decoded table says

`decode_table` takes untrusted bytes. Its loops check one extent at a time; what they have checked when they succeed is said here for
the streams and extents of the whole table. The order of the streams in the table is not that of their numbers, so the extents of the
streams and the physical ranges the decoder collected are compared as permutations.
-/

namespace Logex

open Lib List
open Lib.Parser (lift_eq_ok pure_eq_ok take_eq_ok uint_eq_ok)

variable {bs rest : Bytes} {id : StreamId} {start limit : Nat}

/-! ## Extents -/

/-- The scan of one stream, after `k` extents. -/
structure ExtentScan.Sound (start limit : Nat) (k : Nat) (scan : ExtentScan) : Prop where
  count : scan.extents.length = k
  total : scan.total = extentBytes scan.extents
  within : ∀ e ∈ scan.extents, e.Within start limit
  before : ∀ e ∈ scan.extents, e.stop ≤ scan.previousEnd
  start_le : start ≤ scan.previousEnd
  ordered : scan.extents.Pairwise fun a b => a.stop ≤ b.offset

theorem decodeExtent_sound {start limit k : Nat} {scan scan' : ExtentScan} (h : scan.Sound start limit k)
    (hdec : decodeExtent limit scan bs = .ok (scan', rest)) : scan'.Sound start limit (k + 1) := by
  unfold decodeExtent cursorU64 cursorU32 at hdec
  simp only [Parser.bind_eq_ok, lift_eq_ok, uint_eq_ok, pure_eq_ok, rejectIf_eq_ok, okOr_eq_ok, checkedAdd_eq_some] at hdec
  obtain ⟨off, _, -, len, _, -, checksum, _, ⟨hchm, -⟩, stop, _, ⟨⟨rfl, -⟩, -⟩, _, _, ⟨hche, -⟩, total, _, ⟨⟨rfl, -⟩, -⟩,
    rfl, -⟩ := hdec
  simp only [not_or, not_lt] at hche
  obtain ⟨ha, hnon, hbou, hu⟩ := hche
  have hwit : Extent.Within start limit ⟨off, len, checksum⟩ :=
    ⟨le_trans h.start_le ha, Nat.pos_of_ne_zero hnon, hbou, hu, hchm⟩
  refine ⟨?_, ?_, ?_, ?_, ?_, ?_⟩
  · rw [length_append, length_singleton, h.count]
  · rw [extentBytes_append, extentBytes_cons, extentBytes_nil, h.total]
    rfl
  · rw [forall_mem_append, forall_mem_singleton]
    exact ⟨h.within, hwit⟩
  · rw [forall_mem_append, forall_mem_singleton]
    refine ⟨fun e he => ?_, le_rfl⟩
    have hbef := h.before e he
    simp only
    omega
  · have hs := h.start_le
    simp only
    omega
  · rw [pairwise_append]
    refine ⟨h.ordered, pairwise_singleton _ _, fun e he last hl => ?_⟩
    rw [mem_singleton.mp hl]
    exact le_trans (h.before e he) ha

/-! ## Streams -/

theorem physical_update {m : StreamMap} {s : Stream} (h : m id = none) :
    (StreamMap.physical (Function.update m id (some s))).Perm (m.physical ++ s.extents) := by
  have hen : (StreamMap.entries (Function.update m id (some s))).Perm ((id, s) :: m.entries) := by
    refine (perm_ext_iff_of_nodup ?_ ?_).mpr fun e => ?_
    · exact (StreamMap.keys_nodup _).of_map _
    · refine nodup_cons.mpr ⟨fun hmem => ?_, (StreamMap.keys_nodup m).of_map _⟩
      rw [StreamMap.mem_entries.mp hmem] at h
      nomatch h
    · obtain ⟨id', s'⟩ := e
      rw [StreamMap.mem_entries, mem_cons, StreamMap.mem_entries, Prod.mk.injEq]
      by_cases heq : id' = id
      · subst heq
        rw [Function.update_self, h]
        simp [eq_comm]
      · rw [Function.update_of_ne heq]
        simp [heq]
  refine (hen.flatMap_right _).trans ?_
  rw [flatMap_cons]
  exact perm_append_comm

/-- The scan of a table: each stream is what its kind says, its extents lie in the window, and the physical ranges are those of all
streams. -/
structure TableScan.Sound (start limit : Nat) (scan : TableScan) : Prop where
  stream : ∀ id s, scan.streams id = some s → s.Ok id
  extent : ∀ id s, scan.streams id = some s → ∀ e ∈ s.extents, e.Within start limit
  physical : (StreamMap.physical scan.streams).Perm scan.physical

theorem TableScan.Sound.push {scan : TableScan} (h : scan.Sound start limit) {s : Stream}
    (hnew : scan.streams id = none) (hok : s.Ok id) (hwit : ∀ e ∈ s.extents, e.Within start limit) :
    (scan.push (id, s)).Sound start limit := by
  refine ⟨fun id' s' hs => ?_, fun id' s' hs => ?_, ?_⟩
  · by_cases heq : id' = id
    · subst heq
      obtain rfl : s = s' := by simpa [TableScan.push] using hs
      exact hok
    · exact h.stream id' s' (by simpa [TableScan.push, Function.update_of_ne heq] using hs)
  · by_cases heq : id' = id
    · subst heq
      obtain rfl : s = s' := by simpa [TableScan.push] using hs
      exact hwit
    · exact h.extent id' s' (by simpa [TableScan.push, Function.update_of_ne heq] using hs)
  · exact (physical_update hnew).trans (h.physical.append_right s.extents)

theorem decodeStreamId_eq_ok {str : StreamMap} {head : Bytes} (h : decodeStreamId str head = .ok id) : str id = none := by
  unfold decodeStreamId at h
  split at h
  · split at h
    · obtain ⟨hche, h⟩ := rejectIf_bind.mp h
      cases h
      simp only [not_or, Bool.not_eq_true, Option.isSome_eq_false_iff, Option.isNone_iff_eq_none] at hche
      exact hche.2.2.2
    · cases h
  · cases h

variable {scan scan' : TableScan} {par : Option BundleReference}

section

variable (h : scan.Sound start limit)

include h

theorem decodeInline_sound {len n : Nat} (hid : inlineIndex id = true) (hnew : scan.streams id = none)
    (hdec : decodeInline id len n scan bs = .ok (scan', rest)) : scan'.Sound start limit := by
  unfold decodeInline at hdec
  simp only [Parser.bind_eq_ok, lift_eq_ok, take_eq_ok, pure_eq_ok, rejectIf_eq_ok, not_or, not_lt] at hdec
  obtain ⟨_, _, ⟨⟨-, hin⟩, -⟩, inlined, _, ⟨rfl, -⟩, rfl, -⟩ := hdec
  have hok : Stream.Ok id { len := inlined.length, inlined } := by
    refine ⟨by simp, fun _ => rfl, fun hnot => ?_, Nat.zero_le _, hin, ?_, List.Pairwise.nil⟩
    · rw [hid] at hnot
      nomatch hnot
    · exact le_trans hin (by decide)
  have hpush := h.push hnew hok nofun
  simpa [TableScan.push] using hpush

theorem decodeExtents_sound {len n : Nat} (hid : inlineIndex id = false) (hlen : len < 256 ^ 8) (hnew : scan.streams id = none)
    (hdec : decodeExtents start limit id len n scan bs = .ok (scan', rest)) : scan'.Sound start limit := by
  unfold decodeExtents at hdec
  simp only [Parser.bind_eq_ok, lift_eq_ok, Parser.need_eq_ok, pure_eq_ok, rejectIf_eq_ok, not_lt, ne_eq, not_not] at hdec
  obtain ⟨_, _, ⟨hc, -⟩, _, _, -, extents, _, hext, _, _, ⟨rfl, -⟩, rfl, -⟩ := hdec
  have hs : extents.Sound start limit (0 + n) :=
    Parser.iterate_keeps (fun k a bs b rest ha hst => decodeExtent_sound ha hst)
      ⟨rfl, rfl, fun e he => absurd he not_mem_nil, fun e he => absurd he not_mem_nil, le_refl _, List.Pairwise.nil⟩ hext
  have hok : Stream.Ok id { len := extents.total, extents := extents.extents } := by
    refine ⟨by simp [hs.total], fun hyes => ?_, fun _ => rfl, ?_, Nat.zero_le _, ?_, hs.ordered⟩
    · rw [hid] at hyes
      nomatch hyes
    · rw [hs.count]
      omega
    · exact Nat.le_of_lt_succ (lt_of_lt_of_le hlen (by decide))
  exact h.push hnew hok hs.within

theorem decodeStream_sound (hdec : decodeStream start limit scan bs = .ok (scan', rest)) : scan'.Sound start limit := by
  unfold decodeStream cursorTake cursorU64 cursorU32 at hdec
  simp only [Parser.bind_eq_ok, lift_eq_ok, take_eq_ok, uint_eq_ok] at hdec
  obtain ⟨head, _, -, id, _, ⟨hid, -⟩, len, _, ⟨hlen, -⟩, count, _, -, hb⟩ := hdec
  have hnew := decodeStreamId_eq_ok hid
  cases hinl : inlineIndex id with
  | true =>
    rw [if_pos hinl] at hb
    exact decodeInline_sound h hinl hnew hb
  | false =>
    rw [if_neg (by rw [hinl]; exact Bool.false_ne_true)] at hb
    exact decodeExtents_sound h hinl hlen hnew hb

end

/-! ## Tables -/

/-- Sorted ranges without an overlap between neighbours have none at all. -/
theorem pairwise_of_overlaps {xs : List Extent} (h : overlaps xs = false) : xs.Pairwise fun a b => a.stop ≤ b.offset := by
  induction xs with
  | nil => exact List.Pairwise.nil
  | cons a rest ih =>
    cases rest with
    | nil => exact pairwise_singleton _ _
    | cons b rest =>
      rw [overlaps, Bool.or_eq_false_iff, decide_eq_false_iff_not, not_lt] at h
      have hr := ih h.2
      refine pairwise_cons.mpr ⟨fun c hc => ?_, hr⟩
      rcases mem_cons.mp hc with rfl | hc
      · exact h.1
      · have hb := (pairwise_cons.mp hr).1 c hc
        have hs : b.offset ≤ b.stop := Nat.le_add_right _ _
        omega

/-- Whatever the table says, the scan that came out of it is sound, in the window that starts at the end of its parent. -/
theorem decodeTableBody_sound {ref : BundleReference} {n : Nat} {scan : TableScan}
    (h : decodeTableBody ref n bs = .ok ((scan, par), rest)) : scan.Sound (payloadStart par) ref.tableOffset := by
  have hst : ∀ {start count : Nat} {scan : TableScan} {bs rest : Bytes},
      Parser.iterate (decodeStream start ref.tableOffset) count {} bs = .ok (scan, rest) → scan.Sound start ref.tableOffset := by
    intro start count scan bs rest hs
    exact @Parser.iterate_keeps count _ _ _ (fun _ scan => scan.Sound start ref.tableOffset)
      (fun _ a bs b rest ha hsp => decodeStream_sound ha hsp) 0 _ _ _ _ ⟨nofun, nofun, List.Perm.refl _⟩ hs
  unfold decodeTableBody cursorTake cursorU64 cursorU32 at h
  simp only [Parser.bind_eq_ok, lift_eq_ok, take_eq_ok, uint_eq_ok] at h
  obtain ⟨_, _, -, _, _, -, _, _, -, _, _, -, _, _, -, _, _, -, count, _, -, flags, _, -, _, _, -, h⟩ := h
  split at h
  · simp only [Parser.bind_eq_ok, lift_eq_ok, pure_eq_ok] at h
    obtain ⟨parent', _, -, start, _, ⟨hsta, -⟩, scan', _, hs, heq, -⟩ := h
    obtain ⟨rfl, rfl⟩ := Prod.mk.inj heq
    have hso := hst hs
    rwa [(BundleReference.stop_facts hsta).1] at hso
  · simp only [Parser.bind_eq_ok, lift_eq_ok, pure_eq_ok] at h
    obtain ⟨_, _, -, scan', _, hs, heq, -⟩ := h
    obtain ⟨rfl, rfl⟩ := Prod.mk.inj heq
    exact hst hs

/-- The extents of an accepted table. -/
theorem decodeTable_sound {bs : Bytes} {ref : BundleReference} {m : StreamMap} (h : decodeTable bs ref = .ok (m, par)) :
    (∀ id s, m id = some s → s.Ok id ∧ ∀ e ∈ s.extents, e.Within (payloadStart par) ref.tableOffset) ∧
      m.physical.Pairwise fun a b => a.stop ≤ b.offset ∨ b.stop ≤ a.offset := by
  obtain ⟨⟨⟨scan, parent'⟩, trailing⟩, hb, h⟩ := bind_eq_ok.mp h
  obtain ⟨-, h⟩ := rejectIf_bind.mp h
  obtain ⟨ha, h⟩ := rejectIf_bind.mp h
  cases h
  have hso := decodeTableBody_sound hb
  refine ⟨fun id s hs => ⟨hso.stream id s hs, hso.extent id s hs⟩, ?_⟩
  have hsrt := pairwise_of_overlaps (Bool.eq_false_of_not_eq_true ha)
  have hp := hso.physical.trans (perm_insertionSort (fun a b : Extent => a.offset ≤ b.offset) scan.physical).symm
  exact hp.symm.pairwise (hsrt.imp fun hle => Or.inl hle) fun hab => hab.symm

end Logex
