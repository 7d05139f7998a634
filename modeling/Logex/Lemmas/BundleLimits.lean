import Logex.Lemmas.BundleWrite

/-!
# Writes within the limits of a bundle

A write to an append-only stream takes up extents or, for an index, inline bytes. Where the demands of some writes add up to no more
than the streams have left, none of the writes is refused for a limit of the format, in whatever order they are made, and the table
that ends the publication has room for what they leave behind.
-/

namespace Logex

open Lib List StreamMap WriteState

variable {bytes : Bytes} {m : StreamMap}

/-- The extents that many bytes take up. -/
def extentsFor (bytes : Nat) : Nat := (bytes + maxExtentBytes - 1) / maxExtentBytes

theorem extentsFor_mono {m n : Nat} (h : m ≤ n) : extentsFor m ≤ extentsFor n := Nat.div_le_div_right (by omega)

theorem extentsFor_le {bytes n : Nat} (h : bytes ≤ n * maxExtentBytes) : extentsFor bytes ≤ n := by
  have hmax : maxExtentBytes = 2 ^ 20 := rfl
  unfold extentsFor
  rw [hmax] at h ⊢
  omega

theorem le_extentsFor (bytes : Nat) : bytes ≤ extentsFor bytes * maxExtentBytes := by
  have hmax : maxExtentBytes = 2 ^ 20 := rfl
  unfold extentsFor
  rw [hmax]
  omega

/-- The refusals of a writer that come from a limit of the format. -/
def formatLimits : List String :=
  ["bundle extent limit; rotate before appending", "bundle index limit; rotate before appending", "bundle stream length overflow",
    "invalid bundle snapshot completion", "bundle table exceeds its bound", "bundle table is too large"]

/-! ## Demand and room -/

/-- What a stream holds: inline bytes of an index, extents of any other. -/
def StreamMap.used (m : StreamMap) (id : StreamId) : Nat :=
  if inlineIndex id then (StreamMap.orDefault m id).inlined.length else (StreamMap.orDefault m id).extents.length

variable (id : StreamId)

/-- What a stream can hold. -/
def streamLimit : Nat := if inlineIndex id then indexBytes else maxExtents

/-- What a write takes up in a stream. -/
def BundleWrite.demand : BundleWrite → Nat
  | .appendData target bytes => if target = id then (if inlineIndex id then bytes.length else extentsFor bytes.length) else 0
  | .replaceMetadata _ _ => 0

/-- A write to an existing stream; a replacement fits into the stream by itself. -/
def BundleWrite.Placed : BundleWrite → Prop
  | .appendData target _ => target < dataStreams
  | .replaceMetadata target bytes => dataStreams ≤ target ∧ target < streamCount ∧ bytes.length ≤ maxExtents * maxExtentBytes

/-- What some writes take up in a stream together. -/
def demandOf (writes : List BundleWrite) : Nat := (writes.map (BundleWrite.demand id)).sum

@[simp] theorem demandOf_nil : demandOf id [] = 0 := rfl

@[simp] theorem demandOf_cons (w : BundleWrite) (writes : List BundleWrite) :
    demandOf id (w :: writes) = w.demand id + demandOf id writes := by
  rfl

@[simp] theorem demandOf_append (writes ws' : List BundleWrite) :
    demandOf id (writes ++ ws') = demandOf id writes + demandOf id ws' := by
  rw [demandOf, map_append, sum_append]
  rfl

/-- Fewer writes in another order take up no more. -/
theorem demandOf_subperm {writes all : List BundleWrite} (h : writes.Subperm all) (id : StreamId) :
    demandOf id writes ≤ demandOf id all := by
  obtain ⟨ord, hp, hsub⟩ := h
  have hord : demandOf id ord = demandOf id writes := (hp.map _).sum_eq
  rw [← hord]
  exact (hsub.map _).sum_le_sum fun _ _ => Nat.zero_le _

/-- The streams have room for some writes. -/
structure HasRoom (state : WriteState) (writes : List BundleWrite) : Prop where
  open_ : state.failed = false
  room : ∀ id : StreamId, id < dataStreams → StreamMap.used state.streams id + demandOf id writes ≤ streamLimit id
  placed : ∀ w ∈ writes, w.Placed

section

variable {c : BundleCodec} {base : StreamMap} {bound : Nat} {state st' : WriteState} {writes : List BundleWrite}

/-- The bytes of a payload stream are at most those of full extents. -/
theorem Writing.len_le (h : Writing c base bound state) {id : StreamId} (hid : inlineIndex id = false) :
    (orDefault state.streams id).len ≤ (orDefault state.streams id).extents.length * maxExtentBytes := by
  have hs := h.ok.orDefault id
  have hb : extentBytes (orDefault state.streams id).extents ≤
      (orDefault state.streams id).extents.length * maxExtentBytes := by
    have hle : ∀ len ∈ (orDefault state.streams id).extents.map Extent.len, len ≤ maxExtentBytes := by
      intro len hlen
      obtain ⟨e, he, rfl⟩ := mem_map.mp hlen
      obtain ⟨s, hs, he⟩ := mem_orDefault he
      exact (h.ok.extent id s hs e he).bounded
    have hsum := sum_le_card_nsmul _ _ hle
    rwa [length_map] at hsum
  rw [hs.size, hs.noInline hid]
  exact hb

/-- The streams a write does not name keep what they hold. -/
theorem used_put {id o : StreamId} {st u : Stream} {pl : Bytes} (hne : o ≠ id) :
    StreamMap.used (state.put id st u pl).streams o = StreamMap.used state.streams o := by
  simp [StreamMap.used, orDefault, WriteState.put, Function.update_of_ne hne]

theorem used_put_self {id : StreamId} {st u : Stream} {pl : Bytes} : StreamMap.used (state.put id st u pl).streams id =
      if inlineIndex id then st.inlined.length else st.extents.length := by
  simp [StreamMap.used, WriteState.put]

/-- Where the streams have room, an append to an index is accepted and leaves room for the rest. -/
theorem HasRoom.appendInline (c : BundleCodec) (id : StreamId) (hid : id < dataStreams) (hinl : inlineIndex id = true)
    (hr : HasRoom state (.appendData id bytes :: writes)) :
    state.writeStream c id bytes false = .ok (state.appendInline id bytes) ∧ HasRoom (state.appendInline id bytes) writes := by
  have hs := hr.room id hid
  simp only [demandOf_cons, BundleWrite.demand, if_true, hinl, StreamMap.used, streamLimit] at hs
  refine ⟨?_, hr.open_, ?_, fun w hw => hr.placed w (mem_cons_of_mem _ hw)⟩
  · refine rejectIf_bind.mpr ⟨by simp [hr.open_], ?_⟩
    rw [if_pos hinl]
    exact rejectIf_bind.mpr ⟨by omega, rfl⟩
  · intro o hot
    rw [appendInline_eq_put]
    have hold := hr.room o hot
    by_cases hne : o = id
    · subst hne
      rw [used_put_self, streamLimit, if_pos hinl, if_pos hinl]
      simp only [Stream.append, length_append]
      omega
    · rw [used_put hne]
      rw [demandOf_cons] at hold
      omega

/-- A payload write within the limits of its stream fails only when the file grows past the last offset. -/
theorem WriteState.writeStream_payload (c : BundleCodec) (hop : state.failed = false) {id : StreamId} (hpay : inlineIndex id = false)
    {rep : Bool} {prev : Stream} (hp : (if rep then {} else orDefault state.streams id) = prev)
    (hc : prev.extents.length + extentsFor bytes.length ≤ maxExtents) (hf : prev.len + bytes.length ≤ u64Max) :
    (∀ e, state.writeStream c id bytes rep = .error e → e = "bundle offset overflow") ∧
      ∀ st', state.writeStream c id bytes rep = .ok st' →
        st' = state.appendPayload c id bytes rep (prev.len + bytes.length) := by
  have hlen : checkedAdd prev.len bytes.length = some (prev.len + bytes.length) :=
    checkedAdd_eq_some.mpr ⟨rfl, hf⟩
  refine ⟨fun e he => ?_, fun st' hs' => (payload_of_ok hpay hp hs').2.2.2⟩
  unfold writeStream at he
  rw [hpay, if_neg Bool.false_ne_true, hp] at he
  rcases bind_eq_error.mp he with he | ⟨_, -, he⟩
  · exact nomatch (rejectIf_eq_error he).1.symm.trans hop
  rcases bind_eq_error.mp he with he | ⟨_, -, he⟩
  · exact absurd (rejectIf_eq_error he).1 (not_lt.mpr hc)
  rcases bind_eq_error.mp he with he | ⟨_, -, he⟩
  · exact nomatch hlen.symm.trans (okOr_eq_error he).1
  rcases bind_eq_error.mp he with he | ⟨_, -, he⟩
  · exact (okOr_eq_error he).2.symm
  · nomatch he

/-- Where the streams have room, an append of payload bytes fails only when the file grows past the last offset. -/
theorem HasRoom.appendPayload (h : Writing c base bound state) (id : StreamId) (hid : id < dataStreams)
    (hpay : inlineIndex id = false) (hr : HasRoom state (.appendData id bytes :: writes)) :
    (∀ e, state.writeStream c id bytes false = .error e → e = "bundle offset overflow") ∧
      ∀ st', state.writeStream c id bytes false = .ok st' → HasRoom st' writes := by
  have hs := hr.room id hid
  simp only [demandOf_cons, BundleWrite.demand, if_true, hpay, Bool.false_eq_true, if_false, StreamMap.used, streamLimit] at hs
  have hf : (orDefault state.streams id).len + bytes.length ≤ u64Max := by
    have hmax : maxExtentBytes = 2 ^ 20 := rfl
    have hext : maxExtents = 4096 := rfl
    have hu64 : u64Max = 2 ^ 64 - 1 := rfl
    have hlen := h.len_le hpay
    have hb := le_extentsFor bytes.length
    rw [hmax] at hlen hb
    omega
  obtain ⟨her, hok⟩ := writeStream_payload c hr.open_ hpay (if_neg Bool.false_ne_true) (by omega) hf
  refine ⟨her, fun st' hs' => ?_⟩
  rw [hok st' hs', appendPayload_eq_put]
  refine ⟨hr.open_, fun o hot => ?_, fun w hw => hr.placed w (mem_cons_of_mem _ hw)⟩
  have hold := hr.room o hot
  by_cases hne : o = id
  · subst hne
    obtain ⟨hc, -⟩ := h.payloadExtents bytes
    rw [used_put_self, streamLimit, hpay, if_neg Bool.false_ne_true, if_neg Bool.false_ne_true]
    simp only [Stream.append, length_append]
    unfold extentsFor at hs
    omega
  · rw [used_put hne]
    rw [demandOf_cons] at hold
    omega

/-- A replacement of a metadata stream fails only when the file grows past the last offset. -/
theorem HasRoom.replacePayload (c : BundleCodec) (id : StreamId) (hid : ¬id < dataStreams)
    (hb : bytes.length ≤ maxExtents * maxExtentBytes) (hr : HasRoom state (.replaceMetadata id bytes :: writes)) :
    (∀ e, state.writeStream c id bytes true = .error e → e = "bundle offset overflow") ∧
      ∀ st', state.writeStream c id bytes true = .ok st' → HasRoom st' writes := by
  have hpay := inlineIndex_metadata hid
  have hf : 0 + bytes.length ≤ u64Max := by
    have hu64 : u64Max = 2 ^ 64 - 1 := rfl
    have hmax : maxExtents * maxExtentBytes = 2 ^ 32 := by decide
    omega
  obtain ⟨her, hok⟩ := WriteState.writeStream_payload c hr.open_ hpay (if_pos rfl) ((zero_add _).trans_le (extentsFor_le hb)) hf
  refine ⟨her, fun st' hs' => ?_⟩
  rw [hok st' hs']
  refine ⟨hr.open_, fun o hot => ?_, fun w hw => hr.placed w (mem_cons_of_mem _ hw)⟩
  have hne : o ≠ id := by
    rintro rfl
    exact hid hot
  have hold := hr.room o hot
  rw [demandOf_cons] at hold
  simp only [WriteState.appendPayload, StreamMap.used, StreamMap.orDefault, Function.update_of_ne hne] at hold ⊢
  omega

/-- One write of several the streams have room for. -/
theorem HasRoom.write (h : Writing c base bound state) {w : BundleWrite} (hr : HasRoom state (w :: writes)) :
    (∀ e, state.write c w = .error e → e = "bundle offset overflow") ∧
      ∀ st', state.write c w = .ok st' → HasRoom st' writes := by
  have hpla := hr.placed w mem_cons_self
  cases w with
  | appendData tgt bytes =>
    have hid : tgt < dataStreams := hpla
    simp only [WriteState.write, appendData, dif_pos hid]
    cases hinl : inlineIndex tgt with
    | true =>
      obtain ⟨hok, hre⟩ := HasRoom.appendInline c ⟨tgt, lt_trans hid (by decide)⟩ hid hinl hr
      rw [hok]
      exact ⟨(fun _ he => by cases he), fun st' hs' => Except.ok.inj hs' ▸ hre⟩
    | false => exact HasRoom.appendPayload h ⟨tgt, lt_trans hid (by decide)⟩ hid hinl hr
  | replaceMetadata tgt bytes =>
    obtain ⟨hlow, hh, hb⟩ := hpla
    simp only [WriteState.write, replaceMetadata, dif_pos (And.intro hlow hh)]
    exact HasRoom.replacePayload c ⟨tgt, hh⟩ (not_lt.mpr hlow) hb hr

/-- Writes the streams have room for fail only when the file grows past the last offset. -/
theorem HasRoom.run (writes : List BundleWrite) : ∀ {state : WriteState} {sn : Snapshot},
    Writing c base bound state → state.streams.Shows state.file sn → HasRoom state writes →
    (∀ e, writes.foldlM (WriteState.write c) state = .error e → e = "bundle offset overflow") ∧
      ∀ st', writes.foldlM (WriteState.write c) state = .ok st' →
        Writing c base bound st' ∧ SameOrigin state st' ∧ st'.failed = false := by
  induction writes with
  | nil =>
    intro state sn h hs hr
    refine ⟨nofun, fun st' hs' => ?_⟩
    cases hs'
    exact ⟨h, SameOrigin.refl _, hr.open_⟩
  | cons w writes ih =>
    intro state sn h hs hr
    obtain ⟨her, hok⟩ := HasRoom.write h hr
    rw [foldlM_cons]
    cases hw : state.write c w with
    | error e =>
      refine ⟨fun e' he' => ?_, nofun⟩
      rw [← Except.error.inj he']
      exact her e hw
    | ok next =>
      obtain ⟨hn, hori, hsh'⟩ := h.write hs hw
      obtain ⟨her', hok'⟩ := ih hn hsh' (hok next hw)
      refine ⟨her', fun st' hs' => ?_⟩
      obtain ⟨h', hori', hfai⟩ := hok' st' hs'
      exact ⟨h', hori.trans hori', hfai⟩

end

/-! ## The table -/

/-- A table of streams within their limits is within its own. -/
theorem length_encodeTableBytes_le (hm : ∀ id s, m id = some s → s.extents.length ≤ maxExtents ∧
      s.inlined.length ≤ indexBytes ∧ (inlineIndex id = true → s.extents = []) ∧ (inlineIndex id = false → s.inlined = []))
    (rows seq : Nat) (par : Option BundleReference) : (encodeTableBytes rows seq m par).length ≤ maxTableBytes := by
  have hstr : ∀ ent ∈ m.entries, (encodeStream ent).length ≤ 16 + indexBytes := by
    rintro ⟨id, s⟩ hen
    obtain ⟨hext, hin, hnoE, hnoI⟩ := hm id s (mem_entries.mp hen)
    have hb : indexBytes = 98304 := rfl
    have hmax : maxExtents = 4096 := rfl
    have hleh : (encodeStream (id, s)).length = 16 + (s.inlined.length + 16 * s.extents.length) := by
      simp only [encodeStream, length_append, length_cons, length_nil, length_leBytes, length_encodeExtents]
      omega
    rw [hleh]
    cases hinl : inlineIndex id with
    | true =>
      rw [hnoE hinl, length_nil]
      omega
    | false =>
      rw [hnoI hinl, length_nil]
      omega
  have hs : (m.entries.flatMap encodeStream).length ≤ 33 * (16 + indexBytes) := by
    have hsum := sum_le_card_nsmul (m.entries.map fun ent => (encodeStream ent).length) (16 + indexBytes) (by
      intro length hleh
      obtain ⟨ent, hen, rfl⟩ := mem_map.mp hleh
      exact hstr ent hen)
    rw [length_map] at hsum
    rw [length_flatMap]
    exact le_trans hsum (Nat.mul_le_mul_right _ m.length_entries_le)
  have hpar : ((par.map encodeReference).getD []).length ≤ 40 := by
    cases par with
    | none => exact Nat.zero_le _
    | some par => simp [encodeReference]
  have hmax : maxTableBytes = 4194304 := rfl
  have hb : indexBytes = 98304 := rfl
  have hma : tableMagic.length = 8 := rfl
  simp only [encodeTableBytes, length_append, length_leBytes]
  omega

theorem StreamMap.Ok.limits {a limit : Nat} (h : m.Ok a limit) (id : StreamId) (s : Stream) (hs : m id = some s) :
    s.extents.length ≤ maxExtents ∧ s.inlined.length ≤ indexBytes ∧ (inlineIndex id = true → s.extents = []) ∧
      (inlineIndex id = false → s.inlined = []) :=
  have hok := h.stream id s hs
  ⟨hok.count, hok.index, hok.noExtents, hok.noInline⟩

theorem encodeTable_eq (hm : ∀ id s, m id = some s → s.extents.length ≤ maxExtents ∧
      s.inlined.length ≤ indexBytes ∧ (inlineIndex id = true → s.extents = []) ∧ (inlineIndex id = false → s.inlined = []))
    (rows seq : Nat) (par : Option BundleReference) : encodeTable rows seq m par = .ok (encodeTableBytes rows seq m par) :=
  rejectIf_bind.mpr ⟨not_lt.mpr (length_encodeTableBytes_le hm rows seq par), rfl⟩

section

variable {c : BundleCodec} {file : Bytes} {base : StreamMap} {bound : Nat} {state : WriteState} {e : String}

variable (h : Writing c base bound state)

include h

theorem fullTable_ne_error (n seq : Nat) : state.fullTable n seq ≠ .error e := by
  intro he
  rcases bind_eq_error.mp he with henc | ⟨bytes, -, hret⟩
  · rw [encodeTable_eq h.ok.limits] at henc
    nomatch henc
  · nomatch hret

/-- A delta is refused only where the base of its group is missing. -/
theorem deltaTable_error (hori : Origin c file base bound state) {n seq : Nat}
    {par : BundleReference} (he : state.deltaTable n seq par = .error e) : e = "bundle group boundary is missing" := by
  unfold deltaTable at he
  split at he
  · have hu := h.after.ok base (h.merged ▸ h.ok)
    rw [encodeTable_eq hu.limits] at he
    nomatch he
  · rcases bind_eq_error.mp he with hmis | ⟨group, hg, he⟩
    · exact (okOr_eq_error hmis).2.symm
    · have hg := okOr_eq_ok.mp hg
      rcases hori with ⟨-, hn⟩ | ⟨r, hr, hc, hb, hini, hba⟩
      · rw [hn] at hg
        nomatch hg
      · obtain ⟨anc, old, hold, hcap, hgr, hle, hbef⟩ := hba group hg
        subst hcap
        have hall : Grown (payloadStart (some anc)) old state.streams :=
          hgr.trans ⟨state.updates, h.merged, h.after⟩ (by rw [hb]; exact hbef)
        obtain ⟨suy, hsum, ha, haf⟩ := groupUpdates_eq hall h.ok
        rw [hsum] at he
        have hl := (haf.ok old (ha ▸ h.ok)).limits
        change encodeTable n seq suy (some par) = .error e at he
        rw [encodeTable_eq hl] at he
        nomatch he

omit h in
theorem tableParent_error {n : Nat} (he : state.tableParent n = .error e) : e = "bundle group boundary is missing" := by
  unfold tableParent at he
  split at he
  · nomatch he
  · split at he
    · nomatch he
    · rcases bind_eq_error.mp he with hmis | ⟨parent, -, hret⟩
      · exact (okOr_eq_error hmis).2.symm
      · nomatch hret

theorem chooseTable_error (hori : Origin c file base bound state) {n seq : Nat}
    {par : Option BundleReference} (he : state.chooseTable n seq par = .error e) : e = "bundle group boundary is missing" := by
  cases par with
  | none => exact absurd he (fullTable_ne_error h n seq)
  | some par =>
    rcases bind_eq_error.mp he with hd | ⟨bytes, -, he⟩
    · exact deltaTable_error h hori hd
    · split at he
      · nomatch he
      · exact absurd he (fullTable_ne_error h n 1)

/-- The completion of a publication within the row limit is not refused for a limit of the format. -/
theorem finish_error (hori : Origin c file base bound state) (hfai : state.failed = false)
    {n : Nat} (hr : state.initialRows ≤ n) (hmax : n ≤ maxRows) (he : state.finish c n = .error e) : e ∉ formatLimits := by
  have hmis : "bundle group boundary is missing" ∉ formatLimits := by decide
  rcases bind_eq_error.mp he with hrej | ⟨-, -, he⟩
  · obtain ⟨hbad, -⟩ := rejectIf_eq_error hrej
    rw [hfai] at hbad
    rcases hbad with hbad | hbad | hbad
    · nomatch hbad
    · exact absurd hr (not_le.mpr hbad)
    · exact absurd hmax (not_le.mpr hbad)
  rcases bind_eq_error.mp he with hpar | ⟨par, hpar, he⟩
  · exact tableParent_error hpar ▸ hmis
  rcases bind_eq_error.mp he with ht | ⟨table, ht, he⟩
  · exact chooseTable_error h hori ht ▸ hmis
  have hseq : 0 < (state.parent.map fun par => nextSequence par.sequence).getD 1 ∧
      (state.parent.map fun par => nextSequence par.sequence).getD 1 ≤ u64Max := by
    cases state.parent with
    | none => exact ⟨Nat.one_pos, by decide⟩
    | some par => exact nextSequence_bounds par.sequence
  obtain ⟨-, hleh, -⟩ := chooseTable_chosen h hori hr hseq.1 hseq.2 hpar ht
  rcases bind_eq_error.mp he with hrej | ⟨-, -, he⟩
  · obtain ⟨hl, -⟩ := rejectIf_eq_error hrej
    have hrec := length_encodeRecord c table.bytes
    have hb : maxTableBytes = 4194304 := rfl
    omega
  rcases bind_eq_error.mp he with hs | ⟨stop, -, hret⟩
  · rcases bind_eq_error.mp hs with hrej | ⟨-, -, hove⟩
    · rw [← (rejectIf_eq_error hrej).2]
      decide
    · rw [← (okOr_eq_error hove).2]
      decide
  · nomatch hret

end

end Logex
