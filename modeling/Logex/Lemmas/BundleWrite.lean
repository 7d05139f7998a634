import Logex.Lemmas.BundleChain

/-!
# Writing a publication

`Writing` is the invariant of a writer between its writes: the file ends at its offset, the streams are well placed and hold the
bytes their checksums were taken of, and they are what this publication's updates make of the streams it started from. A
successful `finish` turns it into a chain of the returned reference, by a full table, a delta against the parent or a group summary.
-/

namespace Logex

open Lib List StreamMap Function WriteState

variable {codec : BundleCodec} {base : StreamMap} {state : WriteState} {bound : Nat} {snapshot : Snapshot} {id : StreamId}
  {file : Bytes} {m : StreamMap} {bytes : Bytes} {parent : Option BundleReference} {table : ChosenTable} {rowCount : Nat}
  {r : BundleReference} {size : Nat}

/-! ## Chunks and their extents -/

theorem chunksFrom_flatten (hs : 0 < size) : ∀ (fuel : Nat) (bytes : Bytes), bytes.length ≤ fuel →
    (chunksFrom size fuel bytes).flatten = bytes := by
  intro fuel
  induction fuel with
  | zero =>
    intro bytes h
    rw [eq_nil_of_length_eq_zero (Nat.le_zero.mp h)]
    rfl
  | succ fuel ih =>
    intro bytes h
    cases bytes with
    | nil => rfl
    | cons b bytes =>
      have hd : ((b :: bytes).drop size).length ≤ fuel := by
        rw [length_drop]
        omega
      rw [chunksFrom, flatten_cons, ih _ hd, take_append_drop]

theorem chunksFrom_bounds (hs : 0 < size) : ∀ (fuel : Nat) (bytes : Bytes),
    ∀ chu ∈ chunksFrom size fuel bytes, 0 < chu.length ∧ chu.length ≤ size := by
  intro fuel
  induction fuel with
  | zero =>
    intro bytes chu h
    cases h
  | succ fuel ih =>
    intro bytes chu h
    cases bytes with
    | nil => cases h
    | cons b bytes =>
      rcases mem_cons.mp h with rfl | h
      · simp only [length_take, length_cons]
        omega
      · exact ih _ chu h

theorem chunksFrom_length (hs : 0 < size) : ∀ (fuel : Nat) (bytes : Bytes),
    (chunksFrom size fuel bytes).length ≤ (bytes.length + size - 1) / size := by
  intro fuel
  induction fuel with
  | zero =>
    intro bytes
    exact Nat.zero_le _
  | succ fuel ih =>
    intro bytes
    cases bytes with
    | nil => exact Nat.zero_le _
    | cons b bytes =>
      have hr := ih ((b :: bytes).drop size)
      rw [chunksFrom, length_cons]
      rw [length_drop] at hr
      rw [Nat.le_div_iff_mul_le hs] at hr ⊢
      rw [Nat.add_mul, Nat.one_mul]
      have hpos : 0 < (b :: bytes).length := Nat.succ_pos _
      by_cases hle : (b :: bytes).length ≤ size
      · -- The last chunk: nothing is left over.
        have hz : (chunksFrom size fuel ((b :: bytes).drop size)).length = 0 := by
          rw [drop_eq_nil_of_le hle]
          cases fuel <;> rfl
        rw [hz]
        omega
      · omega

theorem chunks_flatten (bytes : Bytes) : (chunks maxExtentBytes bytes).flatten = bytes :=
  chunksFrom_flatten (by decide) _ _ le_rfl

/-- The bytes of the file an extent names. -/
def Extent.slice (file : Bytes) (e : Extent) : Bytes := (file.drop e.offset).take e.len

/-- The extent's checksum is the one of its bytes. -/
def Extent.Holds (codec : BundleCodec) (file : Bytes) (e : Extent) : Prop :=
  e.checksum = (codec.crc32 (e.slice file)).toNat

theorem Extent.slice_append (tail : Bytes) {e : Extent} (h : e.stop ≤ file.length) : e.slice (file ++ tail) = e.slice file := by
  simp only [Extent.stop] at h
  unfold Extent.slice
  rw [drop_append_of_le_length (by omega), take_append_of_le_length (by rw [length_drop]; omega)]

theorem extentsAt_spec (codec : BundleCodec) : ∀ (ps : List Bytes) (bef aft : Bytes),
    (∀ part ∈ ps, 0 < part.length ∧ part.length ≤ maxExtentBytes) →
    let extents := extentsAt codec bef.length ps
    extents.length = ps.length ∧ extentBytes extents = ps.flatten.length ∧
      extents.Pairwise (fun a b => a.stop ≤ b.offset) ∧
      (∀ e ∈ extents, e.Within bef.length (bef.length + ps.flatten.length)) ∧
      (∀ e ∈ extents, e.Holds codec (bef ++ ps.flatten ++ aft)) ∧
      extents.flatMap (fun e => e.slice (bef ++ ps.flatten ++ aft)) = ps.flatten := by
  intro ps
  induction ps with
  | nil =>
    intro bef aft _
    simp [extentsAt]
  | cons part ps ih =>
    intro bef aft hpa
    obtain ⟨hpos, hmax⟩ := hpa part mem_cons_self
    have hf : bef ++ part ++ ps.flatten ++ aft = bef ++ (part :: ps).flatten ++ aft := by simp
    have hbef : (bef ++ part).length = bef.length + part.length := length_append
    obtain ⟨h1, h2, h3, h4, h5, h6⟩ := ih (bef ++ part) aft (fun p hp => hpa p (mem_cons_of_mem _ hp))
    rw [hbef] at h1 h2 h3 h4 h5 h6
    rw [hf] at h5 h6
    have hs : Extent.slice (bef ++ (part :: ps).flatten ++ aft)
        ⟨bef.length, part.length, (codec.crc32 part).toNat⟩ = part := by
      simp [Extent.slice]
    have ht : (part :: ps).flatten.length = part.length + ps.flatten.length := by simp
    simp only [extentsAt]
    refine ⟨by rw [length_cons, length_cons, h1], by rw [extentBytes_cons, h2, ht], ?_, ?_, ?_, ?_⟩
    · exact pairwise_cons.mpr ⟨fun e he => (h4 e he).lower, h3⟩
    · intro e he
      rcases mem_cons.mp he with rfl | he
      · refine ⟨le_rfl, hpos, hmax, ?_, UInt32.toNat_lt _⟩
        simp only [Extent.stop, ht]
        omega
      · obtain ⟨w1, w2, w3, w4, w5⟩ := h4 e he
        exact ⟨by omega, w2, w3, by omega, w5⟩
    · intro e he
      rcases mem_cons.mp he with rfl | he
      · rw [Extent.Holds, hs]
      · exact h5 e he
    · rw [flatMap_cons, h6, hs, flatten_cons]

/-! ## The writer's invariant -/

/-- The bytes a stream holds. -/
def Stream.contents (file : Bytes) (s : Stream) : Bytes := s.inlined ++ s.extents.flatMap (Extent.slice file)

structure Writing (codec : BundleCodec) (base : StreamMap) (bound : Nat) (state : WriteState) : Prop where
  length : state.file.length = state.offset
  fits : state.offset ≤ u64Max
  magic : fileMagic <+: state.file
  bound_le : bound ≤ state.offset
  ok : state.streams.Ok fileMagic.length state.offset
  holds : ∀ id s, state.streams id = some s → ∀ e ∈ s.extents, e.Holds codec state.file
  merged : state.streams = StreamMap.apply base state.updates
  after : state.updates.After bound

theorem Stream.contents_append_file {a : Nat} (tail : Bytes) {s : Stream}
    (hm : m.Ok a file.length) (hs : m id = some s) : s.contents (file ++ tail) = s.contents file := by
  have hsli : s.extents.map (Extent.slice (file ++ tail)) = s.extents.map (Extent.slice file) :=
    map_congr_left fun e he => Extent.slice_append tail (hm.extent id s hs e he).upper
  rw [Stream.contents, Stream.contents, List.flatMap, List.flatMap, hsli]

theorem Stream.ok_empty (id : StreamId) : Stream.Ok id {} :=
  ⟨rfl, fun _ => rfl, fun _ => rfl, Nat.zero_le _, Nat.zero_le _, Nat.zero_le _, List.Pairwise.nil⟩

theorem StreamMap.Ok.orDefault {a limit : Nat} (h : m.Ok a limit) (id : StreamId) : (orDefault m id).Ok id := by
  cases hid : m id with
  | none =>
    rw [orDefault_none hid]
    exact Stream.ok_empty id
  | some s =>
    rw [orDefault_some hid]
    exact h.stream id s hid

theorem StreamMap.mem_orDefault {e : Extent} (he : e ∈ (orDefault m id).extents) : ∃ s, m id = some s ∧ e ∈ s.extents := by
  cases hid : m id with
  | none =>
    rw [orDefault_none hid] at he
    cases he
  | some s =>
    rw [orDefault_some hid] at he
    exact ⟨s, rfl, he⟩

/-- Setting one stream, to extents it already had or to new ones at the end of the file, keeps a map well placed. -/
theorem StreamMap.Ok.update {sta lim lim' : Nat} (h : m.Ok sta lim) (hl : lim ≤ lim')
    (hst : sta ≤ lim) {s : Stream} (hs : s.Ok id)
    (hext : ∀ e ∈ s.extents, (∃ o, m id = some o ∧ e ∈ o.extents) ∨ e.Within lim lim') :
    StreamMap.Ok sta lim' (Function.update m id (some s)) := by
  have hap : ∀ e ∈ s.extents, ∀ id' s', id' ≠ id → m id' = some s' → ∀ e' ∈ s'.extents,
      e'.stop ≤ e.offset ∨ e.stop ≤ e'.offset := by
    intro e he id' s' hne hs' e' he'
    rcases hext e he with ⟨o, ho, heo⟩ | hnew
    · exact h.disjoint id' id s' o hne hs' ho e' he' e heo
    · exact Or.inl (le_trans (h.extent id' s' hs' e' he').upper hnew.lower)
  refine ⟨?_, ?_, ?_⟩
  · intro id' s' hs'
    by_cases hne : id' = id
    · subst hne
      rw [update_self] at hs'
      cases hs'
      exact hs
    · rw [update_of_ne hne] at hs'
      exact h.stream id' s' hs'
  · intro id' s' hs' e he
    by_cases hne : id' = id
    · subst hne
      rw [update_self] at hs'
      cases hs'
      rcases hext e he with ⟨o, ho, heo⟩ | ⟨h1, h2, h3, h4, h5⟩
      · obtain ⟨h1, h2, h3, h4, h5⟩ := h.extent id' o ho e heo
        exact ⟨h1, h2, h3, le_trans h4 hl, h5⟩
      · exact ⟨le_trans hst h1, h2, h3, h4, h5⟩
    · rw [update_of_ne hne] at hs'
      obtain ⟨h1, h2, h3, h4, h5⟩ := h.extent id' s' hs' e he
      exact ⟨h1, h2, h3, le_trans h4 hl, h5⟩
  · intro a b sa sb hab ha hb e he e' he'
    by_cases haid : a = id
    · subst haid
      rw [update_self] at ha
      rw [update_of_ne (Ne.symm hab)] at hb
      cases ha
      exact (hap e he b sb (Ne.symm hab) hb e' he').symm
    · rw [update_of_ne haid] at ha
      by_cases hbid : b = id
      · subst hbid
        rw [update_self] at hb
        cases hb
        exact hap e' he' a sa hab ha e he
      · rw [update_of_ne hbid] at hb
        exact h.disjoint a b sa sb hab ha hb e he e' he'

/-- The writer after one stream and its update were set and payload bytes were appended. -/
def WriteState.put (state : WriteState) (id : StreamId) (stream update : Stream) (payload : Bytes) : WriteState :=
  { state with
    file := state.file ++ payload
    offset := state.offset + payload.length
    streams := Function.update state.streams id (some stream)
    updates := Function.update state.updates id (some update) }

theorem Writing.put (h : Writing codec base bound state) {st upd : Stream} {pl : Bytes}
    (hf : state.offset + pl.length ≤ u64Max) (hs : st.Ok id)
    (hext : ∀ e ∈ st.extents, (∃ o, state.streams id = some o ∧ e ∈ o.extents) ∨
      e.Within state.offset (state.offset + pl.length) ∧ e.Holds codec (state.file ++ pl))
    (hmer : st = if id < dataStreams then (orDefault base id).append upd else upd)
    (hsi : upd.len = extentBytes upd.extents + upd.inlined.length)
    (hb : ∀ e ∈ upd.extents, bound ≤ e.offset) : Writing codec base bound (state.put id st upd pl) := by
  have hsta : fileMagic.length ≤ state.offset := by
    rw [← h.length]
    exact h.magic.length_le
  have hk : ∀ id s, state.streams id = some s → ∀ e ∈ s.extents, e.Holds codec (state.file ++ pl) := by
    intro id s hid e he
    have hst := (h.ok.extent id s hid e he).upper
    rw [← h.length] at hst
    rw [Extent.Holds, Extent.slice_append pl hst]
    exact h.holds id s hid e he
  refine ⟨?_, hf, h.magic.trans (prefix_append _ _), le_trans h.bound_le (Nat.le_add_right _ _), ?_, ?_, ?_, ?_⟩
  · simp [WriteState.put, h.length]
  · exact h.ok.update (Nat.le_add_right _ _) hsta hs (fun e he => (hext e he).imp_right And.left)
  · intro id' s' hs' e he
    simp only [WriteState.put] at hs' ⊢
    by_cases hne : id' = id
    · subst hne
      rw [update_self] at hs'
      cases hs'
      rcases hext e he with ⟨o, ho, heo⟩ | ⟨_, hnew⟩
      · exact hk id' o ho e heo
      · exact hnew
    · rw [update_of_ne hne] at hs'
      exact hk id' s' hs' e he
  · funext id'
    by_cases hne : id' = id
    · subst hne
      simp [WriteState.put, StreamMap.apply, ← hmer]
    · simp only [WriteState.put, StreamMap.apply, update_of_ne hne]
      exact congrFun h.merged id'
  · intro id' u hu
    simp only [WriteState.put] at hu
    by_cases hne : id' = id
    · subst hne
      rw [update_self] at hu
      cases hu
      exact ⟨hsi, hb⟩
    · rw [update_of_ne hne] at hu
      exact h.after id' u hu

/-! ## One write -/

/-- What the abstract snapshot of a bundle records: the bytes of every stream written so far. -/
abbrev Snapshot := Nat → Option Bytes

/-- One write, as it is meant: data is appended, metadata is replaced. -/
def Snapshot.record (snapshot : Snapshot) : BundleWrite → Snapshot
  | .appendData id bytes =>
    if id < dataStreams then Function.update snapshot id (some ((snapshot id).getD [] ++ bytes)) else snapshot
  | .replaceMetadata id bytes =>
    if dataStreams ≤ id ∧ id < streamCount then Function.update snapshot id (some bytes) else snapshot

/-- The streams of a map hold the bytes of a snapshot. -/
def StreamMap.Shows (m : StreamMap) (file : Bytes) (snapshot : Snapshot) : Prop :=
  (∀ id : StreamId, (m id).map (Stream.contents file) = snapshot id) ∧ ∀ id, streamCount ≤ id → snapshot id = none

/-- What a writer started from is left alone by its writes, and its file only grows. -/
structure SameOrigin (a b : WriteState) : Prop where
  file : a.file <+: b.file
  parent : b.parent = a.parent
  groupBase : b.groupBase = a.groupBase
  initialRows : b.initialRows = a.initialRows

theorem SameOrigin.refl (a : WriteState) : SameOrigin a a := ⟨prefix_refl _, rfl, rfl, rfl⟩

theorem SameOrigin.trans {a b c : WriteState} (h : SameOrigin a b) (h' : SameOrigin b c) : SameOrigin a c :=
  ⟨h.file.trans h'.file, h'.parent.trans h.parent, h'.groupBase.trans h.groupBase, h'.initialRows.trans h.initialRows⟩

theorem WriteState.put_sameOrigin (state : WriteState) (id : StreamId) (st u : Stream) (pl : Bytes) :
    SameOrigin state (state.put id st u pl) := ⟨prefix_append _ _, rfl, rfl, rfl⟩

theorem Writing.put_shows (h : Writing codec base bound state) (hsh : state.streams.Shows state.file snapshot)
    {st u : Stream} {pl bytes : Bytes}
    (hc : st.contents (state.file ++ pl) = bytes) : (state.put id st u pl).streams.Shows (state.put id st u pl).file
      (Function.update snapshot id (some bytes)) := by
  constructor
  · intro id'
    by_cases hne : id' = id
    · subst hne
      simp [WriteState.put, hc]
    · have hval : id'.val ≠ id.val := fun heq => hne (Fin.ext heq)
      simp only [WriteState.put, update_of_ne hne, update_of_ne hval]
      rw [← hsh.1 id']
      cases hs : state.streams id' with
      | none => rfl
      | some s =>
        have hok := h.ok
        rw [← h.length] at hok
        rw [Option.map_some, Option.map_some, Stream.contents_append_file pl hok hs]
  · intro id' hid'
    have hval : id' ≠ id.val := by
      omega
    rw [update_of_ne hval]
    exact hsh.2 id' hid'

/-- The bytes of a stream not written yet count as none. -/
theorem shows_orDefault (h : m.Shows file snapshot) (id : StreamId) : (orDefault m id).contents file = (snapshot id).getD [] := by
  rw [← h.1 id]
  cases hid : m id with
  | none => rw [orDefault_none hid]; rfl
  | some s => rw [orDefault_some hid]; rfl

theorem inlineIndex_data (h : inlineIndex id = true) : id < dataStreams := by
  simp only [inlineIndex, decide_eq_true_eq] at h
  exact h.2

theorem inlineIndex_metadata (h : ¬id < dataStreams) : inlineIndex id = false :=
  Bool.eq_false_iff.mpr fun hinl => h (inlineIndex_data hinl)

theorem WriteState.appendInline_eq_put (state : WriteState) (id : StreamId) (bytes : Bytes) : state.appendInline id bytes =
      state.put id ((orDefault state.streams id).append ⟨bytes.length, [], bytes⟩)
        ((orDefault state.updates id).append ⟨bytes.length, [], bytes⟩) [] := by
  simp [appendInline, WriteState.put, Stream.append]

theorem WriteState.appendPayload_eq_put (codec : BundleCodec) (state : WriteState) (id : StreamId) (bytes : Bytes) :
    state.appendPayload codec id bytes false ((orDefault state.streams id).len + bytes.length) = state.put id
        ((orDefault state.streams id).append ⟨bytes.length, extentsAt codec state.offset (chunks maxExtentBytes bytes), []⟩)
        ((orDefault state.updates id).append ⟨bytes.length, extentsAt codec state.offset (chunks maxExtentBytes bytes), []⟩)
        bytes := by
  simp [appendPayload, WriteState.put, Stream.append]

/-- Growing an append-only stream by extents at the end of the file, or by inline bytes, keeps the invariant. -/
theorem Writing.grow (h : Writing codec base bound state) (hid : id < dataStreams) {w : Stream} {pl : Bytes}
    (hf : state.offset + pl.length ≤ u64Max) (hs : ((orDefault state.streams id).append w).Ok id)
    (hw : w.len = extentBytes w.extents + w.inlined.length)
    (hext : ∀ e ∈ w.extents, e.Within state.offset (state.offset + pl.length) ∧ e.Holds codec (state.file ++ pl)) :
    Writing codec base bound (state.put id ((orDefault state.streams id).append w)
      ((orDefault state.updates id).append w) pl) := by
  have hup := h.after.ok base (by rw [← h.merged]; exact h.ok)
  have hupd := hup.orDefault id
  refine h.put hf hs ?_ ?_ ?_ ?_
  · intro e he
    rcases mem_append.mp he with he | he
    · exact Or.inl (mem_orDefault he)
    · exact Or.inr (hext e he)
  · rw [if_pos hid, ← Stream.append_assoc, ← orDefault_apply hid, ← h.merged]
  · have hsi := hupd.size
    simp only [Stream.append, extentBytes_append, length_append]
    omega
  · intro e he
    rcases mem_append.mp he with he | he
    · obtain ⟨u, hu, he⟩ := mem_orDefault he
      exact (h.after id u hu).2 e he
    · exact le_trans h.bound_le (hext e he).1.lower

/-- The extents of one payload write. -/
theorem Writing.payloadExtents (h : Writing codec base bound state) (bytes : Bytes) :
    let extents := extentsAt codec state.offset (chunks maxExtentBytes bytes)
    extents.length ≤ (bytes.length + maxExtentBytes - 1) / maxExtentBytes ∧ extentBytes extents = bytes.length ∧
      extents.Pairwise (fun a b => a.stop ≤ b.offset) ∧
      (∀ e ∈ extents, e.Within state.offset (state.offset + bytes.length) ∧ e.Holds codec (state.file ++ bytes)) ∧
      extents.flatMap (Extent.slice (state.file ++ bytes)) = bytes := by
  obtain ⟨h1, h2, h3, h4, h5, h6⟩ := extentsAt_spec codec (chunks maxExtentBytes bytes) state.file []
    (chunksFrom_bounds (by decide) _ bytes)
  rw [chunks_flatten, append_nil, h.length] at *
  refine ⟨?_, h2, h3, fun e he => ⟨h4 e he, h5 e he⟩, h6⟩
  rw [h1]
  exact chunksFrom_length (by decide) _ bytes

/-- The outcome of a successful write. -/
def Wrote (codec : BundleCodec) (base : StreamMap) (bound : Nat) (state : WriteState) (snapshot : Snapshot)
    (state' : WriteState) : Prop :=
  Writing codec base bound state' ∧ SameOrigin state state' ∧ state'.streams.Shows state'.file snapshot

theorem Writing.appendInline (h : Writing codec base bound state) (hsh : state.streams.Shows state.file snapshot)
    (hinl : inlineIndex id = true) (hin : (orDefault state.streams id).inlined.length + bytes.length ≤ indexBytes) :
    Wrote codec base bound state (snapshot.record (.appendData id bytes)) (state.appendInline id bytes) := by
  rw [appendInline_eq_put]
  have hid := inlineIndex_data hinl
  have hs := h.ok.orDefault id
  have hn := hs.noExtents hinl
  have hlen : (orDefault state.streams id).len = (orDefault state.streams id).inlined.length := by
    rw [hs.size, hn, extentBytes_nil, Nat.zero_add]
  have hf : state.offset + ([] : Bytes).length ≤ u64Max := h.fits
  refine ⟨h.grow hid hf ?_ (by simp) (by simp), put_sameOrigin _ _ _ _ _, ?_⟩
  · simp only [Stream.append, hn, append_nil]
    refine ⟨?_, fun _ => rfl, ?_, Nat.zero_le _, ?_, ?_, List.Pairwise.nil⟩
    · simp only [extentBytes_nil, length_append]
      omega
    · intro hno
      rw [hinl] at hno
      cases hno
    · rw [length_append]
      exact hin
    · have hle : (orDefault state.streams id).len + bytes.length ≤ indexBytes := by omega
      exact Nat.le_trans hle (by decide)
  · rw [Snapshot.record, if_pos hid]
    apply h.put_shows hsh
    rw [← shows_orDefault hsh id]
    simp [Stream.contents, Stream.append, hn]

theorem Writing.appendPayload (h : Writing codec base bound state) (hsh : state.streams.Shows state.file snapshot)
    (hid : id < dataStreams) (hpay : inlineIndex id = false)
    (hc : (orDefault state.streams id).extents.length + (bytes.length + maxExtentBytes - 1) / maxExtentBytes ≤
      maxExtents) (hlen : (orDefault state.streams id).len + bytes.length ≤ u64Max) (hf : state.offset + bytes.length ≤ u64Max) :
    Wrote codec base bound state (snapshot.record (.appendData id bytes))
      (state.appendPayload codec id bytes false ((orDefault state.streams id).len + bytes.length)) := by
  rw [appendPayload_eq_put]
  obtain ⟨e1, e2, e3, e4, e5⟩ := h.payloadExtents bytes
  have hs := h.ok.orDefault id
  have hn := hs.noInline hpay
  have hsi := hs.size
  rw [hn] at hsi
  refine ⟨h.grow hid hf ?_ (by simp [e2]) e4, put_sameOrigin _ _ _ _ _, ?_⟩
  · simp only [Stream.append, hn, append_nil]
    refine ⟨?_, ?_, fun _ => rfl, ?_, Nat.zero_le _, hlen, ?_⟩
    · rw [extentBytes_append, e2, hsi]
      rfl
    · intro hno
      rw [hpay] at hno
      cases hno
    · rw [length_append]
      omega
    · refine pairwise_append.mpr ⟨hs.ordered, e3, ?_⟩
      intro a ha b hb
      obtain ⟨s, hs, ha⟩ := mem_orDefault ha
      exact le_trans (h.ok.extent id s hs a ha).upper (e4 b hb).1.lower
  · rw [Snapshot.record, if_pos hid]
    apply h.put_shows hsh
    have hold : (orDefault state.streams id).contents (state.file ++ bytes) = (snapshot id).getD [] := by
      rw [← shows_orDefault hsh id]
      cases hsid : state.streams id with
      | none => rw [orDefault_none hsid]; rfl
      | some s =>
        have hok := h.ok
        rw [← h.length] at hok
        rw [orDefault_some hsid, Stream.contents_append_file bytes hok hsid]
    rw [← hold]
    simp [Stream.contents, Stream.append, hn, e5]

theorem Writing.replacePayload (h : Writing codec base bound state) (hs : state.streams.Shows state.file snapshot)
    (hid : ¬id < dataStreams)
    (hc : (bytes.length + maxExtentBytes - 1) / maxExtentBytes ≤ maxExtents) (hlen : bytes.length ≤ u64Max)
    (hf : state.offset + bytes.length ≤ u64Max) : Wrote codec base bound state (snapshot.record (.replaceMetadata id bytes))
      (state.appendPayload codec id bytes true bytes.length) := by
  have hpay := inlineIndex_metadata hid
  obtain ⟨e1, e2, e3, e4, e5⟩ := h.payloadExtents bytes
  have hu := h.after.ok base (by rw [← h.merged]; exact h.ok)
  have hstr := (h.ok.orDefault id).noInline hpay
  have hupd := (hu.orDefault id).noInline hpay
  have hput : state.appendPayload codec id bytes true bytes.length =
      state.put id ⟨bytes.length, extentsAt codec state.offset (chunks maxExtentBytes bytes), []⟩
        ⟨bytes.length, extentsAt codec state.offset (chunks maxExtentBytes bytes), []⟩ bytes := by
    simp [WriteState.appendPayload, WriteState.put, hstr, hupd]
  rw [hput]
  refine ⟨h.put hf ?_ (fun e he => Or.inr (e4 e he)) (by rw [if_neg hid]) (by simp [e2]) ?_,
    WriteState.put_sameOrigin _ _ _ _ _, ?_⟩
  · refine ⟨by simp [e2], ?_, fun _ => rfl, le_trans e1 hc, Nat.zero_le _, hlen, e3⟩
    intro hno
    rw [hpay] at hno
    cases hno
  · intro e he
    exact le_trans h.bound_le (e4 e he).1.lower
  · rw [Snapshot.record, if_pos ⟨not_lt.mp hid, id.isLt⟩]
    apply h.put_shows hs
    simp [Stream.contents, e5]

/-- A payload write that succeeds has passed its checks. -/
theorem WriteState.payload_of_ok {st' : WriteState} {rep : Bool} {prev : Stream} (hpay : inlineIndex id = false)
    (hp : (if rep then {} else orDefault state.streams id) = prev) (hw : state.writeStream codec id bytes rep = .ok st') :
    prev.extents.length + (bytes.length + maxExtentBytes - 1) / maxExtentBytes ≤ maxExtents ∧ prev.len + bytes.length ≤ u64Max ∧
      state.offset + bytes.length ≤ u64Max ∧ st' = state.appendPayload codec id bytes rep (prev.len + bytes.length) := by
  obtain ⟨_, hw⟩ := rejectIf_bind.mp hw
  simp only [hpay, Bool.false_eq_true, if_false, hp] at hw
  obtain ⟨hc, hw⟩ := rejectIf_bind.mp hw
  obtain ⟨len, hlen, hw⟩ := bind_eq_ok.mp hw
  obtain ⟨stop, hs, hw⟩ := bind_eq_ok.mp hw
  obtain ⟨rfl, hmax⟩ := checkedAdd_eq_some.mp (okOr_eq_ok.mp hlen)
  obtain ⟨_, hs⟩ := checkedAdd_eq_some.mp (okOr_eq_ok.mp hs)
  exact ⟨not_lt.mp hc, hmax, hs, (Except.ok.inj hw).symm⟩

/-- A successful append to a data stream appends its bytes. -/
theorem Writing.appendData {state st' : WriteState}
    (h : Writing codec base bound state) (hsh : state.streams.Shows state.file snapshot)
    (id : StreamId) (hid : id < dataStreams) (hw : state.writeStream codec id bytes false = .ok st') :
    Wrote codec base bound state (snapshot.record (.appendData id bytes)) st' := by
  cases hinl : inlineIndex id with
  | true =>
    obtain ⟨_, hw⟩ := rejectIf_bind.mp hw
    simp only [hinl, if_true] at hw
    obtain ⟨hin, hw⟩ := rejectIf_bind.mp hw
    cases hw
    exact h.appendInline hsh hinl (not_lt.mp hin)
  | false =>
    obtain ⟨hc, hmax, hs, rfl⟩ := payload_of_ok hinl (if_neg Bool.false_ne_true) hw
    exact h.appendPayload hsh hid hinl hc hmax hs

/-- A successful replacement of a metadata stream leaves exactly its bytes. -/
theorem Writing.replaceMetadata {state st' : WriteState}
    (h : Writing codec base bound state) (hsh : state.streams.Shows state.file snapshot)
    (id : StreamId) (hid : ¬id < dataStreams) (hw : state.writeStream codec id bytes true = .ok st') :
    Wrote codec base bound state (snapshot.record (.replaceMetadata id bytes)) st' := by
  obtain ⟨hc, hmax, hs, rfl⟩ := payload_of_ok (inlineIndex_metadata hid) (if_pos rfl) hw
  simp only [length_nil, Nat.zero_add] at hc hmax ⊢
  exact h.replacePayload hsh hid hc hmax hs

theorem Writing.write {state st' : WriteState} (h : Writing codec base bound state) (hs : state.streams.Shows state.file snapshot)
    {w : BundleWrite} (hw : state.write codec w = .ok st') : Wrote codec base bound state (snapshot.record w) st' := by
  cases w with
  | appendData id bytes =>
    simp only [WriteState.write, WriteState.appendData] at hw
    split at hw
    · next hid =>
      exact h.appendData hs ⟨id, lt_trans hid (by decide)⟩ hid hw
    · cases hw
  | replaceMetadata id bytes =>
    simp only [WriteState.write, WriteState.replaceMetadata] at hw
    split at hw
    · next hid =>
      exact h.replaceMetadata hs ⟨id, hid.2⟩ (not_lt.mpr hid.1) hw
    · cases hw

/-- All writes of a publication, in order. -/
theorem Writing.writes (ws : List BundleWrite) :
    ∀ {state st' : WriteState} {snapshot : Snapshot}, Writing codec base bound state →
      state.streams.Shows state.file snapshot → ws.foldlM (WriteState.write codec) state = .ok st' →
      Wrote codec base bound state (ws.foldl Snapshot.record snapshot) st' := by
  induction ws with
  | nil =>
    intro state st' snapshot h hs hf
    cases hf
    exact ⟨h, SameOrigin.refl _, hs⟩
  | cons w ws ih =>
    intro state st' snapshot h hs hf
    obtain ⟨mid, hmid, hf⟩ := bind_eq_ok.mp hf
    obtain ⟨h1, ho1, hs1⟩ := h.write hs hmid
    obtain ⟨h2, ho2, hs2⟩ := ih h1 hs1 hf
    exact ⟨h2, ho1.trans ho2, hs2⟩

/-! ## Completion -/

/-- A table spans at most its own sequence. -/
theorem tableSpan_le {n : Nat} (h : 0 < n) : tableSpan n ≤ n := by
  have hdvd := pow_trailingZerosFrom_dvd 64 n
  have hle : trailingZeros n / groupBits * groupBits ≤ trailingZeros n := Nat.div_mul_le_self _ _
  exact le_trans (Nat.pow_le_pow_right (by decide) hle) (Nat.le_of_dvd h hdvd)

theorem nextSequence_bounds (n : Nat) : 0 < nextSequence n ∧ nextSequence n ≤ u64Max := by
  unfold nextSequence checkedAdd
  split
  · next hle => exact ⟨Nat.succ_pos n, hle⟩
  · exact ⟨Nat.one_pos, by decide⟩

/-- Where a publication starts: a new file, or the snapshot of its parent. -/
def Origin (codec : BundleCodec) (file : Bytes) (base : StreamMap) (bound : Nat) (state : WriteState) : Prop :=
  state.parent = none ∧ state.groupBase = none ∨
    ∃ r, state.parent = some r ∧ Chain codec file r base ∧ bound = payloadStart (some r) ∧ state.initialRows = r.rowCount ∧
      ∀ gb, state.groupBase = some gb → BaseOf codec file r base gb

theorem Origin.same {a b : WriteState}
    (h : Origin codec file base bound a) (hs : SameOrigin a b) : Origin codec file base bound b := by
  unfold Origin
  rw [hs.parent, hs.groupBase, hs.initialRows]
  exact h

theorem encodeTable_eq_ok {rows seq : Nat} (h : encodeTable rows seq m parent = .ok bytes) :
    bytes = encodeTableBytes rows seq m parent ∧ bytes.length ≤ maxTableBytes := by
  obtain ⟨hc, hb⟩ := rejectIf_bind.mp h
  cases hb
  exact ⟨rfl, not_lt.mp hc⟩

/-- What a writer encodes: all its streams, the updates of this publication, or the summary of its group. -/
def WriteState.Encodes (state : WriteState) (m : StreamMap) : Prop :=
  m = state.streams ∨ m = state.updates ∨ ∃ base, state.groupBase = some base ∧ groupUpdates state.streams base = .ok m

/-- The table chosen for a publication: the bytes of a full table, or of a delta that leads from a chain to the streams. -/
def Chosen (codec : BundleCodec) (file : Bytes) (state : WriteState) (rowCount : Nat) (table : ChosenTable) : Prop :=
  table.sequence ≤ u64Max ∧ table.bytes.length ≤ maxTableBytes ∧
    ((table.bytes = encodeTableBytes rowCount table.sequence state.streams none ∧ table.depth = 1 ∧
        table.chainBytes = table.bytes.length ∧ tableSpan table.sequence = table.sequence) ∨
      ∃ parent old update, state.Encodes update ∧ Chain codec file parent old ∧ StreamMap.apply old update = state.streams ∧
        update.After (payloadStart (some parent)) ∧ payloadStart (some parent) ≤ state.offset ∧ parent.rowCount ≤ rowCount ∧
        table.bytes = encodeTableBytes rowCount table.sequence update (some parent) ∧
        parent.sequence + tableSpan table.sequence = table.sequence ∧ table.depth = parent.depth + 1 ∧
        table.chainBytes = parent.chainBytes + table.bytes.length)

theorem fullTable_chosen {rowCount seq : Nat} (h : state.fullTable rowCount seq = .ok table) (hmax : seq ≤ u64Max)
    (hs : tableSpan seq = seq) : Chosen codec file state rowCount table := by
  obtain ⟨bytes, hb, ht⟩ := bind_eq_ok.mp h
  obtain ⟨rfl, hlen⟩ := encodeTable_eq_ok hb
  cases ht
  exact ⟨hmax, hlen, Or.inl ⟨rfl, rfl, rfl, hs⟩⟩

/-- The parent of a table carries the sequence the table's span leads back to. -/
theorem tableParent_sequence {n : Nat} (h : state.tableParent n = .ok parent) :
    (n = 0 ∧ parent = none) ∨ ∃ p, parent = some p ∧ p.sequence = n ∧
      (state.parent = some p ∨ ∃ gb, state.groupBase = some gb ∧ gb.reference = p) := by
  unfold tableParent at h
  split at h
  · next hn => exact Or.inl ⟨hn, (Except.ok.inj h).symm⟩
  · split at h
    · next hany =>
      obtain ⟨p, hp, hseq⟩ := (Option.any_eq_true _ _).mp hany
      cases h
      exact Or.inr ⟨p, hp, of_decide_eq_true hseq, Or.inl hp⟩
    · obtain ⟨p, hp, h⟩ := bind_eq_ok.mp h
      cases h
      obtain ⟨hmap, hseq⟩ := Option.filter_eq_some_iff.mp (okOr_eq_ok.mp hp)
      obtain ⟨gb, hgb, hp⟩ := Option.map_eq_some_iff.mp hmap
      exact Or.inr ⟨p, rfl, of_decide_eq_true hseq, Or.inr ⟨gb, hgb, hp⟩⟩

variable (h : Writing codec base bound state)

include h

variable (hori : Origin codec file base bound state)

include hori

theorem chooseTable_chosen {rowCount seq : Nat} (hro : state.initialRows ≤ rowCount) (hpos : 0 < seq) (hmax : seq ≤ u64Max)
    (hpar : state.tableParent (seq - tableSpan seq) = .ok parent) (ht : state.chooseTable rowCount seq parent = .ok table) :
    Chosen codec file state rowCount table := by
  have hs := tableSpan_le hpos
  rcases tableParent_sequence hpar with ⟨hz, rfl⟩ | ⟨p, rfl, hseq, hsou⟩
  · exact fullTable_chosen ht hmax (by omega)
  · obtain ⟨bytes, hb, ht⟩ := bind_eq_ok.mp ht
    have hsum : p.sequence + tableSpan seq = seq := by omega
    split at ht
    · -- A delta within the budget, against the parent itself or against the captured base of the group.
      obtain rfl := Except.ok.inj ht
      refine ⟨hmax, ?_⟩
      rcases hori with ⟨hn, hnob⟩ | ⟨r, hr, hc, hbo, hini, hba⟩
      · rcases hsou with hsou | ⟨gb, hgb, _⟩
        · rw [hn] at hsou
          cases hsou
        · rw [hnob] at hgb
          cases hgb
      · unfold deltaTable at hb
        by_cases heq : state.parent = some p
        · rw [if_pos heq] at hb
          obtain ⟨rfl, hlen⟩ := encodeTable_eq_ok hb
          rw [hr] at heq
          obtain rfl := Option.some.inj heq
          refine ⟨hlen, Or.inr ⟨r, base, state.updates, .inr (.inl rfl), hc, h.merged.symm, ?_, ?_, ?_, rfl, hsum, rfl, rfl⟩⟩
          · rw [← hbo]
            exact h.after
          · rw [← hbo]
            exact h.bound_le
          · omega
        · rw [if_neg heq] at hb
          rcases hsou with hsou | ⟨gb, hgb, hp⟩
          · exact absurd hsou heq
          obtain ⟨gb', hgb', hb⟩ := bind_eq_ok.mp hb
          rw [okOr_eq_ok, hgb] at hgb'
          obtain rfl := Option.some.inj hgb'
          obtain ⟨update, hupd, hb⟩ := bind_eq_ok.mp hb
          obtain ⟨anc, old, hold, hcap, hg, hle, hbef⟩ := hba gb hgb
          subst hcap
          obtain rfl : anc = p := hp
          have hall : Grown (payloadStart (some anc)) old state.streams :=
            hg.trans ⟨state.updates, h.merged, h.after⟩ (by rw [hbo]; exact hbef)
          obtain ⟨summary, hsuy, ha, haf⟩ := groupUpdates_eq (r := anc) hall h.ok
          rw [hsuy] at hupd
          obtain rfl := Except.ok.inj hupd
          obtain ⟨rfl, hlen⟩ := encodeTable_eq_ok hb
          have hst := h.bound_le
          exact ⟨hlen, Or.inr ⟨anc, old, summary, .inr (.inr ⟨_, hgb, hsuy⟩), hold, ha, haf, by omega, by omega, rfl, hsum,
            rfl, rfl⟩⟩
    · -- The chain's budget is spent: a full table restarts the counter.
      exact fullTable_chosen ht (by decide) (by decide)

omit hori in
/-- The table that was chosen decodes, by the reference it gets, to the map and the parent it was encoded from. -/
theorem Chosen.decoded (hcho : Chosen codec file state rowCount table)
    {stop : Nat} (hst : (state.referenceTo codec rowCount table).stop = .ok stop) :
    ∃ m parent, state.Encodes m ∧ encodeTable rowCount table.sequence m parent = .ok table.bytes ∧
      decodeTable table.bytes (state.referenceTo codec rowCount table) = .ok (m, parent) := by
  have hbou := (BundleReference.stop_facts hst).2
  obtain ⟨hmax, hb, hca⟩ := hcho
  suffices hlin : ∃ m parent, state.Encodes m ∧ table.bytes = encodeTableBytes rowCount table.sequence m parent ∧
      Linked (state.referenceTo codec rowCount table) table.bytes.length parent ∧ m.Ok (payloadStart parent) state.offset by
    obtain ⟨m, parent, henc, hend, hl, hok⟩ := hlin
    rw [hend] at hb hl
    refine ⟨m, parent, henc, ?_, ?_⟩
    · rw [hend]
      exact rejectIf_bind.mpr ⟨not_lt.mpr hb, rfl⟩
    · rw [hend]
      exact decodeTable_encoded hb hbou.rowCount hmax h.fits hl hok
  rcases hca with ⟨hf, hd, hc, hs⟩ |
    ⟨p, old, update, henc, hp, ha, haf, hbef, hpr, hde, hs, hd, hc⟩
  · exact ⟨state.streams, none, .inl rfl, hf, ⟨hd, hc, hs⟩, h.ok⟩
  · have hok := h.ok
    rw [← ha] at hok
    exact ⟨update, some p, henc, hde, ⟨hp.inside.stop, hbef, hpr, hs, hd.symm, hc.symm, hp.inside.checksum⟩, haf.ok old hok⟩

omit hori in
/-- The table that was chosen, written at the end of the file, continues its chain. -/
theorem Chosen.chain (hfi : file <+: state.file)
    (hcho : Chosen codec file state rowCount table) (hr : r = state.referenceTo codec rowCount table)
    (hst : r.stop = .ok (r.tableOffset + r.tableLen)) :
    Chain codec (state.file ++ encodeRecord codec table.bytes) r state.streams := by
  have hbou := (BundleReference.stop_facts hst).2
  have hro : r.rowCount = rowCount := by rw [hr]; rfl
  have hoff : r.tableOffset = state.file.length := by rw [hr, h.length]; rfl
  have hlen : r.tableLen = (encodeRecord codec table.bytes).length := by rw [hr]; rfl
  have hche : r.checksum = (codec.crc32 (encodeRecord codec table.bytes)).toNat := by rw [hr]; rfl
  have hseq : r.sequence = table.sequence := by rw [hr]; rfl
  have hde : r.depth = table.depth := by rw [hr]; rfl
  have hch : r.chainBytes = table.chainBytes := by rw [hr]; rfl
  obtain ⟨hmax, hb, hc⟩ := hcho
  have hins : r.Inside (state.file ++ encodeRecord codec table.bytes) := by
    refine ⟨hst, ?_, by omega, ?_⟩
    · rw [length_append]
      omega
    · rw [hche]
      exact UInt32.toNat_lt _
  have hf : r.tableOffset ≤ u64Max := by
    rw [hoff, h.length]
    exact h.fits
  have hok : state.streams.Ok fileMagic.length r.tableOffset := by
    rw [hoff, h.length]
    exact h.ok
  rcases hc with ⟨hfu, hdepth1, hchain1, hs⟩ |
    ⟨p, old, update, -, hp, hap, ha, hbef, hpr, hd, hs, hdepth1, hchain1⟩
  · refine Chain.full hins (by omega) ?_ hok
    rw [hfu, ← hro, ← hseq] at hlen hche hb hchain1 ⊢
    rw [← append_nil (state.file ++ _)]
    exact tableAt_encoded codec hoff hlen hche hb (by omega) hbou.rowCount (by omega) hf
      ⟨by omega, by omega, by rw [hseq]; exact hs⟩ hok
  · have hp' : Chain codec (state.file ++ encodeRecord codec table.bytes) p old := by
      obtain ⟨tail, ht⟩ := hfi.trans (prefix_append state.file (encodeRecord codec table.bytes))
      rw [← ht]
      exact hp.append tail
    have hbef' : payloadStart (some p) ≤ r.tableOffset := by
      rw [hoff, h.length]
      exact hbef
    rw [← hap] at hok ⊢
    refine Chain.delta hins hp' (by omega) (by omega) hbef' ?_ ha hok
    rw [hd, ← hro, ← hseq] at hlen hche hb hchain1 ⊢
    rw [← append_nil (state.file ++ _)]
    exact tableAt_encoded codec hoff hlen hche hb (by omega) hbou.rowCount (by omega) hf
      ⟨hp.inside.stop, hbef', by omega, by rw [hseq]; exact hs, by omega, by omega, hp.inside.checksum⟩
      (ha.ok old hok)

/-- A completed publication has chosen a table, referred to it and written it at the end of the file. -/
theorem Writing.finish_chosen {file' : Bytes} (hfin : state.finish codec rowCount = .ok (r, file')) :
    ∃ table, Chosen codec file state rowCount table ∧ r = state.referenceTo codec rowCount table ∧
      r.stop = .ok (r.tableOffset + r.tableLen) ∧ file' = state.file ++ encodeRecord codec table.bytes := by
  obtain ⟨hg, hfin⟩ := rejectIf_bind.mp hfin
  obtain ⟨parent, hpar, hfin⟩ := bind_eq_ok.mp hfin
  obtain ⟨table, ht, hfin⟩ := bind_eq_ok.mp hfin
  obtain ⟨hrec, hfin⟩ := rejectIf_bind.mp hfin
  obtain ⟨stop, hs, hfin⟩ := bind_eq_ok.mp hfin
  cases hfin
  rw [(BundleReference.stop_facts hs).1] at hs
  have hseq : 0 < (state.parent.map fun parent => nextSequence parent.sequence).getD 1 ∧
      (state.parent.map fun parent => nextSequence parent.sequence).getD 1 ≤ u64Max := by
    cases state.parent with
    | none => exact ⟨Nat.one_pos, by decide⟩
    | some p => exact nextSequence_bounds p.sequence
  have hcho := chooseTable_chosen h hori (show state.initialRows ≤ rowCount by omega) hseq.1 hseq.2 hpar ht
  exact ⟨table, hcho, rfl, hs, rfl⟩

/-- A completed publication is a chain of the reference it returned, and that reference ends the file. -/
theorem Writing.finish (hf : file <+: state.file) {file' : Bytes} (hfin : state.finish codec rowCount = .ok (r, file')) :
    Chain codec file' r state.streams ∧ state.file <+: file' ∧ payloadStart (some r) = file'.length ∧
      r.rowCount = rowCount := by
  obtain ⟨table, hcho, rfl, hs, rfl⟩ := h.finish_chosen hori hfin
  refine ⟨hcho.chain h hf rfl hs, prefix_append _ _, ?_, rfl⟩
  simp [payloadStart, referenceTo, h.length]

end Logex
