import Logex.Lemmas.BundleTable

/-!
# Chains of tables

A table acts on the streams of its parent: append-only streams grow by it, the others are replaced by it. The action is associative,
so what a reader reassembles from the tables of a chain does not depend on how publications were grouped. `Chain` is the
structure the walk of `BundleReader::open` follows; a chain of the last reference stays a chain when the file grows.
-/

namespace Logex

open Lib List StreamMap

variable {r : BundleReference} {old table : StreamMap} {id : StreamId} {codec : BundleCodec} {file : Bytes} {m : StreamMap}
  {sta bound lim : Nat} {u : Stream} {s : Stream}

/-! ## The action of a table -/

/-- A stream followed by what was appended to it. -/
def Stream.append (s u : Stream) : Stream := ⟨s.len + u.len, s.extents ++ u.extents, s.inlined ++ u.inlined⟩

@[simp] theorem Stream.append_empty (s : Stream) : s.append {} = s := by
  simp [Stream.append]

@[simp] theorem Stream.empty_append (s : Stream) : Stream.append {} s = s := by
  simp [Stream.append]

theorem Stream.append_assoc (s u v : Stream) : (s.append u).append v = s.append (u.append v) := by
  simp [Stream.append, Nat.add_assoc]

/-- The streams a table leaves behind. -/
def StreamMap.apply (old table : StreamMap) : StreamMap := fun id =>
  match table id with
  | none => old id
  | some u => some (if id < dataStreams then (StreamMap.orDefault old id).append u else u)

theorem StreamMap.apply_none (h : table id = none) : StreamMap.apply old table id = old id := by
  simp [StreamMap.apply, h]

theorem StreamMap.apply_data (hid : id < dataStreams)
    (h : table id = some u) : StreamMap.apply old table id = some ((orDefault old id).append u) := by
  simp [StreamMap.apply, h, if_pos hid]

theorem StreamMap.apply_metadata (hid : ¬id < dataStreams) (h : table id = some u) : StreamMap.apply old table id = some u := by
  simp [StreamMap.apply, h, if_neg hid]

@[simp] theorem StreamMap.orDefault_some (h : m id = some s) : orDefault m id = s := by
  simp [orDefault, h]

@[simp] theorem StreamMap.orDefault_none (h : m id = none) : orDefault m id = {} := by
  simp [orDefault, h]

/-- An append-only stream after a table, read with its default. -/
theorem StreamMap.orDefault_apply (hid : id < dataStreams) : orDefault (StreamMap.apply old table) id =
      (orDefault old id).append (orDefault table id) := by
  cases h : table id with
  | none =>
    rw [orDefault_none h, Stream.append_empty]
    simp [orDefault, apply_none h]
  | some u => rw [orDefault_some (apply_data hid h), orDefault_some h]

/-- Applying two tables is applying their combination. -/
theorem StreamMap.apply_apply (old u v : StreamMap) :
    StreamMap.apply (StreamMap.apply old u) v = StreamMap.apply old (StreamMap.apply u v) := by
  funext id
  cases hv : v id with
  | none =>
    simp [StreamMap.apply, hv]
  | some s =>
    by_cases hid : id < dataStreams
    · rw [apply_data hid hv, apply_data hid (apply_data hid hv), orDefault_apply hid, Stream.append_assoc]
    · rw [apply_metadata hid hv, apply_metadata hid (apply_metadata hid hv)]

theorem StreamMap.apply_empty (m : StreamMap) : StreamMap.apply (fun _ => none) m = m := by
  funext id
  cases h : m id with
  | none => rw [apply_none h]
  | some s =>
    by_cases hid : id < dataStreams
    · rw [apply_data hid h, orDefault_none rfl, Stream.empty_append]
    · rw [apply_metadata hid h]

/-! ## Merging a table -/

theorem mergeStream_eq {old : StreamMap} (hco : id < dataStreams → ((orDefault old id).append u).extents.length ≤ maxExtents)
    (hin : id < dataStreams → ((orDefault old id).append u).inlined.length ≤ indexBytes)
    (hlen : id < dataStreams → ((orDefault old id).append u).len ≤ u64Max) : mergeStream old id u =
      .ok (Function.update old id (some (if id < dataStreams then (orDefault old id).append u else u))) := by
  unfold mergeStream
  by_cases hid : id < dataStreams
  · rw [if_pos hid, if_pos hid]
    cases h : old id with
    | none => rw [orDefault_none h, Stream.empty_append]
    | some s =>
      rw [orDefault_some h] at hco hin hlen ⊢
      have hc := hco hid
      have hi := hin hid
      have hl := hlen hid
      simp only [Stream.append, length_append] at hc hi hl
      refine rejectIf_bind.mpr ⟨not_lt.mpr hc, rejectIf_bind.mpr ⟨not_lt.mpr hi, ?_⟩⟩
      rw [checkedAdd, if_pos hl]
      rfl
  · rw [if_neg hid, if_neg hid]

/-- The merge of a table succeeds with the applied streams when those respect the format's bounds. -/
theorem mergeTable_eq {sta lim : Nat} (h : (StreamMap.apply old table).Ok sta lim) :
    mergeTable old table = .ok (StreamMap.apply old table) := by
  obtain ⟨m, hm, hset, hk⟩ := foldlM_update (fun str (e : StreamId × Stream) => mergeStream str e.1 e.2)
    (fun id u => some (if id < dataStreams then (orDefault old id).append u else u)) table.entries old
    table.keys_nodup (by
      intro acc id u hmem hacc
      have ht := mem_entries.mp hmem
      have hdef : orDefault acc id = orDefault old id := by simp only [orDefault, hacc]
      have hok : id < dataStreams → ((orDefault acc id).append u).Ok id := by
        intro hid
        rw [hdef]
        exact h.stream id _ (apply_data hid ht)
      rw [mergeStream_eq (fun hid => (hok hid).count) (fun hid => (hok hid).index) (fun hid => (hok hid).fits), hdef])
  unfold mergeTable
  rw [hm]
  congr 1
  funext id
  cases hid : table id with
  | none => rw [apply_none hid, hk id (fun hmem => mem_keys.mp hmem hid)]
  | some u =>
    rw [hset id u (mem_entries.mpr hid)]
    simp [StreamMap.apply, hid]

/-! ## Growth -/

/-- A table whose streams have the size they state and whose extents all lie at or after a position. -/
def StreamMap.After (bound : Nat) (table : StreamMap) : Prop :=
  ∀ id u, table id = some u → u.len = extentBytes u.extents + u.inlined.length ∧ ∀ e ∈ u.extents, bound ≤ e.offset

/-- The streams grew by a table written after a position. -/
def Grown (bound : Nat) (old new : StreamMap) : Prop :=
  ∃ table, new = StreamMap.apply old table ∧ table.After bound

theorem Grown.refl (bound : Nat) (m : StreamMap) : Grown bound m m :=
  ⟨fun _ => none, rfl, nofun⟩

theorem Grown.trans {bound bou' : Nat} {a b c : StreamMap} (h : Grown bound a b) (h' : Grown bou' b c)
    (hle : bound ≤ bou') : Grown bound a c := by
  obtain ⟨u, rfl, hu⟩ := h
  obtain ⟨v, rfl, hv⟩ := h'
  refine ⟨StreamMap.apply u v, apply_apply a u v, ?_⟩
  intro id w hw
  cases hvid : v id with
  | none =>
    rw [apply_none hvid] at hw
    exact hu id w hw
  | some s =>
    obtain ⟨hs, hb⟩ := hv id s hvid
    by_cases hid : id < dataStreams
    · rw [apply_data hid hvid] at hw
      cases hw
      cases huid : u id with
      | none =>
        rw [orDefault_none huid, Stream.empty_append]
        exact ⟨hs, fun e he => le_trans hle (hb e he)⟩
      | some t =>
        obtain ⟨hs', hb'⟩ := hu id t huid
        rw [orDefault_some huid]
        constructor
        · simp only [Stream.append, extentBytes_append, length_append]
          omega
        · intro e he
          rcases mem_append.mp he with he | he
          · exact hb' e he
          · exact le_trans hle (hb e he)
    · rw [apply_metadata hid hvid] at hw
      cases hw
      exact ⟨hs, fun e he => le_trans hle (hb e he)⟩

/-- What a table adds to an append-only stream is the end of the stream; what it sets elsewhere is the stream itself. -/
theorem StreamMap.apply_suffix (old : StreamMap) {table : StreamMap} (h : table id = some u) :
    ∃ s, StreamMap.apply old table id = some s ∧ u.extents <:+ s.extents ∧ u.inlined <:+ s.inlined ∧ u.len ≤ s.len := by
  by_cases hid : id < dataStreams
  · exact ⟨_, apply_data hid h, suffix_append _ _, suffix_append _ _, Nat.le_add_left _ _⟩
  · exact ⟨u, apply_metadata hid h, suffix_refl _, suffix_refl _, le_rfl⟩

/-- A table is well placed after its bound when the streams it leads to are well placed. -/
theorem StreamMap.After.ok {table : StreamMap} (ht : table.After bound) (old : StreamMap)
    (h : (StreamMap.apply old table).Ok sta lim) : table.Ok bound lim := by
  refine ⟨?_, ?_, ?_⟩
  · intro id u hu
    obtain ⟨s, hs, hext, hinl, hlen⟩ := apply_suffix old hu
    have hok := h.stream id s hs
    refine ⟨(ht id u hu).1, ?_, ?_, le_trans hext.length_le hok.count, le_trans hinl.length_le hok.index,
      le_trans hlen hok.fits, hok.ordered.sublist hext.sublist⟩
    · intro hid
      rw [hok.noExtents hid] at hext
      exact suffix_nil.mp hext
    · intro hid
      rw [hok.noInline hid] at hinl
      exact suffix_nil.mp hinl
  · intro id u hu e he
    obtain ⟨s, hs, hext, _⟩ := apply_suffix old hu
    have hw := h.extent id s hs e (hext.subset he)
    exact ⟨(ht id u hu).2 e he, hw.nonempty, hw.bounded, hw.upper, hw.checksum⟩
  · intro id id' u u' hne hu hu' e he e' he'
    obtain ⟨s, hs, hext, _⟩ := apply_suffix old hu
    obtain ⟨s', hs', hext', _⟩ := apply_suffix old hu'
    exact h.disjoint id id' s s' hne hs hs' e (hext.subset he) e' (hext'.subset he')

/-! ## Group summaries -/

theorem extents_eq_nil {xs : List Extent} (hpos : ∀ e ∈ xs, 0 < e.len) (h : extentBytes xs = 0) : xs = [] := by
  cases xs with
  | nil => rfl
  | cons e rest =>
    have he := hpos e mem_cons_self
    rw [extentBytes_cons] at h
    omega

/-- What a group summary carries for one stream. -/
def summaryOf (old : StreamMap) (id : StreamId) (s : Stream) : Option Stream :=
  if id < dataStreams then
    match old id with
    | none => some s
    | some o =>
      if s.len = o.len then none
      else some ⟨s.len - o.len, s.extents.drop o.extents.length, s.inlined.drop o.inlined.length⟩
  else if old id ≠ some s then some s
  else none

theorem groupUpdate_eq
    (h : StreamMap.apply old table id = some s) : groupUpdate (GroupBase.capture r old) id s = .ok (summaryOf old id s) := by
  unfold groupUpdate summaryOf
  simp only [GroupBase.capture]
  by_cases hid : id < dataStreams
  · simp only [if_pos hid]
    cases hold : old id with
    | none => rfl
    | some o =>
      -- The stream only grew, so the boundary captured from it is inside it.
      have hg : o.len ≤ s.len ∧ o.extents.length ≤ s.extents.length ∧ o.inlined.length ≤ s.inlined.length := by
        cases ht : table id with
        | none =>
          rw [apply_none ht, hold] at h
          cases h
          exact ⟨le_rfl, le_rfl, le_rfl⟩
        | some u =>
          rw [apply_data hid ht, orDefault_some hold] at h
          cases h
          simp only [Stream.append, length_append]
          omega
      obtain ⟨h1, h2, h3⟩ := hg
      refine rejectIf_bind.mpr ⟨not_lt.mpr h1, ?_⟩
      by_cases hlen : s.len = o.len
      · simp only [if_pos hlen]
        rfl
      · simp only [if_neg hlen]
        exact rejectIf_bind.mpr ⟨not_lt.mpr h2, rejectIf_bind.mpr ⟨not_lt.mpr h3, rfl⟩⟩
  · simp only [if_neg hid]
    split <;> rfl

/-- The summary of one stream takes the captured stream to the current one. -/
theorem summaryOf_spec (hta : table.After bound) (hok : (StreamMap.apply old table).Ok sta lim)
    (h : StreamMap.apply old table id = some s) : (summaryOf old id s = none ∧ old id = some s) ∨
      ∃ u, summaryOf old id s = some u ∧ table id = some u ∧
        (if id < dataStreams then (orDefault old id).append u else u) = s := by
  unfold summaryOf
  by_cases hid : id < dataStreams
  · simp only [if_pos hid]
    cases ht : table id with
    | none =>
      rw [apply_none ht] at h
      simp only [h]
      exact Or.inl ⟨if_pos trivial, trivial⟩
    | some u =>
      rw [apply_data hid ht] at h
      obtain rfl := Option.some.inj h
      cases hold : old id with
      | none => exact Or.inr ⟨u, by simp [orDefault_none hold], rfl, rfl⟩
      | some o =>
        rw [orDefault_some hold]
        by_cases hlen : (o.append u).len = o.len
        · -- Nothing was appended: no extent is empty.
          have hz : u.len = 0 := by
            simp only [Stream.append] at hlen
            omega
          obtain ⟨hsi, _⟩ := hta id u ht
          have hs : StreamMap.apply old table id = some _ := apply_data hid ht
          have hext : u.extents = [] := by
            apply extents_eq_nil
            · intro e he
              exact (hok.extent id _ hs e (mem_append_right _ he)).nonempty
            · omega
          have hinl : u.inlined = [] := by
            apply eq_nil_of_length_eq_zero
            omega
          left
          refine ⟨if_pos hlen, ?_⟩
          simp [Stream.append, hz, hext, hinl]
        · right
          refine ⟨u, ?_, rfl, rfl⟩
          simp only [if_neg hlen]
          simp [Stream.append]
  · simp only [if_neg hid]
    cases ht : table id with
    | none =>
      rw [apply_none ht] at h
      simp [h]
    | some u =>
      rw [apply_metadata hid ht] at h
      obtain rfl := Option.some.inj h
      by_cases hold : old id = some u
      · simp [hold]
      · simp [hold]

/-- The body of the loop of `groupUpdates`. -/
def groupStep (base : GroupBase) (updates : StreamMap) (entry : StreamId × Stream) : Except String StreamMap := do
  let update ← groupUpdate base entry.1 entry.2
  return match update with
    | some stream => Function.update updates entry.1 (some stream)
    | none => updates

/-- A carry summarises its group: its table takes the captured base to the current streams. -/
theorem groupUpdates_eq {old new : StreamMap} (hgr : Grown bound old new) (hok : new.Ok sta lim) :
    ∃ table, groupUpdates new (GroupBase.capture r old) = .ok table ∧ StreamMap.apply old table = new ∧
      table.After bound := by
  obtain ⟨gro, rfl, ha⟩ := hgr
  obtain ⟨table, hf, hset, hk⟩ := foldlM_update (groupStep (GroupBase.capture r old)) (summaryOf old) (StreamMap.entries (StreamMap.apply old gro)) (fun _ => none)
    (keys_nodup (StreamMap.apply old gro)) (by
      intro acc id s hmem hacc
      rw [groupStep, groupUpdate_eq (mem_entries.mp hmem)]
      cases hsum : summaryOf old id s with
      | none =>
        have hse : Function.update acc id none = acc := by rw [← hacc, Function.update_eq_self]
        rw [hse]
        rfl
      | some u => rfl)
  have hsp : ∀ id s, StreamMap.apply old gro id = some s → table id = summaryOf old id s :=
    fun id s hs => hset id s (mem_entries.mpr hs)
  have hn : ∀ id, StreamMap.apply old gro id = none → table id = none :=
    fun id hid => hk id (fun hmem => mem_keys.mp hmem hid)
  refine ⟨table, hf, ?_, ?_⟩
  · funext id
    cases hid : StreamMap.apply old gro id with
    | none =>
      rw [apply_none (hn id hid)]
      cases hg : gro id with
      | none => rwa [apply_none hg] at hid
      | some u =>
        obtain ⟨s, hs, _⟩ := apply_suffix old hg
        rw [hid] at hs
        cases hs
    | some s =>
      have ht := hsp id s hid
      rcases summaryOf_spec ha hok hid with ⟨hsum, hold⟩ | ⟨u, hsum, _, hs⟩
      · rw [hsum] at ht
        rw [apply_none ht, hold]
      · rw [hsum] at ht
        simp [StreamMap.apply, ht, hs]
  · intro id u hu
    cases hid : StreamMap.apply old gro id with
    | none =>
      rw [hn id hid] at hu
      cases hu
    | some s =>
      rw [hsp id s hid] at hu
      rcases summaryOf_spec ha hok hid with ⟨hsum, _⟩ | ⟨v, hsum, hg, _⟩
      · rw [hsum] at hu
        cases hu
      · rw [hsum] at hu
        obtain rfl := Option.some.inj hu
        exact ha id v hg

/-! ## Chains -/

/-- A valid reference to a table inside the file. -/
structure BundleReference.Inside (file : Bytes) (r : BundleReference) : Prop where
  stop : r.stop = .ok (r.tableOffset + r.tableLen)
  within : r.tableOffset + r.tableLen ≤ file.length
  sequence : r.sequence ≤ u64Max
  checksum : r.checksum < 2 ^ 32

/-- The streams of a reference, as its table and the tables of its ancestors give them. -/
inductive Chain (codec : BundleCodec) (file : Bytes) : BundleReference → StreamMap → Prop where
  | full {r : BundleReference} {m : StreamMap} (inside : r.Inside file) (depth : r.depth = 1)
      (table : tableAt codec file r = .ok (m, none)) (ok : m.Ok fileMagic.length r.tableOffset) : Chain codec file r m
  | delta {r parent : BundleReference} {old update : StreamMap} (inside : r.Inside file) (older : Chain codec file parent old)
      (depth : parent.depth + 1 = r.depth) (rows : parent.rowCount ≤ r.rowCount)
      (before : payloadStart (some parent) ≤ r.tableOffset) (table : tableAt codec file r = .ok (update, some parent))
      (after : update.After (payloadStart (some parent)))
      (ok : (StreamMap.apply old update).Ok fileMagic.length r.tableOffset) :
      Chain codec file r (StreamMap.apply old update)

theorem Chain.inside (h : Chain codec file r m) : r.Inside file := by
  cases h with
  | full ins | delta ins => exact ins

theorem Chain.ok (h : Chain codec file r m) : m.Ok fileMagic.length r.tableOffset := by
  cases h with
  | full _ _ _ ok | delta _ _ _ _ _ _ _ ok => exact ok

theorem readExact_of_within (tail : Bytes) {off len : Nat} (h : off + len ≤ file.length) :
    readExact (file ++ tail) off len = readExact file off len := by
  have hs : ((file ++ tail).drop off).take len = (file.drop off).take len := by
    rw [drop_append_of_le_length (by omega), take_append_of_le_length (by rw [length_drop]; omega)]
  unfold readExact
  rw [hs, length_append]
  simp [not_lt.mpr h, not_lt.mpr (le_trans h (Nat.le_add_right _ tail.length))]

theorem tableAt_of_inside (tail : Bytes) (h : r.Inside file) : tableAt codec (file ++ tail) r = tableAt codec file r := by
  unfold tableAt
  rw [readExact_of_within tail h.within]

theorem BundleReference.Inside.append (tail : Bytes) (h : r.Inside file) : r.Inside (file ++ tail) := by
  refine ⟨h.stop, ?_, h.sequence, h.checksum⟩
  rw [length_append]
  exact le_trans h.within (Nat.le_add_right _ _)

/-- Earlier snapshots are immutable: bytes written after a chain do not change it. -/
theorem Chain.append (tail : Bytes) (h : Chain codec file r m) : Chain codec (file ++ tail) r m := by
  induction h with
  | full ins dep table ok =>
    exact Chain.full (ins.append tail) dep ((tableAt_of_inside tail ins).trans table) ok
  | delta ins _ dep rows bef table after ok ih =>
    exact Chain.delta (ins.append tail) ih dep rows bef ((tableAt_of_inside tail ins).trans table) after ok

/-- The base captured for a coming carry is an ancestor from which the current streams grew. -/
def BaseOf (codec : BundleCodec) (file : Bytes) (r : BundleReference) (m : StreamMap) (base : GroupBase) : Prop :=
  ∃ ancestor old, Chain codec file ancestor old ∧ base = GroupBase.capture ancestor old ∧
    Grown (payloadStart (some ancestor)) old m ∧ ancestor.rowCount ≤ r.rowCount ∧
    payloadStart (some ancestor) ≤ payloadStart (some r)

theorem mergeCaptured_eq {sta lim : Nat} (ref : BundleReference) (acc : Captured) (r : BundleReference)
    {table : StreamMap} (h : (StreamMap.apply acc.streams table).Ok sta lim) : ∃ cap, mergeCaptured ref acc (r, table) = .ok cap ∧
      cap.streams = StreamMap.apply acc.streams table ∧
      (cap.groupBase = acc.groupBase ∨ cap.groupBase = some (GroupBase.capture r cap.streams)) := by
  unfold mergeCaptured
  rw [mergeTable_eq h]
  refine ⟨_, rfl, rfl, ?_⟩
  simp only
  split
  · exact Or.inr rfl
  · exact Or.inl rfl

/-- The walk of `open` reads every table of the chain and reassembles the streams of the reference. -/
theorem Chain.captured (ref : BundleReference) (h : Chain codec file r m) :
    ∃ tab captured, captureTables codec file r.depth r = .ok tab ∧
      tab.reverse.foldlM (mergeCaptured ref) {} = .ok captured ∧ captured.streams = m ∧
      ∀ base, captured.groupBase = some base → BaseOf codec file r m base := by
  induction h with
  | @full r m ins dep table ok =>
    have hc : Chain codec file r m := Chain.full ins dep table ok
    have hap : StreamMap.apply (Captured.streams {}) m = m := apply_empty m
    obtain ⟨captured, hm, hs, hb⟩ := mergeCaptured_eq ref {} r (by rw [hap]; exact ok)
    rw [hap] at hs
    refine ⟨[(r, m)], captured, ?_, ?_, hs, ?_⟩
    · rw [dep, captureTables, table]
      rfl
    · rw [reverse_singleton, foldlM_cons, hm]
      rfl
    · intro base heq
      rcases hb with hn | hse
      · rw [hn] at heq
        cases heq
      · rw [hse, hs] at heq
        exact ⟨r, m, hc, (Option.some.inj heq).symm, Grown.refl _ _, le_rfl, le_rfl⟩
  | @delta r par old upd ins olr dep rows bef table aft ok ih =>
    obtain ⟨tab, captured, htab, hm, hs, hb⟩ := ih
    have hc : Chain codec file r (StreamMap.apply old upd) :=
      Chain.delta ins olr dep rows bef table aft ok
    have hg : Grown (payloadStart (some par)) old (StreamMap.apply old upd) := ⟨upd, rfl, aft⟩
    have hle : payloadStart (some par) ≤ payloadStart (some r) := le_trans bef (Nat.le_add_right _ _)
    obtain ⟨captured', hm', hs', hb'⟩ :=
      mergeCaptured_eq ref captured r (by rw [hs]; exact ok)
    rw [hs] at hs'
    refine ⟨(r, upd) :: tab, captured', ?_, ?_, hs', ?_⟩
    · rw [← dep, captureTables, table]
      change (captureTables codec file par.depth par >>= fun olr => .ok ((r, upd) :: olr)) = _
      rw [htab]
      rfl
    · rw [reverse_cons, foldlM_append, hm]
      change (mergeCaptured ref captured (r, upd) >>= fun acc => .ok acc) = _
      rw [hm']
      rfl
    · intro base heq
      rcases hb' with hk | hse
      · rw [hk] at heq
        obtain ⟨anc, aold, ha, hcap, hg', hr', hle'⟩ := hb base heq
        exact ⟨anc, aold, ha, hcap, hg'.trans hg hle', le_trans hr' rows, le_trans hle' hle⟩
      · rw [hse, hs'] at heq
        exact ⟨r, _, hc, (Option.some.inj heq).symm, Grown.refl _ _, le_rfl, le_rfl⟩

/-- A reference with a chain opens, and the reader holds the streams of the chain. -/
theorem Chain.openAt (h : Chain codec file r m) (hm : fileMagic <+: file) :
    ∃ rea, BundleReader.openAt codec file r = .ok rea ∧ rea.window = {} ∧ rea.reference = r ∧
      rea.streams = m ∧ ∀ base, rea.groupBase = some base → BaseOf codec file r m base := by
  obtain ⟨tab, captured, htab, hme, hs, hb⟩ := h.captured r
  obtain ⟨tail, rfl⟩ := hm
  refine ⟨{ reference := r, streams := captured.streams, groupBase := captured.groupBase }, ?_, rfl, rfl, hs, hb⟩
  unfold BundleReader.openAt
  rw [bind_eq_ok]
  refine ⟨_, h.inside.stop, rejectIf_bind.mpr ⟨not_lt.mpr h.inside.within, bind_eq_ok.mpr ⟨fileMagic, ?_, ?_⟩⟩⟩
  · exact readExact_append [] fileMagic tail
  · refine rejectIf_bind.mpr ⟨by simp, bind_eq_ok.mpr ⟨tab, htab, bind_eq_ok.mpr ⟨captured, hme, rfl⟩⟩⟩

end Logex
