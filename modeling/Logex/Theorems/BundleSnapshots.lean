import Logex.Lemmas.BundleRead

/-!
# Bundle snapshots

Every reference a bundle ever returned opens on the file as it is now and reads back its own snapshot: each data stream as all
bytes appended to it up to that publication, in order, each metadata stream as its last replacement. The statement is about
whole runs of publications, across carries of the table sequence and restarts of its counter.
-/

namespace Logex

open Lib List BundleWrite
open WriteState (create)

variable {r : BundleReference} {id : Nat} {m : StreamMap}

/-! ## What a reader should see -/

/-- The bytes a write appends to a data stream. -/
def BundleWrite.appendedTo (id : Nat) : BundleWrite → Option Bytes
  | .appendData written bytes => if written = id then some bytes else none
  | .replaceMetadata _ _ => none

/-- The bytes a write replaces a metadata stream by. -/
def BundleWrite.replacing (id : Nat) : BundleWrite → Option Bytes
  | .appendData _ _ => none
  | .replaceMetadata written bytes => if written = id then some bytes else none

/-- The bytes of a stream after some writes: a data stream holds everything appended to it, a metadata stream its last
replacement, and a stream never written is missing. -/
def expectedStream (writes : List BundleWrite) (id : Nat) : Option Bytes :=
  if id < dataStreams then
    match writes.filterMap (BundleWrite.appendedTo id) with
    | [] => none
    | parts => some parts.flatten
  else if id < streamCount then (writes.filterMap (BundleWrite.replacing id)).getLast?
  else none

namespace BundleAux

variable (ws : List BundleWrite) (sn : Snapshot)

theorem expectedStream_data (hid : id < dataStreams) : expectedStream ws id = if ws.filterMap (appendedTo id) = [] then none
      else some (ws.filterMap (appendedTo id)).flatten := by
  rw [expectedStream, if_pos hid]
  split
  · next hnil => rw [hnil, if_pos rfl]
  · next hne => rw [if_neg hne]

theorem expectedStream_metadata (hid : ¬id < dataStreams) (hlt : id < streamCount) :
    expectedStream ws id = (ws.filterMap (replacing id)).getLast? := by
  rw [expectedStream, if_neg hid, if_pos hlt]

theorem update_other {c : Prop} [Decidable c] {wri : Nat} {value : Option Bytes} (h : c → wri ≠ id) :
    (if c then Function.update sn wri value else sn) id = sn id := by
  split
  · next hc => exact Function.update_of_ne (h hc).symm _ _
  · rfl

variable (w : BundleWrite)

/-- A write changes a data stream only by what it appends to it. -/
theorem record_data (hid : id < dataStreams) : sn.record w id = match w.appendedTo id with
      | none => sn id
      | some bs => some ((sn id).getD [] ++ bs) := by
  cases w with
  | appendData wri bs =>
    by_cases hw : wri = id
    · subst hw
      simp [Snapshot.record, appendedTo, hid]
    · simp only [Snapshot.record, appendedTo, if_neg hw]
      exact update_other _ fun _ => hw
  | replaceMetadata wri bs =>
    simp only [Snapshot.record, appendedTo]
    exact update_other _ fun hw => by omega

/-- A write changes a metadata stream only by replacing it. -/
theorem record_metadata (hid : ¬id < dataStreams) (hlt : id < streamCount) : sn.record w id = (w.replacing id).or (sn id) := by
  cases w with
  | appendData wri bs =>
    simp only [Snapshot.record, replacing, Option.none_or]
    exact update_other _ fun hw => by omega
  | replaceMetadata wri bs =>
    by_cases hw : wri = id
    · subst hw
      simp [Snapshot.record, replacing, not_lt.mp hid, hlt]
    · simp only [Snapshot.record, replacing, if_neg hw, Option.none_or]
      exact update_other _ fun _ => hw

theorem record_outside (hid : streamCount ≤ id) : sn.record w id = sn id := by
  have hd : dataStreams < streamCount := by decide
  cases w with
  | appendData wri bs | replaceMetadata wri bs => exact update_other _ fun hw => by omega

/-- One more write changes what is expected as the abstract snapshot records it. -/
theorem expectedStream_concat : expectedStream (ws ++ [w]) = Snapshot.record (expectedStream ws) w := by
  funext id
  by_cases hid : id < dataStreams
  · rw [record_data _ _ hid, expectedStream_data _ hid, expectedStream_data _ hid, filterMap_append]
    cases hw : w.appendedTo id with
    | none => simp [hw]
    | some bs =>
      simp only [filterMap_cons, hw, filterMap_nil]
      by_cases hnil : ws.filterMap (appendedTo id) = []
      · rw [if_pos hnil, hnil]
        simp
      · rw [if_neg hnil]
        simp
  · by_cases hlt : id < streamCount
    · rw [record_metadata _ _ hid hlt, expectedStream_metadata _ hid hlt, expectedStream_metadata _ hid hlt, filterMap_append]
      cases hw : w.replacing id with
      | none | some bs => simp [hw]
    · rw [record_outside _ _ (not_lt.mp hlt), expectedStream, expectedStream, if_neg hid, if_neg hlt]
      simp [hid, hlt]

theorem foldl_record_expected : ∀ bef : List BundleWrite,
    ws.foldl Snapshot.record (expectedStream bef) = expectedStream (bef ++ ws) := by
  induction ws with
  | nil =>
    intro bef
    rw [foldl_nil, append_nil]
  | cons w ws ih =>
    intro bef
    rw [foldl_cons, ← expectedStream_concat, ih, List.append_assoc, singleton_append]

/-! ## The run -/

/-- A reference whose chain holds a snapshot. -/
structure Published (codec : BundleCodec) (file : Bytes) (writes : List BundleWrite) (r : BundleReference) (m : StreamMap) :
    Prop where
  chain : Chain codec file r m
  holds : ∀ id s, m id = some s → ∀ e ∈ s.extents, e.Holds codec file
  shows : m.Shows file (expectedStream writes)

theorem ok_mono {a lim lim' : Nat} (h : m.Ok a lim) (hle : lim ≤ lim') : m.Ok a lim' := by
  refine ⟨h.stream, ?_, h.disjoint⟩
  intro id s hs e he
  obtain ⟨h1, h2, h3, h4, h5⟩ := h.extent id s hs e he
  exact ⟨h1, h2, h3, le_trans h4 hle, h5⟩

theorem Published.ok {c : BundleCodec} {file : Bytes} {ws : List BundleWrite}
    (h : Published c file ws r m) : m.Ok fileMagic.length file.length :=
  ok_mono h.chain.ok (le_trans (Nat.le_add_right _ _) h.chain.inside.within)

/-- A published snapshot survives whatever is written after it. -/
theorem Published.append {c : BundleCodec} {file : Bytes} (tail : Bytes) {ws : List BundleWrite}
    (h : Published c file ws r m) : Published c (file ++ tail) ws r m := by
  refine ⟨h.chain.append tail, ?_, ⟨?_, h.shows.2⟩⟩
  · intro id s hs e he
    rw [Extent.Holds, Extent.slice_append tail (h.ok.extent id s hs e he).upper]
    exact h.holds id s hs e he
  · intro id
    rw [← h.shows.1 id]
    cases hs : m id with
    | none => rfl
    | some s => rw [Option.map_some, Option.map_some, Stream.contents_append_file tail h.ok hs]

/-- The invariant of a bundle after some publications. -/
structure Sound (codec : BundleCodec) (publications : List Publication) (bundle : PublishedBundle) : Prop where
  count : bundle.references.length = publications.length
  magic : bundle.references ≠ [] → fileMagic <+: bundle.file
  last : ∀ r, bundle.references.getLast? = some r → payloadStart (some r) = bundle.file.length
  snapshots : ∀ k, ∀ p, publications[k]? = some p → ∃ r m, bundle.references[k]? = some r ∧ r.rowCount = p.rowCount ∧
    Published codec bundle.file ((publications.take (k + 1)).flatMap Publication.writes) r m

variable {c : BundleCodec} {pubs : List Publication}

theorem Sound.latest {bd : PublishedBundle} (h : Sound c pubs bd) (hr : bd.references.getLast? = some r) :
    ∃ m, Published c bd.file (pubs.flatMap Publication.writes) r m := by
  rw [List.getLast?_eq_getElem?, h.count] at hr
  cases hp : pubs[pubs.length - 1]? with
  | none =>
    have hlen := List.getElem?_eq_none_iff.mp hp
    have hz : pubs.length = 0 := by omega
    rw [hz, List.getElem?_eq_none (by rw [h.count]; omega)] at hr
    cases hr
  | some p =>
    obtain ⟨r', m, hr', _, hpub⟩ := h.snapshots _ p hp
    rw [hr] at hr'
    cases hr'
    rw [List.take_of_length_le (by omega)] at hpub
    exact ⟨m, hpub⟩

/-- The next writer starts from the last snapshot. -/
theorem Sound.writer {c : BundleCodec} {pubs : List Publication} {bd : PublishedBundle}
    (h : Sound c pubs bd) {st : WriteState} (hwri : bd.writer c = .ok st) : ∃ base bou, Writing c base bou st ∧
      (bd.references = [] ∧ Origin c [] base bou st ∨
        bd.file = st.file ∧ Origin c bd.file base bou st) ∧
      st.streams.Shows st.file (expectedStream (pubs.flatMap Publication.writes)) := by
  unfold PublishedBundle.writer at hwri
  cases hl : bd.references.getLast? with
  | none =>
    rw [hl] at hwri
    cases hwri
    have hnil := getLast?_eq_none_iff.mp hl
    have hp : pubs = [] := by
      apply eq_nil_of_length_eq_zero
      rw [← h.count, hnil]
      rfl
    refine ⟨fun _ => none, fileMagic.length, ?_, Or.inl ⟨hnil, Or.inl ⟨rfl, rfl⟩⟩, ?_⟩
    · exact ⟨rfl, by decide, prefix_refl _, le_rfl, ⟨by simp [create], by simp [create],
        by simp [create]⟩, by simp [create], (StreamMap.apply_empty _).symm,
        by simp [create, StreamMap.After]⟩
    · rw [hp]
      constructor
      · intro id
        simp [create, expectedStream]
      · intro id _
        simp [expectedStream]
  | some r =>
    rw [hl] at hwri
    obtain ⟨m, hpub⟩ := h.latest hl
    have hne : bd.references ≠ [] := by
      intro hnil
      rw [hnil] at hl
      cases hl
    obtain ⟨reader, hop, _, href, hs, hb⟩ := hpub.chain.openAt (h.magic hne)
    obtain ⟨reader', hrdr', hwri⟩ := bind_eq_ok.mp hwri
    rw [hop] at hrdr'
    cases hrdr'
    obtain ⟨offset, hoff, hwri⟩ := bind_eq_ok.mp hwri
    obtain ⟨hlen, hwri⟩ := rejectIf_bind.mp hwri
    cases hwri
    simp only [ne_eq, not_not] at hlen
    have hf := (BundleReference.stop_facts hpub.chain.inside.stop).2.fits
    have hend := h.last r hl
    simp only [payloadStart] at hend
    refine ⟨m, payloadStart (some r), ?_, Or.inr ⟨rfl, Or.inr ⟨r, by rw [href], hpub.chain, rfl, by rw [href], hb⟩⟩, ?_⟩
    · refine ⟨hlen, by simp only; omega, h.magic hne, by simp only [payloadStart]; omega, ?_, ?_, ?_, ?_⟩
      · simp only [hs, ← hlen]
        exact hpub.ok
      · simp only [hs]
        exact hpub.holds
      · simp only [hs]
        rfl
      · intro id u hu
        cases hu
    · simp only [hs]
      exact hpub.shows

/-- One publication keeps the invariant. -/
theorem Sound.publish {bd bd' : PublishedBundle}
    (h : Sound c pubs bd) {pub : Publication} (hpuh : bd.publish c pub = .ok bd') : Sound c (pubs ++ [pub]) bd' := by
  obtain ⟨writer, hwri, hpuh⟩ := bind_eq_ok.mp hpuh
  obtain ⟨st, hse, hpuh⟩ := bind_eq_ok.mp hpuh
  obtain ⟨⟨r, file⟩, hfin, hpuh⟩ := bind_eq_ok.mp hpuh
  cases hpuh
  obtain ⟨base, bound, hwriting, hori, hsh⟩ := h.writer hwri
  obtain ⟨hwr', hsa, hs'⟩ := Writing.writes pub.writes hwriting hsh hse
  rw [foldl_record_expected] at hs'
  -- The chain of the new reference, and that the file of the earlier references is a prefix of the new one.
  have hnew : Chain c file r st.streams ∧ st.file <+: file ∧ payloadStart (some r) = file.length ∧
      r.rowCount = pub.rowCount ∧ (bd.references = [] ∨ bd.file <+: st.file) := by
    rcases hori with ⟨hnil, hori⟩ | ⟨hf, hori⟩
    · obtain ⟨h1, h2, h3, h4⟩ := hwr'.finish (hori.same hsa) (List.nil_prefix) hfin
      exact ⟨h1, h2, h3, h4, Or.inl hnil⟩
    · have hpre : bd.file <+: st.file := by
        rw [hf]
        exact hsa.file
      obtain ⟨h1, h2, h3, h4⟩ := hwr'.finish (hori.same hsa) hpre hfin
      exact ⟨h1, h2, h3, h4, Or.inr hpre⟩
  obtain ⟨hc, ⟨tail, rfl⟩, hend, hr, hear⟩ := hnew
  have hpub : Published c (st.file ++ tail) ((pubs ++ [pub]).flatMap Publication.writes) r
      st.streams := by
    refine ⟨hc, ?_, ?_, ?_⟩
    · intro id s hs e he
      have hst := (hwr'.ok.extent id s hs e he).upper
      rw [← hwr'.length] at hst
      rw [Extent.Holds, Extent.slice_append tail hst]
      exact hwr'.holds id s hs e he
    · intro id
      rw [List.flatMap_append, List.flatMap_singleton, ← hs'.1 id]
      have hok := hwr'.ok
      rw [← hwr'.length] at hok
      cases hs : st.streams id with
      | none => rfl
      | some s => rw [Option.map_some, Option.map_some, Stream.contents_append_file tail hok hs]
    · rw [List.flatMap_append, List.flatMap_singleton]
      exact hs'.2
  refine ⟨by simp [h.count], ?_, ?_, ?_⟩
  · intro _
    exact hwr'.magic.trans (List.prefix_append _ _)
  · intro r' hr'
    rw [List.getLast?_concat] at hr'
    cases hr'
    exact hend
  · intro k p hp
    rcases lt_or_ge k pubs.length with hk | hk
    · -- An earlier snapshot, on the longer file.
      rw [List.getElem?_append_left hk] at hp
      obtain ⟨r', m, hr', hro', hpub'⟩ := h.snapshots k p hp
      have hlt : k < bd.references.length := by rw [h.count]; exact hk
      refine ⟨r', m, ?_, hro', ?_⟩
      · rw [List.getElem?_append_left hlt]
        exact hr'
      · rw [List.take_append_of_le_length hk]
        rcases hear with hnil | hpre
        · rw [hnil] at hlt
          exact absurd hlt (Nat.not_lt_zero k)
        · obtain ⟨tail', ht⟩ := hpre.trans (List.prefix_append st.file tail)
          simp only
          rw [← ht]
          exact hpub'.append tail'
    · have hlen := (List.getElem?_eq_some_iff.mp hp).1
      rw [List.length_append, List.length_singleton] at hlen
      have hk' : k = pubs.length := by omega
      subst hk'
      rw [List.getElem?_append_right le_rfl, Nat.sub_self] at hp
      cases hp
      refine ⟨r, st.streams, ?_, hr, ?_⟩
      · rw [List.getElem?_append_right (by rw [h.count]), h.count, Nat.sub_self]
        rfl
      · rw [List.take_of_length_le (by simp)]
        exact hpub

theorem Sound.run (pubs : List Publication) : ∀ {bef : List Publication} {bd bd' : PublishedBundle}, Sound c bef bd →
      pubs.foldlM (PublishedBundle.publish c) bd = .ok bd' →
      Sound c (bef ++ pubs) bd' := by
  induction pubs with
  | nil =>
    intro bef bd bd' h hrun
    cases hrun
    rwa [append_nil]
  | cons pub pubs ih =>
    intro bef bd bd' h hrun
    obtain ⟨mid, hmid, hrun⟩ := bind_eq_ok.mp hrun
    have hs := ih (h.publish hmid) hrun
    rwa [List.append_assoc, singleton_append] at hs

theorem sound_empty (c : BundleCodec) : Sound c [] {} :=
  ⟨rfl, fun h => absurd rfl h, nofun, nofun⟩

end BundleAux

open BundleAux

/-- Every reference returned by a run of publications that all succeeded opens on the final file and reads back the snapshot
of its publication: each data stream as everything appended to it until then, each metadata stream as its last replacement. -/
theorem bundle_snapshots_read_back (codec : BundleCodec) (publications : List Publication) (bundle : PublishedBundle)
    (h : publishAll codec publications = .ok bundle) : bundle.references.length = publications.length ∧
      ∀ k publication, publications[k]? = some publication →
        ∃ reference reader, bundle.references[k]? = some reference ∧
          BundleReader.openAt codec bundle.file reference = .ok reader ∧
          reader.reference.rowCount = publication.rowCount ∧
          ∀ id, (reader.readStream codec bundle.file id).map Prod.fst =
            okOr "missing bundle stream" (expectedStream ((publications.take (k + 1)).flatMap Publication.writes) id) := by
  have hso : Sound codec ([] ++ publications) bundle := Sound.run publications (sound_empty codec) h
  rw [nil_append] at hso
  refine ⟨hso.count, ?_⟩
  intro k publication hk
  obtain ⟨r, m, hr, hro, hpub⟩ := hso.snapshots k publication hk
  have hne : bundle.references ≠ [] := by
    intro hnil
    rw [hnil] at hr
    cases hr
  obtain ⟨reader, hop, hwin, href, hst, _⟩ := hpub.chain.openAt (hso.magic hne)
  refine ⟨r, reader, hr, hop, by rw [href]; exact hro, ?_⟩
  have hfai : reader.Faithful codec bundle.file := by
    refine ⟨by rw [href]; exact hpub.chain.inside, by rw [href, hst]; exact hpub.chain.ok, by rw [hst]; exact hpub.holds, ?_⟩
    rw [hwin]
    exact ⟨Nat.zero_le _, rfl⟩
  intro id
  by_cases hid : id < streamCount
  · rw [← hpub.shows.1 ⟨id, hid⟩]
    cases hs : m ⟨id, hid⟩ with
    | none =>
      have hstr := BundleReader.stream_eq reader ⟨id, hid⟩
      rw [hst, hs] at hstr
      unfold BundleReader.readStream
      rw [hstr]
      rfl
    | some s =>
      obtain ⟨reader', hre, _⟩ := hfai.readStream (by rw [hst]; exact hs)
      rw [hre]
      rfl
  · rw [hpub.shows.2 id (not_lt.mp hid)]
    unfold BundleReader.readStream BundleReader.stream
    rw [dif_neg hid]
    rfl

/-! ## A run of two publications -/

namespace BundleWitness

/-- One bit of the reflected CRC-32. -/
def crcBit (c : Nat) : Nat := if c % 2 = 1 then (c / 2) ^^^ 0xEDB88320 else c / 2

def crcByte (c : Nat) (b : UInt8) : Nat := (List.range 8).foldl (fun c _ => crcBit c) (c ^^^ b.toNat)

def crc32 (bytes : Bytes) : UInt32 := UInt32.ofNat (bytes.foldl crcByte 0xFFFFFFFF ^^^ 0xFFFFFFFF)

/-- The two tables the run writes. -/
def firstTable : Bytes :=
  [76, 88, 66, 84, 48, 48, 48, 53, 1, 0, 0, 0, 0, 0, 0, 0, 1, 0, 0, 0, 0, 0, 0, 0, 2, 0, 0, 0, 0, 0, 0, 0, 0, 0, 0, 0,
    2, 0, 0, 0, 0, 0, 0, 0, 1, 0, 0, 0, 8, 0, 0, 0, 0, 0, 0, 0, 2, 0, 0, 0, 8, 46, 236, 161, 28, 0, 0, 0, 1, 0, 0, 0, 0,
    0, 0, 0, 1, 0, 0, 0, 10, 0, 0, 0, 0, 0, 0, 0, 1, 0, 0, 0, 27, 223, 5, 165]

def secondTable : Bytes :=
  [76, 88, 66, 84, 48, 48, 48, 53, 2, 0, 0, 0, 0, 0, 0, 0, 2, 0, 0, 0, 0, 0, 0, 0, 1, 0, 0, 0, 1, 0, 0, 0, 11, 0, 0, 0,
    0, 0, 0, 0, 71, 0, 0, 0, 131, 57, 8, 157, 1, 0, 0, 0, 0, 0, 0, 0, 1, 0, 0, 0, 96, 0, 0, 0, 1, 0, 0, 0, 0, 0, 0, 0, 0,
    0, 0, 0, 1, 0, 0, 0, 0, 0, 0, 0, 1, 0, 0, 0, 82, 0, 0, 0, 0, 0, 0, 0, 1, 0, 0, 0, 238, 210, 13, 40]

/-- Their LZ4 blocks. -/
def firstBlock : Bytes :=
  [162, 76, 88, 66, 84, 48, 48, 48, 53, 1, 0, 1, 0, 4, 8, 0, 18, 2, 15, 0, 1, 2, 0, 4, 12, 0, 0, 28, 0, 17, 8, 18, 0, 2,
    20, 0, 83, 8, 46, 236, 161, 28, 24, 0, 0, 2, 0, 0, 32, 0, 16, 10, 9, 0, 176, 0, 0, 0, 1, 0, 0, 0, 27, 223, 5, 165]

def secondBlock : Bytes :=
  [162, 76, 88, 66, 84, 48, 48, 48, 53, 2, 0, 1, 0, 4, 8, 0, 19, 1, 4, 0, 18, 11, 23, 0, 144, 0, 71, 0, 0, 0, 131, 57,
    8, 157, 24, 0, 0, 2, 0, 0, 8, 0, 19, 96, 36, 0, 4, 2, 0, 0, 20, 0, 0, 2, 0, 0, 8, 0, 16, 82, 9, 0, 176, 0, 0, 0, 1,
    0, 0, 0, 238, 210, 13, 40]

def compress (bytes : Bytes) : Bytes :=
  if bytes = firstTable then firstBlock else if bytes = secondTable then secondBlock else 255 :: bytes

def decompressInto (block : Bytes) (_ : Nat) : Option Bytes :=
  if block = firstBlock then some firstTable else if block = secondBlock then some secondTable else some block.tail

theorem decompressInto_compress (bs : Bytes) : decompressInto (compress bs) bs.length = some bs := by
  unfold compress
  by_cases h1 : bs = firstTable
  · subst h1
    rw [if_pos rfl, decompressInto, if_pos rfl]
  · rw [if_neg h1]
    by_cases h2 : bs = secondTable
    · subst h2
      rw [if_pos rfl, decompressInto, if_neg (by decide), if_pos rfl]
    · rw [if_neg h2, decompressInto, if_neg (by simp [firstBlock]), if_neg (by simp [secondBlock])]
      rfl

/-- CRC-32, and the LZ4 block codec on the tables of the run. -/
def codec : BundleCodec := ⟨crc32, compress, decompressInto, decompressInto_compress⟩

def publications : List Publication :=
  [⟨[.appendData 0 [10, 20], .replaceMetadata 28 [1]], 1⟩, ⟨[.appendData 0 [30]], 2⟩]

end BundleWitness

open BundleWitness in
/-- Both snapshots of a two-publication run read back: the first without the byte the second appended. -/
theorem bundle_snapshots_read_back_two_publications :
    ∃ bundle, publishAll codec publications = .ok bundle ∧ bundle.references.length = 2 ∧
      ∃ reference reader, bundle.references[0]? = some reference ∧
        BundleReader.openAt codec bundle.file reference = .ok reader ∧
        (reader.readStream codec bundle.file 0).map Prod.fst = .ok [10, 20] := by
  have hok : (publishAll codec publications).isOk = true := by decide +kernel
  cases hrun : publishAll codec publications with
  | error e =>
    rw [hrun] at hok
    cases hok
  | ok bundle =>
    obtain ⟨hc, hsna⟩ := bundle_snapshots_read_back codec publications bundle hrun
    obtain ⟨reference, reader, href, hop, _, hr⟩ := hsna 0 _ rfl
    exact ⟨bundle, rfl, hc, reference, reader, href, hop, hr 0⟩

end Logex
