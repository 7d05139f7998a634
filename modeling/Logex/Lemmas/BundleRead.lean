import Logex.Lemmas.BundleWrite

/-!
# Reading a snapshot

A reader whose streams are well placed reads any range of a stream as that range of the stream's bytes, through whatever window
earlier reads left in its cache.
-/

namespace Logex

open Lib List

variable {file : Bytes} {codec : BundleCodec} {snapshotEnd : Nat} {e : Extent}

/-! ## Windows -/

/-- The cached window holds bytes of the file. -/
def ReadWindow.Mirrors (file : Bytes) (window : ReadWindow) : Prop :=
  window.offset + window.bytes.length ≤ file.length ∧ window.bytes = (file.drop window.offset).take window.bytes.length

theorem readExact_eq {off len : Nat} (h : off + len ≤ file.length) : readExact file off len = .ok ((file.drop off).take len) :=
  rejectIf_bind.mpr ⟨not_lt.mpr h, rfl⟩

theorem ReadWindow.fetch_spec {win : ReadWindow} (hwin : win.Mirrors file)
    (hs : e.stop ≤ snapshotEnd) (hend : snapshotEnd ≤ file.length) (ra : Bool) :
    ∃ win', win.fetch file e snapshotEnd ra = .ok win' ∧ win'.Mirrors file ∧
      win'.offset ≤ e.offset ∧ e.stop ≤ win'.offset + win'.bytes.length := by
  unfold ReadWindow.fetch
  by_cases hm : e.offset < win.offset ∨ win.offset + win.bytes.length < e.stop
  · rw [if_pos hm]
    -- Either bound of the new window encloses the extent and stays inside the snapshot.
    have hf : ∀ lo hi, lo ≤ e.offset → e.stop ≤ hi → hi ≤ snapshotEnd →
        ∃ win', (readExact file lo (hi - lo) >>= fun bs => (.ok ⟨lo, bs⟩ : Except String ReadWindow)) = .ok win' ∧
          win'.Mirrors file ∧ win'.offset ≤ e.offset ∧ e.stop ≤ win'.offset + win'.bytes.length := by
      intro lo hi hlo hhi hsn
      have hle : e.offset ≤ e.stop := Nat.le_add_right _ _
      have hlen : ((file.drop lo).take (hi - lo)).length = hi - lo := by
        rw [length_take, length_drop]
        omega
      refine ⟨⟨lo, (file.drop lo).take (hi - lo)⟩, ?_, ⟨?_, ?_⟩, hlo, ?_⟩
      · rw [readExact_eq (by omega)]
        rfl
      · simp only [hlen]
        omega
      · simp
      · simp only [hlen]
        omega
    cases ra with
    | false => exact hf e.offset e.stop le_rfl le_rfl hs
    | true =>
      have ha : e.offset / readAheadBytes * readAheadBytes ≤ e.offset := Nat.div_mul_le_self _ _
      have hhi : e.stop ≤ min (max (saturatingAdd (e.offset / readAheadBytes * readAheadBytes) readAheadBytes) e.stop)
          snapshotEnd := Nat.le_min.mpr ⟨le_max_right _ _, hs⟩
      simp only [if_true]
      generalize e.offset / readAheadBytes * readAheadBytes = lo at ha hhi ⊢
      generalize max (saturatingAdd lo readAheadBytes) e.stop = hi at hhi ⊢
      exact hf lo (min hi snapshotEnd) ha hhi (Nat.min_le_right _ _)
  · rw [if_neg hm]
    exact ⟨win, rfl, hwin, by omega, by omega⟩

/-- An extent is read as its bytes of the file, whether or not the cached window covers it. -/
theorem ReadWindow.readExtent_spec {win : ReadWindow} (hwin : win.Mirrors file)
    (hs : e.stop ≤ snapshotEnd) (hend : snapshotEnd ≤ file.length) (hh : e.Holds codec file) (ra : Bool) :
    ∃ win', win.readExtent codec file e snapshotEnd ra = .ok (e.slice file, win') ∧ win'.Mirrors file := by
  obtain ⟨win', hf, hmir, hlo, hhi⟩ := ReadWindow.fetch_spec hwin hs hend ra
  refine ⟨win', ?_, hmir⟩
  have hsl : (win'.bytes.drop (e.offset - win'.offset)).take e.len = e.slice file := by
    simp only [Extent.stop] at hhi
    rw [hmir.2, drop_take, take_take, drop_drop, Extent.slice]
    congr 1
    · omega
    · congr 1
      omega
  unfold ReadWindow.readExtent
  rw [hf]
  change (rejectIf _ _ >>= fun _ => _) = _
  rw [hsl]
  exact rejectIf_bind.mpr ⟨by rw [hh]; simp, rfl⟩

/-! ## Ranges -/

/-- The bytes a list of extents names. -/
def extentContents (file : Bytes) (extents : List Extent) : Bytes := extents.flatMap (Extent.slice file)

theorem length_extentContents {xs : List Extent} (h : ∀ e ∈ xs, e.stop ≤ file.length) :
    (extentContents file xs).length = extentBytes xs := by
  induction xs with
  | nil => rfl
  | cons e xs ih =>
    have he := h e mem_cons_self
    simp only [Extent.stop] at he
    have hlen : (e.slice file).length = e.len := by
      rw [Extent.slice, length_take, length_drop]
      omega
    rw [extentContents, flatMap_cons, length_append, hlen, extentBytes_cons]
    congr 1
    exact ih fun e he => h e (mem_cons_of_mem _ he)

/-- The output once the extents up to a logical position were copied. -/
def filled (contents : Bytes) (start stop logical : Nat) : Bytes :=
  (contents.drop start).take (min stop logical - start) ++ List.replicate (stop - max start (min stop logical)) 0

theorem filled_full {cs : Bytes} {a stop log : Nat} (h : stop ≤ log) : filled cs a stop log = (cs.drop a).take (stop - a) := by
  have hmin : min stop log = stop := min_eq_left h
  rw [filled, hmin, Nat.sub_eq_zero_of_le (le_max_right a stop), replicate_zero, append_nil]

/-- Positions the range does not reach leave the output alone. -/
theorem filled_skip {cs : Bytes} {a stop log next : Nat} (hle : log ≤ next)
    (h : ¬max a log < min stop next) : filled cs a stop next = filled cs a stop log := by
  have hend : max a (min stop next) = max a (min stop log) := by omega
  have hlen : min stop next - a = min stop log - a := by omega
  rw [filled, filled, hend, hlen]

/-- Copying the part of the range that one extent holds. -/
theorem filled_copy {cs pc : Bytes} {a stop log next : Nat} (hst : stop ≤ cs.length) (hlt : max a log < min stop next)
    (hp : pc = (cs.drop (max a log)).take (min stop next - max a log)) :
    copyInto (filled cs a stop log) (max a log - a) pc = filled cs a stop next := by
  have hmin : min stop log - a = max a log - a := by omega
  have hmax : max a (min stop log) = max a log := by omega
  have hn : max a (min stop next) = min stop next := by omega
  have hlen : pc.length = min stop next - max a log := by
    rw [hp, length_take, length_drop]
    omega
  have hf : ((cs.drop a).take (max a log - a)).length = max a log - a := by
    rw [length_take, length_drop]
    omega
  have hs : min stop next - a = (max a log - a) + (min stop next - max a log) := by omega
  rw [copyInto, filled, filled, hmin, hmax, hn, hs, take_add, drop_drop, hp]
  rw [take_left' hf, drop_append, hf]
  have hpos : a + (max a log - a) = max a log := by omega
  rw [hpos, ← hp, hlen]
  have hd : (List.take (max a log - a) (cs.drop a)).drop
      (max a log - a + (min stop next - max a log)) = [] := by
    apply drop_eq_nil_of_le
    omega
  rw [hd, nil_append, drop_replicate]
  congr 2
  omega

/-- The extents of a stream can be read: they lie inside the snapshot and hold their checksums. -/
def Readable (codec : BundleCodec) (file : Bytes) (snapshotEnd : Nat) (extents : List Extent) : Prop :=
  snapshotEnd ≤ file.length ∧ ∀ e ∈ extents, e.stop ≤ snapshotEnd ∧ e.Holds codec file

theorem readRangeStep_spec {snapshotEnd a stop : Nat} {xs done rest : List Extent}
    (hr : Readable codec file snapshotEnd xs) (hext : xs = done ++ e :: rest)
    (hs : stop ≤ (extentContents file xs).length) {scan : RangeScan} (hlog : scan.logical = extentBytes done)
    (hout : scan.output = filled (extentContents file xs) a stop scan.logical) (hwin : scan.window.Mirrors file) (i : Nat) :
    ∃ scan', readRangeStep codec file snapshotEnd a stop xs scan (e, i) = .ok scan' ∧
      scan'.logical = extentBytes (done ++ [e]) ∧
      scan'.output = filled (extentContents file xs) a stop scan'.logical ∧ scan'.window.Mirrors file := by
  have hwit : ∀ x ∈ xs, x.stop ≤ file.length := fun x hx => le_trans (hr.2 x hx).1 hr.1
  have he : e ∈ xs := by rw [hext]; simp
  have hn : extentBytes (done ++ [e]) = scan.logical + e.len := by rw [extentBytes_append, hlog]; simp
  unfold readRangeStep
  by_cases hlt : max a scan.logical < min stop (scan.logical + e.len)
  · obtain ⟨window', hexe, hmir⟩ :=
      ReadWindow.readExtent_spec hwin (hr.2 e he).1 hr.1 (hr.2 e he).2 (readAheadFor xs i)
    -- The extent's bytes sit in the stream's contents right after those of the extents before it.
    have hp : ((e.slice file).drop (max a scan.logical - scan.logical)).take
        (min stop (scan.logical + e.len) - max a scan.logical) =
        ((extentContents file xs).drop (max a scan.logical)).take
          (min stop (scan.logical + e.len) - max a scan.logical) := by
      have hd : (extentContents file done).length = scan.logical := by
        rw [hlog]
        exact length_extentContents fun x hx => hwit x (by rw [hext]; exact mem_append_left _ hx)
      have hsl : (e.slice file).length = e.len := by
        have := hwit e he
        simp only [Extent.stop] at this
        rw [Extent.slice, length_take, length_drop]
        omega
      have hc : extentContents file xs = extentContents file done ++ (e.slice file ++ extentContents file rest) := by
        rw [hext]
        simp [extentContents]
      have hnil : (extentContents file done).drop (max a scan.logical) = [] := drop_eq_nil_of_le (by omega)
      have hins : min stop (scan.logical + e.len) - max a scan.logical ≤
          ((e.slice file).drop (max a scan.logical - scan.logical)).length := by
        rw [length_drop]
        omega
      rw [hc, drop_append, hnil, nil_append, hd, drop_append, take_append_of_le_length hins]
    simp only [if_pos hlt, hexe]
    refine ⟨_, rfl, hn.symm, ?_, hmir⟩
    simp only
    rw [hout, hp]
    exact filled_copy hs hlt rfl
  · simp only [if_neg hlt]
    refine ⟨_, rfl, hn.symm, ?_, hwin⟩
    simp only
    rw [filled_skip (Nat.le_add_right _ _) hlt]
    exact hout

/-- The extent loop fills the whole range. -/
theorem readRangeLoop_spec (a stop : Nat) {xs : List Extent}
    (hr : Readable codec file snapshotEnd xs) (hs : stop ≤ (extentContents file xs).length) :
    ∀ (es : List (Extent × Nat)) (done : List Extent) (scan : RangeScan), xs = done ++ es.map Prod.fst →
      scan.logical = extentBytes done → scan.output = filled (extentContents file xs) a stop scan.logical →
      scan.window.Mirrors file →
      ∃ scan', readRangeLoop codec file snapshotEnd a stop xs es scan = .ok scan' ∧
        scan'.output = ((extentContents file xs).drop a).take (stop - a) ∧ scan'.window.Mirrors file := by
  have hleh := length_extentContents fun x hx => le_trans (hr.2 x hx).1 hr.1
  intro es
  induction es with
  | nil =>
    intro done scan hext hlog hout hwin
    rw [map_nil, append_nil] at hext
    refine ⟨scan, rfl, ?_, hwin⟩
    rw [hout, filled_full]
    rw [hlog, ← hext, ← hleh]
    exact hs
  | cons entry es ih =>
    obtain ⟨e, i⟩ := entry
    intro done scan hext hlog hout hwin
    obtain ⟨scan', hst, hlog', hout', hwin'⟩ :=
      readRangeStep_spec hr hext hs hlog hout hwin i
    rw [readRangeLoop, hst]
    change ∃ scan'', (if stop ≤ scan'.logical then .ok scan' else
      readRangeLoop codec file snapshotEnd a stop xs es scan') = .ok scan'' ∧ _
    by_cases hd : stop ≤ scan'.logical
    · rw [if_pos hd]
      exact ⟨scan', rfl, by rw [hout', filled_full hd], hwin'⟩
    · rw [if_neg hd]
      exact ih (done ++ [e]) scan' (by rw [hext]; simp) hlog' hout' hwin'

/-- The lookup table skips a prefix of the extents, none of which reaches into the range. -/
theorem takeWhile_logicalEnds (a : Nat) (xs : List Extent) : ∀ n, n ≤ a →
    let first := ((logicalEnds n xs).takeWhile fun stop => decide (stop ≤ a)).length
    (if first = 0 then n else (logicalEnds n xs).getD (first - 1) 0) = n + extentBytes (xs.take first) ∧
      n + extentBytes (xs.take first) ≤ a := by
  induction xs with
  | nil =>
    intro n hn
    simpa [logicalEnds] using hn
  | cons e xs ih =>
    intro n hn
    by_cases hle : n + e.len ≤ a
    · obtain ⟨h1, h2⟩ := ih (n + e.len) hle
      simp only [logicalEnds, takeWhile_cons, decide_eq_true hle, if_true, length_cons, take_succ_cons,
        extentBytes_cons, Nat.add_one_ne_zero, if_false, Nat.add_sub_cancel]
      refine ⟨?_, by omega⟩
      rw [← Nat.add_assoc, ← h1]
      split
      · next hz => rw [hz]; rfl
      · next hpos =>
        obtain ⟨k, hk⟩ := Nat.exists_eq_succ_of_ne_zero hpos
        rw [hk]
        rfl
    · simp only [logicalEnds, takeWhile_cons, decide_eq_false hle, Bool.false_eq_true, if_false, length_nil, if_true,
        take_zero, extentBytes_nil, Nat.add_zero]
      exact ⟨trivial, hn⟩

theorem firstExtent_spec (xs : List Extent) (a : Nat) : (firstExtent xs a).2 = extentBytes (xs.take (firstExtent xs a).1) ∧
      (firstExtent xs a).2 ≤ a := by
  unfold firstExtent
  split
  · obtain ⟨h1, h2⟩ := takeWhile_logicalEnds a xs 0 (Nat.zero_le _)
    simp only [Nat.zero_add] at h1 h2
    simp only [h1]
    exact ⟨trivial, h2⟩
  · exact ⟨rfl, Nat.zero_le _⟩

/-! ## Readers -/

/-- A reader of a well-placed snapshot of a file. -/
structure BundleReader.Faithful (codec : BundleCodec) (file : Bytes) (reader : BundleReader) : Prop where
  inside : reader.reference.Inside file
  ok : reader.streams.Ok fileMagic.length reader.reference.tableOffset
  holds : ∀ id s, reader.streams id = some s → ∀ e ∈ s.extents, e.Holds codec file
  window : reader.window.Mirrors file

theorem BundleReader.stream_eq (r : BundleReader) (id : StreamId) :
    r.stream id = okOr "missing bundle stream" (r.streams id) := by
  unfold BundleReader.stream
  rw [dif_pos id.isLt]

/-- Any range of a stream is read as that range of its bytes, and the reader stays faithful for the next read. -/
theorem BundleReader.Faithful.readRange {r : BundleReader}
    (h : r.Faithful codec file) {id : StreamId} {s : Stream} (hs : r.streams id = some s) {a stop : Nat}
    (hle : a ≤ stop) (hlen : stop ≤ s.len) : ∃ r', r.readRange codec file id a stop =
        .ok (((s.contents file).drop a).take (stop - a), r') ∧
      r'.Faithful codec file ∧ r'.streams = r.streams := by
  have hok := h.ok.stream id s hs
  unfold BundleReader.readRange
  rw [BundleReader.stream_eq, hs]
  change ∃ r', (rejectIf _ _ >>= fun _ => _) = _ ∧ _
  simp only [rejectIf, Nat.not_lt.mpr hle, Nat.not_lt.mpr hlen, or_self, if_false]
  cases hinl : inlineIndex id with
  | true =>
    refine ⟨r, ?_, h, rfl⟩
    rw [Stream.contents, hok.noExtents hinl]
    simp [Bind.bind, Except.bind, Pure.pure, Except.pure]
  | false =>
    have hr : Readable codec file (r.reference.tableOffset + r.reference.tableLen) s.extents := by
      refine ⟨h.inside.within, fun e he => ⟨?_, h.holds id s hs e he⟩⟩
      exact Nat.le_trans (h.ok.extent id s hs e he).upper (Nat.le_add_right _ _)
    have hc : s.contents file = extentContents file s.extents := by
      rw [Stream.contents, hok.noInline hinl]
      rfl
    have hleh := length_extentContents fun x hx => Nat.le_trans (hr.2 x hx).1 hr.1
    have hsi := hok.size
    rw [hok.noInline hinl, length_nil, Nat.add_zero] at hsi
    obtain ⟨hf, hsk⟩ := firstExtent_spec s.extents a
    obtain ⟨scan, hl, hout, hwin⟩ := readRangeLoop_spec a stop hr (by omega)
      (s.extents.zipIdx.drop (firstExtent s.extents a).1) (s.extents.take (firstExtent s.extents a).1)
      { output := List.replicate (stop - a) 0, logical := (firstExtent s.extents a).2, window := r.window }
      (by rw [map_drop, zipIdx_map_fst, take_append_drop]) hf (by
        simp only [filled]
        have hz : min stop (firstExtent s.extents a).2 - a = 0 := by omega
        have hmax : max a (min stop (firstExtent s.extents a).2) = a := by omega
        rw [hz, hmax, take_zero, nil_append]) h.window
    refine ⟨{ r with window := scan.window }, ?_, ⟨h.inside, h.ok, h.holds, hwin⟩, rfl⟩
    rw [hc, ← hout]
    simp only [Bind.bind, Except.bind, Bool.false_eq_true, if_false, h.inside.stop, hl]
    rfl

/-- A whole stream is read as its bytes. -/
theorem BundleReader.Faithful.readStream {r : BundleReader}
    (h : r.Faithful codec file) {id : StreamId} {s : Stream} (hs : r.streams id = some s) :
    ∃ r', r.readStream codec file id = .ok (s.contents file, r') ∧ r'.Faithful codec file ∧
      r'.streams = r.streams := by
  obtain ⟨r', hr, hfai, hst⟩ := h.readRange hs (Nat.zero_le s.len) le_rfl
  refine ⟨r', ?_, hfai, hst⟩
  have hwit : ∀ e ∈ s.extents, e.stop ≤ file.length := by
    intro e he
    exact Nat.le_trans (h.ok.extent id s hs e he).upper (Nat.le_trans (Nat.le_add_right _ _) h.inside.within)
  have hlen : (s.contents file).length = s.len := by
    rw [(h.ok.stream id s hs).size, Stream.contents, length_append, ← length_extentContents hwit]
    exact Nat.add_comm _ _
  rw [drop_zero, Nat.sub_zero, ← hlen, take_length] at hr
  unfold BundleReader.readStream
  rw [BundleReader.stream_eq, hs]
  rw [hlen] at hr
  exact hr

end Logex
