import Logex.Lemmas.FixedPages

/-!
# Pages of byte strings

A parsed page holds a list of byte strings: its offsets are the running ends of the strings and its payload their concatenation.
Every page the parser accepts holds one list, the page written for a list holds that list, and everything the readers do is said in
terms of the list that is held.
-/

namespace Logex.Page

open Lib List

variable {i : Nat}

/-! ## Sums of lengths -/

/-- The sum of a list of lengths, as far as it fits a machine word. -/
theorem foldlM_checkedAdd (lengths : List Nat) {a : Nat} (h : a ≤ u64Max) :
    lengths.foldlM checkedAdd a = if a + lengths.sum ≤ u64Max then some (a + lengths.sum) else none := by
  induction lengths generalizing a with
  | nil => exact (if_pos h).symm
  | cons first rest ih =>
    rw [sum_cons, ← Nat.add_assoc, foldlM_cons]
    by_cases hf : a + first ≤ u64Max
    · rw [checkedAdd_eq_some.mpr ⟨rfl, hf⟩]
      exact ih hf
    · rw [checkedAdd, if_neg hf, if_neg (by omega)]
      rfl

theorem sum_lengths (values : List Bytes) : (values.map List.length).sum = values.flatten.length := List.length_flatten.symm

theorem dataBytes_eq {values : List Bytes} (h : values.flatten.length ≤ u64Max) :
    (values.map List.length).foldlM checkedAdd 0 = some values.flatten.length := by
  rw [foldlM_checkedAdd _ (Nat.zero_le _), sum_lengths, Nat.zero_add, if_pos h]

theorem totalLen_eq {values : List Bytes} (h : values.flatten.length ≤ u64Max) :
    values.foldlM (fun total v => checkedAdd total v.length) 0 = some values.flatten.length := by
  have hsum := dataBytes_eq h
  rwa [foldlM_map] at hsum

/-! ## Running ends -/

theorem length_runningEnds (off : Nat) (values : List Bytes) : (runningEnds off values).length = values.length := by
  induction values generalizing off with
  | nil => rfl
  | cons value values ih => rw [runningEnds, length_cons, ih, length_cons]

/-- The end before row `i` is the length of the rows before it. -/
theorem getElem?_runningEnds {values : List Bytes} (h : i ≤ values.length) (off : Nat) :
    (off :: runningEnds off values)[i]? = some (off + (values.take i).flatten.length) := by
  induction values generalizing off i with
  | nil =>
    obtain rfl : i = 0 := Nat.le_zero.mp h
    rfl
  | cons value values ih =>
    cases i with
    | zero => rfl
    | succ i =>
      rw [length_cons] at h
      rw [getElem?_cons_succ, runningEnds, ih (by omega), take_succ_cons, flatten_cons, length_append, Nat.add_assoc]

/-- Row `i` stands between the lengths of the rows before it and up to it. -/
theorem slice_flatten {values : List Bytes} {value : Bytes} (h : values[i]? = some value) :
    slice values.flatten (values.take i).flatten.length (values.take (i + 1)).flatten.length = .ok value := by
  obtain ⟨hi, rfl⟩ := List.getElem?_eq_some_iff.mp h
  have hst : (values.take (i + 1)).flatten.length = (values.take i).flatten.length + values[i].length := by
    rw [List.take_succ_eq_append_getElem hi, List.flatten_append, List.length_append, List.flatten_singleton]
  have hs : values.flatten = (values.take i).flatten ++ (values[i] ++ (values.drop (i + 1)).flatten) := by
    rw [← List.flatten_cons, ← List.drop_eq_getElem_cons hi, ← List.flatten_append, List.take_append_drop]
  rw [hst, slice_eq_ok (Nat.le_add_right _ _), Nat.add_sub_cancel_left, hs, List.drop_left, List.take_left]
  rw [hs, List.length_append, List.length_append]
  omega

/-! ## Payloads cut at their offsets -/

/-- The pieces of a payload between successive ends. -/
def pieces (blob : Bytes) : Nat → List Nat → List Bytes
  | _, [] => []
  | start, stop :: rest => (blob.drop start).take (stop - start) :: pieces blob stop rest

theorem length_pieces (blob : Bytes) (start : Nat) (ends : List Nat) : (pieces blob start ends).length = ends.length := by
  induction ends generalizing start with
  | nil => rfl
  | cons stop ends ih => rw [pieces, length_cons, ih, length_cons]

/-- Ends that increase up to the length of the payload cut it into pieces with those ends. -/
theorem pieces_spec {blob : Bytes} {start : Nat} {ends : List Nat} (hsrt : (start :: ends).IsChain (· ≤ ·))
    (hwit : ∀ stop ∈ ends, stop ≤ blob.length) (hl : (start :: ends).getLast? = some blob.length) :
    runningEnds start (pieces blob start ends) = ends ∧ (pieces blob start ends).flatten = blob.drop start := by
  induction ends generalizing start with
  | nil =>
    obtain rfl : start = blob.length := Option.some.inj hl
    exact ⟨rfl, drop_length.symm⟩
  | cons stop ends ih =>
    obtain ⟨hle, hr⟩ := isChain_cons_cons.mp hsrt
    rw [forall_mem_cons] at hwit
    obtain ⟨hen, hfla⟩ := ih hr hwit.2 hl
    have hleh : ((blob.drop start).take (stop - start)).length = stop - start := by
      rw [length_take, length_drop]
      omega
    have hs : start + (stop - start) = stop := by omega
    rw [pieces, runningEnds, hleh, hs, hen, flatten_cons, hfla]
    refine ⟨rfl, ?_⟩
    have hd : blob.drop stop = (blob.drop start).drop (stop - start) := by
      rw [drop_drop, hs]
    rw [hd, take_append_drop]

namespace BorrowedVarBytes

/-! ## The list a page holds -/

/-- The page holds the byte strings: their running ends are its offsets and their concatenation its payload. -/
structure Holds (page : BorrowedVarBytes) (values : List Bytes) : Prop where
  rows : page.rowCount = values.length
  blob : page.blob = values.flatten
  offset : ∀ i ≤ values.length, page.encodedOffset i = .ok (values.take i).flatten.length

variable {page : BorrowedVarBytes}

/-- What the loop over the offsets accepts: increasing offsets within the payload. -/
theorem checkOffsets_ok {rem row prev last : Nat} (h : page.checkOffsets rem row prev = .ok last) :
    ∃ ends : List Nat, ends.length = rem ∧ (∀ i stop, ends[i]? = some stop → page.encodedOffset (row + i) = .ok stop) ∧
      (prev :: ends).IsChain (· ≤ ·) ∧ (∀ stop ∈ ends, stop ≤ page.blob.length) ∧ (prev :: ends).getLast? = some last ∧
      (row = 0 → ∀ stop ∈ ends.head?, stop = 0) := by
  induction rem generalizing row prev with
  | zero =>
    obtain rfl := Except.ok.inj h
    exact ⟨[], rfl, nofun, List.IsChain.singleton prev, nofun, rfl, nofun⟩
  | succ rem ih =>
    obtain ⟨off, hoff, hr⟩ := bind_eq_ok.mp h
    obtain ⟨hbds, hl⟩ := rejectIf_bind.mp hr
    obtain ⟨ends, hleh, hen, hsrt, hwit, hla, -⟩ := ih hl
    rw [not_or, not_or, not_and, not_not, Nat.not_lt, Nat.not_lt] at hbds
    obtain ⟨hz, hle, hf⟩ := hbds
    refine ⟨off :: ends, by rw [length_cons, hleh], fun i stop hs => ?_, isChain_cons_cons.mpr ⟨hle, hsrt⟩,
      forall_mem_cons.mpr ⟨hf, hwit⟩, ?_, fun hrow stop hs => ?_⟩
    · cases i with
      | zero =>
        obtain rfl := Option.some.inj hs
        exact hoff
      | succ i =>
        have hn := hen i stop hs
        rwa [Nat.add_assoc, Nat.add_comm 1] at hn
    · rw [getLast?_cons_cons, hla]
    · obtain rfl : off = stop := Option.some.inj hs
      exact hz hrow

/-- Every page the parser accepts holds a list of byte strings, as many as it says. -/
theorem parse_holds {raw : Bytes} {nar : Bool} {exp : Option Nat} (h : parse raw nar exp = .ok page) :
    ∃ values, page.Holds values ∧ ∀ rows ∈ exp, values.length = rows := by
  obtain ⟨-, h⟩ := rejectIf_bind.mp h
  obtain ⟨hr, h⟩ := rejectIf_bind.mp h
  obtain ⟨bs, -, h⟩ := bind_eq_ok.mp h
  obtain ⟨off, -, h⟩ := bind_eq_ok.mp h
  obtain ⟨last, hl, h⟩ := bind_eq_ok.mp h
  obtain ⟨hc, h⟩ := rejectIf_bind.mp h
  generalize ofLeBytes (raw.take 4) = n at hr hl hc h
  cases h
  generalize hp : BorrowedVarBytes.mk off (raw.drop bs) n nar = page at hl hc ⊢
  have hco : page.rowCount = n := by rw [← hp]
  rw [not_not] at hc
  subst hc
  obtain ⟨ends, hleh, hen, hsrt, hwit, hla, hf⟩ := checkOffsets_ok hl
  cases ends with
  | nil => nomatch hleh
  | cons first ends =>
    obtain rfl : first = 0 := hf rfl first rfl
    have hch := (isChain_cons_cons.mp hsrt).2
    obtain ⟨hrun, hfla⟩ := pieces_spec hch (forall_mem_cons.mp hwit).2 hla
    have hpie : (pieces page.blob 0 ends).length = n := by
      rw [length_pieces]
      exact Nat.succ.inj hleh
    refine ⟨pieces page.blob 0 ends, ⟨hco.trans hpie.symm, hfla.symm, fun i hi => ?_⟩, fun rows hmem => ?_⟩
    · have hget := getElem?_runningEnds hi 0
      rw [hrun, Nat.zero_add] at hget
      have hoff := hen i _ hget
      rwa [Nat.zero_add] at hoff
    · rw [hpie]
      exact not_not.mp fun hne => hr ⟨rows, hmem, hne⟩

/-- The loop over the offsets finds every one of them. -/
theorem checkOffsets_within {table : List Bytes}
    (ht : chunksExact (offsetWidth page.narrow) page.offsets = table) (rem row prev : Nat)
    (hrow : rem + row = table.length) : page.checkOffsets rem row prev ≠ .error .outOfBounds := by
  induction rem generalizing row prev with
  | zero => nofun
  | succ rem ih =>
    rw [checkOffsets, encodedOffset, ht, getElem?_eq_getElem (show row < table.length by omega)]
    exact bind_ne_error nofun fun off _ => rejectIf_bind_ne_error nofun fun _ => ih (row + 1) off (by omega)

/-- The parser reads its offsets within the page. -/
theorem parse_within (raw : Bytes) (nar : Bool) (exp : Option Nat) : parse raw nar exp ≠ .error .outOfBounds := by
  have hpos : 0 < offsetWidth nar := by cases nar <;> decide
  refine rejectIf_bind_ne_error nofun fun _ => rejectIf_bind_ne_error nofun fun _ => bind_ne_error (okOr_ne_error nofun) fun bs h => ?_
  obtain ⟨hsum, hf⟩ := Option.filter_eq_some_iff.mp (okOr_eq_ok.mp h)
  obtain ⟨pro, hpro, hadd⟩ := Option.bind_eq_some_iff.mp hsum
  obtain ⟨count, hc, hmul⟩ := Option.bind_eq_some_iff.mp hpro
  obtain ⟨hst, -⟩ := checkedAdd_eq_some.mp hadd
  obtain ⟨rfl, -⟩ := checkedAdd_eq_some.mp hc
  have hpro : pro = (ofLeBytes (raw.take 4) + 1) * offsetWidth nar := by
    unfold checkedMul at hmul
    split at hmul
    · exact (Option.some.inj hmul).symm
    · nomatch hmul
  have hs := @slice_eq_ok raw 4 bs (by omega) (of_decide_eq_true hf)
  refine bind_ne_error (by rw [hs]; nofun) fun offsets hof => ?_
  obtain rfl := Except.ok.inj (hs.symm.trans hof)
  have hleh : ((raw.drop 4).take (bs - 4)).length = (ofLeBytes (raw.take 4) + 1) * offsetWidth nar := by
    have hle := of_decide_eq_true hf
    rw [length_take, length_drop]
    omega
  obtain ⟨table, hw, hr, hfla⟩ := exists_items _ hleh
  have hchs := chunksExact_flatten hpos hw
  rw [hfla] at hchs
  exact bind_ne_error (checkOffsets_within hchs _ 0 0 hr.symm) fun last _ => rejectIf_bind_ne_error nofun fun _ => nofun

section

variable {page : BorrowedVarBytes} {values : List Bytes}

section

variable (h : page.Holds values)

include h

/-- A row of the page is the string it holds there. -/
theorem Holds.row_eq {value : Bytes} (hv : values[i]? = some value) : page.row i = .ok value := by
  have hi := (List.getElem?_eq_some_iff.mp hv).1
  unfold row
  rw [h.offset i (le_of_lt hi), h.offset (i + 1) hi, h.blob]
  exact slice_flatten hv

/-- The loop over the offsets accepts the running ends. -/
theorem Holds.checkOffsets_eq (rem row : Nat) (hrow : rem + row = values.length + 1) {prev : Nat}
    (hp : prev = (values.take (row - 1)).flatten.length) : page.checkOffsets rem row prev = .ok values.flatten.length := by
  have hm : ∀ i j, i ≤ j → (values.take i).flatten.length ≤ (values.take j).flatten.length := by
    intro i j hij
    have hs : values.take j = values.take i ++ (values.take j).drop i := by
      conv_lhs => rw [← take_append_drop i (values.take j), take_take, Nat.min_eq_left hij]
    rw [hs, flatten_append, length_append]
    exact Nat.le_add_right _ _
  induction rem generalizing row prev with
  | zero =>
    rw [Nat.zero_add] at hrow
    rw [hrow, Nat.add_sub_cancel, take_length] at hp
    rw [checkOffsets, hp]
  | succ rem ih =>
    refine bind_eq_ok.mpr ⟨_, h.offset row (by omega), rejectIf_bind.mpr ⟨?_, ih (row + 1) (by omega) rfl⟩⟩
    have hall := hm row values.length (by omega)
    rw [take_length] at hall
    rintro (⟨rfl, hne⟩ | hlt | hlt)
    · exact hne rfl
    · rw [hp] at hlt
      exact absurd (hm (row - 1) row (by omega)) (Nat.not_le.mpr hlt)
    · rw [h.blob] at hlt
      exact absurd hall (Nat.not_le.mpr hlt)

/-- The rows of the page have the lengths of the strings it holds, and no other lengths pass. -/
theorem Holds.checkRowLengths_eq_ok {len : List Nat} {row : Nat} (hrow : len.length + row = values.length) :
    checkRowLengths page row len = .ok () ↔ len = (values.drop row).map List.length := by
  induction len generalizing row with
  | nil =>
    rw [length_nil, Nat.zero_add] at hrow
    rw [hrow, drop_length]
    exact ⟨fun _ => rfl, fun _ => rfl⟩
  | cons expected len ih =>
    rw [length_cons] at hrow
    have hi : row < values.length := by omega
    have hv := h.row_eq (getElem?_eq_getElem hi)
    have hr := @ih (row + 1) (by omega)
    rw [drop_eq_getElem_cons hi, map_cons, List.cons.injEq, checkRowLengths, hv]
    change (rejectIf _ _ >>= _) = _ ↔ _
    rw [rejectIf_bind, not_not, hr, eq_comm]

theorem Holds.checkRowLengths_within {len : List Nat} {row : Nat}
    (hrow : len.length + row = values.length) : checkRowLengths page row len ≠ .error .outOfBounds := by
  induction len generalizing row with
  | nil => nofun
  | cons expected len ih =>
    rw [length_cons] at hrow
    have hi : row < values.length := by omega
    rw [checkRowLengths, h.row_eq (getElem?_eq_getElem hi)]
    exact bind_ne_error nofun fun value _ => rejectIf_bind_ne_error nofun fun _ => ih (by omega)

end

/-! ## Selected rows -/

/-- The rows of a selection among the strings. -/
def selected (values : List Bytes) (selection : Option (List Nat)) : List Bytes :=
  (selection.getD (List.range values.length)).map fun i => values.getD i []

variable {positions : List Nat}

section

variable (h : page.Holds values)

include h

theorem Holds.row_getD (hi : i < values.length) : page.row i = .ok (values.getD i []) := by
  refine h.row_eq ?_
  rw [getD_eq_getElem?_getD, getElem?_eq_getElem hi, Option.getD_some]

variable (hpos : ∀ i ∈ positions, i < values.length)

include hpos

theorem Holds.mapM_row : positions.mapM page.row = .ok (positions.map fun i => values.getD i []) := by
  induction positions with
  | nil => rfl
  | cons i positions ih =>
    rw [forall_mem_cons] at hpos
    rw [mapM_cons, h.row_getD hpos.1, ih hpos.2]
    rfl

/-- The size of the selected rows, as far as it fits a machine word. -/
theorem Holds.payloadBytes_eq : page.payloadBytes positions =
      if (positions.map fun i => values.getD i []).flatten.length ≤ u64Max then
        .ok (positions.map fun i => values.getD i []).flatten.length
      else .error (.invalidData "selected payload size overflow") := by
  -- The sum from any start.
  have hsum : ∀ start ≤ u64Max, positions.foldlM (fun total p => do
      let value ← page.row p
      okOr (.invalidData "selected payload size overflow") (checkedAdd total value.length)) start =
        if start + (positions.map fun i => values.getD i []).flatten.length ≤ u64Max then
          .ok (start + (positions.map fun i => values.getD i []).flatten.length)
        else .error (.invalidData "selected payload size overflow") := by
    induction positions with
    | nil =>
      intro start hs
      exact (if_pos hs).symm
    | cons i positions ih =>
      intro start hs
      rw [forall_mem_cons] at hpos
      rw [foldlM_cons, h.row_getD hpos.1, map_cons, flatten_cons, length_append]
      generalize values.getD i [] = value
      change (okOr _ (checkedAdd start value.length) >>= _) = _
      unfold checkedAdd
      by_cases hf : start + value.length ≤ u64Max
      · rw [if_pos hf, ← Nat.add_assoc]
        exact ih hpos.2 _ hf
      · rw [if_neg hf, if_neg (by omega)]
        rfl
  have hz := hsum 0 (Nat.zero_le _)
  rw [Nat.zero_add] at hz
  exact hz

/-- The outputs cut from the shared payload are the rows. -/
theorem Holds.sliceOutputs_eq (done : Bytes) :
    page.sliceOutputs (done ++ (positions.map fun i => values.getD i []).flatten) positions done.length =
      .ok (positions.map fun i => values.getD i []) := by
  induction positions generalizing done with
  | nil => rfl
  | cons i positions ih =>
    rw [forall_mem_cons] at hpos
    rw [map_cons, flatten_cons, sliceOutputs, h.row_getD hpos.1]
    generalize values.getD i [] = value
    have hout : (if value.length = 0 then .ok []
        else slice (done ++ (value ++ (positions.map fun i => values.getD i []).flatten)) done.length (done.length + value.length)) =
          (.ok value : Except PageError Bytes) := by
      split
      next hz => rw [eq_nil_of_length_eq_zero hz]
      · rw [slice_eq_ok (Nat.le_add_right _ _), drop_left, Nat.add_sub_cancel_left, take_left]
        rw [length_append, length_append]
        omega
    have hr := ih hpos.2 (done ++ value)
    rw [List.append_assoc, length_append] at hr
    exact bind_eq_ok.mpr ⟨value, rfl, bind_eq_ok.mpr ⟨value, hout, bind_eq_ok.mpr ⟨_, hr, rfl⟩⟩⟩

end

variable {selection : Option (List Nat)}

variable (h : page.Holds values)

include h

/-- The positions of a selection within the page. -/
theorem Holds.positions_lt (hsel : ∀ rows ∈ selection, ∀ row ∈ rows, row < values.length) :
    ∀ i ∈ page.positions selection, i < values.length := by
  unfold positions
  cases selection with
  | none =>
    rw [Option.getD_none, h.rows]
    exact fun i hi => List.mem_range.mp hi
  | some rows => exact hsel rows rfl

theorem Holds.map_positions : ((page.positions selection).map fun i => values.getD i []) = selected values selection := by
  unfold positions selected
  rw [h.rows]

/-- With and without a budget, the selected rows are what is returned. -/
theorem Holds.materialize_eq (hsel : ∀ rows ∈ selection, ∀ row ∈ rows, row < values.length)
    (hc : (selected values selection).length * bytesSize ≤ u64Max) (hb : (selected values selection).flatten.length ≤ u64Max) :
    Yields (page.materialize selection) (.ok (selected values selection)) := by
  have hpos := h.positions_lt hsel
  have hsed := @Holds.map_positions page values selection h
  have hleh : (page.positions selection).length = (selected values selection).length := by
    rw [← hsed, length_map]
  have hr := h.mapM_row hpos
  have hpay := h.payloadBytes_eq hpos
  have hout := h.sliceOutputs_eq hpos []
  rw [hsed] at hr hpay hout
  rw [if_pos hb] at hpay
  refine Yields.passing ?_ ?_
  · rintro ⟨rows, hmem, row, hrow, hov⟩
    rw [h.rows] at hov
    exact absurd (hsel rows hmem row hrow) (Nat.not_lt.mpr hov)
  have hcap := Yields.tryWithCapacity (page.positions selection).length bytesSize "variable page output"
  rw [arrayBytes, hleh, okOr_checkedMul hc, ← hleh] at hcap
  refine hcap.bind_ok (Yields.branch ?_ ?_)
  · rw [hr]
    exact Yields.attempt _
  · refine Yields.attempted hpay ?_
    have hbuf := Yields.tryWithCapacity (selected values selection).flatten.length 1 "variable page payload"
    rw [arrayBytes, okOr_checkedMul (by rwa [Nat.mul_one])] at hbuf
    refine hbuf.bind_ok (Yields.attempted hr ?_)
    rw [nil_append] at hout
    rw [show (0 : Nat) = ([] : Bytes).length from rfl, hout]
    exact Yields.attempt _

/-- Whatever the selection, only the selected rows are ever returned. -/
theorem Holds.materialize_within : StaysWithin (page.materialize selection) fun out => out = selected values selection := by
  refine StaysWithin.failIf nofun fun hbds => ?_
  have hsel : ∀ rows ∈ selection, ∀ row ∈ rows, row < values.length := by
    intro rows hmem row hrow
    refine Nat.lt_of_not_le fun hle => hbds ⟨rows, hmem, row, hrow, ?_⟩
    rwa [h.rows]
  have hpos := h.positions_lt hsel
  have hsed := @Holds.map_positions page values selection h
  have hr := h.mapM_row hpos
  have hpad := h.payloadBytes_eq hpos
  have hout := h.sliceOutputs_eq hpos []
  rw [hsed] at hr hpad hout
  rw [nil_append] at hout
  refine (StaysWithin.tryWithCapacity _ _ _).bind fun _ _ => StaysWithin.branch ?_ ?_
  · rw [hr]
    exact StaysWithin.attempt (fun out hok => (Except.ok.inj hok).symm) nofun
  · refine (StaysWithin.attempt (P := fun _ => True) (fun _ _ => trivial) ?_).bind fun bytes _ => ?_
    · rw [hpad]
      split <;> nofun
    refine (StaysWithin.tryWithCapacity _ _ _).bind fun _ _ => ?_
    rw [hr]
    refine (StaysWithin.attempt (fun pl hok => (Except.ok.inj hok).symm) nofun).bind fun pl hpay => ?_
    subst hpay
    rw [show (0 : Nat) = ([] : Bytes).length from rfl, hout]
    exact StaysWithin.attempt (fun out hok => (Except.ok.inj hok).symm) nofun

end

/-! ## The page written for a list -/

variable {values : List Bytes}

theorem ofWidth_map_leBytes (width : Nat) (ns : List Nat) : OfWidth width (ns.map (leBytes width)) := by
  intro bytes hb
  obtain ⟨num, -, rfl⟩ := mem_map.mp hb
  exact length_leBytes width num

theorem length_encodeVarBytesRaw (width : Nat) (values : List Bytes) :
    (encodeVarBytesRaw width values).length = 4 + (values.length + 1) * width + values.flatten.length := by
  have ht := (ofWidth_map_leBytes width (0 :: runningEnds 0 values)).length_flatten
  rw [length_map, length_cons, length_runningEnds] at ht
  unfold encodeVarBytesRaw
  rw [length_append, length_append, length_leBytes, flatMap_def, ht]

/-- Parsing the page written for a list gives a page that holds the list, if its offsets fit their width. -/
theorem parse_encodeVarBytesRaw {nar : Bool} (hc : values.length ≤ u32Max)
    (hof : values.flatten.length < 256 ^ offsetWidth nar) {exp : Option Nat} (hexp : ∀ rows ∈ exp, rows = values.length) :
    ∃ page, parse (encodeVarBytesRaw (offsetWidth nar) values) nar exp = .ok page ∧ page.Holds values := by
  have hu32 : u32Max = 2 ^ 32 - 1 := rfl
  have hu64 : u64Max = 2 ^ 64 - 1 := rfl
  have hpos : 0 < offsetWidth nar ∧ offsetWidth nar ≤ 8 := by cases nar <;> decide
  have hleh := length_encodeVarBytesRaw (offsetWidth nar) values
  generalize hw : offsetWidth nar = width at hof hpos hleh ⊢
  generalize ht : (0 :: runningEnds 0 values).flatMap (leBytes width) = table
  have htaW := ofWidth_map_leBytes width (0 :: runningEnds 0 values)
  have htaL : table.length = (values.length + 1) * width := by
    rw [← ht, flatMap_def, htaW.length_flatten, length_map, length_cons, length_runningEnds]
  have hraw : encodeVarBytesRaw width values = leBytes 4 values.length ++ (table ++ values.flatten) := by
    rw [encodeVarBytesRaw, ht, List.append_assoc]
  have hroF : ofLeBytes ((encodeVarBytesRaw width values).take 4) = values.length := by
    rw [hraw, take_left' (length_leBytes 4 _), ofLeBytes_leBytes (Nat.lt_of_le_of_lt hc (by decide))]
  have hpro : (values.length + 1) * width ≤ (u32Max + 1) * 8 := Nat.mul_le_mul (by omega) hpos.2
  have hs : ((checkedAdd values.length 1).bind (checkedMul · width)).bind (checkedAdd · 4) = some ((values.length + 1) * width + 4) := by
    unfold checkedAdd checkedMul
    rw [if_pos (by omega), Option.bind_some, if_pos (by omega), Option.bind_some, if_pos (by omega)]
  have hflt : (((checkedAdd values.length 1).bind (checkedMul · width)).bind (checkedAdd · 4)).filter
      (· ≤ (encodeVarBytesRaw width values).length) = some ((values.length + 1) * width + 4) := by
    rw [hs, Option.filter_some, if_pos (decide_eq_true (by omega))]
  have hofS : slice (encodeVarBytesRaw width values) 4 ((values.length + 1) * width + 4) = .ok table := by
    rw [slice_eq_ok (by omega) (by omega), hraw, drop_left' (length_leBytes 4 _), Nat.add_sub_cancel, take_left' htaL]
  have hb : (encodeVarBytesRaw width values).drop ((values.length + 1) * width + 4) = values.flatten := by
    rw [hraw, ← List.append_assoc]
    refine drop_left' ?_
    rw [length_append, length_leBytes, htaL, Nat.add_comm]
  let page : BorrowedVarBytes := ⟨table, values.flatten, values.length, nar⟩
  have hh : page.Holds values := by
    refine ⟨rfl, rfl, fun i hi => ?_⟩
    have hchs : chunksExact width table = (0 :: runningEnds 0 values).map (leBytes width) := by
      rw [← ht, flatMap_def, chunksExact_flatten hpos.1 htaW]
    have hsm : (values.take i).flatten.length < 256 ^ width := by
      refine Nat.lt_of_le_of_lt ?_ hof
      conv_rhs => rw [← take_append_drop i values, flatten_append, length_append]
      exact Nat.le_add_right _ _
    change (okOr _ (chunksExact (offsetWidth nar) table)[i]? >>= _) = _
    rw [hw, hchs, getElem?_map, getElem?_runningEnds hi, Nat.zero_add]
    exact congrArg Except.ok (ofLeBytes_leBytes hsm)
  refine ⟨page, ?_, hh⟩
  unfold parse
  rw [hroF, hw]
  refine rejectIf_bind.mpr ⟨by omega, rejectIf_bind.mpr ⟨?_, bind_eq_ok.mpr ⟨_, okOr_eq_ok.mpr hflt,
    bind_eq_ok.mpr ⟨table, hofS, ?_⟩⟩⟩⟩
  · rintro ⟨rows, hmem, hne⟩
    exact hne (hexp rows hmem).symm
  · rw [hb]
    refine bind_eq_ok.mpr ⟨_, hh.checkOffsets_eq (values.length + 1) 0 rfl rfl, rejectIf_bind.mpr ⟨?_, rfl⟩⟩
    exact not_not.mpr rfl

end BorrowedVarBytes

end Logex.Page
