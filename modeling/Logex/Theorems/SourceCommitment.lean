import Logex.Lemmas.Commitment

/-!
# Source commitments

The identity of a segment's rows does not depend on how they were appended, the checks made before an append are exact, and the
identity determines the rows.
-/

namespace Logex

open Lib LogRow

namespace StreamedPrefix

variable {core : Blake3} {namespaceId : FixedBytes 16} {rows : List LogRow} {state : StreamedPrefix}

/-- The state of some rows is that of their transcript. -/
theorem fromRows_eq_ok : fromRows core namespaceId rows = .ok state ↔
      rows.length ≤ u64Max ∧ (rows.flatMap transcript).length ≤ u64Max ∧
        state = ofPrefix core ⟨namespaceId, rows.length, rows.flatMap transcript⟩ := by
  have hem : (PrefixState.empty namespaceId).stream ++ rows.flatMap transcript = rows.flatMap transcript := rfl
  have hz : (PrefixState.empty namespaceId).rows + rows.length = rows.length := zero_add _
  rw [fromRows, empty_eq, extend_ofPrefix, map_eq_ok]
  constructor
  · rintro ⟨ps, hext, rfl⟩
    obtain ⟨hle, hf, rfl⟩ := PrefixState.extend_eq_ok.mp hext
    rw [hz] at hle
    rw [hem] at hf
    rw [hz, hem]
    exact ⟨hle, hf, rfl⟩
  · rintro ⟨hle, hf, rfl⟩
    refine ⟨_, PrefixState.extend_eq_ok.mpr ⟨by rwa [hz], by rwa [hem], ?_⟩, rfl⟩
    rw [hz, hem]
    rfl

variable (h : fromRows core namespaceId rows = .ok state)

include h

/-- From any state reached, any cut into successive appends reaches what one append reaches. -/
theorem foldlM_extend_eq (bs : List (List LogRow)) (next : StreamedPrefix) :
    bs.foldlM (extend core) state = .ok next ↔ state.extend core bs.flatten = .ok next := by
  obtain ⟨hle, hf, rfl⟩ := fromRows_eq_ok.mp h
  rw [foldlM_extend_ofPrefix, extend_ofPrefix, map_eq_ok, map_eq_ok]
  refine exists_congr fun ps => and_congr_left fun _ => ?_
  exact PrefixState.foldlM_extend ⟨hle, hf⟩ bs

/-- Any state reached is resumed from its encoding. -/
theorem fromBytes_of_fromRows : fromBytes core state.toBytes = .ok state := by
  obtain ⟨hle, hf, rfl⟩ := fromRows_eq_ok.mp h
  have hmin := transcripts_length rows
  refine StreamedPrefix.fromBytes_toBytes core ⟨hle, hf⟩ ⟨?_, ?_⟩ hmin
  · intro hz
    obtain rfl := List.eq_nil_of_length_eq_zero hz
    rfl
  · intro hz
    change (rows.flatMap transcript).length = 0 at hz
    change rows.length = 0
    omega

/-- Equal identities of two prefixes come from equal transcripts, unless one of the two hashes collides. -/
theorem transcripts_eq_of_root_eq {rows' : List LogRow} {st' : StreamedPrefix} (h' : fromRows core namespaceId rows' = .ok st')
    (hr : state.root = st'.root) (hpre : core.hash (preimage core namespaceId state.rows state.stream) =
        core.hash (preimage core namespaceId st'.rows st'.stream) →
      preimage core namespaceId state.rows state.stream = preimage core namespaceId st'.rows st'.stream)
    (hdig : core.hash (rows.flatMap transcript) = core.hash (rows'.flatMap transcript) →
      rows.flatMap transcript = rows'.flatMap transcript) : rows.flatMap transcript = rows'.flatMap transcript := by
  obtain ⟨-, -, rfl⟩ := fromRows_eq_ok.mp h
  obtain ⟨-, -, rfl⟩ := fromRows_eq_ok.mp h'
  have hb := hpre hr
  refine hdig ?_
  unfold preimage at hb
  have hl := (List.append_inj' hb (by rw [FixedBytes.length_toBytes, FixedBytes.length_toBytes])).2
  have heq := FixedBytes.toBytes_inj.mp hl
  rwa [show (ofPrefix core ⟨namespaceId, rows.length, rows.flatMap transcript⟩).stream.digest core = _ from
      digest_ofBytes core _,
    show (ofPrefix core ⟨namespaceId, rows'.length, rows'.flatMap transcript⟩).stream.digest core = _ from
      digest_ofBytes core _] at heq

end StreamedPrefix

open StreamedPrefix

/-- Commitments do not depend on batching and bind the rows: cutting rows into successive appends reaches the state of one append,
also across restarts; a new append passes validation exactly when it can be made, with the exact bounds of its rows; and equal
commitments of typed rows in one namespace come from equal rows, where the hash does not collide on what the two commitments hash. -/
theorem source_commitments_bind (core : Blake3) (namespaceId : FixedBytes 16) (rows : List LogRow) :
    (∀ state, fromRows core namespaceId rows = .ok state →
      (∀ (batches : List (List LogRow)) next, batches.foldlM (extend core) state = .ok next ↔ state.extend core batches.flatten = .ok next) ∧
        fromBytes core state.toBytes = .ok state) ∧
      (∀ (batches : List (List LogRow)) state, batches.flatten = rows →
        (batches.foldlM (extend core) (empty core namespaceId) = .ok state ↔ fromRows core namespaceId rows = .ok state)) ∧
      ((∃ bounds, (empty core namespaceId).validateNewAppend namespaceId (empty core namespaceId).root rows = .ok bounds) ↔
        ∃ state, fromRows core namespaceId rows = .ok state) ∧
      (∀ bounds, (empty core namespaceId).validateNewAppend namespaceId (empty core namespaceId).root rows = .ok bounds →
        (bounds = none ↔ rows = []) ∧ ∀ summary, bounds = some summary → RowBounds.Exact rows summary) ∧
      ∀ rows' state state', (∀ row ∈ rows, row.Typed) → (∀ row ∈ rows', row.Typed) →
        fromRows core namespaceId rows = .ok state → fromRows core namespaceId rows' = .ok state' → state.root = state'.root →
        (core.hash (preimage core namespaceId state.rows state.stream) =
            core.hash (preimage core namespaceId state'.rows state'.stream) →
          preimage core namespaceId state.rows state.stream = preimage core namespaceId state'.rows state'.stream) →
        (core.hash (rows.flatMap LogRow.transcript) = core.hash (rows'.flatMap LogRow.transcript) →
          rows.flatMap LogRow.transcript = rows'.flatMap LogRow.transcript) →
        rows = rows' := by
  refine ⟨?_, ?_, ?_, ?_, ?_⟩
  · intro state h
    exact ⟨foldlM_extend_eq h, fromBytes_of_fromRows h⟩
  · intro batches state hfla
    subst hfla
    have hem : fromRows core namespaceId [] = .ok (empty core namespaceId) :=
      fromRows_eq_ok.mpr ⟨Nat.zero_le _, Nat.zero_le _, empty_eq core namespaceId⟩
    exact foldlM_extend_eq hem batches state
  · constructor
    · rintro ⟨bounds, h⟩
      exact ((validateNewAppend_empty core namespaceId rows bounds).mp h).1
    · intro h
      exact ⟨_, (validateNewAppend_empty core namespaceId rows _).mpr ⟨h, rfl⟩⟩
  · intro bounds h
    obtain ⟨-, rfl⟩ := (validateNewAppend_empty core namespaceId rows bounds).mp h
    exact ⟨RowBounds.fromRows_eq_none, fun summary hsum => RowBounds.fromRows_exact hsum⟩
  · intro rows' state state' ht ht' h h' hr hpre hdig
    obtain ⟨-, hf, -⟩ := fromRows_eq_ok.mp h
    exact transcripts_inj ht ht' hf (transcripts_eq_of_root_eq h h' hr hpre hdig)

end Logex
