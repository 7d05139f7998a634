import Logex.Lemmas.Stream
import Logex.Lib.Run

/-!
# Resumable stream hashing

Whatever a published stream state went through, appends of any writes and restarts from its encoding, it is the state of the
bytes that were accepted and its digest is their tree hash. A step that fails leaves the state alone.
-/

namespace Logex

open Lib
open StreamState (ofBytes)

variable {bytes : Bytes}

namespace StreamStep

/-- The bytes a step adds. -/
def written : StreamStep → Bytes
  | .append writes => writes.flatten
  | .reload => []

/-- The bytes accepted so far, after a step: an append that would pass the byte count of a stream is refused. -/
def accept (bytes : Bytes) (step : StreamStep) : Bytes :=
  if (bytes ++ step.written).length ≤ u64Max then bytes ++ step.written else bytes

variable (core : Blake3) (ss : List StreamStep)

/-- The published state after a step, whether or not it failed. -/
def next (state : StreamState) (step : StreamStep) : StreamState :=
  match step.run core state with
  | .ok _ state => state
  | .error _ state => state

/-- What a step does to the state of a stream. -/
theorem run_ofBytes (h : bytes.length ≤ u64Max) (step : StreamStep) : step.run core (ofBytes core bytes) =
      if (bytes ++ step.written).length ≤ u64Max then .ok () (ofBytes core (bytes ++ step.written))
      else .error "stream byte count overflows u64" (ofBytes core bytes) := by
  cases step with
  | append ws =>
    change (attempt ((ofBytes core bytes).append core ws) >>= set) (ofBytes core bytes) = _
    rw [append_ofBytes]
    unfold written
    split <;> rfl
  | reload =>
    change (attempt (StreamState.fromBytes (ofBytes core bytes).toBytes) >>= set) (ofBytes core bytes) = _
    rw [fromBytes_toBytes core h]
    unfold written
    rw [List.append_nil, if_pos h]
    rfl

theorem accept_le (h : bytes.length ≤ u64Max) (step : StreamStep) : (accept bytes step).length ≤ u64Max := by
  unfold accept
  split
  · assumption
  · exact h

theorem next_ofBytes (h : bytes.length ≤ u64Max) (step : StreamStep) :
    next core (ofBytes core bytes) step = ofBytes core (accept bytes step) := by
  unfold next accept
  rw [run_ofBytes core h]
  by_cases hf : (bytes ++ step.written).length ≤ u64Max
  · rw [if_pos hf, if_pos hf]
  · rw [if_neg hf, if_neg hf]

theorem runFrom_accept_le : (runFrom accept [] ss).length ≤ u64Max := by
  induction ss using List.reverseRecOn with
  | nil => exact Nat.zero_le _
  | append_singleton ss step ih =>
    rw [runFrom_concat]
    exact accept_le ih step

/-- A run from the empty state reaches the state of the accepted bytes. -/
theorem runFrom_next : runFrom (next core) StreamState.new ss = ofBytes core (runFrom accept [] ss) := by
  induction ss using List.reverseRecOn with
  | nil => exact StreamState.new_eq_ofBytes core
  | append_singleton ss step ih =>
    rw [runFrom_concat, runFrom_concat, ih, next_ofBytes core (runFrom_accept_le ss)]

/-- As long as everything fits, everything is accepted. -/
theorem runFrom_accept_eq (h : (ss.flatMap written).length ≤ u64Max) : runFrom accept [] ss = ss.flatMap written := by
  induction ss using List.reverseRecOn with
  | nil => rfl
  | append_singleton ss step ih =>
    rw [List.flatMap_append, List.flatMap_singleton] at h ⊢
    have hle : (ss.flatMap written).length ≤ u64Max := by
      rw [List.length_append] at h
      omega
    rw [runFrom_concat, ih hle, accept, if_pos h]

end StreamStep

/-- However a byte string is split into writes and appends, and wherever the state is saved and resumed, the state that is reached is
a function of the string alone and its digest is the ordinary tree hash; a step fails only on a byte count past 64 bits, and then
leaves the state as it was. -/
theorem stream_hash_is_resumable (core : Blake3) (steps : List StreamStep) :
    let bytes := runFrom StreamStep.accept [] steps
    let state := runFrom (StreamStep.next core) StreamState.new steps
    ((steps.flatMap StreamStep.written).length ≤ u64Max → bytes = steps.flatMap StreamStep.written) ∧
      state = StreamState.ofBytes core bytes ∧ state.digest core = core.hash bytes ∧
      ∀ step : StreamStep, step.run core state =
        if (bytes ++ step.written).length ≤ u64Max then
          .ok () (StreamState.ofBytes core (bytes ++ step.written))
        else
          .error "stream byte count overflows u64" state := by
  intro bytes state
  have hs : state = ofBytes core bytes := StreamStep.runFrom_next core steps
  refine ⟨StreamStep.runFrom_accept_eq steps, hs, ?_, ?_⟩
  · rw [hs, digest_ofBytes]
  · intro step
    rw [hs]
    exact StreamStep.run_ofBytes core (StreamStep.runFrom_accept_le steps) step

end Logex
