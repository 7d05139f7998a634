import Logex.Lib.Stateful
import Logex.Primitives

/-!
# Decoders under a memory budget

The page decoders of `compression.rs` and `page.rs` reserve the memory of their buffers from an optional query budget before they
fill them. What a budget grants depends on everything else it is charged for, so it is left open: a budget answers each request, by
its number and size, as it likes. `Yields` says what a decoder computes apart from that: it returns the given result, and fails for
want of memory only under a budget that refuses a request.
-/

namespace Logex.Page

open Lib

variable {error : PageError} {c : Prop}

/-- What a page decoder fails with. An index or slice outside its range, which panics in the source, is `outOfBounds`. -/
inductive PageError where
  | invalidData (message : String)
  | invalidInput (message : String)
  | sizeOverflow (stage : String)
  | capacityExceeded (stage : String)
  | outOfBounds
deriving DecidableEq, Repr

/-- A query memory budget: whether request number `n` for so many bytes is granted. -/
abbrev PageBudget := Nat → Nat → Bool

/-- Decoding, with the number of requests made so far. -/
abbrev DecodeM := EStateM PageError Nat

/-- `QueryMemoryBudget::reserve`, and the reconciliation of a reservation with what was really allocated. -/
def reserve (memory : Option PageBudget) (bytes : Nat) (stage : String) : DecodeM Unit :=
  match memory with
  | none => pure ()
  | some budget => do
    let request ← modifyGet fun n => (n, n + 1)
    failIf (¬budget request bytes) (.capacityExceeded stage)

/-- `QueryMemoryBudget::array_bytes`. -/
def arrayBytes (len size : Nat) (stage : String) : Except PageError Nat := okOr (.sizeOverflow stage) (checkedMul len size)

/-- `QueryBuffer::try_with_capacity`, for items of `size` bytes. -/
def tryWithCapacity (memory : Option PageBudget) (capacity size : Nat) (stage : String) : DecodeM Unit := do
  let bytes ← attempt (arrayBytes capacity size stage)
  reserve memory bytes stage
  reserve memory 0 stage

/-- `decode_buffer`: reserve a decoder's single output vector before invoking it. -/
def decodeBuffer {α : Type} (memory : Option PageBudget) (capacity size : Nat) (stage : String) (decode : Except PageError α) :
    DecodeM α := do
  if memory.isSome then
    let bytes ← attempt (arrayBytes capacity size stage)
    reserve memory bytes stage
  let values ← attempt decode
  reserve memory 0 stage
  return values

/-- The size of an accounted buffer is counted first. -/
theorem decodeBuffer_overflow {α : Type} {capacity size : Nat} (h : ¬capacity * size ≤ u64Max) (budget : PageBudget) (stage : String)
    (decode : Except PageError α) (n : Nat) :
    decodeBuffer (some budget) capacity size stage decode n = .error (.sizeOverflow stage) n := by
  change EStateM.bind (attempt (arrayBytes capacity size stage)) _ n = _
  rw [arrayBytes, checkedMul, if_neg h]
  rfl

/-! ## What a decoder computes -/

/-- A failure that comes from the budget. -/
def PageError.OfMemory : PageError → Prop
  | .sizeOverflow _ => True
  | .capacityExceeded _ => True
  | _ => False

/-- There is a budget, and it refuses some request. -/
def Refuses (memory : Option PageBudget) : Prop := ∃ budget request bytes, memory = some budget ∧ budget request bytes = false

/-- Under every budget the decoder gives the result or fails for want of memory. Where the result is a value it fails only under a
budget that refuses a request, so without a budget, and under one that grants every request, it gives the value. -/
def Yields {α : Type} (decoder : Option PageBudget → DecodeM α) (result : Except PageError α) : Prop :=
  ∀ memory n, match decoder memory n with
    | .ok value _ => result = .ok value
    | .error error _ => result = .error error ∨ memory.isSome ∧ error.OfMemory ∧ (result.isOk → Refuses memory)

namespace Yields

variable {α β : Type} {decoder : Option PageBudget → DecodeM α} {next : Option PageBudget → α → DecodeM β}

theorem pure (v : α) : Yields (fun _ => Pure.pure v) (.ok v) := by
  intro memory n
  rfl

theorem attempt (result : Except PageError α) : Yields (fun _ => Lib.attempt result) result := by
  intro memory n
  cases result with
  | ok value => rfl
  | error error => exact .inl rfl

theorem bind {result : Except PageError α} {rest : α → Except PageError β} (h : Yields decoder result)
    (hn : ∀ v, result = .ok v → Yields (fun memory => next memory v) (rest v)) :
    Yields (fun memory => decoder memory >>= next memory) (result >>= rest) := by
  intro memory n
  have hf := h memory n
  change match EStateM.bind (decoder memory) (next memory) n with
    | .ok v _ | .error error _ => _
  unfold EStateM.bind
  cases hrun : decoder memory n with
  | ok v m =>
    rw [hrun] at hf
    subst hf
    exact hn v rfl memory m
  | error error m =>
    rw [hrun] at hf
    rcases hf with rfl | ⟨hsome, hmem, hrefused⟩
    · exact .inl rfl
    · refine .inr ⟨hsome, hmem, fun hok => hrefused ?_⟩
      -- What follows a failed step does not give a value.
      cases result with
      | ok _ => rfl
      | error _ => nomatch hok

/-- A step that gives a value. -/
theorem bind_ok {value : α} {result : Except PageError β} (h : Yields decoder (.ok value))
    (hn : Yields (fun memory => next memory value) result) : Yields (fun memory => decoder memory >>= next memory) result := by
  have hb : Yields (fun memory => decoder memory >>= next memory) (Except.ok value >>= fun _ => result) :=
    h.bind fun other hother => by
      cases hother
      exact hn
  exact hb

/-- A step that fails. -/
theorem bind_error (h : Yields decoder (.error error)) :
    Yields (fun memory => decoder memory >>= next memory) (.error error : Except PageError β) := by
  have hb : Yields (fun memory => decoder memory >>= next memory) (Except.error error >>= fun _ => (.error error : Except PageError β)) :=
    h.bind nofun
  exact hb

/-- A computed step that succeeds. -/
theorem attempted {computed : Except PageError α} {value : α} {result : Except PageError β} (h : computed = .ok value)
    (hn : Yields (fun memory => next memory value) result) :
    Yields (fun memory => Lib.attempt computed >>= next memory) result := by
  subst h
  exact (attempt (.ok value)).bind_ok hn

/-- A check that passes. -/
theorem passing [Decidable c] (h : ¬c) {result : Except PageError α} (hn : Yields decoder result) :
    Yields (fun memory => failIf c error >>= fun _ => decoder memory) result := by
  intro memory n
  have hrun : (failIf c error >>= fun _ => decoder memory : DecodeM α) n = decoder memory n := by
    change EStateM.bind _ _ _ = _
    unfold EStateM.bind failIf rejectIf
    rw [if_neg h]
    rfl
  dsimp only
  rw [hrun]
  exact hn memory n

/-- A check that fails. -/
theorem failing [Decidable c] (h : c) : Yields (fun memory => failIf c error >>= fun _ => decoder memory) (.error error) := by
  intro memory n
  have hrun : (failIf c error >>= fun _ => decoder memory : DecodeM α) n = .error error n := by
    change EStateM.bind _ _ _ = _
    unfold EStateM.bind failIf rejectIf
    rw [if_pos h]
    rfl
  dsimp only
  rw [hrun]
  exact .inl rfl

/-- A request does not change what is computed. -/
theorem reserve (bytes : Nat) (stage : String) : Yields (fun memory => Page.reserve memory bytes stage) (.ok ()) := by
  intro memory n
  cases memory with
  | none => rfl
  | some budget =>
    by_cases hg : budget n bytes = true
    · have hrun : Page.reserve (some budget) bytes stage n = .ok () (n + 1) := by
        change Lib.failIf (¬budget n bytes) _ (n + 1) = _
        rw [failIf, rejectIf, if_neg (not_not.mpr hg)]
        rfl
      dsimp only
      rw [hrun]
    · have hrun : Page.reserve (some budget) bytes stage n = .error (.capacityExceeded stage) (n + 1) := by
        change Lib.failIf (¬budget n bytes) _ (n + 1) = _
        rw [failIf, rejectIf, if_pos hg]
        rfl
      dsimp only
      rw [hrun]
      exact .inr ⟨rfl, trivial, fun _ => ⟨budget, n, bytes, rfl, eq_false_of_ne_true hg⟩⟩

/-- Room for a vector is given unless its size cannot be counted. -/
theorem tryWithCapacity (capacity size : Nat) (stage : String) :
    Yields (fun memory => Page.tryWithCapacity memory capacity size stage) (arrayBytes capacity size stage >>= fun _ => .ok ()) := by
  refine (attempt (arrayBytes capacity size stage)).bind fun bytes _ => ?_
  exact (reserve bytes stage).bind fun _ _ => reserve 0 stage

/-- A buffer gives what its decoder gives, if a value of that size can be counted. -/
theorem decodeBuffer (capacity size : Nat) (stage : String) (decode : Except PageError α)
    (hfit : decode.isOk → capacity * size ≤ u64Max) :
    Yields (fun memory => Page.decodeBuffer memory capacity size stage decode) decode := by
  have hr : Yields (fun memory => (Lib.attempt decode : DecodeM α) >>= fun values =>
      Page.reserve memory 0 stage >>= fun _ => Pure.pure values) decode := by
    have hk : ∀ values : α, Yields (fun memory => Page.reserve memory 0 stage >>= fun _ => Pure.pure values) (.ok values) := by
      intro values
      exact (reserve 0 stage).bind fun _ _ => pure values
    have hboth := (attempt decode).bind fun values _ => hk values
    cases decode <;> exact hboth
  intro memory n
  cases memory with
  | none => exact hr none n
  | some budget =>
    by_cases hcount : capacity * size ≤ u64Max
    · change match (Lib.attempt (arrayBytes capacity size stage) >>= fun bytes => Page.reserve (some budget) bytes stage >>= fun _ =>
          Lib.attempt decode >>= fun values => Page.reserve (some budget) 0 stage >>= fun _ => Pure.pure values : DecodeM α) n with
        | .ok value _ | .error error _ => _
      rw [arrayBytes, checkedMul, if_pos hcount]
      exact ((reserve _ stage).bind fun _ _ => hr) (some budget) n
    · dsimp only
      rw [decodeBuffer_overflow hcount]
      exact .inr ⟨rfl, trivial, fun hok => absurd (hfit hok) hcount⟩

/-- A buffer whose values are not used because what follows them fails. -/
theorem decodeBuffer_error {capacity size : Nat} {stage : String} {decode : Except PageError α} {value : α}
    (hd : decode = .ok value) (hn : Yields (fun memory => next memory value) (.error error)) :
    Yields (fun memory => Page.decodeBuffer memory capacity size stage decode >>= next memory) (.error error) := by
  subst hd
  by_cases hfit : capacity * size ≤ u64Max
  · exact (decodeBuffer capacity size stage _ fun _ => hfit).bind_ok hn
  intro memory n
  cases memory with
  | none =>
    have hrun := (decodeBuffer 0 0 stage (.ok value) fun _ => Nat.zero_le _).bind_ok hn none n
    exact hrun
  | some budget =>
    have hrun : (Page.decodeBuffer (some budget) capacity size stage (.ok value) >>= next (some budget) : DecodeM β) n =
        .error (.sizeOverflow stage) n := by
      change EStateM.bind _ _ _ = _
      unfold EStateM.bind
      rw [decodeBuffer_overflow hfit]
    dsimp only
    rw [hrun]
    exact .inr ⟨rfl, trivial, fun hok => nomatch hok⟩

/-- Two ways to the same result, one of them without a budget. -/
theorem branch {unaccounted accounted : Option PageBudget → DecodeM α} {result : Except PageError α} (h : Yields unaccounted result)
    (h' : Yields accounted result) : Yields (fun memory => if memory.isNone then unaccounted memory else accounted memory) result := by
  intro memory n
  cases memory with
  | none => exact h none n
  | some budget => exact h' (some budget) n

/-- Without a budget a decoder gives exactly its result. -/
theorem unaccounted {result : Except PageError α} (h : Yields decoder result) (n : Nat) : ∃ m, decoder none n = match result with
      | .ok v => .ok v m
      | .error error => .error error m := by
  have hrun := h none n
  cases hres : decoder none n with
  | ok v m =>
    rw [hres] at hrun
    subst hrun
    exact ⟨m, rfl⟩
  | error error m =>
    rw [hres] at hrun
    rcases hrun with rfl | ⟨hn, -⟩
    · exact ⟨m, rfl⟩
    · nomatch hn

/-- Without a budget, or under one that grants every request, a decoder gives its value. -/
theorem granted {value : α} (h : Yields decoder (.ok value)) :
    ∀ memory ∈ [none, some fun _ _ => true], ∀ n, ∃ m, decoder memory n = .ok value m := by
  intro memory hmem n
  have hrun := h memory n
  cases hres : decoder memory n with
  | ok v m =>
    rw [hres] at hrun
    cases hrun
    exact ⟨m, rfl⟩
  | error error m =>
    rw [hres] at hrun
    rcases hrun with hrun | ⟨-, -, hrefused⟩
    · nomatch hrun
    · obtain ⟨budget, request, bytes, hb, hno⟩ := hrefused rfl
      rw [hb] at hmem
      simp only [List.mem_cons, reduceCtorEq, Option.some.injEq, List.not_mem_nil, or_false, false_or] at hmem
      subst hmem
      nomatch hno

end Yields

/-! ## What any decoder keeps to -/

/-- Under every budget the decoder gives a value with the property, or fails, but not for reading out of bounds. -/
def StaysWithin {α : Type} (decoder : Option PageBudget → DecodeM α) (P : α → Prop) : Prop :=
  ∀ memory n, match decoder memory n with
    | .ok value _ => P value
    | .error error _ => error ≠ .outOfBounds

namespace StaysWithin

variable {α β : Type} {decoder : Option PageBudget → DecodeM α} {next : Option PageBudget → α → DecodeM β}
  {P : α → Prop} {Q : β → Prop}

theorem of_yields {result : Except PageError α} (h : Yields decoder result) (hok : ∀ v, result = .ok v → P v)
    (herror : result ≠ .error .outOfBounds) : StaysWithin decoder P := by
  intro memory n
  have hrun := h memory n
  revert hrun
  cases decoder memory n with
  | ok v m =>
    intro hrun
    exact hok v hrun
  | error error m =>
    rintro (hrun | ⟨-, hmem, -⟩) rfl
    · exact herror hrun
    · exact hmem

theorem pure {v : α} (h : P v) : StaysWithin (fun _ => Pure.pure v) P := by
  intro memory n
  exact h

theorem weaken (h : StaysWithin decoder P) {P' : α → Prop} (himp : ∀ v, P v → P' v) : StaysWithin decoder P' := by
  intro memory n
  have hrun := h memory n
  revert hrun
  cases decoder memory n with
  | ok v m => exact himp v
  | error error m => exact id

/-- What is returned was returned by some run. -/
theorem returned (h : StaysWithin decoder fun _ => True) : StaysWithin decoder fun v => ∃ memory n m, decoder memory n = .ok v m := by
  intro memory n
  have hrun := h memory n
  revert hrun
  cases hres : decoder memory n with
  | ok v m => exact fun _ => ⟨memory, n, m, hres⟩
  | error error m => exact id

theorem throw (h : error ≠ .outOfBounds) : StaysWithin (fun _ => (MonadExcept.throw error : DecodeM α)) P := by
  intro memory n
  exact h

theorem attempt {computed : Except PageError α} (hok : ∀ v, computed = .ok v → P v)
    (herror : computed ≠ .error .outOfBounds) : StaysWithin (fun _ => Lib.attempt computed) P :=
  of_yields (Yields.attempt computed) hok herror

theorem bind (h : StaysWithin decoder P) (hn : ∀ v, P v → StaysWithin (fun memory => next memory v) Q) :
    StaysWithin (fun memory => decoder memory >>= next memory) Q := by
  intro memory n
  have hf := h memory n
  change match EStateM.bind (decoder memory) (next memory) n with
    | .ok v _ | .error error _ => _
  unfold EStateM.bind
  revert hf
  cases decoder memory n with
  | ok v m =>
    intro hf
    exact hn v hf memory m
  | error error m =>
    intro hf
    exact hf

theorem failIf [Decidable c] (herror : error ≠ .outOfBounds)
    (hn : ¬c → StaysWithin decoder P) : StaysWithin (fun memory => Lib.failIf c error >>= fun _ => decoder memory) P := by
  by_cases h : c
  · refine of_yields (Yields.failing h) (fun value hv => ?_) fun hbds => herror (Except.error.inj hbds)
    nomatch hv
  · have hc : StaysWithin (fun _ => (Lib.failIf c error : DecodeM Unit)) fun _ => True := by
      unfold Lib.failIf rejectIf
      rw [if_neg h]
      exact pure trivial
    exact hc.bind fun _ _ => hn h

theorem branch {unaccounted accounted : Option PageBudget → DecodeM α} (h : StaysWithin unaccounted P) (h' : StaysWithin accounted P) :
    StaysWithin (fun memory => if memory.isNone then unaccounted memory else accounted memory) P := by
  intro memory n
  cases memory with
  | none => exact h none n
  | some budget => exact h' (some budget) n

theorem tryWithCapacity (capacity size : Nat) (stage : String) :
    StaysWithin (fun memory => Page.tryWithCapacity memory capacity size stage) fun _ => True := by
  refine of_yields (Yields.tryWithCapacity capacity size stage) (fun _ _ => trivial) ?_
  unfold arrayBytes
  cases checkedMul capacity size <;> nofun

theorem decodeBuffer (capacity size : Nat) (stage : String) {decode : Except PageError α} (hok : ∀ v, decode = .ok v → P v)
    (herror : decode ≠ .error .outOfBounds) :
    StaysWithin (fun memory => Page.decodeBuffer memory capacity size stage decode) P := by
  by_cases hfit : capacity * size ≤ u64Max
  · exact of_yields (Yields.decodeBuffer capacity size stage decode fun _ => hfit) hok herror
  intro memory n
  cases memory with
  | none => exact of_yields (Yields.decodeBuffer 0 0 stage decode fun _ => Nat.zero_le _) hok herror none n
  | some budget =>
    dsimp only
    rw [decodeBuffer_overflow hfit]
    exact nofun

end StaysWithin

end Logex.Page
