import Mathlib

/-!
# Computations that can fail

Early returns written as binds, and the lemmas that take a successful computation apart: what a caller learns from
`x >>= f = .ok r` is that `x` succeeded and `f` succeeded on its result.
-/

namespace Logex.Lib

variable {c : Prop}

variable {ε α β : Type}

/-- Return early with an error when the condition holds. -/
def rejectIf (c : Prop) [Decidable c] (e : ε) : Except ε Unit :=
  if c then .error e else .ok ()

/-- `Option::ok_or`. -/
def okOr (e : ε) : Option α → Except ε α
  | some a => .ok a
  | none => .error e

@[simp] theorem rejectIf_eq_ok [Decidable c] {e : ε} {u : Unit} : rejectIf c e = .ok u ↔ ¬c := by
  by_cases h : c <;> simp [rejectIf, h]

theorem rejectIf_eq_error [Decidable c] {e e' : ε} (h : rejectIf c e = .error e') : c ∧ e = e' := by
  unfold rejectIf at h
  split at h
  · next hc => exact ⟨hc, Except.error.inj h⟩
  · nomatch h

theorem okOr_eq_error {e e' : ε} {o : Option α} (h : okOr e o = .error e') : o = none ∧ e = e' := by
  cases o with
  | none => exact ⟨rfl, Except.error.inj h⟩
  | some a => nomatch h

@[simp] theorem okOr_eq_ok {e : ε} {o : Option α} {a : α} : okOr e o = .ok a ↔ o = some a := by
  cases o <;> simp [okOr]

variable {x : Except ε α} {f : α → Except ε β}

/-- A bind succeeds exactly when both of its halves do. -/
theorem bind_eq_ok {r : β} : (x >>= f) = .ok r ↔ ∃ a, x = .ok a ∧ f a = .ok r := by
  cases x with
  | error e | ok a => simp [bind, Except.bind]

/-- A bind fails where its first half does, or where the second fails on the result of the first. -/
theorem bind_eq_error {e : ε} : (x >>= f) = .error e ↔ x = .error e ∨ ∃ a, x = .ok a ∧ f a = .error e := by
  cases x with
  | error e' | ok a => simp [bind, Except.bind]

/-- A check succeeds together with what follows it. -/
theorem check_bind_eq_ok {x : Except ε Unit} {f : Unit → Except ε β} {r : β} : (x >>= f) = .ok r ↔ x = .ok () ∧ f () = .ok r := by
  cases x with
  | error e | ok a => simp [bind, Except.bind]

/-- A list of checks succeeds exactly when each one does. -/
theorem forM_eq_ok {che : α → Except ε Unit} {list : List α} : list.forM che = .ok () ↔ ∀ a ∈ list, che a = .ok () := by
  induction list with
  | nil => exact ⟨nofun, fun _ => rfl⟩
  | cons a list ih =>
    change (che a >>= fun _ => list.forM che) = .ok () ↔ _
    rw [check_bind_eq_ok, ih, List.forall_mem_cons]

/-- A guarded computation succeeds exactly when the guard does not fire and the rest succeeds. -/
theorem rejectIf_bind [Decidable c] {e : ε} {f : Unit → Except ε β} {r : β} :
    (rejectIf c e >>= f) = .ok r ↔ ¬c ∧ f () = .ok r := by
  rw [bind_eq_ok]
  constructor
  · rintro ⟨_, hc, hf⟩
    exact ⟨rejectIf_eq_ok.mp hc, hf⟩
  · rintro ⟨hc, hf⟩
    exact ⟨(), rejectIf_eq_ok.mpr hc, hf⟩

/-! ## Failures that cannot happen -/

theorem bind_ne_error {e : ε} (h : x ≠ .error e) (hf : ∀ a, x = .ok a → f a ≠ .error e) : (x >>= f) ≠ .error e := by
  cases x with
  | ok a => exact hf a rfl
  | error e' =>
    intro her
    exact h (congrArg Except.error (Except.error.inj (show Except.error e' = Except.error e from her)))

theorem rejectIf_bind_ne_error [Decidable c] {e e' : ε} {f : Unit → Except ε β} (he : e' ≠ e)
    (hf : ¬c → f () ≠ .error e) : (rejectIf c e' >>= f) ≠ .error e := by
  unfold rejectIf
  split
  · intro her
    exact he (Except.error.inj her)
  next hc => exact hf hc

theorem okOr_ne_error {x : Option α} {e e' : ε} (he : e' ≠ e) : okOr e' x ≠ .error e := by
  cases x with
  | none =>
    intro her
    exact he (Except.error.inj her)
  | some a => nofun

end Logex.Lib
