import Logex.Lib.Except

/-!
# Operations that change a state and may fail

An operation of type `EStateM ε σ α` keeps what it changed when it fails, as a Rust method on `&mut self` that returns a `Result`
does. `wp x Q E s` says what running `x` at `s` guarantees: `Q` of the result and the new state where it returns, `E` of the state
it leaves where it fails. The rules take an operation apart; `loop` is a bounded `while`, with the rule of its invariant and the
lemma that the bound does not matter once it exceeds a measure of the state.
-/

namespace Logex.Lib

variable {c : Prop}

variable {ε σ α β : Type}

/-- What an operation guarantees when it is run at a state. -/
def wp (x : EStateM ε σ α) (Q : α → σ → Prop) (E : σ → Prop) (s : σ) : Prop :=
  match x s with
  | .ok a s' => Q a s'
  | .error _ s' => E s'

/-- Fail with the error of a pure computation. -/
def attempt : Except ε α → EStateM ε σ α
  | .ok a => pure a
  | .error e => throw e

/-- Fail when the condition holds. -/
def failIf (c : Prop) [Decidable c] (e : ε) : EStateM ε σ Unit := attempt (rejectIf c e)

/-- Run an operation where the condition holds. -/
def runIf (c : Prop) [Decidable c] (x : EStateM ε σ Unit) : EStateM ε σ Unit := if c then x else pure ()

section Rules

variable {x : EStateM ε σ α} {f : α → EStateM ε σ β} {Q Q' : α → σ → Prop} {R : β → σ → Prop} {E E' : σ → Prop} {s : σ}

theorem wp_mono (h : wp x Q E s) (hQ : ∀ a s', Q a s' → Q' a s') (hE : ∀ s', E s' → E' s') : wp x Q' E' s := by
  unfold wp at h ⊢
  split at h
  · exact hQ _ _ h
  · exact hE _ h

theorem wp_imp (h : wp x Q E s) (hQ : ∀ a s', Q a s' → Q' a s') : wp x Q' E s :=
  wp_mono h hQ fun _ h => h

@[simp] theorem wp_pure {a : α} : wp (pure a : EStateM ε σ α) Q E s ↔ Q a s := Iff.rfl

@[simp] theorem wp_throw {e : ε} : wp (throw e : EStateM ε σ α) Q E s ↔ E s := Iff.rfl

@[simp] theorem wp_get {Q : σ → σ → Prop} : wp (get : EStateM ε σ σ) Q E s ↔ Q s s := Iff.rfl

@[simp] theorem wp_set {t : σ} {Q : PUnit → σ → Prop} : wp (set t : EStateM ε σ PUnit) Q E s ↔ Q ⟨⟩ t := Iff.rfl

@[simp] theorem wp_modify {g : σ → σ} {Q : PUnit → σ → Prop} : wp (modify g : EStateM ε σ PUnit) Q E s ↔ Q ⟨⟩ (g s) := Iff.rfl

@[simp] theorem wp_modifyGet {g : σ → α × σ} : wp (modifyGet g : EStateM ε σ α) Q E s ↔ Q (g s).1 (g s).2 := Iff.rfl

@[simp] theorem wp_bind : wp (x >>= f) R E s ↔ wp x (fun a s' => wp (f a) R E s') E s := by
  unfold wp
  change (match EStateM.bind x f s with | .ok b s' => R b s' | .error _ s' => E s') ↔ _
  unfold EStateM.bind
  cases x s with
  | ok a s' | error e s' => exact Iff.rfl

/-- What the first part leaves is enough for the second. -/
theorem wp_seq (h : wp x Q E s) (hf : ∀ a s', Q a s' → wp (f a) R E' s') (hE : ∀ s', E s' → E' s') : wp (x >>= f) R E' s :=
  wp_bind.mpr (wp_mono h hf hE)

theorem wp_then (h : wp x Q E s) (hf : ∀ a s', Q a s' → wp (f a) R E s') : wp (x >>= f) R E s := wp_seq h hf fun _ h => h

@[simp] theorem wp_ite [Decidable c] {y : EStateM ε σ α} :
    wp (if c then x else y) Q E s ↔ (c → wp x Q E s) ∧ (¬c → wp y Q E s) := by
  by_cases h : c <;> simp [h]

theorem wp_attempt {r : Except ε α} : wp (attempt r) Q E s ↔ (∀ a, r = .ok a → Q a s) ∧ (∀ e, r = .error e → E s) := by
  cases r with
  | ok a | error e => simp [attempt]

@[simp] theorem wp_failIf [Decidable c] {e : ε} {Q : Unit → σ → Prop} : wp (failIf c e) Q E s ↔ (¬c → Q () s) ∧ (c → E s) := by
  by_cases h : c <;> simp [failIf, rejectIf, attempt, h]

@[simp] theorem wp_runIf [Decidable c] {x : EStateM ε σ Unit} {Q : Unit → σ → Prop} :
    wp (runIf c x) Q E s ↔ (c → wp x Q E s) ∧ (¬c → Q () s) := by
  by_cases h : c <;> simp [runIf, h]

@[simp] theorem wp_discard {Q : PUnit → σ → Prop} : wp (discard x) Q E s ↔ wp x (fun _ s' => Q ⟨⟩ s') E s := by
  rw [show discard x = x >>= fun _ => pure ⟨⟩ from rfl, wp_bind]
  exact Iff.rfl

@[simp] theorem wp_forM_nil {g : α → EStateM ε σ PUnit} {Q : PUnit → σ → Prop} : wp (List.forM [] g) Q E s ↔ Q ⟨⟩ s := Iff.rfl

@[simp] theorem wp_forM_cons {g : α → EStateM ε σ PUnit} {a : α} {as : List α} {Q : PUnit → σ → Prop} :
    wp ((a :: as).forM g) Q E s ↔ wp (g a) (fun _ s' => wp (as.forM g) Q E s') E s :=
  wp_bind

/-- What a run that returned guarantees. -/
theorem wp_ok {a : α} {s' : σ} (h : wp x Q E s) (hx : x s = .ok a s') : Q a s' := by
  unfold wp at h
  rw [hx] at h
  exact h

theorem wp_error {e : ε} {s' : σ} (h : wp x Q E s) (hx : x s = .error e s') : E s' := by
  unfold wp at h
  rw [hx] at h
  exact h

end Rules

/-! ## Failures told apart -/

/-- `wp` where the guarantee on failure also speaks about the error. -/
def wpE (x : EStateM ε σ α) (Q : α → σ → Prop) (E : ε → σ → Prop) (s : σ) : Prop :=
  match x s with
  | .ok a s' => Q a s'
  | .error e s' => E e s'

section

variable {x : EStateM ε σ α} {f : α → EStateM ε σ β} {Q Q' : α → σ → Prop} {R : β → σ → Prop} {E E' : ε → σ → Prop} {s : σ}

theorem wpE_mono (h : wpE x Q E s) (hQ : ∀ a s', Q a s' → Q' a s') (hE : ∀ e s', E e s' → E' e s') : wpE x Q' E' s := by
  unfold wpE at h ⊢
  split at h
  · exact hQ _ _ h
  · exact hE _ _ h

theorem wpE_imp (h : wpE x Q E s) (hQ : ∀ a s', Q a s' → Q' a s') : wpE x Q' E s :=
  wpE_mono h hQ fun _ _ h => h

@[simp] theorem wpE_pure {a : α} : wpE (pure a : EStateM ε σ α) Q E s ↔ Q a s := Iff.rfl

@[simp] theorem wpE_get {Q : σ → σ → Prop} : wpE (get : EStateM ε σ σ) Q E s ↔ Q s s := Iff.rfl

@[simp] theorem wpE_set {t : σ} {Q : PUnit → σ → Prop} : wpE (set t : EStateM ε σ PUnit) Q E s ↔ Q ⟨⟩ t := Iff.rfl

@[simp] theorem wpE_modify {g : σ → σ} {Q : PUnit → σ → Prop} : wpE (modify g : EStateM ε σ PUnit) Q E s ↔ Q ⟨⟩ (g s) := Iff.rfl

@[simp] theorem wpE_bind : wpE (x >>= f) R E s ↔ wpE x (fun a s' => wpE (f a) R E s') E s := by
  unfold wpE
  change (match EStateM.bind x f s with | .ok b s' => R b s' | .error e s' => E e s') ↔ _
  unfold EStateM.bind
  cases x s with
  | ok a s' | error e s' => exact Iff.rfl

theorem wpE_seq (h : wpE x Q E s) (hf : ∀ a s', Q a s' → wpE (f a) R E' s') (hE : ∀ e s', E e s' → E' e s') :
    wpE (x >>= f) R E' s :=
  wpE_bind.mpr (wpE_mono h hf hE)

theorem wpE_then (h : wpE x Q E s) (hf : ∀ a s', Q a s' → wpE (f a) R E s') : wpE (x >>= f) R E s := wpE_seq h hf fun _ _ h => h

@[simp] theorem wpE_ite [Decidable c] {y : EStateM ε σ α} :
    wpE (if c then x else y) Q E s ↔ (c → wpE x Q E s) ∧ (¬c → wpE y Q E s) := by
  by_cases h : c <;> simp [h]

theorem wpE_attempt {r : Except ε α} : wpE (attempt r) Q E s ↔ (∀ a, r = .ok a → Q a s) ∧ (∀ e, r = .error e → E e s) := by
  cases r with
  | ok a => exact ⟨fun h => ⟨fun _ ha => Except.ok.inj ha ▸ h, nofun⟩, fun h => h.1 a rfl⟩
  | error e => exact ⟨fun h => ⟨nofun, fun _ he => Except.error.inj he ▸ h⟩, fun h => h.2 e rfl⟩

@[simp] theorem wpE_failIf [Decidable c] {e : ε} {Q : Unit → σ → Prop} :
    wpE (failIf c e) Q E s ↔ (¬c → Q () s) ∧ (c → E e s) := by
  by_cases h : c
  · rw [show failIf c e = (throw e : EStateM ε σ Unit) by rw [failIf, rejectIf, if_pos h]; rfl]
    exact ⟨fun he => ⟨fun hc => absurd h hc, fun _ => he⟩, fun he => he.2 h⟩
  · rw [show failIf c e = (pure () : EStateM ε σ Unit) by rw [failIf, rejectIf, if_neg h]; rfl]
    exact ⟨fun hq => ⟨fun _ => hq, fun hc => absurd hc h⟩, fun hq => hq.1 h⟩

end

/-! ## Loops -/

variable {τ : Type}

/-- A bounded `while` over the local variables `t`: the condition is tested first, and the body returns the variables changed. -/
def loop (condition : τ → Bool) (body : τ → EStateM ε σ τ) (exhausted : ε) : Nat → τ → EStateM ε σ τ
  | 0, _ => throw exhausted
  | fuel + 1, t =>
    if condition t then do
      let t ← body t
      loop condition body exhausted fuel t
    else pure t

/-- A loop keeps what its body keeps, and ends where its condition fails. -/
theorem wp_loop {con : τ → Bool} {body : τ → EStateM ε σ τ} {exh : ε} (Inv : τ → σ → Prop) {E : σ → Prop}
    (hb : ∀ t s, con t = true → Inv t s → wp (body t) Inv E s) (hout : ∀ t s, Inv t s → E s) :
    ∀ fuel t s, Inv t s → wp (loop con body exh fuel t) (fun t s' => con t = false ∧ Inv t s') E s := by
  intro fuel
  induction fuel with
  | zero => exact fun t s hs => hout t s hs
  | succ fuel ih =>
    intro t s hs
    rw [loop, wp_ite]
    refine ⟨fun hc => ?_, fun hc => ⟨eq_false_of_ne_true hc, hs⟩⟩
    exact wp_then (hb t s hc hs) fun t' s' h => ih t' s' h

end Logex.Lib
