import Logex.Lib.Stateful

/-!
# Operations that keep an invariant

`Keeps Inv x` says that an invariant that holds where `x` starts holds where it ends, whether it returns or fails. An operation put
together from such operations keeps it too.
-/

namespace Logex.Lib

variable {ε σ α β : Type} {Inv : σ → Prop}

def Keeps (Inv : σ → Prop) (x : EStateM ε σ α) : Prop := ∀ s, Inv s → wp x (fun _ => Inv) Inv s

theorem Keeps.get : Keeps Inv (MonadState.get : EStateM ε σ σ) := fun _ h => h

theorem Keeps.modify {g : σ → σ} (h : ∀ s, Inv s → Inv (g s)) : Keeps Inv (modify g : EStateM ε σ PUnit) := h

theorem Keeps.modifyGet {g : σ → α × σ} (h : ∀ s, Inv s → Inv (g s).2) : Keeps Inv (MonadState.modifyGet g : EStateM ε σ α) := h

theorem Keeps.attempt (r : Except ε α) : Keeps Inv (attempt r : EStateM ε σ α) :=
  fun _ h => wp_attempt.mpr ⟨fun _ _ => h, fun _ _ => h⟩

theorem Keeps.bind {x : EStateM ε σ α} {f : α → EStateM ε σ β} (hx : Keeps Inv x) (hf : ∀ a, Keeps Inv (f a)) :
    Keeps Inv (x >>= f) := by
  intro s hs
  exact wp_seq (hx s hs) (fun a s' h => hf a s' h) (fun _ h => h)

theorem Keeps.runIf {c : Prop} [Decidable c] {x : EStateM ε σ Unit} (hx : Keeps Inv x) : Keeps Inv (runIf c x) := by
  intro s hs
  rw [wp_runIf]
  exact ⟨fun _ => hx s hs, fun _ => hs⟩

theorem Keeps.forM {f : α → EStateM ε σ PUnit} (hf : ∀ a, Keeps Inv (f a)) (list : List α) : Keeps Inv (list.forM f) := by
  induction list with
  | nil => exact fun _ h => h
  | cons a list ih => exact (hf a).bind fun _ => ih

end Logex.Lib
