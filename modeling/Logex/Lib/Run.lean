import Mathlib

/-!
# Runs

A deterministic system is a step function folded over a list of operations. An invariant that holds at the start and is kept by
each step of one run holds after every prefix of that run; the step hypothesis is asked only at the states the run visits.
-/

namespace Logex.Lib

variable {σ ι : Type} (step : σ → ι → σ)

/-- The state after a list of operations. -/
def runFrom (s : σ) (ops : List ι) : σ := ops.foldl step s

theorem runFrom_append (s : σ) (pre post : List ι) : runFrom step s (pre ++ post) = runFrom step (runFrom step s pre) post := by
  simp only [runFrom, List.foldl_append]

@[simp] theorem runFrom_concat (s : σ) (pre : List ι) (op : ι) : runFrom step s (pre ++ [op]) = step (runFrom step s pre) op := by
  rw [runFrom_append]
  rfl

/-- An invariant kept by each step of a run holds after every prefix of the run. -/
theorem runFrom_inv {step : σ → ι → σ} {s : σ} (Inv : σ → Prop) (h : Inv s) {ops : List ι}
    (hs : ∀ pre op, pre ++ [op] <+: ops → Inv (runFrom step s pre) → Inv (step (runFrom step s pre) op)) :
    ∀ pre, pre <+: ops → Inv (runFrom step s pre) := by
  intro pre
  induction pre using List.reverseRecOn with
  | nil => intro _; exact h
  | append_singleton pre op ih =>
    intro hpre
    rw [runFrom_concat]
    exact hs pre op hpre (ih ((List.prefix_append pre [op]).trans hpre))

end Logex.Lib
