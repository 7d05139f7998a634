import Logex.Lib.Except

/-!
# Folds over keyed entries

A fallible loop that visits each key once and sets the value at that key computes a map pointwise: what it leaves at a visited key
is what that turn of the loop set, and every other key keeps its value. The turn is asked to succeed only on maps that still hold
the initial value at its key.
-/

namespace Logex.Lib

variable {ε κ υ ω : Type} [DecidableEq κ]

theorem foldlM_update (step : (κ → Option υ) → κ × ω → Except ε (κ → Option υ)) (w : κ → ω → Option υ) :
    ∀ (es : List (κ × ω)) (init : κ → Option υ), (es.map Prod.fst).Nodup →
      (∀ acc k v, (k, v) ∈ es → acc k = init k → step acc (k, v) = .ok (Function.update acc k (w k v))) →
      ∃ m, es.foldlM step init = .ok m ∧ (∀ k v, (k, v) ∈ es → m k = w k v) ∧
        ∀ k, k ∉ es.map Prod.fst → m k = init k := by
  intro es
  induction es with
  | nil =>
    intro init _ _
    exact ⟨init, rfl, by simp, by simp⟩
  | cons e es ih =>
    obtain ⟨k, v⟩ := e
    intro init hn hs
    rw [List.map_cons, List.nodup_cons] at hn
    obtain ⟨hk, hn⟩ := hn
    -- Later turns look only at keys this turn does not touch.
    have hr : ∀ acc k' v', (k', v') ∈ es → acc k' = Function.update init k (w k v) k' →
        step acc (k', v') = .ok (Function.update acc k' (w k' v')) := by
      intro acc k' v' hmem hacc
      have hne : k' ≠ k := by
        rintro rfl
        exact hk (List.mem_map.mpr ⟨_, hmem, rfl⟩)
      rw [Function.update_of_ne hne] at hacc
      exact hs acc k' v' (List.mem_cons_of_mem _ hmem) hacc
    obtain ⟨m, hm, hset, hke⟩ := ih _ hn hr
    refine ⟨m, ?_, ?_, ?_⟩
    · rw [List.foldlM_cons, bind_eq_ok]
      exact ⟨_, hs init k v List.mem_cons_self rfl, hm⟩
    · intro k' v' hmem
      rcases List.mem_cons.mp hmem with heq | hmem
      · obtain ⟨rfl, rfl⟩ := Prod.mk.inj heq
        rw [hke k' hk, Function.update_self]
      · exact hset k' v' hmem
    · intro k' hk'
      rw [List.map_cons, List.mem_cons, not_or] at hk'
      rw [hke k' hk'.2, Function.update_of_ne hk'.1]

end Logex.Lib
