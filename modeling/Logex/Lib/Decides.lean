import Logex.Lib.Stateful

/-!
# Checks that decide a property

`Decides c x p` says that a check returns only when `p` holds, and that under the condition `c` it fails only when `p` does not. A
check that may be interrupted is then both sound and, when nothing interrupts it, exact, by one composition.
-/

namespace Logex.Lib

variable {ε σ α β : Type} {c p q : Prop}

def Decides (c : Prop) (x : EStateM ε σ α) (p : Prop) : Prop := ∀ s, wp x (fun _ _ => p) (fun _ => c → ¬p) s

variable {x : EStateM ε σ α}

theorem Decides.sound (h : Decides c x p) {s s' : σ} {a : α} (hx : x s = .ok a s') : p := wp_ok (h s) hx

/-- Under the condition the check accepts exactly what has the property. -/
theorem Decides.accepts_iff (h : Decides c x p) (hc : c) (s : σ) : (∃ a s', x s = .ok a s') ↔ p := by
  constructor
  · rintro ⟨a, s', hx⟩
    exact h.sound hx
  · intro hp
    cases hx : x s with
    | ok a s' => exact ⟨a, s', rfl⟩
    | error e s' => exact absurd hp (wp_error (h s) hx hc)

theorem Decides.congr (h : Decides c x p) (hpq : p ↔ q) : Decides c x q := by
  rwa [propext hpq] at h

theorem Decides.pure (a : α) : Decides c (Pure.pure a : EStateM ε σ α) True := fun _ => trivial

variable {f : α → EStateM ε σ β}

theorem Decides.bind (hx : Decides c x p) (hf : ∀ a, Decides c (f a) q) : Decides c (x >>= f) (p ∧ q) := by
  intro s
  refine wp_seq (hx s) ?_ ?_
  · intro a s' hp
    exact wp_mono (hf a s') (fun _ _ hq => ⟨hp, hq⟩) (fun _ hnq hc hpq => hnq hc hpq.2)
  · intro _ hnp hc hpq
    exact hnp hc hpq.1

/-- A pure step either fails the check or hands on its result. -/
theorem Decides.attempt_bind {r : Except ε α} {f : α → EStateM ε σ β} {p : α → Prop} (hf : ∀ a, r = .ok a → Decides c (f a) (p a)) :
    Decides c (attempt r >>= f) (∃ a, r = .ok a ∧ p a) := by
  intro s
  rw [wp_bind, wp_attempt]
  constructor
  · intro a ha
    refine wp_mono (hf a ha s) (fun _ _ hp => ⟨a, ha, hp⟩) ?_
    rintro _ hnp hc ⟨a', ha', hp⟩
    rw [ha] at ha'
    exact hnp hc (Except.ok.inj ha' ▸ hp)
  · rintro e he _ ⟨a, ha, -⟩
    exact absurd (he.symm.trans ha) nofun

theorem Decides.failIf {e : ε} [Decidable p] : Decides c (failIf p e : EStateM ε σ Unit) (¬p) := by
  intro s
  rw [wp_failIf]
  exact ⟨id, fun hp _ hnp => hnp hp⟩

theorem Decides.ite [Decidable q] {x y : EStateM ε σ α} {p' : Prop} (hx : q → Decides c x p) (hy : ¬q → Decides c y p') :
    Decides c (if q then x else y) ((q → p) ∧ (¬q → p')) := by
  by_cases h : q
  · rw [if_pos h]
    exact (hx h).congr ⟨fun hp => ⟨fun _ => hp, fun hn => absurd h hn⟩, fun hp => hp.1 h⟩
  · rw [if_neg h]
    exact (hy h).congr ⟨fun hp => ⟨fun hq => absurd hq h, fun _ => hp⟩, fun hp => hp.2 h⟩

/-- A step that checks nothing of its own. -/
theorem Decides.runIf [Decidable q] {x : EStateM ε σ Unit} (hx : Decides c x True) : Decides c (runIf q x) True := by
  intro s
  rw [wp_runIf]
  exact ⟨fun _ => hx s, fun _ => trivial⟩

/-! ## Checks with a result -/

/-- A check that decides `p` and, when it returns, returns `v`. -/
def DecidesTo (c : Prop) (x : EStateM ε σ α) (p : Prop) (v : α) : Prop := ∀ s, wp x (fun a _ => p ∧ a = v) (fun _ => c → ¬p) s

theorem DecidesTo.congr {v : α} (h : DecidesTo c x p v) (hpq : p ↔ q) : DecidesTo c x q v := by
  rwa [propext hpq] at h

theorem DecidesTo.pure (a : α) : DecidesTo c (Pure.pure a : EStateM ε σ α) True a := fun _ => ⟨trivial, rfl⟩

theorem Decides.bindTo {v : β} (hx : Decides c x p) (hf : ∀ a, DecidesTo c (f a) q v) : DecidesTo c (x >>= f) (p ∧ q) v := by
  intro s
  refine wp_seq (hx s) ?_ ?_
  · intro a s' hp
    exact wp_mono (hf a s') (fun _ _ hq => ⟨⟨hp, hq.1⟩, hq.2⟩) (fun _ hnq hc hpq => hnq hc hpq.2)
  · intro _ hnp hc hpq
    exact hnp hc hpq.1

theorem DecidesTo.bindTo {a : α} {v : β} (hx : DecidesTo c x p a)
    (hf : DecidesTo c (f a) q v) : DecidesTo c (x >>= f) (p ∧ q) v := by
  intro s
  refine wp_seq (hx s) ?_ ?_
  · rintro _ s' ⟨hp, rfl⟩
    exact wp_mono (hf s') (fun _ _ hq => ⟨⟨hp, hq.1⟩, hq.2⟩) (fun _ hnq hc hpq => hnq hc hpq.2)
  · intro _ hnp hc hpq
    exact hnp hc hpq.1

theorem DecidesTo.bind {a : α} (hx : DecidesTo c x p a) (hf : Decides c (f a) q) : Decides c (x >>= f) (p ∧ q) := by
  intro s
  refine wp_seq (hx s) ?_ ?_
  · rintro _ s' ⟨hp, rfl⟩
    exact wp_mono (hf s') (fun _ _ hq => ⟨hp, hq⟩) (fun _ hnq hc hpq => hnq hc hpq.2)
  · intro _ hnp hc hpq
    exact hnp hc hpq.1

theorem DecidesTo.attempt {r : Except ε α} {a : α} (h : r = .ok a) : DecidesTo c (attempt r : EStateM ε σ α) True a := by
  intro s
  rw [wp_attempt, h]
  exact ⟨fun _ heq => ⟨trivial, (Except.ok.inj heq).symm⟩, nofun⟩

/-! ## Loops -/

theorem Decides.forM {che : α → EStateM ε σ PUnit} {list : List α} {p : α → Prop} (h : ∀ a ∈ list, Decides c (che a) (p a)) :
    Decides c (list.forM che) (∀ a ∈ list, p a) := by
  induction list with
  | nil => exact (Decides.pure _).congr ⟨nofun, fun _ => trivial⟩
  | cons a list ih =>
    have hr := ih fun b hb => h b (List.mem_cons_of_mem _ hb)
    exact ((h a List.mem_cons_self).bind fun _ => hr).congr List.forall_mem_cons.symm

end Logex.Lib
