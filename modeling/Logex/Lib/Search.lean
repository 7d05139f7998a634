import Logex.Lib.Except

/-!
# Binary search with probes that can fail

The two loops of a sorted table: the boundary below which a monotone test holds, and the position of a three-way match. Both are
stated over a probe that reads one position and may fail; the rules ask the probe to succeed on the positions of the table.
-/

namespace Logex.Lib

open List

variable {ε : Type}

/-- The first position in `[lo, hi)` where the test fails, for a test that holds up to a boundary. -/
def boundary (probe : Nat → Except ε Bool) (lo hi : Nat) : Except ε Nat :=
  if lo < hi then do
    let below ← probe (lo + (hi - lo) / 2)
    if below then boundary probe (lo + (hi - lo) / 2 + 1) hi else boundary probe lo (lo + (hi - lo) / 2)
  else .ok lo
termination_by hi - lo

/-- `partition_point`: how many elements pass a test that holds up to a boundary. -/
def partitionIndex {α : Type} (test : α → Bool) (xs : List α) : Nat :=
  match (boundary (fun i => .ok (xs[i]?.any test)) 0 xs.length : Except Empty Nat) with
  | .ok n => n

/-- The position in `[lo, hi)` the probe calls equal; positions before it are less, those after it greater. -/
def search (probe : Nat → Except ε Ordering) (lo hi : Nat) : Except ε (Option Nat) :=
  if lo < hi then do
    match ← probe (lo + (hi - lo) / 2) with
    | .lt => search probe (lo + (hi - lo) / 2 + 1) hi
    | .gt => search probe lo (lo + (hi - lo) / 2)
    | .eq => return some (lo + (hi - lo) / 2)
  else .ok none
termination_by hi - lo

/-- The search finds the boundary. -/
theorem boundary_eq {pro : Nat → Except ε Bool} {test : Nat → Bool} {n m : Nat} (hp : ∀ i < n, pro i = .ok (test i))
    (hm : m ≤ n) (hb : ∀ i < m, test i = true) (ha : ∀ i, m ≤ i → i < n → test i = false) : boundary pro 0 n = .ok m := by
  suffices h : ∀ d lo hi, hi - lo = d → lo ≤ m → m ≤ hi → hi ≤ n → boundary pro lo hi = .ok m from
    h n 0 n (Nat.sub_zero n) (Nat.zero_le m) hm (Nat.le_refl n)
  intro d
  induction d using Nat.strongRecOn with
  | ind d ih =>
    intro lo hi hd hlo hhi hn
    rw [boundary]
    split
    · next hlt =>
      rw [hp _ (by omega)]
      change (if test (lo + (hi - lo) / 2) = true then _ else _) = _
      cases ht : test (lo + (hi - lo) / 2) with
      | true =>
        have hmid : lo + (hi - lo) / 2 < m := by
          refine Nat.lt_of_not_le fun hle => ?_
          rw [ha _ hle (by omega)] at ht
          exact Bool.false_ne_true ht
        rw [if_pos rfl]
        exact ih _ (by omega) _ _ rfl hmid hhi hn
      | false =>
        have hmid : m ≤ lo + (hi - lo) / 2 := by
          refine Nat.le_of_not_lt fun hlt => ?_
          rw [hb _ hlt] at ht
          exact Bool.false_ne_true ht.symm
        rw [if_neg Bool.false_ne_true]
        exact ih _ (by omega) _ _ rfl hlo hmid (by omega)
    · rw [show lo = m by omega]

/-- On a list that is partitioned, the search counts the elements before the boundary. -/
theorem partitionIndex_eq {α : Type} {test : α → Bool} {xs : List α} (h : xs.Pairwise fun a b => test b = true → test a = true) :
    partitionIndex test xs = (xs.takeWhile test).length := by
  have hab : ∀ i, (xs.takeWhile test).length ≤ i → i < xs.length → (xs[i]?.any test) = false := by
    induction xs with
    | nil => exact fun i _ hi => absurd hi (Nat.not_lt_zero i)
    | cons a xs ih =>
      rw [pairwise_cons] at h
      intro i hle hlt
      cases ha : test a with
      | true =>
        rw [takeWhile_cons_of_pos ha, length_cons] at hle
        obtain ⟨j, rfl⟩ : ∃ j, i = j + 1 := ⟨i - 1, by omega⟩
        rw [getElem?_cons_succ]
        exact ih h.2 j (by omega) (Nat.lt_of_succ_lt_succ hlt)
      | false =>
        cases i with
        | zero => simp [ha]
        | succ j =>
          have hj : j < xs.length := Nat.lt_of_succ_lt_succ hlt
          rw [getElem?_cons_succ, getElem?_eq_getElem hj, Option.any_some]
          refine Bool.eq_false_iff.mpr fun ht => ?_
          rw [h.1 _ (getElem_mem hj) ht] at ha
          nomatch ha
  have hs := @takeWhile_append_dropWhile _ test xs
  have hb : ∀ i < (xs.takeWhile test).length, (xs[i]?.any test) = true := by
    intro i hi
    have ht : test (xs.takeWhile test)[i] = true := all_eq_true.mp all_takeWhile _ (getElem_mem hi)
    rw [← hs, getElem?_append_left hi, getElem?_eq_getElem hi, Option.any_some, ht]
  have hle : (xs.takeWhile test).length ≤ xs.length := by
    have hleh := congrArg List.length hs
    rw [length_append] at hleh
    omega
  rw [partitionIndex, @boundary_eq Empty _ (fun i => xs[i]?.any test) xs.length _ (fun _ _ => rfl) hle hb hab]

/-- The search finds a match where the comparison is that of a sorted table. -/
theorem search_eq {pro : Nat → Except ε Ordering} {com : Nat → Ordering} {n : Nat}
    (hp : ∀ i < n, pro i = .ok (com i)) (hsrt : ∀ i j, i < j → j < n → com j ≠ .gt → com i = .lt) :
    (∃ i < n, com i = .eq ∧ search pro 0 n = .ok (some i)) ∨
      (∀ i < n, com i ≠ .eq) ∧ search pro 0 n = .ok none := by
  suffices h : ∀ d lo hi, hi - lo = d → hi ≤ n → (∀ i < lo, com i = .lt) → (∀ i, hi ≤ i → i < n → com i = .gt) →
      (∃ i < n, com i = .eq ∧ search pro lo hi = .ok (some i)) ∨ (∀ i < n, com i ≠ .eq) ∧ search pro lo hi = .ok none from
    h n 0 n (Nat.sub_zero n) (Nat.le_refl n) (fun i hi => absurd hi (Nat.not_lt_zero i)) (fun i hn hlt => absurd hlt (Nat.not_lt.mpr hn))
  intro d
  induction d using Nat.strongRecOn with
  | ind d ih =>
    intro lo hi hd hn hb ha
    rw [search]
    split
    · next hlt =>
      have hmid : lo + (hi - lo) / 2 < n := by omega
      rw [hp _ hmid]
      cases hcom : com (lo + (hi - lo) / 2) with
      | eq => exact Or.inl ⟨_, hmid, hcom, rfl⟩
      | lt =>
        refine ih _ (by omega) _ _ rfl hn (fun i hi' => ?_) ha
        rcases Nat.lt_succ_iff_lt_or_eq.mp hi' with h | rfl
        · exact hsrt i _ h hmid (by rw [hcom]; exact nofun)
        · exact hcom
      | gt =>
        refine ih _ (by omega) _ _ rfl (by omega) hb (fun i hle hi' => ?_)
        rcases Nat.lt_or_eq_of_le hle with h | rfl
        · by_contra hne
          rw [hsrt _ i h hi' hne] at hcom
          nomatch hcom
        · exact hcom
    · next hge =>
      refine Or.inr ⟨fun i hi' => ?_, rfl⟩
      rcases Nat.lt_or_ge i lo with h | h
      · rw [hb i h]
        exact nofun
      · rw [ha i (by omega) hi']
        exact nofun

end Logex.Lib
