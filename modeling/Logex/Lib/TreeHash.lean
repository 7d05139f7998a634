import Mathlib

/-!
# Binary tree hashes

The left-balanced tree over a row of leaves, in which the left child of a node holds the largest power of two of leaves that
leaves something for the right child, and the frontier of a prefix: the roots of the complete subtrees that the binary digits of its
length select, largest first. A frontier takes in the next complete subtree by carrying, as a binary counter does, and folding it
over the last leaf gives the tree of the whole row.
-/

namespace Logex.Lib

open List

variable {κ : Type} (node : κ → κ → κ)

theorem two_pow_log2_lt {n : Nat} (h : 1 < n) : 2 ^ (n - 1).log2 < n := by
  have := Nat.log2_self_le (n := n - 1) (by omega)
  omega

/-- The value of the tree over the `n` leaves from `start` on. -/
def tree (leaf : Nat → κ) (start n : Nat) : κ :=
  if h : 1 < n then
    node (tree leaf start (2 ^ (n - 1).log2)) (tree leaf (start + 2 ^ (n - 1).log2) (n - 2 ^ (n - 1).log2))
  else
    leaf start
termination_by n
decreasing_by
  · exact two_pow_log2_lt h
  · have := Nat.two_pow_pos (n - 1).log2
    omega

/-- The values of the complete subtrees that make up the `n` leaves from `start` on, largest first. -/
def treeFrontier (leaf : Nat → κ) (start n : Nat) : List κ :=
  if h : n = 0 then
    []
  else
    tree node leaf start (2 ^ n.log2) :: treeFrontier leaf (start + 2 ^ n.log2) (n - 2 ^ n.log2)
termination_by n
decreasing_by
  have := Nat.two_pow_pos n.log2
  omega

/-- Take in a complete subtree on top of a stack of them, smallest first: each odd digit of the count joins the two topmost. -/
def carry : List κ → Nat → κ → Option (List κ)
  | stack, carries, value =>
    if carries % 2 = 0 then some (value :: stack)
    else
      match stack with
      | [] => none
      | left :: stack => carry stack (carries / 2) (node left value)

section Tree

variable {node} {leaf leaf' : Nat → κ} {start n j : Nat}

theorem tree_one : tree node leaf start 1 = leaf start := by
  rw [tree, dif_neg (lt_irrefl 1)]

theorem tree_of_one_lt (h : 1 < n) : tree node leaf start n =
      node (tree node leaf start (2 ^ (n - 1).log2)) (tree node leaf (start + 2 ^ (n - 1).log2) (n - 2 ^ (n - 1).log2)) := by
  rw [tree, dif_pos h]

theorem treeFrontier_zero : treeFrontier node leaf start 0 = [] := by
  rw [treeFrontier, dif_pos rfl]

theorem treeFrontier_of_ne_zero (h : n ≠ 0) : treeFrontier node leaf start n =
      tree node leaf start (2 ^ n.log2) :: treeFrontier node leaf (start + 2 ^ n.log2) (n - 2 ^ n.log2) := by
  rw [treeFrontier, dif_neg h]

/-- A complete tree is the node of its halves. -/
theorem tree_two_pow_succ :
    tree node leaf start (2 ^ (j + 1)) = node (tree node leaf start (2 ^ j)) (tree node leaf (start + 2 ^ j) (2 ^ j)) := by
  have hpos := Nat.two_pow_pos j
  have hlog : (2 ^ (j + 1) - 1).log2 = j := by
    refine (Nat.log2_eq_iff (by rw [pow_succ]; omega)).mpr ?_
    rw [pow_succ]
    omega
  rw [tree_of_one_lt (by rw [pow_succ]; omega), hlog]
  congr 2
  rw [pow_succ]
  omega

/-- A tree depends only on the leaves it holds. -/
theorem tree_congr (hn : 0 < n) (h : ∀ i, start ≤ i → i < start + n → leaf i = leaf' i) :
    tree node leaf start n = tree node leaf' start n := by
  induction n using Nat.strongRecOn generalizing start with
  | ind n ih =>
    by_cases h1 : 1 < n
    · have hpos := Nat.two_pow_pos (n - 1).log2
      have hlt := two_pow_log2_lt h1
      rw [tree_of_one_lt h1, tree_of_one_lt h1, ih _ hlt hpos fun i hi hi' => h i hi (by omega),
        ih _ (by omega) (by omega) fun i hi hi' => h i (by omega) (by omega)]
    · obtain rfl : n = 1 := by omega
      rw [tree_one, tree_one, h start le_rfl (by omega)]

/-- Leaves named from an offset on. -/
theorem tree_shift (off : Nat) : tree node (fun i => leaf (off + i)) start n = tree node leaf (off + start) n := by
  induction n using Nat.strongRecOn generalizing start with
  | ind n ih =>
    by_cases h1 : 1 < n
    · have hpos := Nat.two_pow_pos (n - 1).log2
      rw [tree_of_one_lt h1, tree_of_one_lt h1, ih _ (two_pow_log2_lt h1), ih _ (by omega), add_assoc]
    · rw [tree, dif_neg h1, tree, dif_neg h1]

/-! ## Frontiers -/

theorem two_pow_log2_le (h : n ≠ 0) : 2 ^ n.log2 ≤ n := Nat.log2_self_le h

theorem treeFrontier_congr (h : ∀ i, start ≤ i → i < start + n → leaf i = leaf' i) :
    treeFrontier node leaf start n = treeFrontier node leaf' start n := by
  induction n using Nat.strongRecOn generalizing start with
  | ind n ih =>
    by_cases h0 : n = 0
    · subst h0
      rw [treeFrontier_zero, treeFrontier_zero]
    · have hpos := Nat.two_pow_pos n.log2
      have hle := two_pow_log2_le h0
      rw [treeFrontier_of_ne_zero h0, treeFrontier_of_ne_zero h0, tree_congr hpos fun i hi hi' => h i hi (by omega),
        ih _ (by omega) fun i hi hi' => h i (by omega) (by omega)]

/-- A subtree smaller than every one of an aligned prefix is appended to its frontier. -/
theorem treeFrontier_add_two_pow (h : 2 ^ (j + 1) ∣ n) :
    treeFrontier node leaf start (n + 2 ^ j) = treeFrontier node leaf start n ++ [tree node leaf (start + n) (2 ^ j)] := by
  have hj := Nat.two_pow_pos j
  induction n using Nat.strongRecOn generalizing start with
  | ind n ih =>
    by_cases h0 : n = 0
    · subst h0
      rw [treeFrontier_zero, zero_add, treeFrontier_of_ne_zero (by omega), Nat.log2_two_pow, Nat.sub_self, treeFrontier_zero, add_zero,
        nil_append]
    · -- The largest subtree is unchanged: the prefix leaves room for the new one below the next power of two.
      have hle := two_pow_log2_le h0
      have hpos := Nat.two_pow_pos n.log2
      have hlt : n < 2 ^ (n.log2 + 1) := Nat.lt_log2_self
      have hjl : j + 1 ≤ n.log2 := by
        refine (Nat.le_log2 h0).mpr (Nat.le_of_dvd (by omega) h)
      have hdvd : 2 ^ (j + 1) ∣ 2 ^ n.log2 := Nat.pow_dvd_pow 2 hjl
      have hr : 2 ^ (j + 1) ≤ 2 ^ (n.log2 + 1) - n := by
        refine Nat.le_of_dvd (by omega) (Nat.dvd_sub (Nat.pow_dvd_pow 2 (by omega)) h)
      have hlog : (n + 2 ^ j).log2 = n.log2 := by
        refine (Nat.log2_eq_iff (by omega)).mpr ⟨by omega, ?_⟩
        rw [pow_succ 2 j] at hr
        omega
      have hre : n + 2 ^ j - 2 ^ n.log2 = n - 2 ^ n.log2 + 2 ^ j := by omega
      have hp : start + 2 ^ n.log2 + (n - 2 ^ n.log2) = start + n := by omega
      rw [treeFrontier_of_ne_zero (by omega : n + 2 ^ j ≠ 0), treeFrontier_of_ne_zero h0, hlog, hre,
        ih _ (by omega) (Nat.dvd_sub h hdvd), hp, cons_append]

/-- Folding a frontier over the next leaf gives the tree that ends with it. -/
theorem foldr_treeFrontier : (treeFrontier node leaf start n).foldr node (leaf (start + n)) = tree node leaf start (n + 1) := by
  induction n using Nat.strongRecOn generalizing start with
  | ind n ih =>
    by_cases h0 : n = 0
    · subst h0
      rw [treeFrontier_zero, foldr_nil, zero_add, add_zero, tree_one]
    · have hle := two_pow_log2_le h0
      have hpos := Nat.two_pow_pos n.log2
      have hp : start + 2 ^ n.log2 + (n - 2 ^ n.log2) = start + n := by omega
      have hr : n + 1 - 2 ^ n.log2 = n - 2 ^ n.log2 + 1 := by omega
      have hsub := @ih (n - 2 ^ n.log2) (by omega) (start + 2 ^ n.log2)
      have hs := @tree_of_one_lt κ node leaf start (n + 1) (by omega)
      rw [hp] at hsub
      rw [Nat.add_sub_cancel, hr] at hs
      rw [treeFrontier_of_ne_zero h0, foldr_cons, hsub, hs]

/-! ## Carrying -/

/-- Taking in the next complete subtree of an aligned prefix gives the frontier of the longer prefix. -/
theorem carry_treeFrontier (h : 2 ^ j ∣ n) :
    carry node (treeFrontier node leaf start n).reverse (n / 2 ^ j) (tree node leaf (start + n) (2 ^ j)) =
      some (treeFrontier node leaf start (n + 2 ^ j)).reverse := by
  induction hc : n / 2 ^ j using Nat.strongRecOn generalizing n j with
  | ind c ih =>
    have hj := Nat.two_pow_pos j
    obtain ⟨m, rfl⟩ := h
    rw [Nat.mul_div_cancel_left m hj] at hc
    subst hc
    by_cases hev : m % 2 = 0
    · obtain ⟨k, rfl⟩ : ∃ k, m = 2 * k := ⟨m / 2, by omega⟩
      have hdvd : 2 ^ (j + 1) ∣ 2 ^ j * (2 * k) := ⟨k, by rw [Nat.pow_succ, Nat.mul_assoc]⟩
      rw [treeFrontier_add_two_pow hdvd, reverse_append, reverse_singleton, carry.eq_def]
      simp [hev]
    · -- The last subtree of the treeFrontier is the sibling of the new one.
      obtain ⟨k, rfl⟩ : ∃ k, m = 2 * k + 1 := ⟨m / 2, by omega⟩
      have hdvd : 2 ^ (j + 1) ∣ 2 ^ j * (2 * k) := ⟨k, by rw [Nat.pow_succ, Nat.mul_assoc]⟩
      have hodd : 2 ^ j * (2 * k + 1) = 2 ^ j * (2 * k) + 2 ^ j := by rw [Nat.mul_add, Nat.mul_one]
      have hq : 2 ^ j * (2 * k) / 2 ^ (j + 1) = k := by
        rw [Nat.pow_succ, ← Nat.mul_assoc]
        exact Nat.mul_div_cancel_left k (by omega)
      have hh : (2 * k + 1) / 2 = k := by omega
      have hn := ih k (by omega) hdvd hq
      rw [tree_two_pow_succ] at hn
      rw [hodd, treeFrontier_add_two_pow hdvd, reverse_append, reverse_singleton, carry.eq_def]
      have hsum : 2 ^ j * (2 * k) + 2 ^ j + 2 ^ j = 2 ^ j * (2 * k) + 2 ^ (j + 1) := by
        rw [Nat.pow_succ]
        omega
      simp only [singleton_append, hev, if_false, hh, hsum, ← Nat.add_assoc]
      exact hn

end Tree

/-! ## How many subtrees a frontier has -/

/-- `count_ones`: the set bits of a number of the given width. -/
def popCount (width n : Nat) : Nat := (List.range width).countP n.testBit

theorem popCount_two_pow_add {wid k n : Nat} (hk : k < wid) (hn : n < 2 ^ k) : popCount wid (2 ^ k + n) = popCount wid n + 1 := by
  have hbit : ∀ i, (2 ^ k + n).testBit i = (n.testBit i || i == k) := by
    intro i
    rcases lt_trichotomy i k with hlt | rfl | hgt
    · have hne : (i == k) = false := by simp; omega
      rw [Nat.testBit_two_pow_add_gt hlt, hne, Bool.or_false]
    · rw [Nat.testBit_two_pow_add_eq, Nat.testBit_lt_two_pow hn, beq_self_eq_true]
      rfl
    · have hne : (i == k) = false := by simp; omega
      have hpow : 2 ^ (k + 1) ≤ 2 ^ i := Nat.pow_le_pow_right (by omega) hgt
      rw [pow_succ] at hpow
      rw [hne, Nat.testBit_lt_two_pow (by omega), Nat.testBit_lt_two_pow (by omega)]
      rfl
  -- The new bit counts once, from the width on that includes it.
  have hc : ∀ w, popCount w (2 ^ k + n) = popCount w n + if k < w then 1 else 0 := by
    intro w
    induction w with
    | zero => rfl
    | succ w ih =>
      unfold popCount at ih ⊢
      rw [range_succ, countP_append, countP_append, ih, countP_singleton, countP_singleton, hbit]
      rcases lt_trichotomy k w with hlt | rfl | hgt
      · have hne : (w == k) = false := by simp; omega
        rw [if_pos hlt, if_pos (by omega : k < w + 1), hne, Bool.or_false]
        omega
      · rw [Nat.testBit_lt_two_pow hn]
        simp
      · have hne : (w == k) = false := by simp; omega
        rw [if_neg (by omega : ¬k < w), if_neg (by omega : ¬k < w + 1), hne, Bool.or_false]
        omega
  rw [hc, if_pos hk]

theorem length_treeFrontier {leaf : Nat → κ} {start n w : Nat} (h : n < 2 ^ w) :
    (treeFrontier node leaf start n).length = popCount w n := by
  induction n using Nat.strongRecOn generalizing start with
  | ind n ih =>
    by_cases h0 : n = 0
    · subst h0
      rw [treeFrontier_zero, length_nil, popCount]
      exact (countP_eq_zero.mpr fun i _ => by simp).symm
    · have hle := two_pow_log2_le h0
      have hpos := Nat.two_pow_pos n.log2
      have hlt : n < 2 ^ (n.log2 + 1) := Nat.lt_log2_self
      have hlog : n.log2 < w := (Nat.log2_lt h0).mpr h
      have hr : n - 2 ^ n.log2 < 2 ^ n.log2 := by
        rw [pow_succ] at hlt
        omega
      have hon := popCount_two_pow_add hlog hr
      rw [Nat.add_sub_cancel' hle] at hon
      rw [treeFrontier_of_ne_zero h0, length_cons, ih _ (by omega) (by omega), hon]

theorem popCount_le (w n : Nat) : popCount w n ≤ w := by
  have := countP_le_length (p := n.testBit) (l := List.range w)
  rwa [length_range] at this

end Logex.Lib
