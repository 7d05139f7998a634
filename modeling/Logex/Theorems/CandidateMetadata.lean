import Logex.CandidateMetadata

/-!
# Trimming evicts the oldest candidates

The queue, without the entries whose roots are candidates no more, is the list of candidates by admission. Each operation keeps
that, so a trim takes the oldest from the front of the list.
-/

namespace Logex

open List

namespace CandidateAux

open CandidateMetadata (evict dropFront)

/-- The queue holds the candidates in the order of their admission, among roots that have left. -/
structure Tracks (s : CandidateMetadata) (live : List B256) : Prop where
  live_eq : s.order.filter (· ∈ s.candidates) = live
  queued_eq : s.queued = s.order.toFinset
  nodup : s.order.Nodup
  mem_order : ∀ root ∈ s.candidates, root ∈ s.order

namespace Tracks

variable {s : CandidateMetadata} {live order : List B256} {candidates queued : Finset B256} {capacity : Nat} {root : B256}

section

variable (h : Tracks s live)

include h

theorem mem_live : root ∈ live ↔ root ∈ s.candidates := by
  rw [← h.live_eq, mem_filter, decide_eq_true_eq]
  exact ⟨And.right, fun hc => ⟨h.mem_order root hc, hc⟩⟩

theorem candidates_eq : s.candidates = live.toFinset := by
  ext root
  rw [mem_toFinset, h.mem_live]

theorem live_nodup : live.Nodup := h.live_eq ▸ h.nodup.filter _

theorem card_eq : s.candidates.card = live.length := by
  rw [h.candidates_eq, toFinset_card_of_nodup h.live_nodup]

theorem insert : Tracks (s.insert root) (if root ∈ live then live else live ++ [root]) := by
  by_cases hnew : root ∈ s.candidates
  · rwa [if_pos (h.mem_live.mpr hnew), CandidateMetadata.insert, if_pos hnew]
  -- An entry left behind by a protected root goes.
  have horder : (if root ∈ s.queued then s.order.filter (· ≠ root) else s.order) = s.order.filter (· ≠ root) := by
    split
    · rfl
    · next hq =>
      rw [h.queued_eq, mem_toFinset] at hq
      exact (filter_eq_self.mpr fun r hr => decide_eq_true (ne_of_mem_of_not_mem hr hq)).symm
  rw [if_neg (mt h.mem_live.mp hnew), CandidateMetadata.insert, if_neg hnew, horder]
  refine ⟨?_, ?_, nodup_append.mpr ⟨h.nodup.filter _, nodup_singleton _, by simp⟩, fun r hr => ?_⟩
  · rw [filter_append, filter_filter, ← h.live_eq]
    congr 1
    · refine filter_congr fun r _ => ?_
      by_cases heq : r = root <;> simp [heq, hnew]
    · simp
  · ext r
    by_cases heq : r = root <;> simp [h.queued_eq, heq]
  · rcases Finset.mem_insert.mp hr with rfl | hr
    · simp
    · simp [h.mem_order r hr, em']

theorem protect : Tracks (s.protect root) (live.filter (· ≠ root)) := by
  refine ⟨?_, h.queued_eq, h.nodup, fun r hr => h.mem_order r (Finset.mem_of_mem_erase hr)⟩
  rw [← h.live_eq, filter_filter]
  exact filter_congr fun r _ => by simp [CandidateMetadata.protect]

theorem retain :
    Tracks { s with queued := s.queued.filter (· ∈ s.candidates), order := s.order.filter (· ∈ s.candidates) } live := by
  refine ⟨?_, ?_, h.nodup.filter _, fun r hr => mem_filter.mpr ⟨h.mem_order r hr, decide_eq_true hr⟩⟩
  · rw [← h.live_eq, filter_filter]
    simp only [Bool.and_self]
  · rw [h.queued_eq, toFinset_filter]
    simp

end

/-- The front entry leaves the queue and, if it is one, the candidates. -/
theorem pop (h : Tracks ⟨capacity, candidates, queued, root :: order⟩ live) :
    Tracks ⟨capacity, candidates.erase root, queued.erase root, order⟩ (order.filter (· ∈ candidates)) ∧
      live = if root ∈ candidates then root :: order.filter (· ∈ candidates) else order.filter (· ∈ candidates) := by
  obtain ⟨rfl, hq, hn, hm⟩ := h
  obtain ⟨hr, hno⟩ := nodup_cons.mp hn
  refine ⟨⟨filter_congr fun r h => ?_, ?_, hno, fun r h => ?_⟩, ?_⟩
  · simp [ne_of_mem_of_not_mem h hr]
  · simp [show queued = (root :: order).toFinset from hq, hr]
  · exact mem_of_ne_of_mem (Finset.ne_of_mem_erase h) (hm r (Finset.mem_of_mem_erase h))
  · simp [filter_cons]

theorem evict_eq (h : Tracks ⟨capacity, candidates, queued, order⟩ live) :
    ∃ s, evict capacity candidates queued order = some (s, live.take (live.length - capacity)) ∧
      s.capacity = capacity ∧ Tracks s (live.drop (live.length - capacity)) := by
  induction order generalizing candidates queued live with
  | nil =>
    have hcard : candidates.card = live.length := h.card_eq
    obtain rfl : [] = live := h.live_eq
    rw [evict, if_neg (by simp [hcard]), take_nil, drop_nil]
    exact ⟨_, rfl, rfl, h⟩
  | cons root order ih =>
    have hcard : candidates.card = live.length := h.card_eq
    rw [evict, hcard]
    split
    · next hlt =>
      obtain ⟨hpop, hlive⟩ := h.pop
      obtain ⟨s, hs, hcap, ht⟩ := ih hpop
      rw [hs]
      split at hlive
      · next hr =>
        subst hlive
        rw [length_cons] at hlt ⊢
        rw [Nat.succ_sub (by omega), take_succ_cons, drop_succ_cons]
        exact ⟨s, by simp [hr], hcap, ht⟩
      · next hr =>
        subst hlive
        exact ⟨s, by simp [hr], hcap, ht⟩
    · next hle =>
      rw [Nat.sub_eq_zero_of_le (not_lt.mp hle)]
      exact ⟨_, rfl, rfl, h⟩

theorem front (h : Tracks ⟨capacity, candidates, queued, order⟩ live) :
    Tracks ⟨capacity, candidates, (dropFront candidates queued order).1, (dropFront candidates queued order).2⟩ live := by
  induction order generalizing queued with
  | nil => exact h
  | cons root order ih =>
    rw [dropFront]
    split
    · exact h
    · next hr =>
      have hpop := h.pop
      rw [Finset.erase_eq_of_notMem hr, if_neg hr] at hpop
      exact ih (hpop.2 ▸ hpop.1)

theorem trim (h : Tracks s live) : ∃ s', s.trim = some (s', live.take (live.length - s.capacity)) ∧
    s'.capacity = s.capacity ∧ Tracks s' (live.drop (live.length - s.capacity)) ∧ s'.order.length ≤ 2 * s.capacity := by
  obtain ⟨s', hs, hcap, ht⟩ := evict_eq h
  have hd := ht.front
  rw [CandidateMetadata.trim, hs]
  simp only [Option.bind_eq_bind, Option.bind_some]
  split
  · refine ⟨_, rfl, hcap, hd.retain, ?_⟩
    have hlen := congrArg length hd.live_eq
    simp only [length_drop] at hlen ⊢
    omega
  · exact ⟨_, rfl, hcap, hd, show (dropFront s'.candidates s'.queued s'.order).2.length ≤ _ by omega⟩

end Tracks

end CandidateAux

open CandidateAux in
/-- After every sequence of operations, none of which panics, the candidates are those admitted last and not protected since. A
trim evicts the oldest of them, in order, down to the capacity, and leaves a queue without duplicates of at most twice the
capacity. -/
theorem trim_evicts_the_oldest (capacity : Nat) (ops : List CandidateOp) :
    ∃ s, ops.foldlM CandidateOp.apply { capacity } = some s ∧
      let live := ops.foldl (CandidateOp.admitted capacity) []
      live.Nodup ∧ s.candidates = live.toFinset ∧
      ∃ s', s.trim = some (s', live.take (live.length - capacity)) ∧
        s'.candidates = (live.drop (live.length - capacity)).toFinset ∧
        s'.order.Nodup ∧ s'.queued = s'.order.toFinset ∧ s'.order.length ≤ 2 * capacity := by
  have hrun : ∃ s, ops.foldlM CandidateOp.apply { capacity } = some s ∧ s.capacity = capacity ∧
      Tracks s (ops.foldl (CandidateOp.admitted capacity) []) := by
    induction ops using reverseRecOn with
    | nil => exact ⟨_, rfl, rfl, rfl, rfl, nodup_nil, by simp⟩
    | append_singleton ops op ih =>
      obtain ⟨s, hs, rfl, ht⟩ := ih
      rw [foldlM_append, hs, foldl_concat]
      cases op with
      | insert root => exact ⟨_, rfl, by simp only [CandidateMetadata.insert]; split <;> rfl, ht.insert⟩
      | protect root => exact ⟨_, rfl, rfl, ht.protect⟩
      | trim =>
        obtain ⟨s', hs', hcap, ht', -⟩ := ht.trim
        exact ⟨s', by simp [CandidateOp.apply, hs'], hcap, ht'⟩
  obtain ⟨s, hs, rfl, ht⟩ := hrun
  obtain ⟨s', hs', -, ht', hlen⟩ := ht.trim
  exact ⟨s, hs, ht.live_nodup, ht.candidates_eq, s', hs', ht'.candidates_eq, ht'.nodup, ht'.queued_eq, hlen⟩

end Logex
