import Logex.HeadTracker

/-!
# The window refines the chain

The window holds the newest headers of the unbounded chain, whatever is tracked.
-/

namespace Logex

open List HeadTracker

variable {hashSlow : Header → B256} {t : HeadTracker} {chain window : List Header} {header : Header} {depth : Nat}

/-- On the unbounded chain, newest first, a header is pushed after every header above its parent is popped. -/
def chainTrack (hashSlow : Header → B256) (chain : List Header) (header : Header) : List Header :=
  header :: chain.dropWhile (hashSlow · ≠ header.parentHash)

def trackAll (hashSlow : Header → B256) (t : HeadTracker) (headers : List Header) : HeadTracker :=
  headers.foldl (fun t header => (t.track hashSlow header).2) t

def ParentLinked (hashSlow : Header → B256) (headers : List Header) : Prop :=
  headers.IsChain fun newer older => newer.parentHash = hashSlow older

namespace HeadTrackerAux

theorem pushTracked_eq (h : t.recent.length ≤ t.maxDepth) :
    t.pushTracked header = { t with recent := (header :: t.recent).take t.maxDepth } := by
  unfold pushTracked
  dsimp only
  split
  · next hlt =>
    rw [length_cons] at hlt
    rw [dropLast_eq_take, length_cons, show t.recent.length + 1 - 1 = t.maxDepth by omega]
  · next hle => rw [take_of_length_le (not_lt.mp hle)]

theorem track_eq (hashSlow : Header → B256) (header : Header) (h : t.recent.length ≤ t.maxDepth) : t.track hashSlow header =
      (match t.recent.dropWhile (hashSlow · ≠ header.parentHash) with
        | [] => if t.recent = [] then none else some ⟨0, 0, (t.recent.map hashSlow).reverse⟩
        | fork :: _ =>
          let reverted := t.recent.takeWhile (hashSlow · ≠ header.parentHash)
          if reverted = [] then none else some ⟨fork.number, hashSlow fork, (reverted.map hashSlow).reverse⟩,
        { t with recent := (chainTrack hashSlow t.recent header).take t.maxDepth }) := by
  unfold track chainTrack
  split
  · next hn => simp [pushTracked_eq h, hn]
  · next tip older ht =>
    split
    · next hp => simp [pushTracked_eq h, ht, hp]
    · next hp =>
      have hl := (dropWhile_suffix (hashSlow · ≠ header.parentHash) (l := t.recent)).length_le
      have htip : t.recent.takeWhile (hashSlow · ≠ header.parentHash) ≠ [] := by simp [ht, Ne.symm hp]
      rw [span_eq_takeWhile_dropWhile]
      split
      · next fork rest heq =>
        obtain ⟨rfl, hd⟩ := Prod.mk.inj heq
        rw [hd] at hl ⊢
        rw [pushTracked_eq (hl.trans h)]
        dsimp only
        rw [if_neg htip]
      · next heq =>
        rw [(Prod.mk.inj heq).2, pushTracked_eq (Nat.zero_le _)]
        simp [ht]

/-- The window holds the newest headers of the chain, linked by their parents. -/
structure Refines (hashSlow : Header → B256) (depth : Nat) (t : HeadTracker) (chain : List Header) : Prop where
  depth_eq : t.maxDepth = depth
  newest : t.recent <+: chain
  length_le : t.recent.length ≤ depth
  linked : ParentLinked hashSlow t.recent
  tip : 0 < depth → t.recent.head? = chain.head?

theorem ParentLinked.chainTrack (h : ParentLinked hashSlow chain) (header : Header) :
    ParentLinked hashSlow (chainTrack hashSlow chain header) := by
  refine isChain_cons.mpr ⟨fun parent hp => ?_, h.suffix (dropWhile_suffix _)⟩
  have hf := head?_dropWhile_not (hashSlow · ≠ header.parentHash) chain
  rw [Option.mem_def.mp hp] at hf
  exact (by simpa using hf : hashSlow parent = header.parentHash).symm

theorem prefix_dropWhile (p : Header → Bool) (h : window <+: chain) : window.dropWhile p <+: chain.dropWhile p := by
  obtain ⟨older, rfl⟩ := h
  rw [dropWhile_append]
  split
  · next he =>
    rw [isEmpty_iff.mp he]
    exact nil_prefix
  · exact prefix_append ..

theorem Refines.track (h : Refines hashSlow depth t chain) (header : Header) :
    Refines hashSlow depth (t.track hashSlow header).2 (chainTrack hashSlow chain header) := by
  rw [track_eq hashSlow header (h.depth_eq ▸ h.length_le), h.depth_eq]
  refine ⟨rfl, ?_, length_take_le .., ?_, fun hd => ?_⟩
  · exact ( take_prefix ..).trans (cons_prefix_cons.mpr ⟨rfl, prefix_dropWhile _ h.newest⟩)
  · exact (ParentLinked.chainTrack h.linked header).take depth
  · cases depth with
    | zero => omega
    | succ n => rfl

theorem Refines.trackAll (h : Refines hashSlow depth t chain) (headers : List Header) :
    Refines hashSlow depth (trackAll hashSlow t headers) (headers.foldl (chainTrack hashSlow) chain) := by
  induction headers generalizing t chain with
  | nil => exact h
  | cons header rest ih => exact ih (h.track header)

/-- What is popped down to a parent in the window is the same on the chain. -/
theorem takeWhile_newest (h : window <+: chain) {parent : Header} (hm : parent ∈ window)
    (hp : hashSlow parent = header.parentHash) :
    chain.takeWhile (hashSlow · ≠ header.parentHash) = window.takeWhile (hashSlow · ≠ header.parentHash) := by
  obtain ⟨older, rfl⟩ := h
  rw [takeWhile_append, if_neg]
  intro hl
  have hall := ( takeWhile_prefix (hashSlow · ≠ header.parentHash) (l := window)).eq_of_length hl
  rw [takeWhile_eq_self_iff] at hall
  simpa [hp] using hall parent hm

theorem recent_extension (extension : List Header) (h : t.recent = window.take t.maxDepth)
    (hl : ParentLinked hashSlow (extension.reverse ++ window)) :
    (trackAll hashSlow t extension).recent = (extension.reverse ++ window).take t.maxDepth := by
  induction extension generalizing t window with
  | nil => exact h
  | cons header rest ih =>
    rw [reverse_cons, append_assoc, singleton_append] at hl ⊢
    have hkeep : t.recent.dropWhile (hashSlow · ≠ header.parentHash) = t.recent := by
      cases hr : t.recent with
      | nil => rfl
      | cons tip older =>
        have htip : tip ∈ window.head? := by
          have hhd := congrArg head? (h.symm.trans hr)
          rw [head?_take] at hhd
          split at hhd
          · nomatch hhd
          · exact hhd
        have hlink := (isChain_cons.mp (isChain_append.mp hl).2.1).1 tip htip
        simp [hlink]
    have hlen : t.recent.length ≤ t.maxDepth := h ▸ length_take_le ..
    show (Logex.trackAll hashSlow (t.track hashSlow header).2 rest).recent = _
    rw [track_eq hashSlow header hlen, chainTrack, hkeep]
    refine ih ?_ hl
    rw [h]
    cases t.maxDepth with
    | zero => rfl
    | succ n => simp [take_take]

end HeadTrackerAux

open HeadTrackerAux

/-- After any headers the window holds the newest of the chain, at most as many as the depth and linked by their parents. A header
whose parent is in the window reverts what the chain pops; one whose parent is not reverts the window. Appending an extension to
the snapshot is tracking its headers. -/
theorem head_tracking_refines_chain (hashSlow : Header → B256) (depth : Nat) (headers : List Header) :
    let t := trackAll hashSlow { maxDepth := depth } headers
    let chain := headers.foldl (chainTrack hashSlow) []
    t.recent <+: chain ∧ (0 < depth → t.recent.head? = chain.head?) ∧ t.recent.length ≤ depth ∧ ParentLinked hashSlow t.recent ∧
    (∀ header : Header, ∀ parent ∈ t.recent, hashSlow parent = header.parentHash →
      let popped := chain.takeWhile (hashSlow · ≠ header.parentHash)
      (popped = [] ∧ (t.track hashSlow header).1 = none) ∨
      popped ≠ [] ∧ ∃ fork ∈ t.recent, hashSlow fork = header.parentHash ∧
        (t.track hashSlow header).1 = some ⟨fork.number, hashSlow fork, (popped.map hashSlow).reverse⟩) ∧
    (∀ header : Header, (∀ parent ∈ t.recent, hashSlow parent ≠ header.parentHash) →
      (t.track hashSlow header).1 = if t.recent = [] then none else some ⟨0, 0, (t.recent.map hashSlow).reverse⟩) ∧
    ∀ extension : List Header, ParentLinked hashSlow (extension.reverse ++ t.recent) →
      t.snapshotWithAppend extension = (trackAll hashSlow t extension).snapshot := by
  intro t chain
  have href : Refines hashSlow depth t chain :=
    Refines.trackAll (t := { maxDepth := depth }) ⟨rfl, nil_prefix, Nat.zero_le _, .nil, fun _ => rfl⟩ headers
  have hlen : t.recent.length ≤ t.maxDepth := href.depth_eq ▸ href.length_le
  refine ⟨href.newest, href.tip, href.length_le, href.linked, ?_, ?_, ?_⟩
  · intro header parent hm hp popped
    have hpop : popped = t.recent.takeWhile _ := takeWhile_newest href.newest hm hp
    have hf := head?_dropWhile_not (hashSlow · ≠ header.parentHash) t.recent
    rw [track_eq hashSlow header hlen, hpop]
    cases hd : t.recent.dropWhile (hashSlow · ≠ header.parentHash) with
    | nil => simpa [hp] using dropWhile_eq_nil_iff.mp hd parent hm
    | cons fork older =>
      rw [hd] at hf
      have hfm : fork ∈ t.recent := (dropWhile_suffix (hashSlow · ≠ header.parentHash)).subset (hd ▸ mem_cons_self)
      by_cases he : t.recent.takeWhile (hashSlow · ≠ header.parentHash) = []
      · exact .inl ⟨he, if_pos he⟩
      · exact .inr ⟨he, fork, hfm, by simpa using hf, if_neg he⟩
  · intro header hno
    rw [track_eq hashSlow header hlen, dropWhile_eq_nil_iff.mpr fun parent hm => by simpa using hno parent hm]
  · intro extension hl
    unfold snapshotWithAppend snapshot
    rw [recent_extension extension (take_of_length_le hlen).symm hl, take_append, reverse_append, length_reverse, take_reverse,
      reverse_reverse]
    exact congrArg (fun kept => kept.reverse ++ _) take_eq_take_min.symm

end Logex
