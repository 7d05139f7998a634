import Logex.ResidualChunks

/-!
# Residual chunks keep their positions

Whatever is taken, cut, shifted or merged, a chunk stays at the position of its first header. A completion returns the longest
contiguous prefix, but bounds the split by that prefix, so no chunk beyond it is kept.
-/

namespace Logex

open Lib List

variable {α : Type}

/-- The chunks hold this block for this position. -/
def Fetched (chunks : Chunks α) (position : Nat) (block : α) : Prop :=
  ∃ entry ∈ chunks, ∃ i, position = entry.1 + i ∧ entry.2[i]? = some block

def NonOverlapping (chunks : Chunks α) : Prop := chunks.Pairwise fun a b => a.1 < b.1 ∧ a.1 + a.2.length ≤ b.1

/-- The blocks of a list are for the positions from 0 on. -/
def Pays (P : Nat → α → Prop) (blocks : List α) : Prop := ∀ (i : Nat) x, blocks[i]? = some x → P i x

/-- The blocks of every chunk are for the positions from its key on. -/
def Aligned (P : Nat → α → Prop) (chunks : Chunks α) : Prop := ∀ entry ∈ chunks, Pays (fun i => P (entry.1 + i)) entry.2

/-- The states of the loop, with the number of headers consumed; every new plan fetches for the headers that remain. -/
inductive ResidualReached (P : Nat → α → Prop) (first : ResidualIngest α) : Nat → ResidualIngest α → Prop
  | start : ResidualReached P first 0 first
  | turn {consumed : Nat} {s s' : ResidualIngest α} {outcome : BodyReceiptRequestOutcome α} {handed : List α}
      (reached : ResidualReached P first consumed s) (fetched : Aligned (fun k => P (consumed + k)) outcome.chunks)
      (turn : residualTurn s outcome = some (handed, s')) : ResidualReached P first (consumed + handed.length) s'

namespace ResidualAux

variable {P : Nat → α → Prop} {b c : List α} {cs cs' : Chunks α} {e L t n : Nat} {s : PrefixSplit α}

/-! ## Positions -/

theorem Pays.append (hb : Pays P b) (hc : Pays (fun i => P (b.length + i)) c) : Pays P (b ++ c) := by
  intro i x hx
  rw [getElem?_append] at hx
  split at hx
  · exact hb i x hx
  · have h : P (b.length + (i - b.length)) x := hc _ x hx
    rwa [Nat.add_sub_cancel' (by omega)] at h

theorem Pays.take (h : Pays P b) (n : Nat) : Pays P (b.take n) := by
  intro i x hx
  rw [getElem?_take] at hx
  split at hx
  · exact h i x hx
  · nomatch hx

theorem Pays.drop (h : Pays P b) (n : Nat) : Pays (fun i => P (n + i)) (b.drop n) := by
  intro i x hx
  rw [getElem?_drop] at hx
  exact h _ x hx

theorem Pays.rebase {k : Nat} (hle : n ≤ k) (h : Pays (fun i => P (k + i)) c) : Pays (fun i => P (n + (k - n + i))) c := by
  intro i x hx
  show P (n + (k - n + i)) x
  rw [← Nat.add_assoc, Nat.add_sub_cancel' hle]
  exact h i x hx

section

variable (h : Aligned P cs)

include h

theorem Aligned.insert {k : Nat} (hc : Pays (fun i => P (k + i)) c) : Aligned P (insertChunk k c cs) := by
  induction cs with
  | nil => simpa [insertChunk, Aligned] using hc
  | cons entry rest ih =>
    obtain ⟨he, hr⟩ := forall_mem_cons.mp h
    rw [insertChunk]
    split
    · exact forall_mem_cons.mpr ⟨hc, h⟩
    · split
      · exact forall_mem_cons.mpr ⟨hc, hr⟩
      · exact forall_mem_cons.mpr ⟨he, ih hr⟩

theorem Aligned.remove {k : Nat} {found : List α × Chunks α} (hf : removeChunk k cs = some found) :
    Pays (fun i => P (k + i)) found.1 ∧ Aligned P found.2 := by
  induction cs generalizing found with
  | nil => nomatch hf
  | cons entry rest ih =>
    obtain ⟨he, hr⟩ := forall_mem_cons.mp h
    rw [removeChunk] at hf
    split at hf
    · next hk =>
      cases hf
      exact ⟨hk ▸ he, hr⟩
    · obtain ⟨later, hl, rfl⟩ := Option.map_eq_some_iff.mp hf
      exact ⟨(ih hr hl).1, forall_mem_cons.mpr ⟨he, (ih hr hl).2⟩⟩

theorem Aligned.shift (n : Nat) : Aligned (fun k => P (n + k)) (shiftPrefetchedResidualChunksAfterConsumption cs n) := by
  intro entry hm
  obtain ⟨old, ho, hs⟩ := mem_filterMap.mp hm
  split at hs
  · next hle =>
    cases hs
    exact Pays.rebase hle (h old ho)
  · nomatch hs

theorem Aligned.merge (h' : Aligned P cs') : Aligned P (mergePrefetchedResidualChunks cs cs') := by
  unfold mergePrefetchedResidualChunks
  induction cs' generalizing cs with
  | nil => exact h
  | cons entry rest ih =>
    obtain ⟨he, hr⟩ := forall_mem_cons.mp h'
    refine ih ?_ hr
    beta_reduce
    split
    · exact h
    · exact Aligned.insert h he

end

theorem Aligned.take (h : Aligned P cs) (hb : Pays P b) (hl : b.length ≤ L) :
    Pays P (takePrefetchedFrom L b cs).1 ∧ (takePrefetchedFrom L b cs).1.length ≤ L ∧ Aligned P (takePrefetchedFrom L b cs).2 := by
  fun_induction takePrefetchedFrom L b cs with
  | case1 b cs hlt hn | case4 b cs hge => exact ⟨hb, hl, h⟩
  | case2 b cs hlt c rest hf rem hcut =>
    obtain ⟨hc, hr⟩ := Aligned.remove h hf
    refine ⟨Pays.append hb (Pays.take hc _), by simp; omega, Aligned.insert hr ?_⟩
    intro i x hx
    have hx : P (b.length + (rem + i)) x := Pays.drop hc rem i x hx
    rwa [← Nat.add_assoc, show b.length + rem = L by omega] at hx
  | case3 b cs hlt c rest hf rem hfit ih =>
    obtain ⟨hc, hr⟩ := Aligned.remove h hf
    exact ih hr (Pays.append hb hc) (by simp; omega)

/-! ## The split -/

/-- What the split keeps of a chunk. -/
def keptChunk (L t : Nat) (entry : Nat × List α) : Option (Nat × List α) :=
  if t ≤ entry.1 ∧ entry.1 < L then some (entry.1 - t, entry.2.take (L - entry.1)) else none

section

variable (he : s.expectedStart = s.blocks.length)

include he

theorem residual_fold : (cs.foldl (splitStep L t) s).residualChunks = s.residualChunks ++ cs.filterMap (keptChunk L t) := by
  induction cs generalizing s with
  | nil => simp
  | cons entry rest ih =>
    rw [foldl_cons, splitStep, filterMap_cons, keptChunk]
    split
    · -- A chunk of the prefix starts below the target.
      rw [ih (by simp [he]), if_neg (by omega)]
    · split
      · rw [ih (by exact he)]
        simp
      · rw [ih he]

theorem blocks_fold (hb : Pays P s.blocks) (hc : Aligned P cs) : Pays P (cs.foldl (splitStep L t) s).blocks := by
  induction cs generalizing s with
  | nil => exact hb
  | cons entry rest ih =>
    obtain ⟨h0, hr⟩ := forall_mem_cons.mp hc
    rw [foldl_cons, splitStep]
    split
    · next h =>
      refine ih (by simp [he]) (Pays.append hb ?_) hr
      rw [← he, ← h.1]
      exact Pays.take h0 _
    · split
      · exact ih he hb hr
      · exact ih he hb hr

omit he in
theorem le_contiguousFrom (e : Nat) (cs : Chunks α) : e ≤ contiguousFrom e cs := by
  induction cs generalizing e with
  | nil => exact le_rfl
  | cons entry rest ih =>
    rw [contiguousFrom]
    split
    · exact le_rfl
    · exact (Nat.le_add_right ..).trans (ih _)

/-- The split returns blocks up to its target. -/
theorem length_blocks_fold (hs : s.blocks.length ≤ t)
    (ht : t ≤ contiguousFrom s.expectedStart cs) : (cs.foldl (splitStep L t) s).blocks.length = t := by
  induction cs generalizing s with
  | nil =>
    rw [contiguousFrom] at ht
    show s.blocks.length = t
    omega
  | cons entry rest ih =>
    rw [foldl_cons, splitStep]
    rw [contiguousFrom] at ht
    split
    · next h =>
      rw [if_neg (not_not.mpr h.1)] at ht
      refine ih (by simp [he]) (by simp; omega) ?_
      show t ≤ contiguousFrom (s.expectedStart + (entry.2.take _).length) rest
      by_cases hf : entry.2.length ≤ t - s.blocks.length
      · rwa [take_of_length_le hf]
      · refine le_trans ?_ (le_contiguousFrom _ rest)
        rw [length_take]
        omega
    · next h =>
      -- The prefix is complete here.
      have hd : s.expectedStart = t := by
        split at ht <;> omega
      have hr := le_contiguousFrom s.expectedStart rest
      split
      · exact ih he hs (by simpa using hd ▸ hr)
      · exact ih he hs (hd ▸ hr)

end

theorem length_split (L : Nat) (cs : Chunks α) : (splitContiguousPrefix L cs).1.length = min (contiguousChunkBlocks cs) L :=
  length_blocks_fold rfl (Nat.zero_le _) (min_le_left ..)

theorem residual_split (L : Nat) (cs : Chunks α) :
    (splitContiguousPrefix L cs).2 = cs.filterMap (keptChunk L (splitContiguousPrefix L cs).1.length) := by
  rw [length_split]
  exact residual_fold rfl

theorem split_aligned (hc : Aligned P cs) (L : Nat) : Pays P (splitContiguousPrefix L cs).1 ∧
    Aligned (fun k => P ((splitContiguousPrefix L cs).1.length + k)) (splitContiguousPrefix L cs).2 ∧
    ∀ entry ∈ (splitContiguousPrefix L cs).2, (splitContiguousPrefix L cs).1.length + entry.1 + entry.2.length ≤ L := by
  refine ⟨blocks_fold rfl nofun hc, ?_⟩
  rw [residual_split, Aligned, ← forall₂_and]
  intro entry hm
  obtain ⟨old, ho, hs⟩ := mem_filterMap.mp hm
  unfold keptChunk at hs
  split at hs
  · next h =>
    cases hs
    refine ⟨Pays.rebase h.1 (Pays.take (hc old ho) _), ?_⟩
    simp
    omega
  · nomatch hs

/-- A chunk that starts within the contiguous prefix ends within it. -/
theorem contiguousFrom_closed (hc : NonOverlapping cs) (hge : ∀ entry ∈ cs, e ≤ entry.1) :
    ∀ entry ∈ cs, entry.1 ≤ contiguousFrom e cs → entry.1 + entry.2.length ≤ contiguousFrom e cs := by
  induction cs generalizing e with
  | nil => nofun
  | cons first rest ih =>
    obtain ⟨hf, hr⟩ := pairwise_cons.mp hc
    obtain ⟨h0, h1⟩ := forall_mem_cons.mp hge
    intro entry hm hle
    rw [contiguousFrom] at hle ⊢
    split at hle
    · next hne =>
      rcases mem_cons.mp hm with rfl | hm
      · omega
      · have := hf entry hm
        omega
    · next heq =>
      rw [if_neg heq]
      rcases mem_cons.mp hm with rfl | hm
      · have := le_contiguousFrom (e + entry.2.length) rest
        omega
      · exact ih hr (fun x hx => by have := hf x hx; omega) entry hm hle

theorem fetched_aligned (cs : Chunks α) : Aligned (Fetched cs) cs := fun entry hm i _ hx => ⟨entry, hm, i, rfl, hx⟩

/-- Bounded by the limit, the split returns the longest prefix and keeps the rest. -/
theorem split_spec (hc : NonOverlapping cs) (L : Nat) :
    IsGreatest {n | n ≤ L ∧ ∀ p < n, ∃ x, Fetched cs p x} (splitContiguousPrefix L cs).1.length ∧
    Pays (Fetched cs) (splitContiguousPrefix L cs).1 ∧
    ∀ p x, Fetched cs p x → (splitContiguousPrefix L cs).1.length ≤ p → p < L →
      Fetched (splitContiguousPrefix L cs).2 (p - (splitContiguousPrefix L cs).1.length) x := by
  have hl := length_split L cs
  have hp := (split_aligned (fetched_aligned cs) L).1
  have hcl := contiguousFrom_closed hc (fun _ _ => Nat.zero_le _)
  refine ⟨⟨⟨hl ▸ min_le_right .., fun p hlt => ?_⟩, ?_⟩, hp, ?_⟩
  · exact ⟨_, hp p _ (getElem?_eq_getElem hlt)⟩
  · rintro n ⟨hn, hall⟩
    by_contra hlt
    rw [not_le, hl] at hlt
    obtain ⟨x, entry, hm, i, hi, hx⟩ := hall _ hlt
    have hlen := (List.getElem?_eq_some_iff.mp hx).1
    have hcl := hcl entry hm
    unfold contiguousChunkBlocks at hi hlt
    omega
  · rintro p x ⟨entry, hm, i, rfl, hx⟩ hle hlt
    have hlen := (List.getElem?_eq_some_iff.mp hx).1
    have hcl := hcl entry hm
    have ht : (splitContiguousPrefix L cs).1.length ≤ entry.1 := by
      rw [hl, contiguousChunkBlocks] at hle ⊢
      omega
    refine ⟨(entry.1 - _, entry.2.take (L - entry.1)), ?_, i, Nat.sub_add_comm ht, ?_⟩
    · rw [residual_split]
      exact mem_filterMap.mpr ⟨entry, hm, if_pos ⟨ht, by omega⟩⟩
    · rw [getElem?_take_of_lt (by omega), hx]

/-- A split bounded by the prefix itself keeps nothing. -/
theorem residual_split_of_le {n : Nat} (h : n ≤ contiguousChunkBlocks cs) : (splitContiguousPrefix n cs).2 = [] := by
  rw [residual_split, length_split, min_eq_right h, filterMap_eq_nil_iff]
  intro entry _
  exact if_neg fun hkept => absurd hkept.2 (not_lt.mpr hkept.1)

/-- The completion splits with the bound it has already reached, and accepts what the split returns. -/
theorem completion_eq (totalHashes returnBlocks : Nat) (cs : Chunks α) :
    ∃ completion, completeResidualBodiesAndReceiptsRequest (planOutcome totalHashes returnBlocks cs) = .ok completion ∧
      completion.blocks = (splitContiguousPrefix (min (contiguousChunkBlocks cs) (min returnBlocks totalHashes)) cs).1 ∧
      completion.residualChunks = [] := by
  have hn : bodyReceiptCompletionReturnBlocks returnBlocks (bodyReceiptCompletedPrefixBlocks cs returnBlocks) totalHashes =
      min (contiguousChunkBlocks cs) (min returnBlocks totalHashes) := by
    unfold bodyReceiptCompletionReturnBlocks bodyReceiptCompletedPrefixBlocks
    omega
  generalize hL : min (contiguousChunkBlocks cs) (min returnBlocks totalHashes) = n at hn
  have hl := length_split n cs
  refine ⟨⟨_, (splitContiguousPrefix n cs).2⟩, ?_, rfl, residual_split_of_le (hL ▸ min_le_left ..)⟩
  simp only [completeResidualBodiesAndReceiptsRequest, completeBodiesAndReceiptsRequestWithMinPrefix, planOutcome, hn]
  rw [rejectIf, if_neg]
  · rfl
  · simp only [hl, bodyReceiptCompletionMinAcceptedPrefix]
    omega

/-! ## One turn -/

theorem residualTurn_spec {s s' : ResidualIngest α} {outcome : BodyReceiptRequestOutcome α} {handed : List α}
    (h : Aligned P s.prefetchedChunks) (ho : Aligned P outcome.chunks) (ht : residualTurn s outcome = some (handed, s')) :
    Pays P handed ∧ handed.length ≤ s.remainingHeaders ∧ s'.remainingHeaders = s.remainingHeaders - handed.length ∧
      Aligned (fun k => P (handed.length + k)) s'.prefetchedChunks := by
  obtain ⟨hp, hl, hk⟩ := Aligned.take (L := s.remainingHeaders) h (b := []) nofun (Nat.zero_le _)
  unfold residualTurn takePrefetchedResidualPrefix at ht
  dsimp only at ht
  split at ht
  · cases ht
    exact ⟨hp, hl, rfl, Aligned.shift hk _⟩
  · split at ht
    · nomatch ht
    · next completion hc =>
      split at ht
      · next hb =>
        cases ht
        unfold completeResidualBodiesAndReceiptsRequest completeBodiesAndReceiptsRequestWithMinPrefix at hc
        obtain ⟨-, hc⟩ := rejectIf_bind.mp hc
        cases hc
        obtain ⟨hs, hr, -⟩ := split_aligned ho
          (bodyReceiptCompletionReturnBlocks outcome.returnBlocks outcome.completedPrefixBlocks outcome.totalHashes)
        exact ⟨hs, hb.2, rfl, Aligned.merge (Aligned.shift hk _) hr⟩
      · nomatch ht

end ResidualAux

open ResidualAux

/-- A split returns the payloads of the first headers and keeps the others at the position of their header; in every state of the
loop the chunks kept are those of the headers that remain, and every payload is handed over with its own header. -/
theorem residual_payloads_aligned (P : Nat → α → Prop) : (∀ limit chunks, Aligned P chunks →
      let split := splitContiguousPrefix limit chunks
      split.1.length ≤ limit ∧ Pays P split.1 ∧ Aligned (fun k => P (split.1.length + k)) split.2 ∧
        ∀ entry ∈ split.2, split.1.length + entry.1 + entry.2.length ≤ limit) ∧
    ∀ first, Aligned P first.prefetchedChunks → ∀ consumed s, ResidualReached P first consumed s →
      consumed + s.remainingHeaders = first.remainingHeaders ∧ Aligned (fun k => P (consumed + k)) s.prefetchedChunks ∧
        ∀ outcome handed s', Aligned (fun k => P (consumed + k)) outcome.chunks → residualTurn s outcome = some (handed, s') →
          handed.length ≤ s.remainingHeaders ∧ Pays (fun i => P (consumed + i)) handed := by
  constructor
  · intro limit chunks h
    exact ⟨length_split limit chunks ▸ min_le_right .., split_aligned h limit⟩
  · intro first h consumed s hr
    have inv : consumed + s.remainingHeaders = first.remainingHeaders ∧
        Aligned (fun k => P (consumed + k)) s.prefetchedChunks := by
      induction hr with
      | start => simpa using h
      | turn _ hf ht ih =>
        obtain ⟨-, hl, hrem, ha⟩ := residualTurn_spec ih.2 hf ht
        refine ⟨by omega, ?_⟩
        simpa only [Nat.add_assoc] using ha
    refine ⟨inv.1, inv.2, fun outcome handed s' ho ht => ?_⟩
    obtain ⟨hp, hl, -⟩ := residualTurn_spec inv.2 ho ht
    exact ⟨hl, hp⟩

/-- The fetched blocks up to the bound are a prefix: no chunk below it starts behind a block that is missing. -/
def NoGap (chunks : Chunks α) (bound : Nat) : Prop :=
  ∀ entry ∈ chunks, entry.2 ≠ [] → entry.1 < bound → ∀ p < entry.1, ∃ block, Fetched chunks p block

/-- A residual completion returns the longest contiguous prefix and never keeps a chunk, so it keeps every fetched block beyond the
prefix exactly where the chunks have no gap below the bound. A split at the bound itself keeps them always. -/
theorem residual_completion_keeps (chunks : Chunks α) (totalHashes returnBlocks : Nat) (hc : NonOverlapping chunks) :
    let bound := min returnBlocks totalHashes
    let split := splitContiguousPrefix bound chunks
    ∃ completion, completeResidualBodiesAndReceiptsRequest (planOutcome totalHashes returnBlocks chunks) = .ok completion ∧
      IsGreatest {n | n ≤ bound ∧ ∀ p < n, ∃ block, Fetched chunks p block} completion.blocks.length ∧
      Pays (Fetched chunks) completion.blocks ∧ completion.residualChunks = [] ∧
      ((∀ p block, Fetched chunks p block → completion.blocks.length ≤ p → p < bound →
        Fetched completion.residualChunks (p - completion.blocks.length) block) ↔ NoGap chunks bound) ∧
      split.1.length = completion.blocks.length ∧
      ∀ p block, Fetched chunks p block → split.1.length ≤ p → p < bound → Fetched split.2 (p - split.1.length) block := by
  intro bound split
  obtain ⟨completion, hok, hb, hnone⟩ := completion_eq totalHashes returnBlocks chunks
  obtain ⟨hg, -, hkeep⟩ := split_spec hc bound
  have hl : split.1.length = completion.blocks.length := by
    rw [hb, length_split, length_split]
    omega
  have hg : IsGreatest _ completion.blocks.length := hl ▸ hg
  refine ⟨completion, hok, hg, ?_, hnone, ⟨fun hkept entry hm hne hlt p hp => ?_, ?_⟩, hl, hkeep⟩
  · rw [hb]
    exact (split_spec hc _).2.1
  · -- A missing block before the chunk ends the prefix, and then the chunk's first block would be kept.
    by_contra hmissing
    have hle : completion.blocks.length ≤ entry.1 := by
      by_contra hlong
      exact hmissing (hg.1.2 p (by omega))
    obtain ⟨first, rest, hcons⟩ := exists_cons_of_ne_nil hne
    obtain ⟨kept, hkept, -⟩ := hkept entry.1 first ⟨entry, hm, 0, rfl, by rw [hcons]; rfl⟩ hle hlt
    rw [hnone] at hkept
    exact absurd hkept not_mem_nil
  · rintro hgap p block ⟨entry, hm, i, rfl, hx⟩ hle hlt
    have hlen := (List.getElem?_eq_some_iff.mp hx).1
    have hcl := contiguousFrom_closed hc (fun _ _ => Nat.zero_le _) entry hm
    -- All blocks up to the chunk are fetched, so the prefix reaches it and takes it whole.
    have hreach : entry.1 ≤ completion.blocks.length :=
      hg.2 ⟨by omega, hgap entry hm (ne_nil_of_length_pos (by omega)) (by omega)⟩
    have hprefix : completion.blocks.length = min (contiguousChunkBlocks chunks) bound := by
      rw [← hl]
      exact length_split bound chunks
    unfold contiguousChunkBlocks at hprefix
    omega

namespace ResidualWitness

/-- Two blocks are fetched from the start and nothing after them. -/
theorem completion_of_contiguous_blocks :
    ∃ completion, completeResidualBodiesAndReceiptsRequest (planOutcome 4 4 [(0, ["b0", "b1"])]) = .ok completion ∧
      IsGreatest {n | n ≤ min 4 4 ∧ ∀ p < n, ∃ block, Fetched [(0, ["b0", "b1"])] p block} completion.blocks.length ∧
      NoGap [(0, ["b0", "b1"])] 4 ∧ ∀ p block, Fetched [(0, ["b0", "b1"])] p block → completion.blocks.length ≤ p → p < 4 →
        Fetched completion.residualChunks (p - completion.blocks.length) block := by
  have hgap : NoGap [(0, ["b0", "b1"])] 4 := by simp [NoGap]
  obtain ⟨completion, h, hg, -, -, hkeeps, -⟩ := residual_completion_keeps [(0, ["b0", "b1"])] 4 4 (pairwise_singleton ..)
  exact ⟨completion, h, hg, hgap, hkeeps.mpr hgap⟩

/-- Of four requested blocks the first and the third were fetched: the third is discarded. -/
theorem completion_discards_fetched_block :
    NonOverlapping [(0, ["b0"]), (2, ["b2"])] ∧ Fetched [(0, ["b0"]), (2, ["b2"])] 2 "b2" ∧
    completeResidualBodiesAndReceiptsRequest (planOutcome 4 4 [(0, ["b0"]), (2, ["b2"])]) = .ok ⟨["b0"], []⟩ := by
  refine ⟨by simp [NonOverlapping], ⟨(2, ["b2"]), by simp, 0, rfl, rfl⟩, rfl⟩

end ResidualWitness

end Logex
