import Logex.HistoryChain

/-!
# The walk finds the canonical chain

The walk visits the blocks of a chain from its end: the last block is the one cached under the target's root, and the chain before
it leads to that block's parent. A block of the chain under the checkpoint's root is the checkpoint, as slots strictly increase,
so the walk does not stop too early.
-/

namespace Logex

open List

/-- Cached blocks in increasing slot order from the checkpoint to the target, each the parent of the next. -/
structure CanonicalChain (blocks : VerifiedBeaconBlocks) (checkpointRoot targetRoot : B256) (chain : List VerifiedBeaconBlock) :
    Prop where
  first : chain.head?.map (·.beaconRoot) = some checkpointRoot
  last : chain.getLast?.map (·.beaconRoot) = some targetRoot
  cached : ∀ block ∈ chain, blocks block.beaconRoot = some block
  linked : chain.IsChain fun parent child => child.parentRoot = parent.beaconRoot ∧ parent.slot < child.slot

namespace CanonicalChainAux

variable {blocks : VerifiedBeaconBlocks} {checkpointRoot root : B256} {chain : List VerifiedBeaconBlock}
  {block : VerifiedBeaconBlock} {childSlot : Option Nat}

/-- The blocks the walk visits, the latest first. -/
def Lineage (blocks : VerifiedBeaconBlocks) (checkpointRoot : B256) : B256 → Option Nat → List VerifiedBeaconBlock → Prop
  | _, _, [] => False
  | root, childSlot, block :: rest =>
    blocks root = some block ∧ block.beaconRoot = root ∧ (∀ slot ∈ childSlot, block.slot < slot) ∧
      if root = checkpointRoot then rest = [] else Lineage blocks checkpointRoot block.parentRoot (some block.slot) rest

theorem not_nil (h : CanonicalChain blocks checkpointRoot root []) : False := by
  have hf := h.first
  simp at hf

/-- The last block of a longer chain is above the first. -/
theorem slot_lt (h : (chain ++ [block]).IsChain fun parent child : VerifiedBeaconBlock =>
    child.parentRoot = parent.beaconRoot ∧ parent.slot < child.slot) : ∀ earlier ∈ chain, earlier.slot < block.slot := by
  intro earlier hmem
  have hc := h.imp (S := fun parent child : VerifiedBeaconBlock => parent.slot < child.slot) fun _ _ hl => hl.2
  have hp := isChain_iff_pairwise.mp hc
  exact (pairwise_append.mp hp).2.2 earlier hmem block (mem_singleton_self block)

/-- A chain without its last block leads to that block's parent, and is empty where the block is the checkpoint. -/
theorem concat_iff : CanonicalChain blocks checkpointRoot root (chain ++ [block]) ↔
    blocks root = some block ∧ block.beaconRoot = root ∧
      if root = checkpointRoot then chain = []
      else CanonicalChain blocks checkpointRoot block.parentRoot chain ∧ ∀ parent ∈ chain.getLast?, parent.slot < block.slot := by
  constructor
  · rintro ⟨hf, hl, hcached, hlinked⟩
    have hr : block.beaconRoot = root := by simpa using hl
    have hb : blocks root = some block := hr ▸ hcached block (by simp)
    refine ⟨hb, hr, ?_⟩
    split
    · next hcheckpoint =>
      cases chain with
      | nil => rfl
      | cons e rest =>
        -- The first block would be the last one too, and below itself.
        have hroot : e.beaconRoot = root := by simpa [hcheckpoint] using hf
        have hs : blocks root = some e := hroot ▸ hcached e (by simp)
        obtain rfl : block = e := Option.some.inj (hb.symm.trans hs)
        exact absurd (slot_lt hlinked block (by simp)) (lt_irrefl _)
    · next hcheckpoint =>
      obtain ⟨hc, -, hlink⟩ := isChain_append.mp hlinked
      rcases eq_nil_or_concat chain with rfl | ⟨rest, parent, rfl⟩
      · exact absurd (by simpa [hr] using hf) hcheckpoint
      · have hp := hlink parent (by simp) block (by simp)
        refine ⟨⟨?_, by simp [hp.1], fun o hmem => hcached o (mem_append_left _ hmem), hc⟩, ?_⟩
        · simpa [head?_append] using hf
        · intro o hlast
          exact slot_lt hlinked o (mem_of_getLast? hlast)
  · rintro ⟨hb, hr, hrest⟩
    have hown : blocks block.beaconRoot = some block := hr ▸ hb
    split at hrest
    · next hcheckpoint =>
      subst hrest
      exact ⟨by simp [hr, hcheckpoint], by simp [hr], by simpa using hown, by simp⟩
    · obtain ⟨hc, hslot⟩ := hrest
      rcases eq_nil_or_concat chain with rfl | ⟨rest, parent, rfl⟩
      · exact (not_nil hc).elim
      · have hp : parent.beaconRoot = block.parentRoot := by simpa using hc.last
        refine ⟨?_, by simp [hr], ?_, ?_⟩
        · simpa [head?_append] using hc.first
        · intro o hmem
          rcases mem_append.mp hmem with hearlier | hl
          · exact hc.cached o hearlier
          · exact mem_singleton.mp hl ▸ hown
        · refine isChain_append.mpr ⟨hc.linked, by simp, ?_⟩
          simpa using ⟨hp.symm, hslot parent (by simp)⟩

/-- The visited blocks are those of the chain, read from its end. -/
theorem lineage_iff : Lineage blocks checkpointRoot root childSlot chain ↔
    (∀ block ∈ chain.head?, ∀ slot ∈ childSlot, block.slot < slot) ∧ CanonicalChain blocks checkpointRoot root chain.reverse := by
  induction chain generalizing root childSlot with
  | nil => exact ⟨False.elim, fun h => not_nil h.2⟩
  | cons block rest ih =>
    rw [Lineage, reverse_cons, concat_iff, ih, getLast?_reverse]
    simp only [head?_cons, Option.mem_def, Option.some.injEq, forall_eq', reverse_eq_nil_iff]
    split <;> tauto

/-- A lineage starts with the block cached under the root. -/
theorem lineage_of_cached (hb : blocks root = some block)
    (hv : ¬(block.beaconRoot ≠ root ∨ ∃ slot ∈ childSlot, slot ≤ block.slot)) :
    Lineage blocks checkpointRoot root childSlot chain ↔ ∃ rest, chain = block :: rest ∧
      if root = checkpointRoot then rest = [] else Lineage blocks checkpointRoot block.parentRoot (some block.slot) rest := by
  simp only [not_or, not_not, not_exists, not_and, not_le] at hv
  constructor
  · intro hl
    rcases chain with _ | ⟨o, rest⟩
    · exact hl.elim
    · obtain ⟨hfound, -, -, hr⟩ := hl
      obtain rfl : block = o := Option.some.inj (hb.symm.trans hfound)
      exact ⟨rest, rfl, hr⟩
  · rintro ⟨rest, rfl, hr⟩
    exact ⟨hb, hv.1, hv.2, hr⟩

/-- The walk succeeds where a lineage exists, having shown its blocks to the visitor. -/
theorem visitFrom_eq_some {σ : Type} {visit : VerifiedBeaconBlock → σ → σ} {cb : VerifiedBeaconBlock} {st st' : σ}
    (hc : blocks checkpointRoot = some cb) : visitFrom blocks checkpointRoot visit cb root childSlot st = (some (), st') ↔
      ∃ chain, Lineage blocks checkpointRoot root childSlot chain ∧ chain.foldl (fun st block => visit block st) st = st' := by
  have hf : ∀ root, (if root = checkpointRoot then some cb else blocks root) = blocks root := by
    intro root
    split
    · next hr => rw [hr, hc]
    · rfl
  fun_induction visitFrom blocks checkpointRoot visit cb root childSlot st with
  | case1 root childSlot st hn =>
    rw [dite_eq_ite, hf] at hn
    refine ⟨nofun, ?_⟩
    rintro ⟨_ | ⟨block, rest⟩, hl, -⟩
    · exact hl.elim
    · exact absurd (hn.symm.trans hl.1) nofun
  | case2 root childSlot st block hb hin =>
    rw [dite_eq_ite, hf] at hb
    refine ⟨nofun, ?_⟩
    rintro ⟨_ | ⟨o, rest⟩, hl, -⟩
    · exact hl.elim
    · obtain ⟨hfound, hr, hs, -⟩ := hl
      obtain rfl : block = o := Option.some.inj (hb.symm.trans hfound)
      rcases hin with hne | ⟨slot, hmem, hle⟩
      · exact absurd hr hne
      · exact absurd (hs slot hmem) (not_lt.mpr hle)
  | case3 childSlot st block hb hv =>
    rw [dite_eq_ite, hf] at hb
    simp [lineage_of_cached hb hv]
  | case4 root childSlot st block hb hv hnot ih =>
    rw [dite_eq_ite, hf] at hb
    simp only [lineage_of_cached hb hv, if_neg hnot, ih]
    constructor
    · rintro ⟨rest, hrest, rfl⟩
      exact ⟨block :: rest, ⟨rest, rfl, hrest⟩, rfl⟩
    · rintro ⟨_, ⟨rest, rfl, hrest⟩, rfl⟩
      exact ⟨rest, hrest, rfl⟩

theorem visitCanonicalChainToRoot_eq_some {σ : Type} {visit : VerifiedBeaconBlock → σ → σ} {cs : Nat} {st st' : σ} :
    visitCanonicalChainToRoot blocks checkpointRoot visit cs root st = (some (), st') ↔
      (blocks checkpointRoot).map (·.slot) = some cs ∧ ∃ chain, CanonicalChain blocks checkpointRoot root chain ∧
        chain.reverse.foldl (fun st block => visit block st) st = st' := by
  unfold visitCanonicalChainToRoot
  split
  · next hn => simp [hn]
  · next cb hc =>
    split
    · next hs => simp [hc, hs]
    · next hs =>
      rw [visitFrom_eq_some hc]
      simp only [lineage_iff, hc, Option.map_some, not_not.mp hs, true_and]
      constructor
      · rintro ⟨chain, ⟨-, hchain⟩, rfl⟩
        exact ⟨chain.reverse, hchain, by rw [reverse_reverse]⟩
      · rintro ⟨chain, hchain, rfl⟩
        exact ⟨chain.reverse, ⟨by simp, by rwa [reverse_reverse]⟩, rfl⟩

theorem collected_eq (chain collected : List VerifiedBeaconBlock) :
    chain.foldl (fun chain block => chain ++ [block]) collected = collected ++ chain := by
  induction chain generalizing collected with
  | nil => simp
  | cons block chain ih => simp [ih]

theorem canonicalChainBlocksToRoot_eq_some {cs : Nat} : canonicalChainBlocksToRoot blocks checkpointRoot cs root = some chain ↔
      (blocks checkpointRoot).map (·.slot) = some cs ∧ CanonicalChain blocks checkpointRoot root chain := by
  have hv : canonicalChainBlocksToRoot blocks checkpointRoot cs root = some chain ↔
      visitCanonicalChainToRoot blocks checkpointRoot (fun block chain => chain ++ [block]) cs root []
        = (some (), chain.reverse) := by
    unfold canonicalChainBlocksToRoot
    split
    · next rc h => simp [h, reverse_eq_iff]
    · next h => simp [h]
  rw [hv, visitCanonicalChainToRoot_eq_some]
  simp only [collected_eq, nil_append, reverse_inj, exists_eq_right]

end CanonicalChainAux

open CanonicalChainAux in
/-- For every cache the walk succeeds exactly where the cached parent links lead from the target to the checkpoint at its slot with
strictly decreasing slots, whatever the visitor does. The collected chain is that path, and the visitor saw it from its end. -/
theorem walk_finds_canonical_chain (blocks : VerifiedBeaconBlocks) (checkpointRoot : B256) (checkpointSlot : Nat) (targetRoot : B256) :
    (∀ chain, canonicalChainBlocksToRoot blocks checkpointRoot checkpointSlot targetRoot = some chain ↔
      (blocks checkpointRoot).map (·.slot) = some checkpointSlot ∧ CanonicalChain blocks checkpointRoot targetRoot chain) ∧
    (∀ chain, CanonicalChain blocks checkpointRoot targetRoot chain → chain.Pairwise fun earlier later => earlier.slot < later.slot) ∧
    (canonicalChainIsComplete blocks checkpointRoot checkpointSlot targetRoot = true ↔
      (blocks checkpointRoot).map (·.slot) = some checkpointSlot ∧ ∃ chain, CanonicalChain blocks checkpointRoot targetRoot chain) ∧
    ∀ (σ : Type) (visit : VerifiedBeaconBlock → σ → σ) (state state' : σ),
      visitCanonicalChainToRoot blocks checkpointRoot visit checkpointSlot targetRoot state = (some (), state') ↔
        ∃ chain, canonicalChainBlocksToRoot blocks checkpointRoot checkpointSlot targetRoot = some chain ∧
          chain.reverse.foldl (fun state block => visit block state) state = state' := by
  refine ⟨fun chain => canonicalChainBlocksToRoot_eq_some, fun chain hc => ?_, ?_, fun σ visit state state' => ?_⟩
  · exact isChain_iff_pairwise.mp (hc.linked.imp fun _ _ hl => hl.2)
  · have hcomplete : canonicalChainIsComplete blocks checkpointRoot checkpointSlot targetRoot = true ↔
        visitCanonicalChainToRoot blocks checkpointRoot (fun _ (_ : Unit) => ()) checkpointSlot targetRoot () = (some (), ()) := by
      rw [canonicalChainIsComplete, Option.isSome_iff_exists, Prod.ext_iff]
      exact ⟨fun ⟨⟨⟩, hs⟩ => ⟨hs, rfl⟩, fun h => ⟨(), h.1⟩⟩
    rw [hcomplete, visitCanonicalChainToRoot_eq_some]
    simp
  · rw [visitCanonicalChainToRoot_eq_some]
    simp [canonicalChainBlocksToRoot_eq_some, and_assoc]

end Logex
