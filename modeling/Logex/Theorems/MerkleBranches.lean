import Logex.LightClient

/-!
# Merkle branches bind their leaves

The depth of a branch is fixed by the generalized index, whatever zero nodes it starts with. Two leaves that reach one root at one
index are therefore equal, or two different inputs on their way up have the same hash.
-/

namespace Logex

open List

variable {Γ : Crypto} {leaf leaf' root : B256} {branch : List B256} {gindex : Nat}

/-- A node and its sibling as they are hashed. -/
def joined (index : Nat) (leaf sibling : B256) : List UInt8 :=
  if index % 2 = 0 then FixedBytes.toBytes leaf ++ FixedBytes.toBytes sibling
  else FixedBytes.toBytes sibling ++ FixedBytes.toBytes leaf

/-- The inputs that are hashed on the way up from a leaf. -/
def merkleInputs (Γ : Crypto) : B256 → Nat → List B256 → List (List UInt8)
  | _, _, [] => []
  | leaf, index, sibling :: branch =>
    joined index leaf sibling :: merkleInputs Γ (Γ.sha256 (joined index leaf sibling)) (index / 2) branch

/-- A branch without the nodes before the depth of its index. -/
def normalizedBranch (branch : List B256) (gindex : Nat) : List B256 := branch.drop (branch.length - floorlog2 gindex)

/-- The siblings of a node of a tree and of its ancestors; the nodes are given under their generalized indices. -/
def siblings (node : Nat → B256) : Nat → Nat → List B256
  | 0, _ => []
  | depth + 1, index => node (if index % 2 = 0 then index + 1 else index - 1) :: siblings node depth (index / 2)

/-- The first ancestors of a node are the hashes of their children. -/
def HashesUp (Γ : Crypto) (node : Nat → B256) (depth index : Nat) : Prop :=
  ∀ height < depth, node (index / 2 ^ (height + 1)) =
    hashConcat Γ (node (2 * (index / 2 ^ (height + 1)))) (node (2 * (index / 2 ^ (height + 1)) + 1))

namespace MerkleAux

theorem merkleWalk_cons (leaf : B256) (i : Nat) (sib : B256) (branch : List B256) :
    merkleWalk Γ leaf i (sib :: branch) = merkleWalk Γ (Γ.sha256 (joined i leaf sib)) (i / 2) branch := by
  rw [merkleWalk, joined]
  split <;> rfl

theorem joined_inj {i : Nat} {leaf leaf' sib sib' : B256} (h : joined i leaf sib = joined i leaf' sib') :
    leaf = leaf' ∧ sib = sib' := by
  have hleh : ∀ a b : B256, (FixedBytes.toBytes a).length = (FixedBytes.toBytes b).length := by
    simp [FixedBytes.length_toBytes]
  unfold joined at h
  split at h
  · obtain ⟨hl, hsib⟩ := append_inj h (hleh leaf leaf')
    exact ⟨FixedBytes.toBytes_inj.mp hl, FixedBytes.toBytes_inj.mp hsib⟩
  · obtain ⟨hsib, hl⟩ := append_inj h (hleh sib sib')
    exact ⟨FixedBytes.toBytes_inj.mp hl, FixedBytes.toBytes_inj.mp hsib⟩

theorem accepted_iff : isValidNormalizedMerkleBranch Γ leaf branch gindex root = true ↔
    (∀ item ∈ branch.take (branch.length - floorlog2 gindex), item = 0) ∧ (normalizedBranch branch gindex).length = floorlog2 gindex ∧
      merkleWalk Γ leaf (subtreeIndex gindex) (normalizedBranch branch gindex) = root := by
  rw [isValidNormalizedMerkleBranch, isValidMerkleBranch, ← normalizedBranch]
  simp

/-- Two walks of one length to one root start at one leaf, or hash different inputs to one value. -/
theorem walk_binds {branch bra' : List B256} {i : Nat} (hleh : branch.length = bra'.length)
    (hw : merkleWalk Γ leaf i branch = merkleWalk Γ leaf' i bra') :
    leaf = leaf' ∨ ∃ x ∈ merkleInputs Γ leaf i branch, ∃ y ∈ merkleInputs Γ leaf' i bra', x ≠ y ∧ Γ.sha256 x = Γ.sha256 y := by
  induction branch generalizing bra' leaf leaf' i with
  | nil =>
    obtain rfl := length_eq_zero_iff.mp hleh.symm
    exact .inl hw
  | cons sib branch ih =>
    rcases bra' with - | ⟨sib', bra'⟩
    · simp at hleh
    rw [merkleWalk_cons, merkleWalk_cons] at hw
    rcases ih (Nat.succ.inj hleh) hw with hn | ⟨x, hx, y, hy, hcol⟩
    · by_cases hs : joined i leaf sib = joined i leaf' sib'
      · exact .inl (joined_inj hs).1
      · exact .inr ⟨_, mem_cons_self, _, mem_cons_self, hs, hn⟩
    · exact .inr ⟨x, mem_cons_of_mem _ hx, y, mem_cons_of_mem _ hy, hcol⟩

theorem length_siblings (node : Nat → B256) (dep i : Nat) : (siblings node dep i).length = dep := by
  induction dep generalizing i with
  | zero => rfl
  | succ dep ih => rw [siblings, length_cons, ih]

/-- The walk from a node of a tree along its siblings passes its ancestors. -/
theorem walk_siblings {node : Nat → B256} {dep i : Nat} (h : HashesUp Γ node dep i) :
    merkleWalk Γ (node i) (i % 2 ^ dep) (siblings node dep i) = node (i / 2 ^ dep) := by
  induction dep generalizing i with
  | zero => rw [siblings, merkleWalk, Nat.pow_zero, Nat.div_one]
  | succ dep ih =>
    have hpar : Γ.sha256 (joined (i % 2 ^ (dep + 1)) (node i) (node (if i % 2 = 0 then i + 1 else i - 1))) =
        node (i / 2) := by
      have hup := h 0 (Nat.succ_pos dep)
      have hbit : i % 2 ^ (dep + 1) % 2 = i % 2 := Nat.mod_mod_of_dvd _ (Nat.dvd_mul_left 2 _)
      rw [Nat.zero_add, Nat.pow_one] at hup
      rw [hup, joined, hbit]
      split
      · rw [show 2 * (i / 2) = i by omega]
        rfl
      · rw [show 2 * (i / 2) = i - 1 by omega, show i - 1 + 1 = i by omega]
        rfl
    have hr : HashesUp Γ node dep (i / 2) := by
      intro hei hhei
      have hup := h (hei + 1) (Nat.succ_lt_succ hhei)
      rwa [Nat.pow_succ' (n := hei + 1), ← Nat.div_div_eq_div_mul] at hup
    rw [siblings, merkleWalk_cons, hpar, Nat.pow_succ', Nat.mod_mul_right_div_self, ih hr, Nat.div_div_eq_div_mul]

theorem div_two_pow_floorlog2 (h : gindex ≠ 0) : gindex / 2 ^ floorlog2 gindex = 1 := by
  have hle : 2 ^ floorlog2 gindex ≤ gindex := Nat.log2_self_le h
  have hlt : gindex < 2 ^ (floorlog2 gindex + 1) := Nat.lt_log2_self
  rw [Nat.pow_succ] at hlt
  exact Nat.div_eq_of_lt_le (by omega) (by omega)

end MerkleAux

open MerkleAux in
/-- Branches accepted for one root and index bind their leaves up to a collision among the inputs hashed on the two ways up, the
branch of every node of a tree is accepted with any number of zero nodes before it, and no branch shorter than the depth is. -/
theorem merkle_branches_bind_leaves (Γ : Crypto) (gindex : Nat) :
    (∀ root leaf leaf' branch branch', isValidNormalizedMerkleBranch Γ leaf branch gindex root = true →
      isValidNormalizedMerkleBranch Γ leaf' branch' gindex root = true → leaf = leaf' ∨
        ∃ x ∈ merkleInputs Γ leaf (subtreeIndex gindex) (normalizedBranch branch gindex),
        ∃ y ∈ merkleInputs Γ leaf' (subtreeIndex gindex) (normalizedBranch branch' gindex), x ≠ y ∧ Γ.sha256 x = Γ.sha256 y) ∧
    (∀ node, gindex ≠ 0 → HashesUp Γ node (floorlog2 gindex) gindex → ∀ extra, isValidNormalizedMerkleBranch Γ (node gindex)
      (List.replicate extra 0 ++ siblings node (floorlog2 gindex) gindex) gindex (node 1) = true) ∧
    ∀ root leaf branch, branch.length < floorlog2 gindex → isValidNormalizedMerkleBranch Γ leaf branch gindex root = false := by
  refine ⟨?_, ?_, ?_⟩
  · intro root leaf leaf' branch branch' h h'
    obtain ⟨-, hleh, hw⟩ := accepted_iff.mp h
    obtain ⟨-, hlen', hw'⟩ := accepted_iff.mp h'
    exact walk_binds (hleh.trans hlen'.symm) (hw.trans hw'.symm)
  · intro node hin hup extra
    have hex : (List.replicate extra (0 : B256) ++ siblings node (floorlog2 gindex) gindex).length - floorlog2 gindex = extra := by
      rw [length_append, length_replicate, length_siblings, Nat.add_sub_cancel]
    rw [accepted_iff, normalizedBranch, hex, drop_left' length_replicate, take_left' length_replicate]
    refine ⟨fun item him => eq_of_mem_replicate him, length_siblings _ _ _, ?_⟩
    rw [subtreeIndex, walk_siblings hup, div_two_pow_floorlog2 hin]
  · intro root leaf branch hs
    rw [← Bool.not_eq_true, accepted_iff]
    rintro ⟨-, hleh, -⟩
    rw [normalizedBranch, length_drop] at hleh
    omega

end Logex
