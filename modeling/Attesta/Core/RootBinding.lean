import Attesta.Core.MerkleRefinement
import Attesta.Foundation.PaddedLevels

/-! What the root of a tree says about its leaves: everything but the padding values at their
end, unless the hash collides on a pair of each of the two trees compared.
-/

namespace Attesta.Merkle

open PaddedTree

/-- Two different pairs of nodes with one hash, one hashed in the reference tree over each of
two leaf lists.
-/
def TreeCollision (hasher : TreeHasher) (xs ys : List Node) : Prop :=
  ∃ left right, hasher.scheme.Hashed xs treeDepth left
    ∧ hasher.scheme.Hashed ys treeDepth right
    ∧ left ≠ right
    ∧ hasher.hashPair left.1 left.2 = hasher.hashPair right.1 right.2

/-- The root binds the leaves. If trees built over two leaf lists have the same root, the lists
are equal up to padding values at their ends, or the hash collides.
-/
theorem root_binds_leaves {hasher : TreeHasher} {xs ys : List Node} {left right : MerkleTree}
    (leftBuilt : MerkleTree.fromLeaves hasher xs = .ok left)
    (rightBuilt : MerkleTree.fromLeaves hasher ys = .ok right)
    (leftCapacity : xs.length ≤ 2 ^ treeDepth) (rightCapacity : ys.length ≤ 2 ^ treeDepth)
    (same : left.root = right.root)
    : xs.rdropWhile (· = hasher.emptyLeaf) = ys.rdropWhile (· = hasher.emptyLeaf)
      ∨ TreeCollision hasher xs ys := by
  obtain ⟨tree, built, leftRep⟩ := fromLeaves_represents hasher xs
  cases leftBuilt.symm.trans built
  obtain ⟨tree, built, rightRep⟩ := fromLeaves_represents hasher ys
  cases rightBuilt.symm.trans built
  rw [leftRep.root, rightRep.root] at same
  exact (hasher.scheme.root_binding leftCapacity rightCapacity same).imp_left
    hasher.scheme.rdropWhile_eq

theorem root_binds_leaves_padded
    : [⟨List.replicate 32 7, rfl⟩, Node.zero].rdropWhile (· = Node.zero)
        = [⟨List.replicate 32 7, rfl⟩].rdropWhile (· = Node.zero)
      ∨ TreeCollision (sha256Hasher (fun _ => ⟨List.replicate 32 1, rfl⟩))
          [⟨List.replicate 32 7, rfl⟩, Node.zero] [⟨List.replicate 32 7, rfl⟩] := by
  obtain ⟨left, leftBuilt, leftRep⟩ :=
    fromLeaves_represents (sha256Hasher (fun _ => ⟨List.replicate 32 1, rfl⟩))
      [⟨List.replicate 32 7, rfl⟩, Node.zero]
  obtain ⟨right, rightBuilt, rightRep⟩ :=
    fromLeaves_represents (sha256Hasher (fun _ => ⟨List.replicate 32 1, rfl⟩))
      [⟨List.replicate 32 7, rfl⟩]
  refine root_binds_leaves leftBuilt rightBuilt (by simp [treeDepth]) (by simp [treeDepth]) ?_
  rw [leftRep.root, rightRep.root]
  refine Scheme.root_congr _ (fun i => ?_)
  rcases i with _ | _ | i
  · rfl
  · rfl
  · rfl

/-- A longer list of leaves has another root exactly if it adds a leaf that is not a padding
value, unless the hash collides.
-/
theorem root_ne_iff (hasher : TreeHasher) {xs ys : List Node} (older : xs <+: ys)
    (capacity : ys.length ≤ 2 ^ treeDepth)
    : (hasher.scheme.root ys treeDepth ≠ hasher.scheme.root xs treeDepth
        ↔ ∃ i, ∃ h : i < ys.length, xs.length ≤ i ∧ ys[i] ≠ hasher.emptyLeaf)
      ∨ TreeCollision hasher ys xs := by
  by_cases collision : TreeCollision hasher ys xs
  · exact Or.inr collision
  refine Or.inl ⟨fun moved => ?_, fun added same => ?_⟩
  · by_contra none
    push Not at none
    exact moved (hasher.scheme.root_of_prefix older none)
  · obtain ⟨i, inside, new, other⟩ := added
    have padding := (hasher.scheme.prefix_binding older capacity same).resolve_right collision
    exact other (padding i inside new)

/-- An append moves the root exactly if the leaf is not the padding value. -/
theorem MerkleTree.Represents.append_root_ne_iff {tree : MerkleTree} {hasher : TreeHasher}
    {xs : List Node} (rep : tree.Represents hasher xs) (room : xs.length < 2 ^ treeDepth)
    (leaf : Node)
    : ∃ next, tree.append leaf = .ok (xs.length, next)
        ∧ ((next.root ≠ tree.root ↔ leaf ≠ hasher.emptyLeaf)
          ∨ TreeCollision hasher (xs ++ [leaf]) xs) := by
  obtain ⟨next, appended, nextRep⟩ := rep.append leaf
  refine ⟨next, appended, ?_⟩
  have capacity : (xs ++ [leaf]).length ≤ 2 ^ treeDepth := by simpa using Nat.succ_le_of_lt room
  have moved := root_ne_iff hasher (List.prefix_append xs [leaf]) capacity
  have added : (∃ i, ∃ h : i < (xs ++ [leaf]).length,
        xs.length ≤ i ∧ (xs ++ [leaf])[i] ≠ hasher.emptyLeaf)
      ↔ leaf ≠ hasher.emptyLeaf := by
    constructor
    · rintro ⟨i, inside, new, other⟩
      have last : i = xs.length := by
        rw [List.length_append, List.length_singleton] at inside
        omega
      rwa [List.getElem_concat_length last] at other
    · intro other
      exact ⟨xs.length, by simp, le_rfl, by simpa using other⟩
  rwa [added, ← nextRep.root, ← rep.root] at moved

end Attesta.Merkle
