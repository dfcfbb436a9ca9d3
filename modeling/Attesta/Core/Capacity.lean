import Attesta.Core.PathLength

/-! Trees with more leaves than a root of their depth can cover. `append` has no check for it:
it keeps pushing nodes on every level, also on the top one, of which `root` reads the first.
-/

namespace Attesta.Merkle

open PaddedTree

/-- Two different pairs of nodes with one hash among those hashed for the levels of the tree
and for its table of empty roots.
-/
def LevelCollision (hasher : TreeHasher) (xs : List Node) : Prop :=
  ∃ left right, hasher.scheme.Pairs xs treeDepth left ∧ hasher.scheme.Pairs xs treeDepth right
    ∧ left ≠ right
    ∧ hasher.hashPair left.1 left.2 = hasher.hashPair right.1 right.2

/-- The block of `2 ^ treeDepth` leaves in which the last leaf stands has the same leaves as
the first block, with padding after the last leaf.
-/
def LastBlockRepeatsFirst (hasher : TreeHasher) (xs : List Node) : Prop :=
  ∀ j < 2 ^ treeDepth,
    hasher.scheme.leaf xs ((xs.length - 1) / 2 ^ treeDepth * 2 ^ treeDepth + j)
      = hasher.scheme.leaf xs j

/-- The path of a leaf leads to the top node above its own block. -/
theorem MerkleTree.Represents.verifyPath_iff {tree : MerkleTree} {hasher : TreeHasher}
    {xs : List Node} (rep : tree.Represents hasher xs) {i : Nat} (inside : i < xs.length)
    {path : List PathElement}
    (steps : path.map PathElement.step = hasher.scheme.path xs i treeDepth)
    : tree.verifyPath xs[i] path tree.root = true
      ↔ hasher.scheme.node xs treeDepth (i / 2 ^ treeDepth)
        = hasher.scheme.node xs treeDepth 0 := by
  have climbed := hasher.scheme.climb_path xs i treeDepth
  rw [hasher.scheme.leaf_of_lt inside] at climbed
  rw [MerkleTree.verifyPath_eq, steps, rep.sameHasher, climbed, rep.root, Scheme.root, beq_iff_eq]

/-- An append never fails, and the path of the new leaf can be had. It verifies against the new
root exactly if the tree had room for the leaf, or its block happens to repeat the first one,
unless the hash collides among the pairs of the tree.
-/
theorem append_covered_iff {hasher : TreeHasher} {xs : List Node} {tree : MerkleTree}
    (built : MerkleTree.fromLeaves hasher xs = .ok tree) (leaf : Node)
    : ∃ next path, tree.append leaf = .ok (xs.length, next)
        ∧ next.path xs.length = some path
        ∧ ((next.verifyPath leaf path next.root = true
            ↔ xs.length < 2 ^ treeDepth ∨ LastBlockRepeatsFirst hasher (xs ++ [leaf]))
          ∨ LevelCollision hasher (xs ++ [leaf])) := by
  obtain ⟨same, rebuilt, rep⟩ := fromLeaves_represents hasher xs
  cases built.symm.trans rebuilt
  obtain ⟨next, appended, rep⟩ := rep.append leaf
  have inside : xs.length < (xs ++ [leaf]).length := by simp
  obtain ⟨path, served, steps⟩ := rep.path inside
  refine ⟨next, path, appended, served, ?_⟩
  have verified := rep.verifyPath_iff inside steps
  rw [List.getElem_concat_length rfl] at verified
  rw [verified]
  by_cases collision : LevelCollision hasher (xs ++ [leaf])
  · exact Or.inr collision
  refine Or.inl ⟨fun equal => ?_, fun room => ?_⟩
  · refine Or.inr ?_
    intro j below
    have block := (hasher.scheme.block_binding equal).resolve_right collision j below
    simpa using block
  · rcases room with room | repeats
    · rw [Nat.div_eq_of_lt room]
    · refine hasher.scheme.node_eq_of_leaves (fun j below => ?_)
      simpa using repeats j below

theorem append_covered_iff_second
    : ∃ tree next path,
        MerkleTree.fromLeaves levelHasher [nodeAt 1 0] = .ok tree
        ∧ tree.append (nodeAt 2 0) = .ok (1, next)
        ∧ next.path 1 = some path
        ∧ (next.verifyPath (nodeAt 2 0) path next.root = true
          ∨ LevelCollision levelHasher [nodeAt 1 0, nodeAt 2 0]) := by
  obtain ⟨tree, built, _⟩ := fromLeaves_represents levelHasher [nodeAt 1 0]
  obtain ⟨next, path, appended, served, covered⟩ := append_covered_iff built (nodeAt 2 0)
  refine ⟨tree, next, path, built, appended, served, covered.imp_left ?_⟩
  intro verified
  exact verified.mpr (Or.inl (by simp [treeDepth]))

/-- The leaves of a tree filled up with padding values and appended to once more. -/
theorem leaf_overfull (i : Nat)
    : levelHasher.scheme.leaf (List.replicate (2 ^ treeDepth) (nodeAt 0 0) ++ [nodeAt 1 0]) i
      = nodeAt (if i = 2 ^ treeDepth then 1 else 0) 0 := by
  split
  next last =>
    rw [last, Scheme.leaf_of_lt _ (by simp), List.getElem_concat_length (by simp)]
  next other =>
    rw [Scheme.leaf_append_of_ne _ (by simpa using other), Scheme.leaf,
      List.getD_eq_getElem?_getD]
    exact List.getElem?_getD_replicate_default_eq _ _ _

/-- After as many padding values as the tree can hold, a leaf gets an index and a path that
does not verify.
-/
theorem leaf_past_capacity_not_covered
    : ∃ tree next path,
        MerkleTree.fromLeaves levelHasher (List.replicate (2 ^ treeDepth) (nodeAt 0 0)) = .ok tree
        ∧ tree.append (nodeAt 1 0) = .ok (2 ^ treeDepth, next)
        ∧ next.path (2 ^ treeDepth) = some path
        ∧ ¬ LevelCollision levelHasher
            (List.replicate (2 ^ treeDepth) (nodeAt 0 0) ++ [nodeAt 1 0])
        ∧ next.verifyPath (nodeAt 1 0) path next.root = false := by
  obtain ⟨tree, built, rep⟩ :=
    fromLeaves_represents levelHasher (List.replicate (2 ^ treeDepth) (nodeAt 0 0))
  obtain ⟨next, appended, rep⟩ := rep.append (nodeAt 1 0)
  rw [List.length_replicate] at appended
  obtain ⟨path, served, steps⟩ := rep.path (i := 2 ^ treeDepth) (by simp)
  refine ⟨tree, next, path, built, appended, served, ?_, ?_⟩
  · refine levelHasher_no_collision leaf_overfull leaf_overfull (fun i past => ?_)
    have other : i ≠ 2 ^ treeDepth := fun last => past (last ▸ Nat.dvd_refl _)
    simp [other]
  · have verified := rep.verifyPath_iff (by simp) steps
    rw [List.getElem_concat_length (by simp), Nat.div_self (Nat.two_pow_pos _),
      node_levelHasher leaf_overfull, node_levelHasher leaf_overfull] at verified
    rw [← Bool.not_eq_true, verified]
    intro same
    have small : treeDepth < 256 := by simp [treeDepth]
    have kinds := (nodeAt_injective small small same).1
    rw [if_pos (Nat.one_mul _), Nat.zero_mul, if_neg (Nat.two_pow_pos treeDepth).ne] at kinds
    exact absurd kinds (by decide)

end Attesta.Merkle
