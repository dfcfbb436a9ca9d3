import Attesta.Core.MerkleRefinement

/-! What an accepted path proves. The siblings and the sides of the path are the prover's; a
path that reaches the served root can still only be the path of one leaf, unless the hash
collides on a pair that the path and the tree exhibit.
-/

namespace Attesta.Merkle

open PaddedTree

theorem PathElement.step_injective : Function.Injective PathElement.step := by
  intro left right same
  cases left
  cases right
  cases same
  rfl

/-- The leaf position the sides of a path point to: bit `d` is set exactly when the sibling of
that level is not on the right.
-/
def pathIndex (path : List PathElement) : Nat := Scheme.position (path.map PathElement.step)

theorem pathIndex_lt (path : List PathElement) : pathIndex path < 2 ^ path.length := by
  simpa [pathIndex] using Scheme.position_lt (path.map PathElement.step)

theorem testBit_pathIndex (path : List PathElement) (d : Nat) (h : d < path.length)
    : (pathIndex path).testBit d = !path[d].siblingOnRight := by
  rw [pathIndex, Scheme.testBit_position _ d (by simpa using h), List.getElem_map]
  rfl

/-- The pairs that `verify_path` hashes on its way up from a leaf. -/
def VerifierHashed (hasher : TreeHasher) (leaf : Node) (path : List PathElement)
    : Node × Node → Prop :=
  hasher.scheme.Climbed leaf (path.map PathElement.step)

/-- Two different pairs of nodes with one hash, one hashed by the verifier along the path and
one hashed in the reference tree over the leaves.
-/
def PathCollision (hasher : TreeHasher) (xs : List Node) (leaf : Node)
    (path : List PathElement)
    : Prop :=
  ∃ climbed inTree, VerifierHashed hasher leaf path climbed
    ∧ hasher.scheme.Hashed xs treeDepth inTree
    ∧ climbed ≠ inTree
    ∧ hasher.hashPair climbed.1 climbed.2 = hasher.hashPair inTree.1 inTree.2

/-- An accepted path is the one the tree itself walks from the leaf at the path's position. -/
theorem MerkleTree.Represents.path_of_verifyPath {tree : MerkleTree} {hasher : TreeHasher}
    {xs : List Node} (rep : tree.Represents hasher xs) {leaf : Node} {path : List PathElement}
    (full : path.length = treeDepth) (verified : tree.verifyPath leaf path tree.root = true)
    : (leaf = hasher.scheme.leaf xs (pathIndex path)
        ∧ path = (tree.pathLevels (pathIndex path) treeDepth le_rfl).1)
      ∨ PathCollision hasher xs leaf path := by
  have steps : (path.map PathElement.step).length = treeDepth := by rw [List.length_map, full]
  rw [MerkleTree.verifyPath_eq, rep.sameHasher, rep.root, beq_iff_eq, ← steps] at verified
  have bound := hasher.scheme.root_climb_binding verified
  rw [steps] at bound
  refine bound.imp_left (fun honest => ⟨honest.1, ?_⟩)
  have walked := (rep.pathLevels (pathIndex path) treeDepth le_rfl).1
  exact List.map_injective_iff.mpr PathElement.step_injective (honest.2.trans walked.symm)

/-- Path soundness up to collisions: a path of full depth that verifies against the root of
the tree over `xs` proves the leaf at the index its sides spell, or padding if the index is
past the leaves, and has the siblings the tree gives for that index; otherwise the hash has a
collision between a pair hashed along the path and a pair of the reference tree.
-/
theorem verified_path_sound {hasher : TreeHasher} {xs : List Node} {tree : MerkleTree}
    (built : MerkleTree.fromLeaves hasher xs = .ok tree) {leaf : Node}
    {path : List PathElement} (full : path.length = treeDepth)
    (verified : tree.verifyPath leaf path tree.root = true)
    : (∃ i, i < 2 ^ treeDepth
        ∧ (∀ d (h : d < path.length), i.testBit d = !path[d].siblingOnRight)
        ∧ leaf = xs.getD i hasher.emptyLeaf
        ∧ (∀ d (h : d < path.length),
            path[d].sibling = hasher.scheme.node xs d (i / 2 ^ d ^^^ 1))
        ∧ (i < xs.length → tree.path i = some path))
      ∨ PathCollision hasher xs leaf path := by
  obtain ⟨same, rebuilt, rep⟩ := fromLeaves_represents hasher xs
  cases built.symm.trans rebuilt
  refine (rep.path_of_verifyPath full verified).imp_left (fun honest => ?_)
  refine ⟨pathIndex path, full ▸ pathIndex_lt path, testBit_pathIndex path, honest.1, ?_, ?_⟩
  · intro d h
    have walked := (rep.pathLevels (pathIndex path) treeDepth le_rfl).1
    rw [← honest.2] at walked
    have here := congrArg (fun steps => steps[d]?) walked
    have inside : d < treeDepth := full ▸ h
    simp only [Scheme.path, List.getElem?_map, List.getElem?_range inside,
      List.getElem?_eq_getElem h, Option.map_some, Option.some.injEq] at here
    rw [siblingIndex_eq_xor]
    exact congrArg Prod.fst here
  · intro stored
    have length : tree.levels[0].length = xs.length := rep.len
    rw [MerkleTree.path, if_neg (by omega), ← honest.2]

theorem verified_path_sound_two
    : ∃ tree path,
        MerkleTree.fromLeaves (sha256Hasher (fun _ => ⟨List.replicate 32 1, rfl⟩))
            [⟨List.replicate 32 7, rfl⟩, ⟨List.replicate 32 9, rfl⟩]
          = .ok tree
        ∧ tree.path 1 = some path
        ∧ ((∃ i : Nat, ∀ d (h : d < path.length), i.testBit d = !path[d].siblingOnRight)
          ∨ PathCollision (sha256Hasher (fun _ => ⟨List.replicate 32 1, rfl⟩))
              [⟨List.replicate 32 7, rfl⟩, ⟨List.replicate 32 9, rfl⟩]
              ⟨List.replicate 32 9, rfl⟩ path) := by
  obtain ⟨tree, built, rep⟩ :=
    fromLeaves_represents (sha256Hasher (fun _ => ⟨List.replicate 32 1, rfl⟩))
      [⟨List.replicate 32 7, rfl⟩, ⟨List.replicate 32 9, rfl⟩]
  obtain ⟨path, served, steps⟩ := rep.path (i := 1) (by decide)
  have full : path.length = treeDepth := by
    simpa [Scheme.path] using congrArg List.length steps
  have verified := rep.verifyPath (by simp [treeDepth]) (i := 1) (by decide) steps
  have sound := verified_path_sound built full verified
  refine ⟨tree, path, built, served, sound.imp_left ?_⟩
  intro honest
  obtain ⟨i, _, sides, _⟩ := honest
  exact ⟨i, sides⟩

/-- Two different leaves with accepted paths of the same sides exhibit a collision. -/
theorem leaves_of_same_sides {hasher : TreeHasher} {xs : List Node} {tree : MerkleTree}
    (rep : tree.Represents hasher xs) {left right : Node} {leftPath rightPath : List PathElement}
    (leftFull : leftPath.length = treeDepth) (rightFull : rightPath.length = treeDepth)
    (leftVerified : tree.verifyPath left leftPath tree.root = true)
    (rightVerified : tree.verifyPath right rightPath tree.root = true)
    (sides : pathIndex leftPath = pathIndex rightPath)
    : left = right ∨ PathCollision hasher xs left leftPath
      ∨ PathCollision hasher xs right rightPath := by
  rcases rep.path_of_verifyPath leftFull leftVerified with leftHonest | collision
  · rcases rep.path_of_verifyPath rightFull rightVerified with rightHonest | collision
    · exact Or.inl (by rw [leftHonest.1, rightHonest.1, sides])
    · exact Or.inr (Or.inr collision)
  · exact Or.inr (Or.inl collision)

end Attesta.Merkle
