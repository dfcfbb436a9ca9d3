import Attesta.Core.PathSoundness
import Attesta.Foundation.PaddedLevels

/-! Paths that are not as long as the tree is deep. `verify_path` folds whatever it is given,
and nothing tells a leaf from an internal node: a shorter path is accepted for the node it
starts at, a longer one for whatever hashes up to a leaf.
-/

namespace Attesta.Merkle

open PaddedTree

/-- The siblings of a path are those met in the tree on the way up from a node of a level. -/
def SiblingsFrom (hasher : TreeHasher) (xs : List Node) (height : Nat) (path : List PathElement)
    : Prop :=
  ∀ d (h : d < path.length),
    path[d].sibling = hasher.scheme.node xs (height + d) (pathIndex path / 2 ^ d ^^^ 1)

/-- A path of no more elements than the tree is deep starts at the node it says, as far below
the root as it is long, and walks up from there.
-/
def StartsAtNode (hasher : TreeHasher) (xs : List Node) (node : Node) (path : List PathElement)
    : Prop :=
  node = hasher.scheme.node xs (treeDepth - path.length) (pathIndex path)
    ∧ SiblingsFrom hasher xs (treeDepth - path.length) path

/-- A path of more elements than the tree is deep ends with the path of a leaf, and what comes
before hashes up to that leaf.
-/
def HashesToLeaf (hasher : TreeHasher) (xs : List Node) (node : Node) (path : List PathElement)
    : Prop :=
  hasher.scheme.climb node ((path.take (path.length - treeDepth)).map PathElement.step)
      = hasher.scheme.leaf xs (pathIndex (path.drop (path.length - treeDepth)))
    ∧ SiblingsFrom hasher xs 0 (path.drop (path.length - treeDepth))

theorem siblingsFrom_iff (hasher : TreeHasher) (xs : List Node) (height : Nat)
    (path : List PathElement)
    : SiblingsFrom hasher xs height path
      ↔ path.map PathElement.step
        = hasher.scheme.pathFrom xs height (pathIndex path) path.length := by
  constructor
  · intro siblings
    refine List.ext_getElem (by simp) (fun d left right => ?_)
    have inside : d < path.length := by simpa using left
    have side := testBit_pathIndex path d inside
    rw [Nat.testBit_eq_decide_div_mod_eq] at side
    simp only [List.getElem_map, Scheme.pathFrom, List.getElem_range, PathElement.step,
      siblings d inside, siblingIndex_eq_xor, Prod.mk.injEq, true_and]
    rcases Nat.mod_two_eq_zero_or_one (pathIndex path / 2 ^ d) with even | odd
    · simpa [even] using side
    · simpa [odd] using side
  · intro steps d inside
    have here := congrArg (fun steps => steps[d]?) steps
    simp only [Scheme.pathFrom, List.getElem?_map, List.getElem?_range inside,
      List.getElem?_eq_getElem inside, Option.map_some, Option.some.injEq] at here
    rw [siblingIndex_eq_xor]
    exact congrArg Prod.fst here

/-- A node and its own siblings hash up to the root of the tree. -/
theorem StartsAtNode.climb {hasher : TreeHasher} {xs : List Node} {node : Node}
    {path : List PathElement} (h : StartsAtNode hasher xs node path)
    (short : path.length ≤ treeDepth)
    : hasher.scheme.climb node (path.map PathElement.step) = hasher.scheme.root xs treeDepth := by
  obtain ⟨rfl, siblings⟩ := h
  rw [(siblingsFrom_iff _ _ _ _).mp siblings, Scheme.climb_pathFrom, Scheme.root,
    Nat.div_eq_of_lt (pathIndex_lt path), Nat.sub_add_cancel short]

/-- What hashes up to the root in no more steps than the tree is deep is a node of the tree. -/
theorem startsAtNode_of_climb {hasher : TreeHasher} {xs : List Node} {node : Node}
    {path : List PathElement} (short : path.length ≤ treeDepth)
    (climbed : hasher.scheme.climb node (path.map PathElement.step)
      = hasher.scheme.root xs treeDepth)
    : StartsAtNode hasher xs node path ∨ PathCollision hasher xs node path := by
  have depth : treeDepth - path.length + (path.map PathElement.step).length = treeDepth := by
    rw [List.length_map, Nat.sub_add_cancel short]
  rw [← depth] at climbed
  have bound := hasher.scheme.climb_from_binding climbed
  rw [depth, List.length_map] at bound
  refine bound.imp_left (fun honest => ⟨honest.1, ?_⟩)
  exact (siblingsFrom_iff _ _ _ _).mpr honest.2

/-- The verifier hashes along the rest of a path what it hashes along the whole. -/
theorem PathCollision.of_append {hasher : TreeHasher} {xs : List Node} {node : Node}
    {low high : List PathElement}
    (h : PathCollision hasher xs (hasher.scheme.climb node (low.map PathElement.step)) high)
    : PathCollision hasher xs node (low ++ high) := by
  obtain ⟨pair, inTree, climbed, hashed, differ⟩ := h
  refine ⟨pair, inTree, ?_, hashed, differ⟩
  rw [VerifierHashed, List.map_append]
  exact Scheme.Climbed.append_left _ climbed

-----------------------------------------------------------------------------------------
-- A hasher whose trees show no collision
-----------------------------------------------------------------------------------------

/-- A node of the given kind, so many levels above the leaves. -/
def nodeAt (kind : UInt8) (height : Nat) : Node :=
  ⟨kind :: UInt8.ofNat height :: List.replicate 30 0, rfl⟩

/-- A hasher for trees in which every right child is padding. A parent is of the kind of its
left child, one level up.
-/
def levelHasher : TreeHasher where
  hashPair left _ := ⟨left.bytes.modify 1 (· + 1), by rw [List.length_modify, left.size]⟩
  emptyLeaf := nodeAt 0 0

theorem levelHasher_hash (kind : UInt8) (height : Nat) (right : Node)
    : levelHasher.scheme.hash (nodeAt kind height) right = nodeAt kind (height + 1) := by
  apply Node.bytes_injective
  simp [TreeHasher.scheme, levelHasher, nodeAt, UInt8.ofNat_add]

theorem nodeAt_injective {kind kind' : UInt8} {height height' : Nat} (low : height < 256)
    (low' : height' < 256) (same : nodeAt kind height = nodeAt kind' height')
    : kind = kind' ∧ height = height' := by
  have bytes := congrArg Node.bytes same
  simp only [nodeAt, List.cons.injEq, and_true] at bytes
  refine ⟨bytes.1, ?_⟩
  have heights := congrArg UInt8.toNat bytes.2
  rwa [UInt8.toNat_ofNat_of_lt' low, UInt8.toNat_ofNat_of_lt' low'] at heights

/-- A node of such a tree is of the kind of the first leaf below it. -/
theorem node_levelHasher {xs : List Node} {kind : Nat → UInt8}
    (leaves : ∀ i, levelHasher.scheme.leaf xs i = nodeAt (kind i) 0) (depth i : Nat)
    : levelHasher.scheme.node xs depth i = nodeAt (kind (i * 2 ^ depth)) depth := by
  induction depth generalizing i with
  | zero => simpa using leaves i
  | succ depth ih =>
      have first : 2 * i * 2 ^ depth = i * 2 ^ (depth + 1) := by ring
      rw [Scheme.node_succ, ih, ih, first, levelHasher_hash]

/-- If all leaves of two lists are padding but the first ones of the blocks of `2 ^ treeDepth`
leaves, no two pairs of their trees collide.
-/
theorem levelHasher_no_collision {xs ys : List Node} {kind kind' : Nat → UInt8}
    (leaves : ∀ i, levelHasher.scheme.leaf xs i = nodeAt (kind i) 0)
    (leaves' : ∀ i, levelHasher.scheme.leaf ys i = nodeAt (kind' i) 0)
    (padding : ∀ i, ¬ 2 ^ treeDepth ∣ i → kind i = 0 ∧ kind' i = 0)
    : ¬ levelHasher.scheme.Collision (levelHasher.scheme.Pairs xs treeDepth)
        (levelHasher.scheme.Pairs ys treeDepth) := by
  rintro ⟨_, _, ⟨d, i, below, rfl⟩, ⟨e, k, below', rfl⟩, differ, same⟩
  have small : treeDepth ≤ 32 := by simp [treeDepth]
  have right (d i : Nat) (below : d < treeDepth)
      : kind ((2 * i + 1) * 2 ^ d) = 0 ∧ kind' ((2 * i + 1) * 2 ^ d) = 0 := by
    refine padding _ (fun divides => ?_)
    have half : 2 ^ (d + 1) ∣ (2 * i + 1) * 2 ^ d := (Nat.pow_dvd_pow 2 below).trans divides
    rw [Nat.pow_succ', Nat.mul_dvd_mul_iff_right (Nat.two_pow_pos d)] at half
    omega
  simp only [node_levelHasher leaves, node_levelHasher leaves', (right d i below).1,
    (right e k below').2] at differ same
  rw [levelHasher_hash, levelHasher_hash] at same
  obtain ⟨kinds, heights⟩ := nodeAt_injective (by omega) (by omega) same
  obtain rfl : d = e := by omega
  rw [kinds] at differ
  exact differ rfl

/-- What `verify_path` accepts, by the length of the path. A path no longer than the tree is
deep is accepted exactly for the node it leads up from: a leaf if it has full length, else an
internal node or the root. A longer one is accepted exactly if its last elements are the path
of a leaf that the first ones hash to. Otherwise the hash collides on a pair of the path and
one of the tree.
-/
theorem accepted_length_iff {hasher : TreeHasher} {xs : List Node} {tree : MerkleTree}
    (built : MerkleTree.fromLeaves hasher xs = .ok tree) (node : Node) (path : List PathElement)
    : (path.length ≤ treeDepth →
        (tree.verifyPath node path tree.root = true ↔ StartsAtNode hasher xs node path)
          ∨ PathCollision hasher xs node path)
      ∧ (treeDepth < path.length →
        (tree.verifyPath node path tree.root = true ↔ HashesToLeaf hasher xs node path)
          ∨ PathCollision hasher xs node path) := by
  obtain ⟨same, rebuilt, rep⟩ := fromLeaves_represents hasher xs
  cases built.symm.trans rebuilt
  have accepted (v : Node) (p : List PathElement) : tree.verifyPath v p tree.root = true
      ↔ hasher.scheme.climb v (p.map PathElement.step) = hasher.scheme.root xs treeDepth := by
    rw [MerkleTree.verifyPath_eq, rep.sameHasher, rep.root, beq_iff_eq]
  rw [accepted]
  by_cases collision : PathCollision hasher xs node path
  · exact ⟨fun _ => Or.inr collision, fun _ => Or.inr collision⟩
  refine ⟨fun short => Or.inl ?_, fun long => Or.inl ?_⟩
  · constructor
    · intro climbed
      exact (startsAtNode_of_climb short climbed).resolve_right collision
    · intro starts
      exact starts.climb short
  · have full : (path.drop (path.length - treeDepth)).length = treeDepth := by
      rw [List.length_drop]
      omega
    have leafHeight : treeDepth - (path.drop (path.length - treeDepth)).length = 0 := by omega
    have parts := List.take_append_drop (path.length - treeDepth) path
    have folded : hasher.scheme.climb node (path.map PathElement.step)
        = hasher.scheme.climb
            (hasher.scheme.climb node
              ((path.take (path.length - treeDepth)).map PathElement.step))
            ((path.drop (path.length - treeDepth)).map PathElement.step) := by
      rw [← Scheme.climb_append, ← List.map_append, parts]
    have leaf : HashesToLeaf hasher xs node path
        ↔ StartsAtNode hasher xs
            (hasher.scheme.climb node
              ((path.take (path.length - treeDepth)).map PathElement.step))
            (path.drop (path.length - treeDepth)) := by
      rw [HashesToLeaf, StartsAtNode, leafHeight, Scheme.node_zero]
    rw [folded, leaf]
    constructor
    · intro climbed
      refine (startsAtNode_of_climb full.le climbed).resolve_right (fun inRest => collision ?_)
      exact parts ▸ inRest.of_append
    · intro starts
      exact starts.climb full.le

theorem leaf_single (i : Nat)
    : levelHasher.scheme.leaf [nodeAt 1 0] i = nodeAt (if i = 0 then 1 else 0) 0 := by
  cases i with
  | zero => rfl
  | succ i => rfl

/-- The root presented with an empty path is accepted as if it were a commitment. -/
theorem root_accepted_as_commitment
    : ∃ tree, MerkleTree.fromLeaves levelHasher [nodeAt 1 0] = .ok tree
        ∧ tree.isEmpty = false
        ∧ ([] : List PathElement).length ≠ treeDepth
        ∧ ¬ levelHasher.scheme.Collision (levelHasher.scheme.Pairs [nodeAt 1 0] treeDepth)
            (levelHasher.scheme.Pairs [nodeAt 1 0] treeDepth)
        ∧ tree.verifyPath tree.root [] tree.root = true := by
  obtain ⟨tree, built, rep⟩ := fromLeaves_represents levelHasher [nodeAt 1 0]
  refine ⟨tree, built, rep.isEmpty, treeDepth_pos.ne, ?_, by simp [MerkleTree.verifyPath]⟩
  refine levelHasher_no_collision leaf_single leaf_single (fun i inside => ?_)
  have later : i ≠ 0 := fun zero => inside (zero ▸ Nat.dvd_zero _)
  simp [later]

theorem accepted_length_iff_root
    : ∃ tree, MerkleTree.fromLeaves levelHasher [nodeAt 1 0] = .ok tree
        ∧ ((tree.verifyPath tree.root [] tree.root = true
            ↔ StartsAtNode levelHasher [nodeAt 1 0] tree.root [])
          ∨ PathCollision levelHasher [nodeAt 1 0] tree.root []) := by
  obtain ⟨tree, built, rep⟩ := fromLeaves_represents levelHasher [nodeAt 1 0]
  exact ⟨tree, built, (accepted_length_iff built tree.root []).1 (Nat.zero_le _)⟩

end Attesta.Merkle
