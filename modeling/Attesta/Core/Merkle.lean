import Mathlib.Data.Nat.Bitwise
import Attesta.Foundation.PaddedTree

/-! The incremental commitment tree of `attesta-core`, with every internal level cached.
The outer vectors of the source never change their length, so they are fixed-size here;
indexing inside a level can fail and is modelled by `Panic`.
-/

namespace Attesta.Merkle

/-- `TREE_DEPTH`. Proofs never unfold it: a tree of this depth is too large to compute. -/
@[irreducible]
def treeDepth : Nat := 32

theorem treeDepth_pos : 0 < treeDepth := by simp [treeDepth]

/-- A 32-byte tree node, `[u8; 32]` in the source. -/
structure Node where
  bytes : List UInt8
  size : bytes.length = 32
  deriving DecidableEq

/-- `[0u8; 32]`. -/
def Node.zero : Node := ⟨List.replicate 32 0, rfl⟩

/-- `Vec<u8>` to `[u8; 32]`: only exactly 32 bytes convert. -/
def Node.ofBytes? (bytes : List UInt8) : Option Node :=
  if size : bytes.length = 32 then some ⟨bytes, size⟩ else none

@[simp]
theorem Node.ofBytes?_bytes (node : Node) : Node.ofBytes? node.bytes = some node := by
  simp [Node.ofBytes?, node.size]

theorem Node.bytes_of_ofBytes? {bytes : List UInt8} {node : Node}
    (h : Node.ofBytes? bytes = some node)
    : node.bytes = bytes := by
  unfold Node.ofBytes? at h
  split at h
  · rw [← Option.some.inj h]
  · cases h

theorem Node.bytes_injective {left right : Node} (h : left.bytes = right.bytes)
    : left = right := by
  cases left
  cases right
  cases h
  rfl

/-- The `TreeHasher` trait. Production swaps SHA-256 for the circuit hash behind it. -/
structure TreeHasher where
  hashPair : Node → Node → Node
  emptyLeaf : Node

/-- A hasher as the scheme of a padded tree. -/
def TreeHasher.scheme (hasher : TreeHasher) : PaddedTree.Scheme Node where
  hash := hasher.hashPair
  empty := hasher.emptyLeaf

/-- The placeholder hasher: one digest over the concatenated children, zero as empty leaf. -/
def sha256Hasher (sha256 : List UInt8 → Node) : TreeHasher where
  hashPair left right := sha256 (left.bytes ++ right.bytes)
  emptyLeaf := Node.zero

/-- A sibling on the path from a leaf to the root. -/
structure PathElement where
  sibling : Node
  /-- True if the sibling is on the right, so our node is a left child. -/
  siblingOnRight : Bool
  deriving DecidableEq

/-- `levels[0]` holds the leaves and `levels[d]` the populated nodes at depth `d`; nodes to
the right of the populated region are `zeros[d]` and never materialized.
-/
structure MerkleTree where
  hasher : TreeHasher
  levels : Vector (List Node) (treeDepth + 1)
  zeros : Vector Node (treeDepth + 1)

/-- The only way tree code can stop abnormally: an index past the end of a level. -/
inductive Panic
  | indexOutOfBounds
  deriving DecidableEq

/-- `xs[i]` of the source. -/
def index {α : Type} (xs : List α) (i : Nat) : Except Panic α :=
  match xs[i]? with
  | some x => .ok x
  | none => .error .indexOutOfBounds

/-- `xs[i] = x` of the source. -/
def indexSet {α : Type} (xs : List α) (i : Nat) (x : α) : Except Panic (List α) :=
  if i < xs.length then .ok (xs.set i x) else .error .indexOutOfBounds

/-- The end of an iteration of `append`: push the parent or overwrite its old value. -/
def placeParent (parents : List Node) (parentIdx : Nat) (parent : Node)
    : Except Panic (List Node) :=
  if parentIdx = parents.length then .ok (parents ++ [parent])
  else indexSet parents parentIdx parent

namespace MerkleTree

/-- The `zeros` table after `n` iterations of the loop in `new`. -/
def zerosUpTo (hasher : TreeHasher) : (n : Nat) → Vector Node (n + 1)
  | 0 => #v[hasher.emptyLeaf]
  | n + 1 =>
      let zeros := zerosUpTo hasher n
      let z := zeros.get ⟨n, Nat.lt_succ_self n⟩
      zeros.push (hasher.hashPair z z)

def new (hasher : TreeHasher) : MerkleTree where
  hasher
  levels := Vector.replicate (treeDepth + 1) []
  zeros := zerosUpTo hasher treeDepth

def len (tree : MerkleTree) : Nat := tree.levels[0].length

def isEmpty (tree : MerkleTree) : Bool := tree.levels[0].isEmpty

def root (tree : MerkleTree) : Node :=
  tree.levels[treeDepth].head?.getD tree.zeros[treeDepth]

/-- One iteration of the loop in `append`: rebuild the parent of `idx` at `depth + 1`. -/
def appendLevel (tree : MerkleTree) (idx depth : Nat) (h : depth < treeDepth)
    : Except Panic (MerkleTree × Nat) := do
  let parentIdx := idx / 2
  let left ← index tree.levels[depth] (2 * parentIdx)
  let right := tree.levels[depth][2 * parentIdx + 1]?.getD tree.zeros[depth]
  let parent := tree.hasher.hashPair left right
  let parents ← placeParent tree.levels[depth + 1] parentIdx parent
  pure ({ tree with levels := tree.levels.set (depth + 1) parents }, parentIdx)

/-- The loop in `append` after its first `n` iterations. -/
def appendLevels (tree : MerkleTree) (idx : Nat)
    : (n : Nat) → n ≤ treeDepth → Except Panic (MerkleTree × Nat)
  | 0, _ => .ok (tree, idx)
  | n + 1, h => do
      let (tree, idx) ← appendLevels tree idx n (Nat.le_of_succ_le h)
      appendLevel tree idx n h

/-- Append a leaf and update the cached ancestors up to the root. -/
def append (tree : MerkleTree) (leaf : Node) : Except Panic (Nat × MerkleTree) := do
  let index := tree.levels[0].length
  let tree := { tree with levels := tree.levels.set 0 (tree.levels[0] ++ [leaf]) }
  let (tree, _) ← appendLevels tree index treeDepth le_rfl
  pure (index, tree)

def fromLeaves (hasher : TreeHasher) (leaves : List Node) : Except Panic MerkleTree :=
  leaves.foldlM (fun tree leaf => (tree.append leaf).map Prod.snd) (new hasher)

/-- The loop in `path` after its first `n` iterations: the siblings so far and `idx`. -/
def pathLevels (tree : MerkleTree) (index : Nat)
    : (n : Nat) → n ≤ treeDepth → List PathElement × Nat
  | 0, _ => ([], index)
  | n + 1, h =>
      let (path, idx) := pathLevels tree index n (Nat.le_of_succ_le h)
      let sibling := tree.levels[n][idx ^^^ 1]?.getD tree.zeros[n]
      (path ++ [{ sibling, siblingOnRight := idx % 2 == 0 }], idx / 2)

/-- Merkle path, bottom-up siblings, for the leaf at `index`. -/
def path (tree : MerkleTree) (index : Nat) : Option (List PathElement) :=
  if index ≥ tree.levels[0].length then none
  else some (tree.pathLevels index treeDepth le_rfl).1

/-- Recompute the root from a leaf and its path. -/
def verifyPath (tree : MerkleTree) (leaf : Node) (path : List PathElement) (root : Node)
    : Bool :=
  path.foldl
    (fun node el =>
      if el.siblingOnRight then tree.hasher.hashPair node el.sibling
      else tree.hasher.hashPair el.sibling node) leaf
  == root

end MerkleTree

-----------------------------------------------------------------------------------------
-- The reference rebuild used by the source's tests
-----------------------------------------------------------------------------------------

/-- One level of `naive_root`: hash the level in chunks of two, padding a lone last node. -/
def naiveLevel (hasher : TreeHasher) (zero : Node) : List Node → List Node
  | [] => []
  | [left] => [hasher.hashPair left zero]
  | left :: right :: rest => hasher.hashPair left right :: naiveLevel hasher zero rest

/-- The loop of `naive_root` after `n` iterations; an error is its early return. -/
def naiveLevels (hasher : TreeHasher) (leaves : List Node)
    : (n : Nat) → n ≤ treeDepth → Except Node (List Node)
  | 0, _ => .ok leaves
  | n + 1, h => do
      let zeros := MerkleTree.zerosUpTo hasher treeDepth
      let level ← naiveLevels hasher leaves n (Nat.le_of_succ_le h)
      if level.isEmpty then throw zeros[treeDepth]
      else pure (naiveLevel hasher zeros[n] level)

/-- `naive_root` of the tests: a full rebuild, level by level. -/
def naiveRoot (hasher : TreeHasher) (leaves : List Node) : Except Panic Node :=
  match naiveLevels hasher leaves treeDepth le_rfl with
  | .error early => .ok early
  | .ok level => index level 0

end Attesta.Merkle
