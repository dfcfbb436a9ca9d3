import Attesta.Api.RootHistory
import Attesta.Core.PathLength
import Attesta.Core.RootBinding

/-! When the root of a pool changes. A leaf that equals the padding value leaves the root as it
was, and the history then has the same root for two leaf counts; no other leaf does.
-/

namespace Attesta.Api.TreeService

open Attesta.Merkle Attesta.Indexer

/-- A leaf of the pool between two leaf counts is not a padding value. -/
def RealLeafBetween (hasher : TreeHasher) (db : Db) (pool : String) (first last : Int) : Prop :=
  ∃ (k : Nat) (leaf : Leaf), first ≤ k ∧ (k : Int) < last ∧ leaf? db pool k = some leaf
    ∧ leaf.node ≠ hasher.emptyLeaf

/-- Two prefixes of the stored leaves of a pool whose trees hash different pairs to one node. -/
def PrefixCollision (hasher : TreeHasher) (db : Db) (pool : String) : Prop :=
  ∃ longer shorter, LeafPrefix db pool longer ∧ LeafPrefix db pool shorter
    ∧ TreeCollision hasher (longer.map Leaf.node) (shorter.map Leaf.node)

/-- Two rows of the history of a pool hold different roots exactly if a leaf between them is not
a padding value.
-/
theorem DbSound.roots_ne_iff {hasher : TreeHasher} {db : Db} (sound : DbSound hasher db)
    {earlier later : TreeRootRow} (first : earlier ∈ db.treeRoots) (second : later ∈ db.treeRoots)
    (samePool : later.pool = earlier.pool) (more : earlier.leafCount < later.leafCount)
    (capacity : later.leafCount ≤ 2 ^ treeDepth)
    : (later.root ≠ earlier.root
        ↔ RealLeafBetween hasher db earlier.pool earlier.leafCount later.leafCount)
      ∨ PrefixCollision hasher db earlier.pool := by
  obtain ⟨xs, x, shorter, shortCount, shortRoot, _⟩ := sound.exists_leaves first
  obtain ⟨ys, y, longer, longCount, longRoot, _⟩ := sound.exists_leaves second
  rw [samePool] at longer
  have shortLength : ((xs ++ [x]).length : Int) = earlier.leafCount := by simp [shortCount]
  have longLength : ((ys ++ [y]).length : Int) = later.leafCount := by simp [longCount]
  generalize xs ++ [x] = short at shorter shortRoot shortLength
  generalize ys ++ [y] = long at longer longRoot longLength
  have older : short <+: long := by
    have taken := shorter.eq_take longer (by omega)
    exact taken ▸ List.take_prefix _ _
  have room : (long.map Leaf.node).length ≤ 2 ^ treeDepth := by
    rw [List.length_map]
    exact_mod_cast longLength ▸ capacity
  have moved := root_ne_iff hasher (older.map Leaf.node) room
  have nodes : later.root ≠ earlier.root
      ↔ hasher.scheme.root (long.map Leaf.node) treeDepth
        ≠ hasher.scheme.root (short.map Leaf.node) treeDepth := by
    rw [longRoot, shortRoot, ← rootOf, ← rootOf]
    exact not_congr ⟨Node.bytes_injective, congrArg Node.bytes⟩
  have added : (∃ i, ∃ h : i < (long.map Leaf.node).length,
        (short.map Leaf.node).length ≤ i ∧ (long.map Leaf.node)[i] ≠ hasher.emptyLeaf)
      ↔ RealLeafBetween hasher db earlier.pool earlier.leafCount later.leafCount := by
    constructor
    · rintro ⟨i, inside, new, other⟩
      rw [List.length_map] at inside new
      rw [List.getElem_map] at other
      exact ⟨i, long[i], by omega, by omega, longer i inside, other⟩
    · rintro ⟨i, leaf, new, below, found, other⟩
      have inside : i < long.length := by omega
      obtain rfl := Option.some.inj (found.symm.trans (longer i inside))
      refine ⟨i, by simpa using inside, by rw [List.length_map]; omega, ?_⟩
      rwa [List.getElem_map]
  rw [nodes, ← added]
  exact moved.imp_right (fun collision => ⟨long, short, longer, shorter, collision⟩)

/-- When the root changes. An append changes the root of a tree with room exactly if the leaf is
not the padding value; and in every state of every run, two rows of a pool's root history have
different roots exactly if a leaf between their leaf counts is not a padding value; unless the
hash collides on pairs of the two trees.
-/
theorem root_changes_iff (codec : Codec) (hasher : TreeHasher)
    : (∀ (xs : List Node) (tree : MerkleTree) (leaf : Node),
        MerkleTree.fromLeaves hasher xs = .ok tree → xs.length < 2 ^ treeDepth
        → ∃ next, tree.append leaf = .ok (xs.length, next)
          ∧ ((next.root ≠ tree.root ↔ leaf ≠ hasher.emptyLeaf)
            ∨ TreeCollision hasher (xs ++ [leaf]) xs))
      ∧ ∀ (actions : List Action) (s : State),
        Machine.run (step codec hasher) State.init actions = some s
        → ∀ earlier ∈ s.db.treeRoots, ∀ later ∈ s.db.treeRoots,
          later.pool = earlier.pool → earlier.leafCount < later.leafCount
          → later.leafCount ≤ 2 ^ treeDepth
          → (later.root ≠ earlier.root
              ↔ RealLeafBetween hasher s.db earlier.pool earlier.leafCount later.leafCount)
            ∨ PrefixCollision hasher s.db earlier.pool := by
  constructor
  · intro xs tree leaf built room
    obtain ⟨same, rebuilt, rep⟩ := fromLeaves_represents hasher xs
    cases built.symm.trans rebuilt
    exact rep.append_root_ne_iff room leaf
  · intro actions s ran earlier first later second samePool more capacity
    exact (run_sound ran).db.roots_ne_iff first second samePool more capacity

theorem root_changes_one_leaf
    : ∃ tree next, MerkleTree.fromLeaves sampleHasher [sampleLeaf 0] = .ok tree
        ∧ tree.append (sampleLeaf 1) = .ok (1, next)
        ∧ (next.root ≠ tree.root
          ∨ TreeCollision sampleHasher [sampleLeaf 0, sampleLeaf 1] [sampleLeaf 0]) := by
  obtain ⟨tree, built, _⟩ := fromLeaves_represents sampleHasher [sampleLeaf 0]
  obtain ⟨next, appended, moved⟩ := (root_changes_iff (sampleCodec 2) sampleHasher).1
    [sampleLeaf 0] tree (sampleLeaf 1) built (by simp [treeDepth])
  exact ⟨tree, next, built, appended, moved.imp_left (fun iff => iff.mpr (by decide))⟩

/-- The payload of a leaf event without a public amount. -/
def leafPayload (leaf : Node) (i : Nat) : String :=
  "\x7b\"commitment\":\"" ++ Hex.hex0x leaf ++ "\",\"leaf_index\":" ++ toString i ++ "\x7d"

/-- The contract appends a leaf and then the padding value of the tree. -/
def paddedLeaves : List Node := [nodeAt 1 0, nodeAt 0 0]

def paddedCodec : Codec :=
  .plainText
    (paddedLeaves.zipIdx.map (fun leaf =>
      (leafPayload leaf.1 leaf.2, ⟨Hex.hex0x leaf.1, leaf.2, none, none⟩)))
    []

/-- Both events are stored, and a request makes the tree of both. -/
def paddedRun : List Action :=
  paddedLeaves.zipIdx.map (fun leaf =>
      .store "CPOOL" (sampleEvent "new_commitment" (leafPayload leaf.1 leaf.2) 42) 1)
    ++ [.request 0 (liveRequest "CPOOL") .ok, .insert 0 .ok]

/-- The append of a padding value changes nothing, and the history of the pool has the root of
one leaf again for two.
-/
theorem padding_leaf_repeats_root
    : (∃ tree next, MerkleTree.fromLeaves levelHasher [nodeAt 1 0] = .ok tree
        ∧ tree.append (nodeAt 0 0) = .ok (1, next)
        ∧ ¬ TreeCollision levelHasher paddedLeaves [nodeAt 1 0]
        ∧ next.root = tree.root)
      ∧ ∃ s, Machine.run (step paddedCodec levelHasher) State.init paddedRun = some s
        ∧ ∃ earlier ∈ s.db.treeRoots, ∃ later ∈ s.db.treeRoots,
          earlier.pool = later.pool ∧ earlier.leafCount = 1 ∧ later.leafCount = 2
          ∧ later.root = earlier.root := by
  constructor
  · obtain ⟨tree, built, rep⟩ := fromLeaves_represents levelHasher [nodeAt 1 0]
    obtain ⟨next, appended, nextRep⟩ := rep.append (nodeAt 0 0)
    have leaves (i : Nat) : levelHasher.scheme.leaf paddedLeaves i
        = nodeAt (if i = 0 then 1 else 0) 0 := by
      rcases i with _ | _ | i
      · rfl
      · rfl
      · rfl
    refine ⟨tree, next, built, appended, ?_, ?_⟩
    · rintro ⟨left, right, first, second, differ⟩
      refine levelHasher_no_collision leaves leaf_single (fun i inside => ?_)
        ⟨left, right, first.pairs, second.pairs, differ⟩
      have later : i ≠ 0 := fun zero => inside (zero ▸ Nat.dvd_zero _)
      simp [later]
    · rw [nextRep.root, rep.root]
      exact levelHasher.scheme.root_congr (fun i => (leaves i).trans (leaf_single i).symm)
  · have observed
        : (Machine.run (step paddedCodec levelHasher) State.init paddedRun).map
            (fun s => s.db.treeRoots)
          = some [⟨"CPOOL", 1, (nodeAt 1 32).bytes, 42⟩,
              ⟨"CPOOL", 2, (nodeAt 1 32).bytes, 42⟩] := by
      decide +kernel
    obtain ⟨s, ran, rows⟩ := Option.map_eq_some_iff.mp observed
    refine ⟨s, ran, ⟨"CPOOL", 1, (nodeAt 1 32).bytes, 42⟩, by rw [rows]; simp,
      ⟨"CPOOL", 2, (nodeAt 1 32).bytes, 42⟩, by rw [rows]; simp, rfl, rfl, rfl, rfl⟩

end Attesta.Api.TreeService
