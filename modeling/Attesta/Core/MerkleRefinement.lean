import Mathlib.Data.List.Induction
import Attesta.Core.Merkle

/-! The incremental tree refines the padded reference tree over the appended leaves.
One append changes one node per level; the loop invariant separates the levels that already
contain the new leaf from those that do not.
-/

namespace Attesta.Merkle

open PaddedTree

/-- The cached levels and the table of empty roots are those of the padded leaf list. -/
structure MerkleTree.Represents (tree : MerkleTree) (hasher : TreeHasher) (xs : List Node)
    : Prop where
  sameHasher : tree.hasher = hasher
  levels : ∀ d (h : d < treeDepth + 1), tree.levels[d] = hasher.scheme.populated xs d
  zeros : ∀ d (h : d < treeDepth + 1), tree.zeros[d] = hasher.scheme.emptyRoot d

theorem zerosUpTo_getElem (hasher : TreeHasher) (n d : Nat) (h : d < n + 1)
    : (MerkleTree.zerosUpTo hasher n)[d] = hasher.scheme.emptyRoot d := by
  induction n generalizing d with
  | zero =>
      have first : d = 0 := by omega
      subst first
      rfl
  | succ n ih =>
      simp only [MerkleTree.zerosUpTo, Vector.getElem_push]
      split
      next earlier => exact ih d earlier
      next last =>
        have final : d = n + 1 := by omega
        subst final
        change hasher.hashPair (MerkleTree.zerosUpTo hasher n)[n] (MerkleTree.zerosUpTo hasher n)[n]
          = hasher.scheme.emptyRoot (n + 1)
        rw [ih n (by omega)]
        rfl

theorem new_represents (hasher : TreeHasher) : (MerkleTree.new hasher).Represents hasher [] where
  sameHasher := rfl
  levels d h := by simp [MerkleTree.new]
  zeros d h := zerosUpTo_getElem hasher treeDepth d h

-----------------------------------------------------------------------------------------
-- One append
-----------------------------------------------------------------------------------------

/-- The state of the loop in `append` after `n` iterations on a tree that held `xs`: the
levels up to `n` already count the new leaf, the ones above do not yet.
-/
structure AppendedUpTo (hasher : TreeHasher) (xs : List Node) (leaf : Node) (n : Nat)
    (tree : MerkleTree) (idx : Nat)
    : Prop where
  sameHasher : tree.hasher = hasher
  position : idx = xs.length / 2 ^ n
  done : ∀ d (h : d < treeDepth + 1), d ≤ n →
    tree.levels[d] = hasher.scheme.populated (xs ++ [leaf]) d
  pending : ∀ d (h : d < treeDepth + 1), n < d →
    tree.levels[d] = hasher.scheme.populated xs d
  zeros : ∀ d (h : d < treeDepth + 1), tree.zeros[d] = hasher.scheme.emptyRoot d

/-- Placing the rebuilt ancestor turns a level of `xs` into that level of the longer list. -/
theorem placeParent_populated (hasher : TreeHasher) (xs : List Node) (leaf : Node) (d : Nat)
    : placeParent (hasher.scheme.populated xs d) (xs.length / 2 ^ d)
        (hasher.scheme.node (xs ++ [leaf]) d (xs.length / 2 ^ d))
      = .ok (hasher.scheme.populated (xs ++ [leaf]) d) := by
  have bound := Scheme.div_le_populatedCount xs.length d
  rw [placeParent, hasher.scheme.populated_append xs leaf d]
  split
  next => rfl
  next taken =>
    rw [Scheme.length_populated] at taken
    rw [indexSet, Scheme.length_populated, if_pos (by omega)]

/-- One iteration never indexes out of bounds and moves the boundary up by one level. The
left child always exists because the new leaf lies below the rebuilt parent.
-/
theorem AppendedUpTo.appendLevel {hasher : TreeHasher} {xs : List Node} {leaf : Node} {n : Nat}
    {tree : MerkleTree} {idx : Nat} (inv : AppendedUpTo hasher xs leaf n tree idx)
    (h : n < treeDepth)
    : ∃ next, tree.appendLevel idx n h = .ok (next, idx / 2)
        ∧ AppendedUpTo hasher xs leaf (n + 1) next (idx / 2) := by
  have parentPosition : idx / 2 = xs.length / 2 ^ (n + 1) := by
    rw [inv.position, Nat.div_div_eq_div_mul, Nat.pow_succ]
  have level := inv.done n (by omega) le_rfl
  have parents := inv.pending (n + 1) (by omega) (Nat.lt_succ_self n)
  have below : 2 * (idx / 2) * 2 ^ n < (xs ++ [leaf]).length := by
    have floor := Nat.div_mul_le_self xs.length (2 ^ (n + 1))
    have regroup : 2 * (idx / 2) * 2 ^ n = xs.length / 2 ^ (n + 1) * 2 ^ (n + 1) := by
      rw [parentPosition]
      ring
    simp only [List.length_append, List.length_singleton]
    omega
  have left : index tree.levels[n] (2 * (idx / 2))
      = .ok (hasher.scheme.node (xs ++ [leaf]) n (2 * (idx / 2))) := by
    simp only [index, level, hasher.scheme.getElem?_populated below]
  have parent : tree.hasher.hashPair (hasher.scheme.node (xs ++ [leaf]) n (2 * (idx / 2)))
        (tree.levels[n][2 * (idx / 2) + 1]?.getD tree.zeros[n])
      = hasher.scheme.node (xs ++ [leaf]) (n + 1) (idx / 2) := by
    rw [inv.sameHasher, level, inv.zeros n (by omega), hasher.scheme.getD_populated,
      hasher.scheme.node_succ]
    rfl
  have rebuilt : placeParent tree.levels[n + 1] (idx / 2)
        (hasher.scheme.node (xs ++ [leaf]) (n + 1) (idx / 2))
      = .ok (hasher.scheme.populated (xs ++ [leaf]) (n + 1)) := by
    rw [parents, parentPosition]
    exact placeParent_populated hasher xs leaf (n + 1)
  refine ⟨
    { tree with
      levels := tree.levels.set (n + 1) (hasher.scheme.populated (xs ++ [leaf]) (n + 1)) },
    ?_,
    ?_
  ⟩
  · simp only [MerkleTree.appendLevel, left, parent, rebuilt, bind, Except.bind, pure,
      Except.pure]
  · refine ⟨inv.sameHasher, parentPosition, ?_, ?_, inv.zeros⟩
    · intro d hd reached
      rw [Vector.getElem_set]
      split
      next same => rw [same]
      next other => exact inv.done d hd (by omega)
    · intro d hd above
      rw [Vector.getElem_set, if_neg (by omega)]
      exact inv.pending d hd (by omega)

/-- The loop of `append`, by induction on the number of iterations. -/
theorem AppendedUpTo.appendLevels {hasher : TreeHasher} {xs : List Node} {leaf : Node}
    {tree : MerkleTree} (start : AppendedUpTo hasher xs leaf 0 tree xs.length) (n : Nat)
    (h : n ≤ treeDepth)
    : ∃ next idx, tree.appendLevels xs.length n h = .ok (next, idx)
        ∧ AppendedUpTo hasher xs leaf n next idx := by
  induction n with
  | zero => exact ⟨tree, xs.length, rfl, start⟩
  | succ n ih =>
      obtain ⟨middle, idx, run, inv⟩ := ih (Nat.le_of_succ_le h)
      obtain ⟨next, step, inv⟩ := inv.appendLevel h
      refine ⟨next, idx / 2, ?_, inv⟩
      simp only [MerkleTree.appendLevels, run, bind, Except.bind, step]

theorem MerkleTree.Represents.len {tree : MerkleTree} {hasher : TreeHasher} {xs : List Node}
    (rep : tree.Represents hasher xs)
    : tree.len = xs.length := by
  simp [MerkleTree.len, rep.levels 0 (by omega)]

theorem MerkleTree.Represents.isEmpty {tree : MerkleTree} {hasher : TreeHasher} {xs : List Node}
    (rep : tree.Represents hasher xs)
    : tree.isEmpty = xs.isEmpty := by
  simp [MerkleTree.isEmpty, rep.levels 0 (by omega)]

/-- The leaves and the hasher determine the whole tree. -/
theorem MerkleTree.Represents.eq {left right : MerkleTree} {hasher : TreeHasher}
    {xs : List Node}
    (hl : left.Represents hasher xs) (hr : right.Represents hasher xs)
    : left = right := by
  have levels : left.levels = right.levels :=
    Vector.ext fun d h => (hl.levels d h).trans (hr.levels d h).symm
  have zeros : left.zeros = right.zeros :=
    Vector.ext fun d h => (hl.zeros d h).trans (hr.zeros d h).symm
  have hashers := hl.sameHasher.trans hr.sameHasher.symm
  cases left
  cases right
  congr

/-- An append never panics, returns the old length and represents the longer list. -/
theorem MerkleTree.Represents.append {tree : MerkleTree} {hasher : TreeHasher} {xs : List Node}
    (rep : tree.Represents hasher xs) (leaf : Node)
    : ∃ next, tree.append leaf = .ok (xs.length, next)
        ∧ next.Represents hasher (xs ++ [leaf]) := by
  have leaves := rep.levels 0 (by omega)
  rw [hasher.scheme.populated_zero] at leaves
  have start : AppendedUpTo hasher xs leaf 0
      { tree with levels := tree.levels.set 0 (tree.levels[0] ++ [leaf]) } xs.length := by
    refine ⟨rep.sameHasher, by simp, ?_, ?_, rep.zeros⟩
    · intro d hd bottom
      have zero : d = 0 := by omega
      subst zero
      simp [leaves]
    · intro d hd above
      rw [Vector.getElem_set, if_neg (by omega)]
      exact rep.levels d hd
  obtain ⟨next, idx, run, inv⟩ := start.appendLevels treeDepth le_rfl
  refine ⟨next, ?_, inv.sameHasher, fun d hd => inv.done d hd (by omega), inv.zeros⟩
  simp only [MerkleTree.append, leaves] at run ⊢
  simp only [run, bind, Except.bind, pure, Except.pure]

/-- `from_leaves` never panics, by induction on the leaves from the right. -/
theorem fromLeaves_represents (hasher : TreeHasher) (xs : List Node)
    : ∃ tree, MerkleTree.fromLeaves hasher xs = .ok tree ∧ tree.Represents hasher xs := by
  induction xs using List.reverseRecOn with
  | nil => exact ⟨MerkleTree.new hasher, rfl, new_represents hasher⟩
  | append_singleton xs leaf ih =>
      obtain ⟨tree, built, rep⟩ := ih
      obtain ⟨next, step, rep⟩ := rep.append leaf
      refine ⟨next, ?_, rep⟩
      rw [MerkleTree.fromLeaves, List.foldlM_append, ← MerkleTree.fromLeaves, built]
      simp only [List.foldlM_cons, List.foldlM_nil, bind, Except.bind, step]
      rfl

/-- `root` is the reference root; leaves past the capacity of the tree do not reach it. -/
theorem MerkleTree.Represents.root {tree : MerkleTree} {hasher : TreeHasher} {xs : List Node}
    (rep : tree.Represents hasher xs)
    : tree.root = hasher.scheme.root xs treeDepth := by
  have top := rep.levels treeDepth (by omega)
  have zero := rep.zeros treeDepth (by omega)
  rw [MerkleTree.root, top, zero, List.head?_eq_getElem?, hasher.scheme.getD_populated]
  rfl

theorem naiveLevel_getD (hasher : TreeHasher) (zero fallback : Node) (level : List Node)
    (i : Nat) (h : 2 * i < level.length)
    : (naiveLevel hasher zero level)[i]?.getD fallback
      = hasher.hashPair (level[2 * i]?.getD fallback) (level[2 * i + 1]?.getD zero) := by
  induction level using naiveLevel.induct generalizing i with
  | case1 => simp at h
  | case2 left =>
      have first : i = 0 := by simpa using h
      simp [naiveLevel, first]
  | case3 left right rest ih =>
      cases i with
      | zero => simp [naiveLevel]
      | succ i =>
          have inside : 2 * i < rest.length := by
            simp only [List.length_cons] at h
            omega
          simpa [naiveLevel, Nat.mul_succ] using ih i inside

theorem naiveLevel_length (hasher : TreeHasher) (zero : Node) (level : List Node)
    : (naiveLevel hasher zero level).length = (level.length + 1) / 2 := by
  induction level using naiveLevel.induct with
  | case1 => simp [naiveLevel]
  | case2 left => simp [naiveLevel]
  | case3 left right rest ih =>
      simp only [naiveLevel, List.length_cons, ih]
      omega

/-- Hashing a populated level in chunks of two gives the next populated level. -/
theorem naiveLevel_populated (hasher : TreeHasher) (xs : List Node) (d : Nat)
    : naiveLevel hasher (hasher.scheme.emptyRoot d) (hasher.scheme.populated xs d)
      = hasher.scheme.populated xs (d + 1) := by
  have lengths : (naiveLevel hasher (hasher.scheme.emptyRoot d)
      (hasher.scheme.populated xs d)).length = (hasher.scheme.populated xs (d + 1)).length := by
    rw [naiveLevel_length, Scheme.length_populated, Scheme.length_populated,
      Scheme.populatedCount_succ_depth]
  apply List.ext_getElem lengths
  intro i left right
  have inside : 2 * i < (hasher.scheme.populated xs d).length := by
    rw [Scheme.length_populated, Scheme.populatedCount_succ_depth] at right
    rw [Scheme.length_populated]
    omega
  have value := naiveLevel_getD hasher (hasher.scheme.emptyRoot d) (hasher.scheme.emptyRoot d)
    (hasher.scheme.populated xs d) i inside
  rw [hasher.scheme.getD_populated, hasher.scheme.getD_populated] at value
  rw [List.getElem?_eq_getElem left, Option.getD_some] at value
  rw [value]
  simp only [Scheme.populated, List.getElem_map, List.getElem_range, hasher.scheme.node_succ]
  rfl

/-- On the empty list the naive loop returns early in its first iteration. -/
theorem naiveLevels_nil (hasher : TreeHasher) {n : Nat} (positive : 0 < n) (h : n ≤ treeDepth)
    : naiveLevels hasher [] n h = .error (hasher.scheme.emptyRoot treeDepth) := by
  induction n with
  | zero => cases positive
  | succ n ih =>
      rw [naiveLevels]
      cases n with
      | zero =>
          simp only [naiveLevels, bind, Except.bind, List.isEmpty_nil, if_true,
            zerosUpTo_getElem]
          rfl
      | succ n =>
          rw [ih (Nat.succ_pos n)]
          rfl

/-- On a nonempty list the naive loop walks the populated levels and never returns early. -/
theorem naiveLevels_eq (hasher : TreeHasher) {xs : List Node} (nonempty : xs ≠ []) (n : Nat)
    (h : n ≤ treeDepth)
    : naiveLevels hasher xs n h = .ok (hasher.scheme.populated xs n) := by
  induction n with
  | zero => simp [naiveLevels]
  | succ n ih =>
      have positive : 0 < xs.length := List.length_pos_iff.mpr nonempty
      have some := Scheme.lt_populatedCount.mpr (by simpa using positive : 0 * 2 ^ n < xs.length)
      have inhabited : (hasher.scheme.populated xs n).isEmpty = false := by
        rw [List.isEmpty_eq_false_iff, ← List.length_pos_iff, Scheme.length_populated]
        exact some
      rw [naiveLevels, ih (Nat.le_of_succ_le h)]
      simp only [bind, Except.bind, inhabited, Bool.false_eq_true, if_false,
        zerosUpTo_getElem, naiveLevel_populated]
      rfl

theorem index_populated_top (hasher : TreeHasher) {xs : List Node} (positive : 0 < xs.length)
    : index (hasher.scheme.populated xs treeDepth) 0 = .ok (hasher.scheme.root xs treeDepth) := by
  have covered : 0 * 2 ^ treeDepth < xs.length := by rwa [Nat.zero_mul]
  rw [index, hasher.scheme.getElem?_populated covered, Scheme.root]

/-- The naive rebuild of the tests computes the reference root, also for the empty list. -/
theorem naiveRoot_eq (hasher : TreeHasher) (xs : List Node)
    : naiveRoot hasher xs = .ok (hasher.scheme.root xs treeDepth) := by
  unfold naiveRoot
  cases xs with
  | nil =>
      have early := naiveLevels_nil hasher treeDepth_pos le_rfl
      rw [early]
      simp
  | cons head tail =>
      have levels := naiveLevels_eq hasher (List.cons_ne_nil head tail) treeDepth le_rfl
      rw [levels]
      exact index_populated_top hasher (Nat.succ_pos _)

theorem siblingIndex_eq_xor (i : Nat) : i ^^^ 1 = Scheme.siblingIndex i := by
  rw [Scheme.siblingIndex]
  split
  next even => exact Nat.xor_one_of_even (Nat.even_iff.mpr even)
  next odd => exact Nat.xor_one_of_odd (Nat.odd_iff.mpr (by omega))

/-- A path element as a step of the reference climb. -/
def PathElement.step (el : PathElement) : Node × Bool := (el.sibling, el.siblingOnRight)

/-- The loop of `path` collects the reference siblings of the leaf, level by level. -/
theorem MerkleTree.Represents.pathLevels {tree : MerkleTree} {hasher : TreeHasher}
    {xs : List Node} (rep : tree.Represents hasher xs) (i n : Nat) (h : n ≤ treeDepth)
    : (tree.pathLevels i n h).1.map PathElement.step = hasher.scheme.path xs i n
      ∧ (tree.pathLevels i n h).2 = i / 2 ^ n := by
  induction n with
  | zero => simp [MerkleTree.pathLevels, Scheme.path]
  | succ n ih =>
      obtain ⟨steps, position⟩ := ih (Nat.le_of_succ_le h)
      constructor
      · rw [Scheme.path_succ, ← steps]
        simp only [MerkleTree.pathLevels, List.map_append, List.map_singleton,
          PathElement.step, position, rep.levels n (by omega), rep.zeros n (by omega),
          hasher.scheme.getD_populated, siblingIndex_eq_xor]
      · simp only [MerkleTree.pathLevels, position, Nat.div_div_eq_div_mul, Nat.pow_succ]

theorem MerkleTree.Represents.path_eq_none_iff {tree : MerkleTree} {hasher : TreeHasher}
    {xs : List Node} (rep : tree.Represents hasher xs) (i : Nat)
    : tree.path i = none ↔ xs.length ≤ i := by
  have length : tree.levels[0].length = xs.length := rep.len
  simp [MerkleTree.path, length]

theorem MerkleTree.Represents.path {tree : MerkleTree} {hasher : TreeHasher} {xs : List Node}
    (rep : tree.Represents hasher xs) {i : Nat} (inside : i < xs.length)
    : ∃ path, tree.path i = some path
        ∧ path.map PathElement.step = hasher.scheme.path xs i treeDepth := by
  have length : tree.levels[0].length = xs.length := rep.len
  refine ⟨(tree.pathLevels i treeDepth le_rfl).1, ?_, (rep.pathLevels i treeDepth le_rfl).1⟩
  rw [MerkleTree.path, if_neg (by omega)]

/-- `verify_path` compares the reference climb along the path with the given root. -/
theorem MerkleTree.verifyPath_eq (tree : MerkleTree) (leaf : Node) (path : List PathElement)
    (root : Node)
    : tree.verifyPath leaf path root
      = (tree.hasher.scheme.climb leaf (path.map PathElement.step) == root) := by
  simp only [MerkleTree.verifyPath, Scheme.climb, List.foldl_map]
  rfl

/-- The path served for a leaf verifies against the served root while the tree has room. -/
theorem MerkleTree.Represents.verifyPath {tree : MerkleTree} {hasher : TreeHasher}
    {xs : List Node} (rep : tree.Represents hasher xs) (capacity : xs.length ≤ 2 ^ treeDepth)
    {i : Nat} (inside : i < xs.length) {path : List PathElement}
    (steps : path.map PathElement.step = hasher.scheme.path xs i treeDepth)
    : tree.verifyPath xs[i] path tree.root = true := by
  have climbed := hasher.scheme.climb_path xs i treeDepth
  rw [hasher.scheme.leaf_of_lt inside, Nat.div_eq_of_lt (by omega)] at climbed
  rw [MerkleTree.verifyPath_eq, steps, rep.sameHasher, climbed, rep.root, Scheme.root]
  exact beq_self_eq_true _

-----------------------------------------------------------------------------------------
-- Main results
-----------------------------------------------------------------------------------------

/-- The incremental tree agrees with a full rebuild after every sequence of appends: no index
is out of bounds, each level holds the roots of its populated subtrees, and the served root
is the padded reference root and what `naive_root` computes.
-/
theorem appends_refine_rebuild (hasher : TreeHasher) (xs : List Node)
    : ∃ tree, MerkleTree.fromLeaves hasher xs = .ok tree
        ∧ (∀ d (h : d < treeDepth + 1),
            tree.levels[d].length = (xs.length + 2 ^ d - 1) / 2 ^ d
            ∧ ∀ i (hi : i < tree.levels[d].length),
                tree.levels[d][i] = hasher.scheme.node xs d i)
        ∧ tree.root = hasher.scheme.root xs treeDepth
        ∧ naiveRoot hasher xs = .ok tree.root := by
  obtain ⟨tree, built, rep⟩ := fromLeaves_represents hasher xs
  refine ⟨tree, built, ?_, rep.root, ?_⟩
  · intro d h
    constructor
    · rw [rep.levels d h, Scheme.length_populated, Scheme.populatedCount]
    · intro i hi
      simp only [rep.levels d h, Scheme.populated, List.getElem_map, List.getElem_range]
  · rw [rep.root, naiveRoot_eq]

/-- Every stored leaf has a path of full depth whose flags are the negated bits of its index
and whose siblings are the neighbouring reference roots; the path verifies against the root.
-/
theorem served_path_complete (hasher : TreeHasher) (xs : List Node)
    (capacity : xs.length ≤ 2 ^ treeDepth)
    : ∃ tree, MerkleTree.fromLeaves hasher xs = .ok tree
        ∧ ∀ i, (tree.path i = none ↔ xs.length ≤ i)
          ∧ ∀ inside : i < xs.length,
              ∃ path, tree.path i = some path
                ∧ path.length = treeDepth
                ∧ (∀ d (h : d < treeDepth), ∃ el, path[d]? = some el
                    ∧ el.siblingOnRight = !i.testBit d
                    ∧ el.sibling = hasher.scheme.node xs d (i / 2 ^ d ^^^ 1)
                    ∧ (xs.length ≤ (i / 2 ^ d ^^^ 1) * 2 ^ d → el.sibling = tree.zeros[d]))
                ∧ tree.verifyPath xs[i] path tree.root = true := by
  obtain ⟨tree, built, rep⟩ := fromLeaves_represents hasher xs
  refine ⟨tree, built, fun i => ⟨rep.path_eq_none_iff i, fun inside => ?_⟩⟩
  obtain ⟨path, served, steps⟩ := rep.path inside
  have length : path.length = treeDepth := by
    simpa [Scheme.path] using congrArg List.length steps
  refine ⟨path, served, length, ?_, rep.verifyPath capacity inside steps⟩
  intro d h
  have within : d < path.length := by omega
  have step : path[d].step
      = (hasher.scheme.node xs d (Scheme.siblingIndex (i / 2 ^ d)), i / 2 ^ d % 2 == 0) := by
    have both := congrArg (fun steps => steps[d]?) steps
    simpa [Scheme.path, within, h] using both
  obtain ⟨sibling, side⟩ := Prod.mk.inj step
  rw [← siblingIndex_eq_xor] at sibling
  refine ⟨path[d], List.getElem?_eq_getElem within, ?_, sibling, ?_⟩
  · rw [side, Nat.testBit_eq_decide_div_mod_eq]
    rcases Nat.mod_two_eq_zero_or_one (i / 2 ^ d) with even | odd
    · simp [even]
    · simp [odd]
  · intro past
    rw [sibling, rep.zeros d (by omega), hasher.scheme.node_of_length_le past]

theorem served_path_complete_two
    : ∃ tree path,
        MerkleTree.fromLeaves (sha256Hasher (fun _ => ⟨List.replicate 32 1, rfl⟩))
            [⟨List.replicate 32 7, rfl⟩, ⟨List.replicate 32 9, rfl⟩]
          = .ok tree
        ∧ tree.path 1 = some path
        ∧ tree.verifyPath ⟨List.replicate 32 9, rfl⟩ path tree.root = true := by
  obtain ⟨tree, built, paths⟩ :=
    served_path_complete (sha256Hasher (fun _ => ⟨List.replicate 32 1, rfl⟩))
      [⟨List.replicate 32 7, rfl⟩, ⟨List.replicate 32 9, rfl⟩] (by simp [treeDepth])
  obtain ⟨path, served, _, _, verified⟩ := (paths 1).2 (by decide)
  exact ⟨tree, path, built, served, verified⟩

end Attesta.Merkle
