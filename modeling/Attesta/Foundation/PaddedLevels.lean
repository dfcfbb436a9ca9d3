import Mathlib.Data.List.DropRight
import Attesta.Foundation.PaddedTree

/-! Levels and blocks of a padded tree. The populated nodes of a level are the leaves of a tree
of their own, and a block of leaves is a list of its own; so what is known about roots holds of
every node, and of lists that have outgrown the tree.
-/

namespace PaddedTree.Scheme

variable {α : Type*} (S : Scheme α)

-----------------------------------------------------------------------------------------
-- Leaves without the padding at the end
-----------------------------------------------------------------------------------------

section Trim

variable [DecidableEq α]

/-- Taking the padding values off the end of a list changes no leaf. -/
theorem leaf_rdropWhile (xs : List α) (i : Nat)
    : S.leaf (xs.rdropWhile (· = S.empty)) i = S.leaf xs i := by
  induction xs using List.reverseRecOn with
  | nil => rfl
  | append_singleton xs x ih =>
      by_cases padding : x = S.empty
      · rw [List.rdropWhile_concat_pos _ _ _ (by simpa using padding), ih]
        by_cases last : i = xs.length
        · rw [S.leaf_of_length_le (by omega), last, S.leaf_of_lt (by simp)]
          simp [padding]
        · exact (S.leaf_append_of_ne last).symm
      · rw [List.rdropWhile_concat_neg _ _ _ (by simpa using padding)]

/-- What is left ends with a leaf that can be told from padding, so it is no longer than any
other list with the same leaves.
-/
theorem length_rdropWhile_le {xs ys : List α} (same : ∀ i, S.leaf xs i = S.leaf ys i)
    : (xs.rdropWhile (· = S.empty)).length ≤ ys.length := by
  by_contra longer
  have some_left : xs.rdropWhile (· = S.empty) ≠ [] :=
    List.ne_nil_of_length_pos (Nat.lt_of_le_of_lt (Nat.zero_le _) (not_le.mp longer))
  have last := List.rdropWhile_last_not _ _ some_left
  refine last (decide_eq_true ?_)
  have positive := List.length_pos_of_ne_nil some_left
  rw [List.getLast_eq_getElem, ← S.leaf_of_lt, S.leaf_rdropWhile, same,
    S.leaf_of_length_le (by omega)]

/-- Lists with the same leaves differ only in the padding values at their ends. -/
theorem rdropWhile_eq {xs ys : List α} (same : ∀ i, S.leaf xs i = S.leaf ys i)
    : xs.rdropWhile (· = S.empty) = ys.rdropWhile (· = S.empty) := by
  have trimmed (i : Nat) : S.leaf (xs.rdropWhile (· = S.empty)) i
      = S.leaf (ys.rdropWhile (· = S.empty)) i := by
    rw [S.leaf_rdropWhile, S.leaf_rdropWhile, same]
  have le := S.length_rdropWhile_le fun i => (same i).trans (S.leaf_rdropWhile ys i).symm
  have ge := S.length_rdropWhile_le fun i => (same i).symm.trans (S.leaf_rdropWhile xs i).symm
  refine List.ext_getElem (le.antisymm ge) (fun i left right => ?_)
  rw [← S.leaf_of_lt left, ← S.leaf_of_lt right, trimmed]

end Trim

-----------------------------------------------------------------------------------------
-- A level as a tree of its own
-----------------------------------------------------------------------------------------

/-- The scheme of the tree whose leaves are the nodes of a level. -/
def level (base : Nat) : Scheme α where
  hash := S.hash
  empty := S.emptyRoot base

@[simp]
theorem climb_level (base : Nat) (value : α) (path : List (α × Bool))
    : (S.level base).climb value path = S.climb value path :=
  rfl

/-- A node above a level is a node over the populated nodes of the level. -/
theorem node_level (xs : List α) (base depth i : Nat)
    : (S.level base).node (S.populated xs base) depth i = S.node xs (base + depth) i := by
  induction depth generalizing i with
  | zero =>
      rw [node_zero, leaf, List.getD_eq_getElem?_getD]
      exact S.getD_populated xs base i
  | succ depth ih =>
      rw [node_succ, ih, ih, ← Nat.add_assoc, node_succ]
      rfl

theorem leaf_level (xs : List α) (base i : Nat)
    : (S.level base).leaf (S.populated xs base) i = S.node xs base i := by
  rw [← node_zero, node_level, Nat.add_zero]

/-- The siblings met on the way up from node `i` of a level, bottom first. -/
def pathFrom (xs : List α) (base i depth : Nat) : List (α × Bool) :=
  (List.range depth).map
    (fun d => (S.node xs (base + d) (siblingIndex (i / 2 ^ d)), i / 2 ^ d % 2 == 0))

theorem path_level (xs : List α) (base i depth : Nat)
    : (S.level base).path (S.populated xs base) i depth = S.pathFrom xs base i depth := by
  simp only [path, pathFrom, node_level]

@[simp]
theorem length_pathFrom (xs : List α) (base i depth : Nat)
    : (S.pathFrom xs base i depth).length = depth := by
  simp [pathFrom]

/-- Climbing from a node of a level along its siblings yields its ancestor. -/
theorem climb_pathFrom (xs : List α) (base i depth : Nat)
    : S.climb (S.node xs base i) (S.pathFrom xs base i depth)
      = S.node xs (base + depth) (i / 2 ^ depth) := by
  have climbed := (S.level base).climb_path (S.populated xs base) i depth
  rwa [leaf_level, path_level, climb_level, node_level] at climbed

/-- What is hashed above a level is hashed in the tree. -/
theorem Hashed.of_level {xs : List α} {base depth : Nat} {pair : α × α}
    (h : (S.level base).Hashed (S.populated xs base) depth pair)
    : S.Hashed xs (base + depth) pair := by
  obtain ⟨d, i, below, inside, rfl⟩ := h
  refine ⟨base + d, i, by omega, ?_, by rw [node_level, node_level]⟩
  rwa [Nat.add_sub_add_left]

/-- A path no longer than the tree is deep that verifies against the root is the path of the
node at its position, as far below the root as the path is long, or exhibits a collision.
-/
theorem climb_from_binding {xs : List α} {value : α} {path : List (α × Bool)} {base : Nat}
    (h : S.climb value path = S.root xs (base + path.length))
    : (value = S.node xs base (position path)
        ∧ path = S.pathFrom xs base (position path) path.length)
      ∨ S.Collision (S.Climbed value path) (S.Hashed xs (base + path.length)) := by
  have top : (S.level base).climb value path
      = (S.level base).root (S.populated xs base) path.length := by
    rw [climb_level, h, root, root, node_level]
  rcases (S.level base).root_climb_binding top with honest | collision
  · rw [leaf_level, path_level] at honest
    exact Or.inl honest
  · obtain ⟨left, right, climbed, hashed, differ⟩ := collision
    exact Or.inr ⟨left, right, climbed, Hashed.of_level S hashed, differ⟩

/-- What is hashed along the rest of a path is hashed along the whole. -/
theorem Climbed.append_left {value : α} {low high : List (α × Bool)} {pair : α × α}
    (h : S.Climbed (S.climb value low) high pair)
    : S.Climbed value (low ++ high) pair := by
  obtain ⟨d, inside, rfl⟩ := h
  refine ⟨low.length + d, by simpa using inside, ?_⟩
  rw [List.take_length_add_append, climb_append, List.getElem_append_right (by omega)]
  simp only [Nat.add_sub_cancel_left]

-----------------------------------------------------------------------------------------
-- A block of leaves as a list of its own
-----------------------------------------------------------------------------------------

/-- The pairs hashed for the nodes up to a depth, whatever block they belong to. -/
def Pairs (xs : List α) (depth : Nat) (pair : α × α) : Prop :=
  ∃ d i, d < depth ∧ pair = (S.node xs d (2 * i), S.node xs d (2 * i + 1))

theorem Hashed.pairs {xs : List α} {depth : Nat} {pair : α × α} (h : S.Hashed xs depth pair)
    : S.Pairs xs depth pair := by
  obtain ⟨d, i, below, _, same⟩ := h
  exact ⟨d, i, below, same⟩

theorem leaf_drop (xs : List α) (n i : Nat) : S.leaf (xs.drop n) i = S.leaf xs (n + i) := by
  simp only [leaf, List.getD_eq_getElem?_getD, List.getElem?_drop]

theorem node_drop (xs : List α) (n depth i : Nat)
    : S.node (xs.drop (n * 2 ^ depth)) depth i = S.node xs depth (n + i) := by
  simp only [node, leaf_drop, Nat.add_mul, Nat.add_assoc]

theorem Pairs.of_drop {xs : List α} {n depth : Nat} {pair : α × α}
    (h : S.Hashed (xs.drop (n * 2 ^ depth)) depth pair)
    : S.Pairs xs depth pair := by
  obtain ⟨d, i, below, _, rfl⟩ := h
  have width : n * 2 ^ depth = 2 * (n * 2 ^ (depth - (d + 1))) * 2 ^ d := by
    rw [Nat.mul_comm 2, Nat.mul_assoc, Nat.mul_assoc, ← Nat.pow_succ', ← Nat.pow_add,
      show depth - (d + 1) + (d + 1) = depth by omega]
  refine ⟨d, n * 2 ^ (depth - (d + 1)) + i, below, ?_⟩
  rw [width, node_drop, node_drop, Nat.mul_add, Nat.add_assoc]

/-- Two nodes of one depth with the same leaves below them are equal. -/
theorem node_eq_of_leaves {xs ys : List α} {depth i k : Nat}
    (h : ∀ j < 2 ^ depth, S.leaf xs (i * 2 ^ depth + j) = S.leaf ys (k * 2 ^ depth + j))
    : S.node xs depth i = S.node ys depth k :=
  S.subtree_congr h

/-- Equal nodes have equal leaves below them, wherever they stand, or exhibit a collision. -/
theorem block_binding {xs ys : List α} {depth i k : Nat}
    (h : S.node xs depth i = S.node ys depth k)
    : (∀ j < 2 ^ depth, S.leaf xs (i * 2 ^ depth + j) = S.leaf ys (k * 2 ^ depth + j))
      ∨ S.Collision (S.Pairs xs depth) (S.Pairs ys depth) := by
  have same : S.node (xs.drop (i * 2 ^ depth)) depth 0
      = S.node (ys.drop (k * 2 ^ depth)) depth 0 := by
    simpa only [node_drop, Nat.add_zero] using h
  rcases S.node_binding le_rfl (by simp) same with below | collision
  · exact Or.inl (fun j inside => by simpa [leaf_drop] using below j inside)
  · obtain ⟨left, right, first, second, differ⟩ := collision
    exact Or.inr ⟨left, right, Pairs.of_drop S first, Pairs.of_drop S second, differ⟩

end PaddedTree.Scheme
