import Attesta.Foundation.PaddedTree

/-! What appending does to the path of a leaf that is already there. A sibling is a subtree of
its own: it changes only while leaves arrive below it, so left siblings never change and right
ones are final once they are full.
-/

namespace PaddedTree.Scheme

variable {α : Type*} (S : Scheme α)

/-- A node whose leaves are all in the shorter list, or all past the longer one, is the same in
both.
-/
theorem node_of_prefix {xs ys : List α} (grows : xs <+: ys) {depth i : Nat}
    (apart : (i + 1) * 2 ^ depth ≤ xs.length ∨ ys.length ≤ i * 2 ^ depth)
    : S.node ys depth i = S.node xs depth i := by
  refine S.node_congr fun j below => ?_
  rcases apart with full | beyond
  · have inside : i * 2 ^ depth + j < xs.length := by
      rw [Nat.add_mul] at full
      omega
    rw [S.leaf_of_lt inside, S.leaf_of_lt (inside.trans_le grows.length_le),
      grows.getElem inside]
  · have shorter := grows.length_le
    rw [S.leaf_of_length_le (by omega), S.leaf_of_length_le (by omega)]

theorem getElem?_path (xs : List α) (i : Nat) {depth d : Nat} (below : d < depth)
    : (S.path xs i depth)[d]?
      = some (S.node xs d (siblingIndex (i / 2 ^ d)), i / 2 ^ d % 2 == 0) := by
  simp [path, below]

@[simp]
theorem length_path (xs : List α) (i depth : Nat) : (S.path xs i depth).length = depth := by
  simp [path]

/-- A left sibling covers only leaves before the leaf itself. -/
theorem left_sibling_full {i d : Nat} (left : i / 2 ^ d % 2 ≠ 0)
    : (siblingIndex (i / 2 ^ d) + 1) * 2 ^ d ≤ i := by
  have before : siblingIndex (i / 2 ^ d) + 1 = i / 2 ^ d := by
    generalize i / 2 ^ d = ancestor at left ⊢
    rw [siblingIndex, if_neg left]
    omega
  rw [before]
  exact Nat.div_mul_le_self i (2 ^ d)

/-- Siblings have one parent. -/
theorem siblingIndex_div_two (i : Nat) : siblingIndex i / 2 = i / 2 := by
  rw [siblingIndex]
  split <;> omega

theorem siblingIndex_ne (i : Nat) : siblingIndex i ≠ i := by
  rw [siblingIndex]
  split <;> omega

/-- Another leaf lies below a sibling on at most one level: on the higher levels the two leaves
have their ancestor in common.
-/
theorem level_unique {i n d e : Nat} (atD : siblingIndex (i / 2 ^ d) = n / 2 ^ d)
    (atE : siblingIndex (i / 2 ^ e) = n / 2 ^ e)
    : d = e := by
  have common {low high : Nat} (below : low < high)
      (atLow : siblingIndex (i / 2 ^ low) = n / 2 ^ low)
      : i / 2 ^ high = n / 2 ^ high := by
    have parents : i / 2 ^ low / 2 = n / 2 ^ low / 2 := by
      rw [← siblingIndex_div_two, atLow]
    have split : 2 ^ high = 2 ^ low * 2 * 2 ^ (high - (low + 1)) := by
      rw [← Nat.pow_succ, ← Nat.pow_add, Nat.add_sub_cancel' below]
    have climb (leaf : Nat)
        : leaf / 2 ^ high = leaf / 2 ^ low / 2 / 2 ^ (high - (low + 1)) := by
      rw [split, Nat.div_div_eq_div_mul, Nat.div_div_eq_div_mul, Nat.mul_assoc]
    rw [climb i, climb n, parents]
  rcases Nat.lt_trichotomy d e with below | same | above
  · exact absurd (atE.trans (common below atD).symm) (siblingIndex_ne _)
  · exact same
  · exact absurd (atD.trans (common above atE).symm) (siblingIndex_ne _)

/-- The path of a leaf after further leaves: a sibling is unchanged unless it stands on the
right, was not full, and some of the new leaves are below it.
-/
theorem path_of_prefix {xs ys : List α} (grows : xs <+: ys) {i : Nat} (inside : i < xs.length)
    {depth d : Nat} (below : d < depth)
    : (S.path ys i depth)[d]? = (S.path xs i depth)[d]?
      ∨ i / 2 ^ d % 2 = 0
        ∧ xs.length < (siblingIndex (i / 2 ^ d) + 1) * 2 ^ d
        ∧ siblingIndex (i / 2 ^ d) * 2 ^ d < ys.length := by
  by_cases apart : (siblingIndex (i / 2 ^ d) + 1) * 2 ^ d ≤ xs.length
      ∨ ys.length ≤ siblingIndex (i / 2 ^ d) * 2 ^ d
  · left
    rw [S.getElem?_path ys i below, S.getElem?_path xs i below, S.node_of_prefix grows apart]
  · right
    push Not at apart
    refine ⟨?_, apart.1, apart.2⟩
    by_contra left
    have full := left_sibling_full left
    omega

/-- One more leaf changes at most one sibling of a path. -/
theorem path_concat (xs : List α) (x : α) (i depth : Nat)
    : ∃ level, ∀ d < depth, d ≠ level
        → (S.path (xs ++ [x]) i depth)[d]? = (S.path xs i depth)[d]? := by
  have kept {d : Nat} (below : d < depth) (other : siblingIndex (i / 2 ^ d) ≠ xs.length / 2 ^ d)
      : (S.path (xs ++ [x]) i depth)[d]? = (S.path xs i depth)[d]? := by
    rw [S.getElem?_path _ i below, S.getElem?_path xs i below, S.node_append_of_ne other]
  by_cases met : ∃ level, siblingIndex (i / 2 ^ level) = xs.length / 2 ^ level
  · obtain ⟨level, here⟩ := met
    exact ⟨level, fun d below other =>
      kept below (fun there => other (level_unique there here))⟩
  · exact ⟨0, fun d below _ => kept below (fun there => met ⟨d, there⟩)⟩

end PaddedTree.Scheme
