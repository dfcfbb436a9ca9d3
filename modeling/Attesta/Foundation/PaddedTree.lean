import Mathlib.Data.List.Basic
import Mathlib.Data.List.GetD
import Mathlib.Data.List.Induction
import Mathlib.Tactic.Linarith
import Mathlib.Tactic.Ring

/-! Binary hash trees over a list of leaves padded on the right with one fixed value.
A node is addressed by its depth above the leaves and its position inside that level.
The hash and the leaf type are arbitrary, so any append-only commitment tree can use this.
-/

namespace PaddedTree

/-- The two choices a padded tree depends on: how a parent is computed from its children
and which value stands at every position past the last leaf.
-/
structure Scheme (α : Type*) where
  hash : α → α → α
  empty : α

namespace Scheme

variable {α : Type*} (S : Scheme α)

/-- Root of a subtree of the given depth that holds no leaf at all. -/
def emptyRoot : Nat → α
  | 0 => S.empty
  | depth + 1 => S.hash (emptyRoot depth) (emptyRoot depth)

/-- Root of the perfect tree of the given depth over `leaves 0, ..., leaves (2 ^ depth - 1)`. -/
def subtree : Nat → (Nat → α) → α
  | 0, leaves => leaves 0
  | depth + 1, leaves =>
      S.hash (subtree depth leaves) (subtree depth (fun j => leaves (2 ^ depth + j)))

/-- The leaf at an index, where `xs` is padded on the right with `S.empty`. -/
def leaf (xs : List α) (i : Nat) : α := xs.getD i S.empty

/-- Root of the depth-`depth` subtree over leaves `i * 2 ^ depth` up to
`(i + 1) * 2 ^ depth - 1` of the padded list.
-/
def node (xs : List α) (depth i : Nat) : α :=
  S.subtree depth (fun j => S.leaf xs (i * 2 ^ depth + j))

/-- Root of the whole padded tree of the given depth. -/
def root (xs : List α) (depth : Nat) : α := S.node xs depth 0

/-- A subtree depends only on its own leaves, by induction on the depth. -/
theorem subtree_congr {depth : Nat} {f g : Nat → α} (h : ∀ j < 2 ^ depth, f j = g j)
    : S.subtree depth f = S.subtree depth g := by
  induction depth generalizing f g with
  | zero => exact h 0 (by simp)
  | succ depth ih =>
      have double : 2 ^ (depth + 1) = 2 ^ depth + 2 ^ depth := by ring
      have left := ih (fun j hj => h j (by omega))
      have right := ih (f := fun j => f (2 ^ depth + j)) (g := fun j => g (2 ^ depth + j))
        (fun j hj => h (2 ^ depth + j) (by omega))
      simp only [subtree, left, right]

/-- A subtree of padding is the empty root of its depth. -/
@[simp]
theorem subtree_empty (depth : Nat) : S.subtree depth (fun _ => S.empty) = S.emptyRoot depth := by
  induction depth with
  | zero => rfl
  | succ depth ih => simp only [subtree, emptyRoot, ih]

@[simp]
theorem leaf_of_length_le {xs : List α} {i : Nat} (h : xs.length ≤ i) : S.leaf xs i = S.empty :=
  List.getD_eq_default _ _ h

theorem leaf_of_lt {xs : List α} {i : Nat} (h : i < xs.length) : S.leaf xs i = xs[i] :=
  List.getD_eq_getElem _ _ h

@[simp]
theorem node_zero (xs : List α) (i : Nat) : S.node xs 0 i = S.leaf xs i := by
  simp [node, subtree]

/-- A parent hashes its two children, by splitting the leaf range in halves. -/
theorem node_succ (xs : List α) (depth i : Nat)
    : S.node xs (depth + 1) i
      = S.hash (S.node xs depth (2 * i)) (S.node xs depth (2 * i + 1)) := by
  have left : i * 2 ^ (depth + 1) = 2 * i * 2 ^ depth := by ring
  have right (j : Nat) : 2 * i * 2 ^ depth + (2 ^ depth + j) = (2 * i + 1) * 2 ^ depth + j := by
    ring
  simp only [node, subtree, left, right]

/-- Two lists with the same padded leaves below a node have the same node. -/
theorem node_congr {xs ys : List α} {depth i : Nat}
    (h : ∀ j < 2 ^ depth, S.leaf xs (i * 2 ^ depth + j) = S.leaf ys (i * 2 ^ depth + j))
    : S.node xs depth i = S.node ys depth i :=
  S.subtree_congr h

/-- A node that lies wholly past the last leaf is an empty root. -/
theorem node_of_length_le {xs : List α} {depth i : Nat} (h : xs.length ≤ i * 2 ^ depth)
    : S.node xs depth i = S.emptyRoot depth := by
  rw [← S.subtree_empty depth]
  exact S.subtree_congr (fun j _ => S.leaf_of_length_le (by omega))

@[simp]
theorem root_nil (depth : Nat) : S.root [] depth = S.emptyRoot depth :=
  S.node_of_length_le (by simp)

-----------------------------------------------------------------------------------------
-- Appending one leaf touches one node of every level
-----------------------------------------------------------------------------------------

theorem leaf_append_of_ne {xs : List α} {x : α} {i : Nat} (h : i ≠ xs.length)
    : S.leaf (xs ++ [x]) i = S.leaf xs i := by
  simp only [leaf, List.getD_eq_getElem?_getD]
  rcases Nat.lt_or_gt_of_ne h with before | after
  · rw [List.getElem?_append_left before]
  · rw [List.getElem?_eq_none (by simpa using Nat.succ_le_of_lt after),
      List.getElem?_eq_none (Nat.le_of_lt after)]

/-- Every node except the ancestor of the new leaf keeps its value. -/
theorem node_append_of_ne {xs : List α} {x : α} {depth i : Nat} (h : i ≠ xs.length / 2 ^ depth)
    : S.node (xs ++ [x]) depth i = S.node xs depth i := by
  apply S.node_congr
  intro j hj
  apply S.leaf_append_of_ne
  intro same
  apply h
  rw [← same, Nat.mul_comm, Nat.mul_add_div (Nat.two_pow_pos depth), Nat.div_eq_of_lt hj,
    Nat.add_zero]

/-- Number of nodes of a level that have at least one real leaf below them. -/
def populatedCount (n depth : Nat) : Nat := (n + 2 ^ depth - 1) / 2 ^ depth

theorem lt_populatedCount {n depth i : Nat} : i < populatedCount n depth ↔ i * 2 ^ depth < n := by
  have positive := Nat.two_pow_pos depth
  rw [populatedCount, Nat.lt_iff_add_one_le, Nat.le_div_iff_mul_le positive, Nat.add_mul]
  omega

@[simp]
theorem populatedCount_zero_depth (n : Nat) : populatedCount n 0 = n := by simp [populatedCount]

@[simp]
theorem populatedCount_zero (depth : Nat) : populatedCount 0 depth = 0 :=
  Nat.eq_zero_of_not_pos (fun h => by simpa using lt_populatedCount.mp h)

/-- Each level has half as many populated nodes as the one below, rounded up. -/
theorem populatedCount_succ_depth (n depth : Nat)
    : populatedCount n (depth + 1) = (populatedCount n depth + 1) / 2 := by
  have characterize (i : Nat)
      : i < populatedCount n (depth + 1) ↔ 2 * i < populatedCount n depth := by
    rw [lt_populatedCount, lt_populatedCount, Nat.pow_succ]
    constructor <;> intro h <;> linarith
  have last := characterize (populatedCount n (depth + 1) - 1)
  have next := characterize (populatedCount n (depth + 1))
  omega

/-- The ancestor of the next leaf is either the last populated node or the next free one. -/
theorem div_le_populatedCount (n depth : Nat) : n / 2 ^ depth ≤ populatedCount n depth := by
  by_contra hlt
  have below := Nat.div_mul_le_self n (2 ^ depth)
  have above := mt lt_populatedCount.mpr (lt_irrefl (populatedCount n depth))
  have step : (populatedCount n depth + 1) * 2 ^ depth ≤ n / 2 ^ depth * 2 ^ depth :=
    Nat.mul_le_mul_right _ (by omega)
  have positive := Nat.two_pow_pos depth
  rw [Nat.add_mul] at step
  omega

/-- One more leaf populates one more node exactly when its ancestor was still free. -/
theorem populatedCount_succ (n depth : Nat)
    : populatedCount (n + 1) depth
      = if n / 2 ^ depth = populatedCount n depth then populatedCount n depth + 1
        else populatedCount n depth := by
  have positive := Nat.two_pow_pos depth
  have characterize (i : Nat) : i < populatedCount (n + 1) depth ↔ i ≤ n / 2 ^ depth := by
    rw [lt_populatedCount, Nat.lt_succ_iff, Nat.le_div_iff_mul_le positive]
  have bound := div_le_populatedCount n depth
  have last := characterize (n / 2 ^ depth)
  have next := characterize (n / 2 ^ depth + 1)
  have grows : populatedCount n depth ≤ populatedCount (n + 1) depth :=
    Nat.div_le_div_right (by omega)
  split <;> omega

/-- The materialized nodes of one level: those with at least one real leaf below them. -/
def populated (xs : List α) (depth : Nat) : List α :=
  (List.range (populatedCount xs.length depth)).map (S.node xs depth)

@[simp]
theorem length_populated (xs : List α) (depth : Nat)
    : (S.populated xs depth).length = populatedCount xs.length depth := by
  simp [populated]

@[simp]
theorem populated_nil (depth : Nat) : S.populated [] depth = [] := by simp [populated]

@[simp]
theorem populated_zero (xs : List α) : S.populated xs 0 = xs := by
  apply List.ext_getElem <;> simp +contextual [populated, S.leaf_of_lt]

/-- Reading a level and falling back to the empty root always yields the reference node. -/
theorem getD_populated (xs : List α) (depth i : Nat)
    : (S.populated xs depth)[i]?.getD (S.emptyRoot depth) = S.node xs depth i := by
  by_cases h : i < populatedCount xs.length depth
  · simp [populated, h]
  · have past : xs.length ≤ i * 2 ^ depth := not_lt.mp (mt lt_populatedCount.mpr h)
    simp [populated, h, S.node_of_length_le past]

theorem getElem?_populated {xs : List α} {depth i : Nat} (h : i * 2 ^ depth < xs.length)
    : (S.populated xs depth)[i]? = some (S.node xs depth i) := by
  simp [populated, lt_populatedCount.mpr h]

/-- Appending a leaf pushes or overwrites exactly its ancestor in every level. -/
theorem populated_append (xs : List α) (x : α) (depth : Nat)
    : S.populated (xs ++ [x]) depth
      = if xs.length / 2 ^ depth = (S.populated xs depth).length then
          S.populated xs depth ++ [S.node (xs ++ [x]) depth (xs.length / 2 ^ depth)]
        else
          (S.populated xs depth).set (xs.length / 2 ^ depth)
            (S.node (xs ++ [x]) depth (xs.length / 2 ^ depth)) := by
  have count := populatedCount_succ xs.length depth
  have bound := div_le_populatedCount xs.length depth
  rw [length_populated]
  split at count
  next free =>
    rw [if_pos free]
    simp only [populated, List.length_append, List.length_singleton, count, List.range_succ,
      List.map_append, List.map_singleton, free]
    congr 1
    apply List.map_congr_left
    intro i member
    exact S.node_append_of_ne (by have := List.mem_range.mp member; omega)
  next taken =>
    rw [if_neg taken]
    apply List.ext_getElem
    · simp [count]
    · intro i left right
      simp only [populated, List.getElem_map, List.getElem_range, List.getElem_set]
      split
      next same => rw [same]
      next other => exact S.node_append_of_ne (fun same => other same.symm)

/-- The other child of the same parent. -/
def siblingIndex (i : Nat) : Nat := if i % 2 = 0 then i + 1 else i - 1

/-- Fold a value upwards; each step holds a sibling and whether it stands on the right. -/
def climb (value : α) (path : List (α × Bool)) : α :=
  path.foldl
    (fun value step => if step.2 then S.hash value step.1 else S.hash step.1 value) value

/-- The siblings met on the way up from leaf `i`, bottom first. -/
def path (xs : List α) (i depth : Nat) : List (α × Bool) :=
  (List.range depth).map
    (fun d => (S.node xs d (siblingIndex (i / 2 ^ d)), i / 2 ^ d % 2 == 0))

@[simp]
theorem climb_nil (value : α) : S.climb value [] = value := rfl

theorem climb_append (value : α) (path more : List (α × Bool))
    : S.climb value (path ++ more) = S.climb (S.climb value path) more := by
  simp [climb]

theorem path_succ (xs : List α) (i depth : Nat)
    : S.path xs i (depth + 1)
      = S.path xs i depth
        ++ [(S.node xs depth (siblingIndex (i / 2 ^ depth)), i / 2 ^ depth % 2 == 0)] := by
  simp [path, List.range_succ]

/-- A parent is rebuilt from either child and the child's sibling, by parity of the child. -/
theorem hash_sibling (xs : List α) (depth i : Nat)
    : (if i % 2 == 0 then S.hash (S.node xs depth i) (S.node xs depth (siblingIndex i))
        else S.hash (S.node xs depth (siblingIndex i)) (S.node xs depth i))
      = S.node xs (depth + 1) (i / 2) := by
  rw [S.node_succ]
  rcases Nat.mod_two_eq_zero_or_one i with even | odd
  · have left : 2 * (i / 2) = i := by omega
    simp [even, siblingIndex, left]
  · have right : 2 * (i / 2) + 1 = i := by omega
    have left : 2 * (i / 2) = i - 1 := by omega
    rw [right, left]
    simp [odd, siblingIndex]

/-- Climbing an honest path yields the ancestor of the leaf, by induction on the height. -/
theorem climb_path (xs : List α) (i depth : Nat)
    : S.climb (S.leaf xs i) (S.path xs i depth) = S.node xs depth (i / 2 ^ depth) := by
  induction depth with
  | zero => simp [path]
  | succ depth ih =>
      rw [path_succ, climb_append, ih, Nat.pow_succ, ← Nat.div_div_eq_div_mul]
      exact S.hash_sibling xs depth (i / 2 ^ depth)

-----------------------------------------------------------------------------------------
-- A root binds its leaves up to an exhibited collision
-----------------------------------------------------------------------------------------

/-- The pairs hashed while computing the depth-`depth` root of the padded list. -/
def Hashed (xs : List α) (depth : Nat) (pair : α × α) : Prop :=
  ∃ d i, d < depth ∧ 2 * i + 1 < 2 ^ (depth - d)
    ∧ pair = (S.node xs d (2 * i), S.node xs d (2 * i + 1))

/-- Two different pairs with one hash, taken from two given sets of pairs. -/
def Collision (left right : α × α → Prop) : Prop :=
  ∃ p q, left p ∧ right q ∧ p ≠ q ∧ S.hash p.1 p.2 = S.hash q.1 q.2

/-- Equal nodes have equal leaves below them unless a collision is met on the way down.
The induction is on the depth of the node; either both children agree or they collide.
-/
theorem node_binding {xs ys : List α} {depth : Nat} {d i : Nat} (hd : d ≤ depth)
    (hi : i < 2 ^ (depth - d)) (h : S.node xs d i = S.node ys d i)
    : (∀ j < 2 ^ d, S.leaf xs (i * 2 ^ d + j) = S.leaf ys (i * 2 ^ d + j))
      ∨ S.Collision (S.Hashed xs depth) (S.Hashed ys depth) := by
  induction d generalizing i with
  | zero => exact Or.inl (by simpa using h)
  | succ d ih =>
      rw [S.node_succ, S.node_succ] at h
      have width : 2 ^ (depth - d) = 2 * 2 ^ (depth - (d + 1)) := by
        rw [← Nat.pow_succ', show depth - d = depth - (d + 1) + 1 by omega]
      by_cases same : (S.node xs d (2 * i), S.node xs d (2 * i + 1))
          = (S.node ys d (2 * i), S.node ys d (2 * i + 1))
      · obtain ⟨left, right⟩ := Prod.mk.inj same
        rcases ih (by omega) (by omega) left with below | collision
        · rcases ih (by omega) (by omega) right with above | collision
          · refine Or.inl (fun j hj => ?_)
            have double : 2 ^ (d + 1) = 2 ^ d + 2 ^ d := by ring
            by_cases half : j < 2 ^ d
            · have split : i * 2 ^ (d + 1) + j = 2 * i * 2 ^ d + j := by ring
              simpa only [split] using below j half
            · have split : i * 2 ^ (d + 1) + j = (2 * i + 1) * 2 ^ d + (j - 2 ^ d) := by
                have expand : (2 * i + 1) * 2 ^ d = i * 2 ^ (d + 1) + 2 ^ d := by ring
                omega
              simpa only [split] using above (j - 2 ^ d) (by omega)
          · exact Or.inr collision
        · exact Or.inr collision
      · exact Or.inr ⟨_, _, ⟨d, i, by omega, by omega, rfl⟩, ⟨d, i, by omega, by omega, rfl⟩,
          same, h⟩

/-- Equal roots mean equal padded leaf lists or an exhibited collision. -/
theorem root_binding {xs ys : List α} {depth : Nat} (hx : xs.length ≤ 2 ^ depth)
    (hy : ys.length ≤ 2 ^ depth) (h : S.root xs depth = S.root ys depth)
    : (∀ i, S.leaf xs i = S.leaf ys i)
      ∨ S.Collision (S.Hashed xs depth) (S.Hashed ys depth) := by
  rcases S.node_binding le_rfl (by simp) h with below | collision
  · refine Or.inl (fun i => ?_)
    by_cases inside : i < 2 ^ depth
    · simpa using below i inside
    · rw [S.leaf_of_length_le (by omega), S.leaf_of_length_le (by omega)]
  · exact Or.inr collision

/-- Leaves that equal the padding value do not move the root. -/
theorem root_congr {xs ys : List α} {depth : Nat} (h : ∀ i, S.leaf xs i = S.leaf ys i)
    : S.root xs depth = S.root ys depth :=
  S.node_congr (fun _ _ => h _)

/-- Appending padding values to a list does not move its root. -/
theorem root_of_prefix {xs ys : List α} {depth : Nat} (h : xs <+: ys)
    (padding : ∀ i (_ : i < ys.length), xs.length ≤ i → ys[i] = S.empty)
    : S.root ys depth = S.root xs depth := by
  refine S.root_congr (fun i => ?_)
  rcases Nat.lt_or_ge i xs.length with old | new
  · have inside : i < ys.length := Nat.lt_of_lt_of_le old h.length_le
    rw [S.leaf_of_lt old, S.leaf_of_lt inside, h.getElem old]
  · rw [S.leaf_of_length_le new]
    rcases Nat.lt_or_ge i ys.length with inside | outside
    · rw [S.leaf_of_lt inside, padding i inside new]
    · exact S.leaf_of_length_le outside

/-- If a longer list has the same root, it only adds padding values or exhibits a collision. -/
theorem prefix_binding {xs ys : List α} {depth : Nat} (h : xs <+: ys)
    (capacity : ys.length ≤ 2 ^ depth) (same : S.root ys depth = S.root xs depth)
    : (∀ i (_ : i < ys.length), xs.length ≤ i → ys[i] = S.empty)
      ∨ S.Collision (S.Hashed ys depth) (S.Hashed xs depth) := by
  refine (S.root_binding capacity (h.length_le.trans capacity) same).imp_left ?_
  intro leaves i inside new
  rw [← S.leaf_of_lt inside, leaves i, S.leaf_of_length_le new]

/-- The position below a node that the sides of a path lead to: bit `d` is set where the
sibling stands on the left.
-/
def position (path : List (α × Bool)) : Nat :=
  path.foldr (fun step i => 2 * i + if step.2 then 0 else 1) 0

theorem position_append (path : List (α × Bool)) (step : α × Bool)
    : position (path ++ [step])
      = 2 ^ path.length * (if step.2 then 0 else 1) + position path := by
  induction path with
  | nil => simp [position]
  | cons first rest ih =>
      simp only [position, List.cons_append, List.foldr_cons, List.length_cons] at ih ⊢
      rw [ih]
      ring

theorem position_lt (path : List (α × Bool)) : position path < 2 ^ path.length := by
  induction path with
  | nil => simp [position]
  | cons first rest ih =>
      simp only [position, List.foldr_cons, List.length_cons, Nat.pow_succ] at ih ⊢
      split <;> omega

theorem testBit_position (path : List (α × Bool)) (d : Nat) (h : d < path.length)
    : (position path).testBit d = !path[d].2 := by
  induction path generalizing d with
  | nil => cases h
  | cons first rest ih =>
      cases d with
      | zero => cases side : first.2 <;> simp [position, side]
      | succ d =>
          have later := ih d (by simpa using h)
          rw [List.getElem_cons_succ, ← later, Nat.testBit_succ]
          congr 1
          simp only [position, List.foldr_cons]
          split <;> omega

/-- The two values hashed at a step of a climb, left one first. -/
def sides (value : α) (step : α × Bool) : α × α :=
  if step.2 then (value, step.1) else (step.1, value)

/-- The pairs hashed while climbing a path. -/
def Climbed (value : α) (path : List (α × Bool)) (pair : α × α) : Prop :=
  ∃ d, ∃ h : d < path.length, pair = sides (S.climb value (path.take d)) path[d]

theorem climb_concat (value : α) (path : List (α × Bool)) (step : α × Bool)
    : S.climb value (path ++ [step])
      = S.hash (sides (S.climb value path) step).1 (sides (S.climb value path) step).2 := by
  rw [climb_append, climb, List.foldl_cons, List.foldl_nil, sides]
  split <;> rfl

theorem climbed_last (value : α) (path : List (α × Bool)) (step : α × Bool)
    : S.Climbed value (path ++ [step]) (sides (S.climb value path) step) :=
  ⟨path.length, by simp, by simp⟩

theorem Climbed.concat {value : α} {path : List (α × Bool)} {pair : α × α}
    (h : S.Climbed value path pair) (step : α × Bool)
    : S.Climbed value (path ++ [step]) pair := by
  obtain ⟨d, bound, rfl⟩ := h
  refine ⟨d, by simp; omega, ?_⟩
  rw [List.take_append_of_le_length (by omega), List.getElem_append_left bound]

/-- If the two sides of a step are the children of a node, the value climbed so far is the
child the step comes from and its sibling is the other child.
-/
theorem sides_eq {xs : List α} {value : α} {step : α × Bool} {d i : Nat}
    (same : sides value step = (S.node xs d (2 * i), S.node xs d (2 * i + 1)))
    : value = S.node xs d (2 * i + if step.2 then 0 else 1)
      ∧ step = (S.node xs d (siblingIndex (2 * i + if step.2 then 0 else 1)),
          (2 * i + if step.2 then 0 else 1) % 2 == 0) := by
  obtain ⟨sibling, onRight⟩ := step
  cases onRight with
  | true =>
      obtain ⟨left, right⟩ := Prod.mk.inj same
      have even : 2 * i % 2 = 0 := by omega
      exact ⟨left, by simp [siblingIndex, even, ← right]⟩
  | false =>
      obtain ⟨left, right⟩ := Prod.mk.inj same
      have odd : (2 * i + 1) % 2 = 1 := by omega
      exact ⟨right, by simp [siblingIndex, odd, ← left]⟩

/-- A climb that arrives at a node followed the honest path from the leaf that its sides
point to, or a collision is met on the way down. The induction is on the path from its end.
-/
theorem climb_binding {xs : List α} {value : α} {path : List (α × Bool)} {depth i : Nat}
    (short : path.length ≤ depth) (inside : i < 2 ^ (depth - path.length))
    (h : S.climb value path = S.node xs path.length i)
    : (value = S.leaf xs (i * 2 ^ path.length + position path)
        ∧ path = S.path xs (i * 2 ^ path.length + position path) path.length)
      ∨ S.Collision (S.Climbed value path) (S.Hashed xs depth) := by
  induction path using List.reverseRecOn generalizing i with
  | nil => exact Or.inl ⟨by simpa [position] using h, rfl⟩
  | append_singleton path step ih =>
      rw [List.length_append, List.length_singleton] at short inside h ⊢
      rw [climb_concat, S.node_succ] at h
      have width : 2 ^ (depth - path.length) = 2 * 2 ^ (depth - (path.length + 1)) := by
        rw [← Nat.pow_succ', show depth - path.length = depth - (path.length + 1) + 1 by omega]
      by_cases same : sides (S.climb value path) step
          = (S.node xs path.length (2 * i), S.node xs path.length (2 * i + 1))
      · obtain ⟨child, sibling⟩ := S.sides_eq same
        generalize side : (if step.2 then 0 else 1 : Nat) = bit at child sibling
        have small : bit ≤ 1 := by
          rw [← side]
          split <;> omega
        have start : i * 2 ^ (path.length + 1) + position (path ++ [step])
            = (2 * i + bit) * 2 ^ path.length + position path := by
          rw [position_append, side]
          ring
        have ancestor : ((2 * i + bit) * 2 ^ path.length + position path) / 2 ^ path.length
            = 2 * i + bit := by
          rw [Nat.mul_comm, Nat.mul_add_div (Nat.two_pow_pos _),
            Nat.div_eq_of_lt (position_lt path), Nat.add_zero]
        rcases ih (by omega) (by omega) child with honest | collision
        · refine Or.inl ⟨by rw [start]; exact honest.1, ?_⟩
          rw [start, path_succ, ancestor, ← sibling, ← honest.2]
        · obtain ⟨left, right, climbed, hashed, differ⟩ := collision
          exact Or.inr ⟨left, right, Climbed.concat S climbed step, hashed, differ⟩
      · exact Or.inr ⟨_, _, S.climbed_last value path step,
          ⟨path.length, i, by omega, by omega, rfl⟩, same, h⟩

/-- A path of full depth that verifies against the root is the honest path of the leaf at its
position, or exhibits a collision.
-/
theorem root_climb_binding {xs : List α} {value : α} {path : List (α × Bool)}
    (h : S.climb value path = S.root xs path.length)
    : (value = S.leaf xs (position path) ∧ path = S.path xs (position path) path.length)
      ∨ S.Collision (S.Climbed value path) (S.Hashed xs path.length) := by
  simpa using S.climb_binding le_rfl (by simp) h

end Scheme

end PaddedTree
