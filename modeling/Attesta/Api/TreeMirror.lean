import Attesta.Api.Tree
import Attesta.Core.MerkleRefinement

/-! What a cached tree means: it mirrors a gap-free prefix of the stored leaves of its pool,
and every history row is the root of such a prefix. Both only depend on the append-only
`commitments` table, so they survive everything the indexer does.
-/

namespace Attesta.Api

open Attesta.Merkle KeyedRows PaddedTree

/-- A leaf of the tree with the ledger it was observed at. -/
structure Leaf where
  node : Node
  ledger : Int
  deriving DecidableEq

/-- The stored leaf of a pool at one index. -/
def leaf? (db : Db) (pool : String) (i : Nat) : Option Leaf :=
  (db.commitments.find? (fun row => row.pool == pool && row.leafIndex == (i : Int))).bind
    (fun row => (Node.ofBytes? row.commitment).map (fun node => ⟨node, row.ledger⟩))

/-- `leaves` are the stored leaves of the pool at indexes `0, 1, ...` without a gap. -/
def LeafPrefix (db : Db) (pool : String) (leaves : List Leaf) : Prop :=
  ∀ i (h : i < leaves.length), leaf? db pool i = some leaves[i]

/-- The tables a top-up relies on: unique leaves of exactly 32 bytes. -/
structure LeavesValid (db : Db) : Prop where
  unique : NoConflict CommitmentRow.conflict db.commitments
  sized : ∀ row ∈ db.commitments, ∃ node : Node, row.commitment = node.bytes

theorem CommitmentRow.conflict_comm (a b : CommitmentRow) : a.conflict b = b.conflict a := by
  simp only [CommitmentRow.conflict, Bool.beq_comm]

theorem LeafPrefix.nil (db : Db) (pool : String) : LeafPrefix db pool [] := by
  intro i h
  cases h

theorem LeafPrefix.take {db : Db} {pool : String} {leaves : List Leaf}
    (h : LeafPrefix db pool leaves) (k : Nat)
    : LeafPrefix db pool (leaves.take k) := by
  intro i inside
  rw [List.length_take] at inside
  rw [List.getElem_take]
  exact h i (by omega)

theorem LeafPrefix.concat {db : Db} {pool : String} {leaves : List Leaf} {leaf : Leaf}
    (h : LeafPrefix db pool leaves) (next : leaf? db pool leaves.length = some leaf)
    : LeafPrefix db pool (leaves ++ [leaf]) := by
  intro i inside
  by_cases old : i < leaves.length
  · rw [List.getElem_append_left old]
    exact h i old
  · have last : i = leaves.length := by
      simp only [List.length_append, List.length_singleton] at inside
      omega
    subst last
    simpa using next

/-- Of two prefixes the shorter one is the beginning of the longer one. -/
theorem LeafPrefix.eq_take {db : Db} {pool : String} {short long : List Leaf}
    (hs : LeafPrefix db pool short) (hl : LeafPrefix db pool long)
    (le : short.length ≤ long.length)
    : short = long.take short.length := by
  apply List.ext_getElem
  · simp [le]
  · intro i inside _
    have same := (hs i inside).symm.trans (hl i (by omega))
    rw [List.getElem_take]
    exact Option.some.inj same

/-- `leaves` are all stored leaves of the pool up to the first gap. -/
structure AllLeaves (db : Db) (pool : String) (leaves : List Leaf) : Prop where
  stored : LeafPrefix db pool leaves
  ended : leaf? db pool leaves.length = none

/-- No prefix reaches past the first gap. -/
theorem AllLeaves.length_le {db : Db} {pool : String} {leaves others : List Leaf}
    (h : AllLeaves db pool leaves) (stored : LeafPrefix db pool others)
    : others.length ≤ leaves.length := by
  by_contra longer
  have next := stored leaves.length (by omega)
  rw [h.ended] at next
  cases next

theorem AllLeaves.eq_take {db : Db} {pool : String} {leaves others : List Leaf}
    (h : AllLeaves db pool leaves) (stored : LeafPrefix db pool others)
    : others = leaves.take others.length :=
  stored.eq_take h.stored (h.length_le stored)

theorem AllLeaves.unique {db : Db} {pool : String} {left right : List Leaf}
    (hl : AllLeaves db pool left) (hr : AllLeaves db pool right)
    : left = right := by
  have lengths := Nat.le_antisymm (hr.length_le hl.stored) (hl.length_le hr.stored)
  rw [hr.eq_take hl.stored, lengths, List.take_length]

/-- Reading the table from the start up to its first gap. -/
theorem allLeaves_of_range {db : Db} {pool : String} {leaves : List Leaf}
    (h : (List.range (leaves.length + 1)).map (leaf? db pool) = leaves.map some ++ [none])
    : AllLeaves db pool leaves := by
  have entry (i : Nat) (within : i < leaves.length + 1)
      : some (leaf? db pool i) = (leaves.map some ++ [none])[i]? := by
    rw [← h, List.getElem?_map, List.getElem?_range within]
    rfl
  constructor
  · intro i inside
    have found := entry i (by omega)
    rw [List.getElem?_append_left (by simpa using inside)] at found
    simpa [inside] using found
  · have found := entry leaves.length (by omega)
    simpa using found

/-- New rows never change a leaf that is already stored. -/
theorem leaf?_mono {db next : Db} (grows : db.commitments <+: next.commitments) {pool : String}
    {i : Nat} {leaf : Leaf} (h : leaf? db pool i = some leaf)
    : leaf? next pool i = some leaf := by
  obtain ⟨row, found, converted⟩ := Option.bind_eq_some_iff.mp h
  exact Option.bind_eq_some_iff.mpr ⟨row, grows.find?_eq_some found, converted⟩

theorem LeafPrefix.mono {db next : Db} (grows : db.commitments <+: next.commitments)
    {pool : String} {leaves : List Leaf} (h : LeafPrefix db pool leaves)
    : LeafPrefix next pool leaves :=
  fun i inside => leaf?_mono grows (h i inside)

/-- A stored row is the leaf at its own index, by uniqueness of the index inside the pool. -/
theorem LeavesValid.leaf?_of_mem {db : Db} (valid : LeavesValid db) {row : CommitmentRow}
    (member : row ∈ db.commitments) {i : Nat} (index : row.leafIndex = i) {node : Node}
    (bytes : row.commitment = node.bytes)
    : leaf? db row.pool i = some ⟨node, row.ledger⟩ := by
  have hit : (row.pool == row.pool && row.leafIndex == (i : Int)) = true := by simp [index]
  have some := List.find?_isSome
    (p := fun row' => row'.pool == row.pool && row'.leafIndex == (i : Int)).mpr
    ⟨row, member, hit⟩
  obtain ⟨found, isFound⟩ := Option.isSome_iff_exists.mp some
  have properties := List.find?_some isFound
  simp only [Bool.and_eq_true, beq_iff_eq] at properties
  have clash : CommitmentRow.conflict found row = true := by
    simp [CommitmentRow.conflict, properties.1, properties.2, index]
  have same := valid.unique.eq_of_conflict CommitmentRow.conflict_comm
    (List.mem_of_find?_eq_some isFound) member clash
  rw [leaf?, isFound, same, Option.bind_some, bytes, Node.ofBytes?_bytes, Option.map_some]

/-- The row behind a stored leaf. -/
theorem exists_row_of_leaf? {db : Db} {pool : String} {i : Nat} {leaf : Leaf}
    (h : leaf? db pool i = some leaf)
    : ∃ row ∈ db.commitments, row.pool = pool ∧ row.leafIndex = i
        ∧ row.commitment = leaf.node.bytes ∧ row.ledger = leaf.ledger := by
  obtain ⟨row, found, converted⟩ := Option.bind_eq_some_iff.mp h
  obtain ⟨node, bytes, rfl⟩ := Option.map_eq_some_iff.mp converted
  have properties := List.find?_some found
  simp only [Bool.and_eq_true, beq_iff_eq] at properties
  exact ⟨row, List.mem_of_find?_eq_some found, properties.1, properties.2,
    (Node.bytes_of_ofBytes? bytes).symm, rfl⟩

/-- One commitment is stored at no more than one index of a pool. -/
theorem LeavesValid.leaf?_injective {db : Db} (valid : LeavesValid db) {pool : String}
    {i j : Nat} {left right : Leaf} (hi : leaf? db pool i = some left)
    (hj : leaf? db pool j = some right) (same : left.node = right.node)
    : i = j := by
  obtain ⟨first, firstMem, firstPool, firstIndex, firstBytes, _⟩ := exists_row_of_leaf? hi
  obtain ⟨second, secondMem, secondPool, secondIndex, secondBytes, _⟩ := exists_row_of_leaf? hj
  have clash : CommitmentRow.conflict first second = true := by
    simp [CommitmentRow.conflict, firstPool, secondPool, firstBytes, secondBytes, same]
  have rows := valid.unique.eq_of_conflict CommitmentRow.conflict_comm firstMem secondMem clash
  have indexes : (i : Int) = j := by rw [← firstIndex, ← secondIndex, rows]
  exact Int.ofNat.inj indexes

/-- The root served after the given leaves. -/
def rootOf (hasher : TreeHasher) (leaves : List Leaf) : Node :=
  hasher.scheme.root (leaves.map Leaf.node) treeDepth

/-- The newest ledger among the leaves, zero for none. -/
def anchorOf (leaves : List Leaf) : Int :=
  leaves.foldl (fun anchor leaf => max anchor leaf.ledger) 0

/-- The history entry of the append that completed the given leaves. -/
def historyEntry (hasher : TreeHasher) (leaves : List Leaf) : RootEntry where
  leafCount := leaves.length
  root := (rootOf hasher leaves).bytes
  ledger := (leaves.getLast?.map Leaf.ledger).getD 0

/-- The entries of all appends past the first `start` leaves. -/
def entriesFrom (hasher : TreeHasher) (leaves : List Leaf) (start : Nat) : List RootEntry :=
  (List.range' (start + 1) (leaves.length - start)).map
    (fun k => historyEntry hasher (leaves.take k))

/-- A cached tree holds exactly the given prefix of the stored leaves. -/
structure PoolTree.Mirrors (poolTree : PoolTree) (hasher : TreeHasher) (db : Db) (pool : String)
    (leaves : List Leaf)
    : Prop where
  stored : LeafPrefix db pool leaves
  tree : poolTree.tree.Represents hasher (leaves.map Leaf.node)
  index : ∀ c i, poolTree.indexByCommitment c = some i ↔ leaves[i]?.map Leaf.node = some c
  anchor : poolTree.anchoredLedger = anchorOf leaves

/-- A history row is the root entry of a nonempty prefix of the stored leaves. -/
def RowCorrect (hasher : TreeHasher) (db : Db) (row : TreeRootRow) : Prop :=
  ∃ leaves, leaves ≠ [] ∧ LeafPrefix db row.pool leaves
    ∧ row = entryRow row.pool (historyEntry hasher leaves)

theorem PoolTree.new_mirrors (hasher : TreeHasher) (db : Db) (pool : String)
    : (PoolTree.new hasher).Mirrors hasher db pool [] where
  stored := .nil db pool
  tree := new_represents hasher
  index c i := by simp [PoolTree.new]
  anchor := rfl

theorem PoolTree.Mirrors.mono {poolTree : PoolTree} {hasher : TreeHasher} {db next : Db}
    {pool : String} {leaves : List Leaf} (h : poolTree.Mirrors hasher db pool leaves)
    (grows : db.commitments <+: next.commitments)
    : poolTree.Mirrors hasher next pool leaves :=
  { h with stored := h.stored.mono grows }

theorem RowCorrect.mono {hasher : TreeHasher} {db next : Db} {row : TreeRootRow}
    (h : RowCorrect hasher db row) (grows : db.commitments <+: next.commitments)
    : RowCorrect hasher next row := by
  obtain ⟨leaves, nonempty, stored, shape⟩ := h
  exact ⟨leaves, nonempty, stored.mono grows, shape⟩

theorem PoolTree.Mirrors.len {poolTree : PoolTree} {hasher : TreeHasher} {db : Db}
    {pool : String} {leaves : List Leaf} (h : poolTree.Mirrors hasher db pool leaves)
    : poolTree.tree.len = leaves.length := by
  rw [h.tree.len, List.length_map]

theorem PoolTree.Mirrors.root {poolTree : PoolTree} {hasher : TreeHasher} {db : Db}
    {pool : String} {leaves : List Leaf} (h : poolTree.Mirrors hasher db pool leaves)
    : poolTree.tree.root = rootOf hasher leaves :=
  h.tree.root

/-- A tree mirrors only one list of leaves. -/
theorem PoolTree.Mirrors.unique {poolTree : PoolTree} {hasher : TreeHasher} {db : Db}
    {pool : String} {left right : List Leaf} (hl : poolTree.Mirrors hasher db pool left)
    (hr : poolTree.Mirrors hasher db pool right)
    : left = right := by
  have lengths : left.length = right.length := hl.len.symm.trans hr.len
  have taken := hl.stored.eq_take hr.stored (le_of_eq lengths)
  rw [taken, lengths, List.take_length]

/-- Two trees that mirror the same leaves are equal, whatever tables they were read from. -/
theorem PoolTree.Mirrors.eq {left right : PoolTree} {hasher : TreeHasher} {db next : Db}
    {pool : String} {leaves : List Leaf} (hl : left.Mirrors hasher db pool leaves)
    (hr : right.Mirrors hasher next pool leaves)
    : left = right := by
  have trees := hl.tree.eq hr.tree
  have indexes : left.indexByCommitment = right.indexByCommitment :=
    funext fun c => Option.ext fun i => (hl.index c i).trans (hr.index c i).symm
  have anchors := hl.anchor.trans hr.anchor.symm
  cases left
  cases right
  congr

@[simp]
theorem entriesFrom_self (hasher : TreeHasher) (leaves : List Leaf)
    : entriesFrom hasher leaves leaves.length = [] := by
  simp [entriesFrom]

theorem mem_entriesFrom {hasher : TreeHasher} {leaves : List Leaf} {start : Nat}
    {entry : RootEntry}
    : entry ∈ entriesFrom hasher leaves start
      ↔ ∃ k, start < k ∧ k ≤ leaves.length ∧ entry = historyEntry hasher (leaves.take k) := by
  simp only [entriesFrom, List.mem_map, List.mem_range'_1]
  constructor
  · intro listed
    obtain ⟨k, ⟨above, below⟩, rfl⟩ := listed
    exact ⟨k, by omega, by omega, rfl⟩
  · intro bounds
    obtain ⟨k, above, below, rfl⟩ := bounds
    exact ⟨k, ⟨by omega, by omega⟩, rfl⟩

/-- The entry of the first further leaf comes first in the batch. -/
theorem entriesFrom_cons (hasher : TreeHasher) {leaves : List Leaf} {start : Nat}
    (h : start < leaves.length)
    : entriesFrom hasher leaves start
      = historyEntry hasher (leaves.take (start + 1))
        :: entriesFrom hasher leaves (start + 1) := by
  have count : leaves.length - start = leaves.length - (start + 1) + 1 := by omega
  rw [entriesFrom, count, List.range'_succ, List.map_cons, ← entriesFrom]

theorem entriesFrom_correct {hasher : TreeHasher} {db : Db} {pool : String}
    {leaves : List Leaf} (stored : LeafPrefix db pool leaves) {start : Nat} {entry : RootEntry}
    (h : entry ∈ entriesFrom hasher leaves start)
    : RowCorrect hasher db (entryRow pool entry) := by
  obtain ⟨k, above, below, rfl⟩ := mem_entriesFrom.mp h
  refine ⟨leaves.take k, ?_, stored.take k, rfl⟩
  intro empty
  have length := congrArg List.length empty
  rw [List.length_take, List.length_nil] at length
  omega

-----------------------------------------------------------------------------------------
-- The append loop
-----------------------------------------------------------------------------------------

/-- One appended row extends the mirrored prefix by the leaf stored at the next index. The
reverse index stays exact because a commitment is stored only once in its pool.
-/
theorem PoolTree.Mirrors.append {poolTree : PoolTree} {hasher : TreeHasher} {db : Db}
    {pool : String} {leaves : List Leaf} (h : poolTree.Mirrors hasher db pool leaves)
    (valid : LeavesValid db) {leaf : Leaf}
    (next : leaf? db pool leaves.length = some leaf)
    : ∃ tree, poolTree.tree.append leaf.node = .ok (leaves.length, tree)
        ∧ PoolTree.Mirrors
            ⟨tree,
              fun c =>
                if c = leaf.node then some leaves.length else poolTree.indexByCommitment c,
              max poolTree.anchoredLedger leaf.ledger⟩
            hasher db pool (leaves ++ [leaf]) := by
  obtain ⟨tree, appended, represents⟩ := h.tree.append leaf.node
  rw [List.length_map] at appended
  refine ⟨tree, appended, h.stored.concat next, ?_, ?_, ?_⟩
  · simpa using represents
  · intro c i
    have fresh {j : Nat} (old : leaves[j]?.map Leaf.node = some leaf.node) : False := by
      obtain ⟨earlier, found, same⟩ := Option.map_eq_some_iff.mp old
      obtain ⟨inside, value⟩ := List.getElem?_eq_some_iff.mp found
      have stored := h.stored j inside
      have collide := valid.leaf?_injective stored next (by rw [value, same])
      omega
    by_cases same : c = leaf.node
    · subst same
      simp only [if_true, Option.some.injEq]
      constructor
      · rintro rfl
        simp
      · intro found
        by_cases old : i < leaves.length
        · rw [List.getElem?_append_left old] at found
          exact (fresh found).elim
        · obtain ⟨last, atLast, _⟩ := Option.map_eq_some_iff.mp found
          obtain ⟨inside, _⟩ := List.getElem?_eq_some_iff.mp atLast
          simp only [List.length_append, List.length_singleton] at inside
          omega
    · simp only [if_neg same, h.index]
      by_cases old : i < leaves.length
      · rw [List.getElem?_append_left old]
      · rw [List.getElem?_eq_none (by omega)]
        by_cases last : i = leaves.length
        · subst last
          simpa using fun eq => same eq.symm
        · rw [List.getElem?_eq_none (by simp; omega)]
  · simp [anchorOf, h.anchor]

/-- The row at the next index is appended together with its history entry. -/
theorem PoolTree.Mirrors.appendRows_cons {poolTree : PoolTree} {hasher : TreeHasher} {db : Db}
    {leaves : List Leaf} {stored : CommitmentRow}
    (h : poolTree.Mirrors hasher db stored.pool leaves) (valid : LeavesValid db)
    (member : stored ∈ db.commitments) (index : stored.leafIndex = leaves.length)
    : ∃ next leaf,
        next.Mirrors hasher db stored.pool (leaves ++ [leaf])
        ∧ ∀ newRoots rows,
            appendRows poolTree newRoots (leafRow stored :: rows)
              = appendRows next (newRoots ++ [historyEntry hasher (leaves ++ [leaf])]) rows := by
  obtain ⟨node, bytes⟩ := valid.sized stored member
  have next := valid.leaf?_of_mem member index bytes
  obtain ⟨tree, appended, mirrors⟩ := h.append valid next
  refine ⟨_, ⟨node, stored.ledger⟩, mirrors, ?_⟩
  intro newRoots rows
  have inOrder : ¬ (leafRow stored).leafIndex ≠ poolTree.tree.len := by
    rw [h.len]
    exact not_not.mpr index
  have entry : (⟨tree.len, tree.root.bytes, stored.ledger⟩ : RootEntry)
      = historyEntry hasher (leaves ++ [⟨node, stored.ledger⟩]) := by
    have len := mirrors.len
    have root := mirrors.root
    simp only at len root
    simp [historyEntry, len, root]
  rw [appendRows, if_neg inOrder]
  simp only [leafRow, bytes, Node.ofBytes?_bytes, appended, entry]

/-- The append loop over rows of the pool never panics or meets a corrupt commitment. It
extends the mirrored prefix and collects exactly the history entries of the new leaves.
-/
theorem appendRows_spec {hasher : TreeHasher} {db : Db} {pool : String} (valid : LeavesValid db)
    (rows : List LeafRow)
    (fromTable : ∀ row ∈ rows, ∃ r ∈ db.commitments, r.pool = pool ∧ leafRow r = row)
    {poolTree : PoolTree} {leaves : List Leaf} (h : poolTree.Mirrors hasher db pool leaves)
    (newRoots : List RootEntry)
    : ∃ next more,
        appendRows poolTree newRoots rows
          = (next, newRoots ++ entriesFrom hasher (leaves ++ more) leaves.length, none)
        ∧ next.Mirrors hasher db pool (leaves ++ more) := by
  induction rows generalizing poolTree leaves newRoots with
  | nil => exact ⟨poolTree, [], by simp [appendRows], by simpa using h⟩
  | cons row rows ih =>
      by_cases gap : row.leafIndex ≠ poolTree.tree.len
      · exact ⟨poolTree, [], by simp [appendRows, gap], by simpa using h⟩
      · obtain ⟨stored, member, rfl, rfl⟩ := fromTable row (by simp)
        have index : stored.leafIndex = leaves.length := by
          rw [← h.len]
          exact not_not.mp gap
        obtain ⟨grown, leaf, mirrors, first⟩ := h.appendRows_cons valid member index
        obtain ⟨last, more, run, final⟩ := ih
          (fun row member => fromTable row (List.mem_cons_of_mem _ member)) mirrors
          (newRoots ++ [historyEntry hasher (leaves ++ [leaf])])
        refine ⟨last, leaf :: more, ?_, by simpa using final⟩
        have entries : entriesFrom hasher (leaves ++ leaf :: more) leaves.length = _ :=
          entriesFrom_cons hasher (by simp)
        rw [List.append_cons leaves, List.take_left' (by simp)] at entries
        rw [first, run]
        simp only [List.append_assoc, List.singleton_append, List.length_append,
          List.length_singleton] at entries ⊢
        rw [entries]

/-- A tree holds all leaves if the table has no row at the next index. -/
theorem PoolTree.Mirrors.leaf?_len {poolTree : PoolTree} {hasher : TreeHasher} {db : Db}
    {pool : String} {leaves : List Leaf} (h : poolTree.Mirrors hasher db pool leaves)
    (missing : ∀ r ∈ db.commitments, r.pool = pool → r.leafIndex ≠ leaves.length)
    : leaf? db pool poolTree.tree.len = none := by
  rw [h.len, Option.eq_none_iff_forall_ne_some]
  intro leaf found
  obtain ⟨r, member, samePool, index, _⟩ := exists_row_of_leaf? found
  exact missing r member samePool index

/-- A loop over all further rows of the pool in order of their index only stops where the
table has no leaf.
-/
theorem appendRows_stops {hasher : TreeHasher} {db : Db} {pool : String}
    (valid : LeavesValid db) {rows : List LeafRow}
    (sorted : rows.Pairwise (fun a b => a.leafIndex < b.leafIndex)) {poolTree : PoolTree}
    {leaves : List Leaf} (h : poolTree.Mirrors hasher db pool leaves)
    (remaining
      : ∀ row, row ∈ rows
          ↔ ∃ r ∈ db.commitments, r.pool = pool ∧ (leaves.length : Int) ≤ r.leafIndex
              ∧ leafRow r = row)
    {newRoots roots : List RootEntry} {next : PoolTree}
    (run : appendRows poolTree newRoots rows = (next, roots, none))
    : leaf? db pool next.tree.len = none := by
  induction rows generalizing poolTree leaves newRoots with
  | nil =>
      obtain ⟨rfl, _⟩ := Prod.mk.inj run
      refine h.leaf?_len (fun r member samePool index => ?_)
      cases (remaining _).mpr ⟨r, member, samePool, index.ge, rfl⟩
  | cons row rows ih =>
      obtain ⟨first, later⟩ := List.pairwise_cons.mp sorted
      obtain ⟨stored, member, rfl, above, rfl⟩ := (remaining row).mp (by simp)
      by_cases gap : (leafRow stored).leafIndex ≠ poolTree.tree.len
      · rw [appendRows, if_pos gap] at run
        obtain ⟨rfl, _⟩ := Prod.mk.inj run
        refine h.leaf?_len (fun r inTable samePool index => ?_)
        have beyond : (leafRow stored).leafIndex ≤ (leafRow r).leafIndex := by
          rcases List.mem_cons.mp ((remaining _).mpr ⟨r, inTable, samePool, index.ge, rfl⟩)
            with same | inRest
          · rw [same]
          · exact (first _ inRest).le
        rw [h.len] at gap
        simp only [leafRow] at gap beyond
        omega
      · have index : stored.leafIndex = leaves.length := by
          rw [← h.len]
          exact not_not.mp gap
        obtain ⟨grown, leaf, mirrors, step⟩ := h.appendRows_cons valid member index
        rw [step] at run
        have onwards (row : LeafRow)
            : row ∈ rows
              ↔ ∃ r ∈ db.commitments, r.pool = stored.pool
                  ∧ ((leaves ++ [leaf]).length : Int) ≤ r.leafIndex ∧ leafRow r = row := by
          simp only [List.length_append, List.length_singleton, Nat.cast_add, Nat.cast_one]
          constructor
          · intro inRest
            obtain ⟨r, inTable, samePool, _, rfl⟩ :=
              (remaining row).mp (List.mem_cons_of_mem _ inRest)
            have past : stored.leafIndex < r.leafIndex := first _ inRest
            exact ⟨r, inTable, samePool, by omega, rfl⟩
          · intro ⟨r, inTable, samePool, past, shape⟩
            have listed := (remaining row).mpr ⟨r, inTable, samePool, by omega, shape⟩
            rcases List.mem_cons.mp listed with same | inRest
            · have clash : r.leafIndex = stored.leafIndex :=
                congrArg LeafRow.leafIndex (shape.trans same)
              omega
            · exact inRest
        exact ih later mirrors onwards run

-----------------------------------------------------------------------------------------
-- The top-up
-----------------------------------------------------------------------------------------

@[simp]
theorem Trees.entry_insert_self (hasher : TreeHasher) (trees : Trees) (pool : String)
    (poolTree : PoolTree)
    : (trees.insert pool poolTree).entry hasher pool = poolTree := by
  simp [Trees.insert, Trees.entry]

theorem Trees.entry_insert_of_ne (hasher : TreeHasher) (trees : Trees) {pool other : String}
    (poolTree : PoolTree) (h : other ≠ pool)
    : (trees.insert pool poolTree).entry hasher other = trees.entry hasher other := by
  simp [Trees.insert, Trees.entry, h]

/-- Creating the map entry of a pool changes no tree. -/
@[simp]
theorem Trees.entry_insert_entry (hasher : TreeHasher) (trees : Trees) (pool other : String)
    : (trees.insert pool (trees.entry hasher pool)).entry hasher other
      = trees.entry hasher other := by
  by_cases same : other = pool
  · subst same
    simp
  · exact trees.entry_insert_of_ne hasher _ same

theorem mem_selectLeaves {db : Db} {pool : String} {start : Int} {row : LeafRow}
    : row ∈ selectLeaves db pool start
      ↔ ∃ r ∈ db.commitments, r.pool = pool ∧ start ≤ r.leafIndex ∧ leafRow r = row := by
  simp [selectLeaves, List.mem_insertionSort, and_assoc]

/-- The selected rows come in strictly increasing order of their indexes. -/
theorem LeavesValid.selectLeaves_increasing {db : Db} (valid : LeavesValid db) (pool : String)
    (start : Int)
    : (selectLeaves db pool start).Pairwise (fun a b => a.leafIndex < b.leafIndex) := by
  have total : Std.Total (fun a b : LeafRow => a.leafIndex ≤ b.leafIndex) :=
    ⟨fun a b => Int.le_total a.leafIndex b.leafIndex⟩
  have trans : IsTrans LeafRow (fun a b => a.leafIndex ≤ b.leafIndex) :=
    ⟨fun a b c first second => Int.le_trans first second⟩
  have ordered : (selectLeaves db pool start).Pairwise (fun a b => a.leafIndex ≤ b.leafIndex) :=
    List.pairwise_insertionSort _ _
  have distinct
      : (selectLeaves db pool start).Pairwise (fun a b => a.leafIndex ≠ b.leafIndex) := by
    refine ((List.perm_insertionSort _ _).pairwise_iff Ne.symm).mpr ?_
    refine List.pairwise_map.mpr ((valid.unique.filter _).imp_of_mem ?_)
    intro a b inTable other apart same
    simp only [List.mem_filter, Bool.and_eq_true, beq_iff_eq] at inTable other
    simp only [leafRow] at same
    simp [CommitmentRow.conflict, inTable.2.1, other.2.1, same] at apart
  exact (ordered.and distinct).imp (fun both => Int.lt_iff_le_and_ne.mpr both)

/-- A top-up extends the mirrored prefix and leaves exactly the new entries to be stored. -/
theorem topUp_spec {hasher : TreeHasher} {db : Db} {trees : Trees} {pool : String}
    (valid : LeavesValid db) {leaves : List Leaf}
    (h : (trees.entry hasher pool).Mirrors hasher db pool leaves)
    : ∃ next more,
        topUp hasher db trees pool
          = (next, entriesFrom hasher (leaves ++ more) leaves.length, none)
        ∧ next.Mirrors hasher db pool (leaves ++ more) := by
  have fromTable
      : ∀ row ∈ selectLeaves db pool (trees.entry hasher pool).tree.len,
          ∃ r ∈ db.commitments, r.pool = pool ∧ leafRow r = row := by
    intro row member
    obtain ⟨r, stored, samePool, _, shape⟩ := mem_selectLeaves.mp member
    exact ⟨r, stored, samePool, shape⟩
  simpa [topUp] using appendRows_spec valid _ fromTable h []

/-- A top-up reads every stored leaf up to the first gap. -/
theorem topUp_stops {hasher : TreeHasher} {db : Db} {trees : Trees} {pool : String}
    (valid : LeavesValid db) {leaves : List Leaf}
    (h : (trees.entry hasher pool).Mirrors hasher db pool leaves) {next : PoolTree}
    {newRoots : List RootEntry} (run : topUp hasher db trees pool = (next, newRoots, none))
    : leaf? db pool next.tree.len = none := by
  refine appendRows_stops valid (valid.selectLeaves_increasing pool _) h (fun row => ?_) run
  rw [mem_selectLeaves, h.len]

/-- Whatever was cached before, a topped-up tree holds all leaves of its pool. -/
theorem topUp_all {hasher : TreeHasher} {db : Db} {trees : Trees} {pool : String}
    (valid : LeavesValid db) {cached leaves : List Leaf}
    (h : (trees.entry hasher pool).Mirrors hasher db pool cached)
    (all : AllLeaves db pool leaves)
    : ∃ next,
        topUp hasher db trees pool = (next, entriesFrom hasher leaves cached.length, none)
        ∧ next.Mirrors hasher db pool leaves := by
  obtain ⟨next, more, run, mirrors⟩ := topUp_spec valid h
  have ended := topUp_stops valid h run
  rw [mirrors.len] at ended
  obtain rfl := AllLeaves.unique ⟨mirrors.stored, ended⟩ all
  exact ⟨next, run, mirrors⟩

/-- The answered row is a stored one that the query covers, and the newest of these. -/
theorem historyRow_spec {db : Db} {pool : String} {query : RootQuery} {row : TreeRootRow}
    (h : historyRow db pool query = some row)
    : row ∈ db.treeRoots ∧ row.pool = pool ∧ query.covers row = true
      ∧ ∀ other ∈ db.treeRoots,
          other.pool = pool → query.covers other = true → other.leafCount ≤ row.leafCount := by
  have total : Std.Total (fun a b : TreeRootRow => b.leafCount ≤ a.leafCount) :=
    ⟨fun a b => Int.le_total b.leafCount a.leafCount⟩
  have trans : IsTrans TreeRootRow (fun a b => b.leafCount ≤ a.leafCount) :=
    ⟨fun a b c first second => Int.le_trans second first⟩
  obtain ⟨member, newest⟩ := firstBy_spec h
  simp only [List.mem_filter, Bool.and_eq_true, beq_iff_eq] at member newest
  obtain ⟨stored, samePool, covered⟩ := member
  refine ⟨stored, samePool, covered, ?_⟩
  intro other otherStored otherPool otherCovered
  rcases newest other ⟨otherStored, otherPool, otherCovered⟩ with newer | rfl
  · exact newer
  · exact Int.le_refl _

/-- Some row is answered as soon as one is covered. -/
theorem exists_historyRow {db : Db} {pool : String} {query : RootQuery} {row : TreeRootRow}
    (stored : row ∈ db.treeRoots) (samePool : row.pool = pool)
    (covered : query.covers row = true)
    : ∃ answer, historyRow db pool query = some answer := by
  cases h : historyRow db pool query with
  | some answer => exact ⟨answer, rfl⟩
  | none =>
      have empty := firstBy_eq_none_iff.mp h
      have member : row ∈ db.treeRoots.filter
          (fun row => row.pool == pool && query.covers row) := by
        simp [stored, samePool, covered]
      rw [empty] at member
      cases member

end Attesta.Api
