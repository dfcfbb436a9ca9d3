import Attesta.Api.HistoricalRoots
import Attesta.Api.StoredLeaves

/-! `get_path` against the table itself: whatever a replica has cached, the answer is the one that
a tree built from scratch over the stored leaves would give.
-/

namespace Attesta.Api

open Attesta.Merkle Attesta.Indexer

/-- The path answer for the leaf at an index, read off the leaves. -/
def plainPath (hasher : TreeHasher) (pool : String) (leaves : List Leaf) (i : Nat)
    : PathResponse where
  pool
  leafIndex := i
  root := Hex.hex0x (rootOf hasher leaves)
  leafCount := leaves.length
  anchoredLedger := anchorOf leaves
  path := (hasher.scheme.path (leaves.map Leaf.node) i treeDepth).map
    (fun step => ⟨Hex.hex0x step.1, step.2⟩)

/-- What `get_path` is to answer for a pool with these leaves. -/
def plainAnswer (hasher : TreeHasher) (pool : String) (leaves : List Leaf) (commitment : String)
    : Except ApiError PathResponse :=
  match parseNode commitment with
  | .error e => .error e
  | .ok node =>
      if leaves.isEmpty then .error (.notFound ("unknown or empty pool: " ++ pool))
      else
        match (leaves.map Leaf.node).idxOf? node with
        | none => .error (.notFound "commitment not found in tree")
        | some i => .ok (plainPath hasher pool leaves i)

/-- Every pool has a gap-free list of leaves. -/
theorem LeavesValid.exists_allLeaves {db : Db} (valid : LeavesValid db) (hasher : TreeHasher)
    (pool : String)
    : ∃ leaves, AllLeaves db pool leaves := by
  have fresh : (Trees.entry hasher (fun _ => none) pool).Mirrors hasher db pool [] :=
    PoolTree.new_mirrors hasher db pool
  obtain ⟨next, more, run, mirrors⟩ := topUp_spec valid fresh
  have ended := topUp_stops valid fresh run
  rw [mirrors.len] at ended
  exact ⟨[] ++ more, mirrors.stored, ended⟩

/-- The map of a mirrored tree finds the first place of a commitment, which is its only one. -/
theorem PoolTree.Mirrors.idxOf? {poolTree : PoolTree} {hasher : TreeHasher} {db : Db}
    {pool : String} {leaves : List Leaf} (h : poolTree.Mirrors hasher db pool leaves)
    (node : Node)
    : poolTree.indexByCommitment node = (leaves.map Leaf.node).idxOf? node := by
  cases found : (leaves.map Leaf.node).idxOf? node with
  | none =>
      rw [Option.eq_none_iff_forall_ne_some]
      intro i indexed
      have here := (h.index node i).mp indexed
      rw [← List.getElem?_map] at here
      exact List.idxOf?_eq_none_iff.mp found (List.mem_of_getElem? here)
  | some i =>
      obtain ⟨inside, here, _⟩ := List.idxOf?_eq_some_iff.mp found
      rw [h.index, ← List.getElem?_map, List.getElem?_eq_getElem inside, here]

theorem PoolTree.Mirrors.pathAnswer {poolTree : PoolTree} {hasher : TreeHasher} {db : Db}
    {pool : String} {leaves : List Leaf} (h : poolTree.Mirrors hasher db pool leaves)
    (node : Node)
    : pathAnswer pool poolTree node
      = match (leaves.map Leaf.node).idxOf? node with
        | none => .error (.notFound "commitment not found in tree")
        | some i => .ok (plainPath hasher pool leaves i) := by
  rw [Api.pathAnswer, h.idxOf?]
  cases found : (leaves.map Leaf.node).idxOf? node with
  | none => rfl
  | some i =>
      obtain ⟨inside, _⟩ := List.idxOf?_eq_some_iff.mp found
      obtain ⟨path, served, steps⟩ := h.tree.path inside
      simp only [served, plainPath, ← steps, h.root, h.len, h.anchor, List.map_map]
      rfl

end Attesta.Api

namespace Attesta.Api.TreeService

open Attesta.Merkle Attesta.Indexer

/-- What the handler answers from a tree that mirrors the leaves of its pool. -/
theorem State.finish_plain {s : State} {r : Nat} {pool commitment : String} {node : Node}
    {poolTree : PoolTree} {hasher : TreeHasher} {db : Db} {leaves : List Leaf}
    (parsed : parseNode commitment = .ok node)
    (mirrors : poolTree.Mirrors hasher db pool leaves)
    : (s.finish r poolTree (.path pool commitment)).answers
      = s.answers
        ++ [⟨.path pool commitment,
          (plainAnswer hasher pool leaves commitment).map TreeResponse.path⟩] := by
  cases leaves with
  | nil =>
      have empty : checkNonEmpty pool poolTree
          = .error (.notFound ("unknown or empty pool: " ++ pool)) := by
        simp [checkNonEmpty, mirrors.tree.isEmpty]
      rw [State.finish, TreeRequest.pool, empty, plainAnswer, parsed]
      rfl
  | cons leaf rest =>
      have passed := checkNonEmpty_eq mirrors (List.cons_ne_nil leaf rest)
      rw [State.finish, TreeRequest.pool, passed, plainAnswer, parsed]
      simp only [State.respond, State.answer, parsed, Except.bind, mirrors.pathAnswer]
      rfl

/-- At every moment of a run, on every replica that holds no tree lock, a call of `get_path` that
succeeds on its own answers for the whole gap-free list of stored leaves: with the place of the
commitment and its path, or that it is not there.
-/
theorem get_path_exact (codec : Codec) (hasher : TreeHasher) {s : State} {actions : List Action}
    (reached : Machine.run (step codec hasher) State.init actions = some s) (pool : String)
    : ∃ leaves,
        AllLeaves s.db pool leaves
        ∧ ∀ r, (s.replicas r).pendingInsert = none
          → ∀ commitment,
            Leads codec hasher r (.path pool commitment) s
              (s.answers
                ++ [⟨.path pool commitment,
                  (plainAnswer hasher pool leaves commitment).map TreeResponse.path⟩]) := by
  have sound := run_sound reached
  obtain ⟨leaves, all⟩ := sound.db.valid.exists_allLeaves hasher pool
  refine ⟨leaves, all, fun r idle commitment => ?_⟩
  cases parsed : parseNode commitment with
  | error e =>
      have refused
          : step codec hasher s (.request r (.path pool commitment) .ok)
            = some (s.answer (.path pool commitment) (.error e)) := by
        simp [step, idle, TreeRequest.validate, parsed, Except.map]
      rw [plainAnswer, parsed]
      exact Leads.step refused ⟨rfl, rfl, rfl⟩ (Leads.refl ..)
  | ok node =>
      have begun
          : step codec hasher s (.request r (.path pool commitment) .ok)
            = some (s.begin hasher r (.path pool commitment)) := by
        simp [step, idle, TreeRequest.validate, parsed, Except.map]
      obtain ⟨cached, mirrored⟩ := (sound.replicas r).trees pool
      obtain ⟨next, run, mirrors⟩ := topUp_all sound.db.valid mirrored all
      refine Leads.step begun ⟨rfl, rfl, rfl⟩ ?_
      simp only [State.begin, TreeRequest.pool, run]
      by_cases empty : (entriesFrom hasher leaves cached.length).isEmpty = true
      · rw [if_pos empty]
        have answered := State.finish_plain (s := s.setReplica r
          { s.replicas r with trees := (s.replicas r).trees.insert pool next }) (r := r)
          parsed mirrors
        exact ⟨[], _, by simp, rfl, answered⟩
      · rw [if_neg empty]
        set waiting := State.setReplica _ r _
        have inserted
            : step codec hasher waiting (.insert r .ok)
              = some (waiting.endInsert hasher r
                  ⟨.path pool commitment, entriesFrom hasher leaves cached.length⟩ .ok) := by
          simp [step, waiting]
        have cachedTree : (waiting.replicas r).trees.entry hasher pool = next := by
          simp [waiting]
        refine Leads.step inserted ⟨rfl, rfl⟩ ?_
        simp only [State.endInsert, TreeRequest.pool, cachedTree]
        exact ⟨[], _, by simp, rfl, State.finish_plain parsed mirrors⟩

/-- A replica that has cached one leaf answers for the second one as well. -/
theorem get_path_exact_second_leaf
    : ∃ s,
        Machine.run (step (sampleCodec 2) sampleHasher) State.init
            [sampleStore 0 42, .request 0 (.root "CPOOL" ⟨none, none⟩) .ok, .insert 0 .ok,
              sampleStore 1 43]
          = some s
        ∧ Leads (sampleCodec 2) sampleHasher 0 (.path "CPOOL" (Hex.hex0x (sampleLeaf 1))) s
            (s.answers
              ++ [⟨.path "CPOOL" (Hex.hex0x (sampleLeaf 1)),
                (plainAnswer sampleHasher "CPOOL" [⟨sampleLeaf 0, 42⟩, ⟨sampleLeaf 1, 43⟩]
                  (Hex.hex0x (sampleLeaf 1))).map TreeResponse.path⟩]) := by
  have observed
      : (Machine.run (step (sampleCodec 2) sampleHasher) State.init
            [sampleStore 0 42, .request 0 (.root "CPOOL" ⟨none, none⟩) .ok, .insert 0 .ok,
              sampleStore 1 43]).map
          (fun s =>
            ((List.range 3).map (leaf? s.db "CPOOL"), (s.replicas 0).pendingInsert.isNone))
        = some ([some ⟨sampleLeaf 0, 42⟩, some ⟨sampleLeaf 1, 43⟩, none], true) := by
    decide +kernel
  obtain ⟨s, ran, shape⟩ := Option.map_eq_some_iff.mp observed
  obtain ⟨table, idle⟩ := Prod.mk.inj shape
  obtain ⟨leaves, all, exact⟩ := get_path_exact (sampleCodec 2) sampleHasher ran "CPOOL"
  have known : AllLeaves s.db "CPOOL" [⟨sampleLeaf 0, 42⟩, ⟨sampleLeaf 1, 43⟩] :=
    allLeaves_of_range table
  obtain rfl := all.unique known
  exact ⟨s, ran, exact 0 (Option.isNone_iff_eq_none.mp idle) _⟩

end Attesta.Api.TreeService
