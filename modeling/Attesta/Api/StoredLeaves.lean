import Attesta.Api.HistoricalRoots
import Attesta.Indexer.KeyedTables

/-! From the events of a pool to the tree that is served for it. The indexer drops a leaf whose
commitment is stored already, and no top-up ever gets past the index it leaves open.
-/

namespace Attesta.Indexer

open Attesta.Merkle KeyedRows

/-- The commitment and the index a leaf event carries. -/
def newCommitment? (codec : Codec) (raw : RawEvent) : Option (Node × Int) :=
  match codec.decode raw with
  | some (.newCommitment commitment leafIndex _ _) => some (commitment, leafIndex)
  | _ => none

/-- The leaf events of the history carry these commitments and the indexes `0, 1, ...`. -/
def LeavesInOrder (codec : Codec) (events : List RawEvent) (commitments : List Node) : Prop :=
  events.filterMap (newCommitment? codec)
    = commitments.zipIdx.map (fun leaf => (leaf.1, (leaf.2 : Int)))

/-- The rows the indexer tries to insert for the events. -/
def leafRows (codec : Codec) (contractId : String) (events : List RawEvent)
    : List CommitmentRow :=
  (events.flatMap (storeRaw codec contractId)).filterMap Statement.leaf?

/-- The row of a leaf event of the contract. -/
def leafEventRow (contractId : String) (raw : RawEvent) (leaf : Node × Int) : CommitmentRow :=
  ⟨contractId, leaf.2, leaf.1.bytes, asI64 raw.ledger, raw.txHash⟩

theorem leaf?_storeRaw (codec : Codec) (contractId : String) (raw : RawEvent)
    : (storeRaw codec contractId raw).filterMap Statement.leaf?
      = ((newCommitment? codec raw).map (leafEventRow contractId raw)).toList := by
  unfold storeRaw newCommitment?
  cases codec.decode raw with
  | none => rfl
  | some event =>
      cases event with
      | newCommitment commitment leafIndex depositAmount asset =>
          cases depositAmount <;> cases asset <;> rfl
      | nullifierSpent | encryptedNote | withdrawal | issuerUpdated => rfl

/-- The rows have the contract as their pool and the events' commitments and indexes. -/
theorem leafRows_columns (codec : Codec) (contractId : String) (events : List RawEvent)
    : (leafRows codec contractId events).map
        (fun row => (row.pool, row.leafIndex, row.commitment))
      = (events.filterMap (newCommitment? codec)).map
          (fun leaf => (contractId, leaf.2, leaf.1.bytes)) := by
  induction events with
  | nil => rfl
  | cons raw rest ih =>
      rw [leafRows, List.flatMap_cons, List.filterMap_append, List.map_append, ← leafRows, ih,
        leaf?_storeRaw, List.filterMap_cons]
      cases newCommitment? codec raw <;> rfl

/-- Row `i` of an ordered history is the leaf of index `i`. -/
theorem LeavesInOrder.row {codec : Codec} {events : List RawEvent} {commitments : List Node}
    (h : LeavesInOrder codec events commitments) (contractId : String)
    : (leafRows codec contractId events).length = commitments.length
      ∧ ∀ i (inside : i < commitments.length)
          (within : i < (leafRows codec contractId events).length),
          ((leafRows codec contractId events)[i]).pool = contractId
          ∧ ((leafRows codec contractId events)[i]).leafIndex = i
          ∧ ((leafRows codec contractId events)[i]).commitment = commitments[i].bytes := by
  have columns := leafRows_columns codec contractId events
  rw [h, List.map_map] at columns
  have lengths : (leafRows codec contractId events).length = commitments.length := by
    simpa using congrArg List.length columns
  refine ⟨lengths, fun i inside within => ?_⟩
  have here := congrArg (fun rows => rows[i]?) columns
  simpa [inside, within] using here

/-- Without a repeated commitment no row of an ordered history conflicts with another. -/
theorem LeavesInOrder.noConflict {codec : Codec} {events : List RawEvent}
    {commitments : List Node} (h : LeavesInOrder codec events commitments)
    (distinct : commitments.Nodup) (contractId : String)
    : NoConflict CommitmentRow.conflict (leafRows codec contractId events) := by
  obtain ⟨lengths, row⟩ := h.row contractId
  refine List.pairwise_iff_getElem.mpr (fun i j iInside jInside before => ?_)
  obtain ⟨_, firstIndex, firstBytes⟩ := row i (lengths ▸ iInside) iInside
  obtain ⟨_, secondIndex, secondBytes⟩ := row j (lengths ▸ jInside) jInside
  have apart : commitments[j] ≠ commitments[i] := fun same =>
    before.ne' ((distinct.getElem_inj_iff).mp same)
  have bytes : commitments[j].bytes ≠ commitments[i].bytes := fun same =>
    apart (Node.bytes_injective same)
  simp [CommitmentRow.conflict, firstIndex, secondIndex, firstBytes, secondBytes, bytes]
  omega

end Attesta.Indexer

namespace Attesta.Api

open Attesta.Merkle Attesta.Indexer KeyedRows

-----------------------------------------------------------------------------------------
-- The tree of an ordered history
-----------------------------------------------------------------------------------------

/-- The tree holds exactly these leaves in this order, and its root is theirs. -/
def PoolTree.Holds (poolTree : PoolTree) (hasher : TreeHasher) (commitments : List Node) : Prop :=
  poolTree.tree.levels.get 0 = commitments
  ∧ poolTree.tree.root = hasher.scheme.root commitments treeDepth

theorem PoolTree.Mirrors.holds {hasher : TreeHasher} {db : Db} {pool : String}
    {poolTree : PoolTree} {leaves : List Leaf} (h : poolTree.Mirrors hasher db pool leaves)
    : poolTree.Holds hasher (leaves.map Leaf.node) := by
  refine ⟨?_, h.root⟩
  change poolTree.tree.levels[0] = _
  rw [h.tree.levels 0 (by decide), hasher.scheme.populated_zero]

/-- The leaves of a tree are stored, so no two of them are equal. -/
theorem PoolTree.Mirrors.nodup {hasher : TreeHasher} {db : Db} {pool : String}
    {poolTree : PoolTree} {leaves : List Leaf} (h : poolTree.Mirrors hasher db pool leaves)
    (valid : LeavesValid db)
    : (leaves.map Leaf.node).Nodup := by
  refine List.pairwise_map.mpr (List.pairwise_iff_getElem.mpr ?_)
  intro i j iInside jInside before same
  exact before.ne (valid.leaf?_injective (h.stored i iInside) (h.stored j jInside) same)

/-- Without a repeated commitment the whole history is a gap-free list of leaves. -/
theorem allLeaves_of_history {codec : Codec} {pool : String} {events : List RawEvent}
    {commitments : List Node} (history : LeavesInOrder codec events commitments)
    {db : Db} (valid : LeavesValid db) (stored : db.commitments = leafRows codec pool events)
    : ∃ leaves, AllLeaves db pool leaves ∧ leaves.map Leaf.node = commitments := by
  obtain ⟨lengths, row⟩ := history.row pool
  let leaves := List.zipWith (fun commitment row => (⟨commitment, row.ledger⟩ : Leaf)) commitments
    (leafRows codec pool events)
  have length : leaves.length = commitments.length := by simp [leaves, lengths]
  refine ⟨leaves, ⟨?_, ?_⟩, ?_⟩
  · intro i inside
    have within : i < (leafRows codec pool events).length := by omega
    obtain ⟨samePool, index, bytes⟩ := row i (by omega) within
    have member : (leafRows codec pool events)[i] ∈ db.commitments := by
      rw [stored]
      exact List.getElem_mem within
    have found := valid.leaf?_of_mem member index bytes
    rw [samePool] at found
    simpa [leaves] using found
  · rw [Option.eq_none_iff_forall_ne_some]
    intro leaf found
    obtain ⟨other, member, _, index, _⟩ := exists_row_of_leaf? found
    rw [stored] at member
    obtain ⟨j, within, same⟩ := List.getElem_of_mem member
    obtain ⟨_, indexAt, _⟩ := row j (by omega) within
    rw [same, index] at indexAt
    omega
  · refine List.ext_getElem (by simp [length]) (fun i _ _ => ?_)
    simp [leaves]

/-- The first leaf of an ordered history is stored, whatever comes after it. -/
theorem exists_first_leaf {codec : Codec} {pool : String} {events : List RawEvent}
    {commitments : List Node} (history : LeavesInOrder codec events commitments)
    (nonempty : commitments ≠ []) {db : Db} (valid : LeavesValid db)
    (stored
      : db.commitments = insertAllIgnore CommitmentRow.conflict [] (leafRows codec pool events))
    : ∃ leaf, leaf? db pool 0 = some leaf := by
  obtain ⟨lengths, row⟩ := history.row pool
  have inside : 0 < commitments.length := List.length_pos_iff.mpr nonempty
  have within : 0 < (leafRows codec pool events).length := by omega
  obtain ⟨samePool, index, bytes⟩ := row 0 inside within
  have member : (leafRows codec pool events)[0] ∈ db.commitments := by
    rw [stored]
    obtain ⟨first, rest, shape⟩ := List.exists_cons_of_length_pos within
    have kept : [first] <+: insertAllIgnore CommitmentRow.conflict [] (first :: rest) :=
      prefix_insertAllIgnore CommitmentRow.conflict [first] rest
    simp only [shape, List.getElem_cons_zero]
    exact kept.subset (by simp)
  have found := valid.leaf?_of_mem member index bytes
  rw [samePool] at found
  exact ⟨_, found⟩

end Attesta.Api

namespace Attesta.Api.TreeService

open Attesta.Merkle Attesta.Indexer KeyedRows

/-- A call of `sync_pool_tree` gives the tree of all leaves up to the first gap. -/
theorem syncPoolTree_spec {hasher : TreeHasher} {s : State} (sound : s.Sound hasher) (r : Nat)
    (pool : String)
    : ∃ poolTree db leaves,
        syncPoolTree hasher s.db (s.replicas r).trees pool
          = some (checkNonEmpty pool poolTree, db)
        ∧ poolTree.Mirrors hasher s.db pool leaves
        ∧ AllLeaves s.db pool leaves := by
  obtain ⟨cached, mirrored⟩ := (sound.replicas r).trees pool
  obtain ⟨next, more, run, mirrors⟩ := topUp_spec sound.db.valid mirrored
  have ended := topUp_stops sound.db.valid mirrored run
  rw [mirrors.len] at ended
  exact ⟨next, _, cached ++ more, by rw [syncPoolTree, run], mirrors, mirrors.stored, ended⟩

/-- Once the indexer has passed the whole history of a pool whose leaf events are in order, a
successful `sync_pool_tree` of any replica gives the tree of all its commitments exactly if no
commitment comes twice. The call succeeds as soon as there is a commitment.
-/
theorem leaves_complete_iff (rpc : Sync.Rpc) (codec : Codec) (hasher : TreeHasher)
    (pool : String) {indexed : Sync.State} {indexing : List Sync.Action}
    (documented
      : Machine.Along (Sync.step codec pool) (Sync.Documented rpc pool) Sync.State.init indexing)
    (ran : Machine.run (Sync.step codec pool) Sync.State.init indexing = some indexed)
    (atEnd : Sync.AtEnd rpc pool indexed) {commitments : List Node}
    (history : LeavesInOrder codec indexed.chain.events commitments) {s : State}
    {actions : List Action}
    (reached : Machine.run (step codec hasher) State.init actions = some s)
    (shared : s.db.commitments = indexed.db.commitments) (r : Nat)
    : (∀ poolTree db,
        syncPoolTree hasher s.db (s.replicas r).trees pool = some (.ok poolTree, db)
        → (poolTree.Holds hasher commitments ↔ commitments.Nodup))
      ∧ (commitments ≠ []
        → ∃ poolTree db,
            syncPoolTree hasher s.db (s.replicas r).trees pool = some (.ok poolTree, db)) := by
  have sound := run_sound reached
  obtain ⟨final, database, leaves, synced, mirrors, all⟩ := syncPoolTree_spec sound r pool
  have table : s.db.commitments
      = insertAllIgnore CommitmentRow.conflict [] (leafRows codec pool indexed.chain.events) := by
    have tables := Sync.keyedTables_replay rpc codec pool documented ran atEnd
    rw [onePass, foldl_apply] at tables
    exact shared.trans (congrArg KeyedTables.commitments tables)
  constructor
  · intro poolTree db given
    have passed : checkNonEmpty pool final = .ok poolTree :=
      congrArg Prod.fst (Option.some.inj (synced.symm.trans given))
    obtain rfl : final = poolTree := by
      unfold checkNonEmpty at passed
      split at passed
      · cases passed
      · exact Except.ok.inj passed
    constructor
    · intro holds
      have distinct := mirrors.nodup sound.db.valid
      rwa [← mirrors.holds.1, holds.1] at distinct
    · intro distinct
      rw [(history.noConflict distinct pool).insertAllIgnore_nil] at table
      obtain ⟨expected, complete, nodes⟩ := allLeaves_of_history history sound.db.valid table
      rw [← nodes, ← all.unique complete]
      exact mirrors.holds
  · intro nonempty
    have some : leaves ≠ [] := by
      intro none
      have ended := all.ended
      obtain ⟨leaf, found⟩ := exists_first_leaf history nonempty sound.db.valid table
      rw [none, List.length_nil, found] at ended
      cases ended
    exact ⟨final, database, by rw [synced, checkNonEmpty_eq mirrors some]⟩

/-- Two deposits, one ledger after the other. -/
def twoDeposits : List RawEvent :=
  [sampleEvent "new_commitment" (sampleDeposit 0) 42,
    sampleEvent "new_commitment" (sampleDeposit 1) 43]

/-- Each is fetched and stored with a page of its own. -/
def twoPages : List Sync.Action :=
  [.grow twoDeposits 43, .start true,
    .respond 0 ⟨twoDeposits.take 1, some (Sync.sampleRpc.cursorAt 1), 43⟩,
    .statement .ok, .statement .ok, .nextEvent, .persist .ok,
    .respond 1 ⟨twoDeposits.drop 1, some (Sync.sampleRpc.cursorAt 2), 43⟩,
    .statement .ok, .statement .ok, .nextEvent]

/-- A replica has cached the tree of the first leaf when the second is stored. -/
def cachedBetween : List Action :=
  [sampleStore 0 42, .request 0 (liveRequest "CPOOL") .ok, .insert 0 .ok, sampleStore 1 43]

theorem leaves_complete_two
    : ∃ indexed s poolTree db,
        Machine.run (Sync.step (sampleCodec 2) "CPOOL") Sync.State.init twoPages = some indexed
        ∧ Machine.run (step (sampleCodec 2) sampleHasher) State.init cachedBetween = some s
        ∧ syncPoolTree sampleHasher s.db (s.replicas 0).trees "CPOOL" = some (.ok poolTree, db)
        ∧ poolTree.Holds sampleHasher [sampleLeaf 0, sampleLeaf 1] := by
  have observed
      : (Machine.run (Sync.step (sampleCodec 2) "CPOOL") Sync.State.init twoPages).map
          (fun s => (decide (Sync.AtEnd Sync.sampleRpc "CPOOL" s), s.db.commitments,
            s.chain.events.filterMap (newCommitment? (sampleCodec 2))))
        = some (true,
            [⟨"CPOOL", 0, (sampleLeaf 0).bytes, 42, "abc"⟩,
              ⟨"CPOOL", 1, (sampleLeaf 1).bytes, 43, "abc"⟩],
            [(sampleLeaf 0, 0), (sampleLeaf 1, 1)]) := by
    decide +kernel
  have documented
      : Machine.Along (Sync.step (sampleCodec 2) "CPOOL") (Sync.Documented Sync.sampleRpc "CPOOL")
          Sync.State.init twoPages := by
    decide +kernel
  have served
      : (Machine.run (step (sampleCodec 2) sampleHasher) State.init cachedBetween).map
          (fun s => s.db.commitments)
        = some [⟨"CPOOL", 0, (sampleLeaf 0).bytes, 42, "abc"⟩,
            ⟨"CPOOL", 1, (sampleLeaf 1).bytes, 43, "abc"⟩] := by
    decide +kernel
  obtain ⟨indexed, ran, shape⟩ := Option.map_eq_some_iff.mp observed
  obtain ⟨s, reached, table⟩ := Option.map_eq_some_iff.mp served
  simp only [Prod.mk.injEq, decide_eq_true_eq] at shape
  obtain ⟨atEnd, stored, history⟩ := shape
  have inOrder
      : LeavesInOrder (sampleCodec 2) indexed.chain.events [sampleLeaf 0, sampleLeaf 1] :=
    history
  obtain ⟨exactly, succeeds⟩ := leaves_complete_iff Sync.sampleRpc (sampleCodec 2) sampleHasher
    "CPOOL" documented ran atEnd inOrder reached (table.trans stored.symm) 0
  obtain ⟨poolTree, db, synced⟩ := succeeds (List.cons_ne_nil _ _)
  have distinct : [sampleLeaf 0, sampleLeaf 1].Nodup := by decide
  exact ⟨indexed, s, poolTree, db, ran, reached, synced, (exactly poolTree db synced).mpr distinct⟩

/-- The payload of a leaf event without a public amount. -/
def repeatedLeaf (i : Nat) : String :=
  "\x7b\"commitment\":\"" ++ Hex.hex0x (sampleLeaf 0) ++ "\",\"leaf_index\":" ++ toString i
    ++ "\x7d"

def repeatedCodec : Codec :=
  .plainText
    ((List.range 2).map (fun i =>
      (repeatedLeaf i, ⟨Hex.hex0x (sampleLeaf 0), i, none, none⟩)))
    []

/-- Two leaves of the contract have the same commitment. -/
def repeatedHistory : List RawEvent :=
  (List.range 2).map (fun i => sampleEvent "new_commitment" (repeatedLeaf i) 42)

def repeatedPage : List Sync.Action :=
  [.grow repeatedHistory 42, .start true,
    .respond 0 ⟨repeatedHistory, some (Sync.sampleRpc.cursorAt 2), 42⟩,
    .statement .ok, .nextEvent, .statement .ok, .nextEvent]

/-- The second of two equal commitments is dropped, and the tree stays at one leaf for good. -/
theorem repeated_commitment_dropped
    : ∃ indexed s poolTree db,
        Machine.run (Sync.step repeatedCodec "CPOOL") Sync.State.init repeatedPage = some indexed
        ∧ Machine.Along (Sync.step repeatedCodec "CPOOL")
            (Sync.Documented Sync.sampleRpc "CPOOL") Sync.State.init repeatedPage
        ∧ Sync.AtEnd Sync.sampleRpc "CPOOL" indexed
        ∧ LeavesInOrder repeatedCodec indexed.chain.events [sampleLeaf 0, sampleLeaf 0]
        ∧ Machine.run (step repeatedCodec sampleHasher) State.init
            (repeatedHistory.map (fun raw => .store "CPOOL" raw 1)) = some s
        ∧ s.db.commitments = indexed.db.commitments
        ∧ syncPoolTree sampleHasher s.db (s.replicas 0).trees "CPOOL" = some (.ok poolTree, db)
        ∧ ¬ poolTree.Holds sampleHasher [sampleLeaf 0, sampleLeaf 0] := by
  have observed
      : (Machine.run (Sync.step repeatedCodec "CPOOL") Sync.State.init repeatedPage).map
          (fun s => (decide (Sync.AtEnd Sync.sampleRpc "CPOOL" s), s.db.commitments,
            s.chain.events.filterMap (newCommitment? repeatedCodec)))
        = some (true, [⟨"CPOOL", 0, (sampleLeaf 0).bytes, 42, "abc"⟩],
            [(sampleLeaf 0, 0), (sampleLeaf 0, 1)]) := by
    decide +kernel
  have documented
      : Machine.Along (Sync.step repeatedCodec "CPOOL") (Sync.Documented Sync.sampleRpc "CPOOL")
          Sync.State.init repeatedPage := by
    decide +kernel
  have served
      : (Machine.run (step repeatedCodec sampleHasher) State.init
          (repeatedHistory.map (fun raw => .store "CPOOL" raw 1))).map
          (fun s => (s.db.commitments,
            (syncPoolTree sampleHasher s.db (s.replicas 0).trees "CPOOL").map (fun synced =>
              synced.1.toOption.map (fun poolTree => poolTree.tree.levels[0]))))
        = some ([⟨"CPOOL", 0, (sampleLeaf 0).bytes, 42, "abc"⟩], some (some [sampleLeaf 0])) := by
    decide +kernel
  obtain ⟨indexed, ran, shape⟩ := Option.map_eq_some_iff.mp observed
  obtain ⟨s, reached, tables⟩ := Option.map_eq_some_iff.mp served
  simp only [Prod.mk.injEq, decide_eq_true_eq] at shape tables
  obtain ⟨atEnd, stored, history⟩ := shape
  obtain ⟨table, answer⟩ := tables
  obtain ⟨⟨synced, db⟩, called, leaves⟩ := Option.map_eq_some_iff.mp answer
  cases synced with
  | error e => cases leaves
  | ok poolTree =>
      refine ⟨indexed, s, poolTree, db, ran, documented, atEnd, history, reached,
        table.trans stored.symm, called, ?_⟩
      intro holds
      have both := (Option.some.inj leaves).symm.trans holds.1
      simp at both

end Attesta.Api.TreeService
