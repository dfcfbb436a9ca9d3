import Attesta.Api.TreeSafety
import Attesta.Foundation.WriteBehind

/-! Completeness of the root history. Seen from one API process, a pool's cached tree and its
`tree_roots` rows are a write-behind log of leaf counts: a top-up counts its leaves in memory
before their batch is stored, and a batch that gets lost is never rebuilt by that process.
-/

namespace Attesta.Api.TreeService

open Attesta.Merkle Attesta.Indexer KeyedRows WriteBehind

/-- `tree_roots` has a row for the pool at this leaf count. -/
def Stored (db : Db) (pool : String) (k : Nat) : Prop :=
  ∃ row ∈ db.treeRoots, row.pool = pool ∧ row.leafCount = k

/-- The number of history entries of the pool that wait for their INSERT. -/
def Replica.waitingFor (replica : Replica) (pool : String) : Nat :=
  match replica.pendingInsert with
  | some pending => if pending.request.pool = pool then pending.newRoots.length else 0
  | none => 0

/-- The history of a pool as one replica maintains it. -/
def Replica.log (hasher : TreeHasher) (db : Db) (pool : String) (replica : Replica) : Log where
  appended := (replica.trees.entry hasher pool).tree.len
  settled := (replica.trees.entry hasher pool).tree.len - replica.waitingFor pool
  stored := {k | Stored db pool k}

/-- A process that has just started has nothing to lose. -/
theorem Replica.fresh_covered (hasher : TreeHasher) (db : Db) (pool : String)
    : (Replica.fresh.log hasher db pool).Covered := by
  intro k bounds
  obtain ⟨positive, counted⟩ := bounds
  simp [Replica.log, Replica.fresh, Trees.entry, PoolTree.new, (new_represents hasher).len]
    at counted
  omega

def State.log (hasher : TreeHasher) (r : Nat) (pool : String) (s : State) : Log :=
  (s.replicas r).log hasher s.db pool

/-- The INSERT of a waiting batch of the pool ends without having been applied, although the
history lacks one of its leaf counts.
-/
def Lossy (pool : String) (s : State) : Action → Prop
  | .insert r outcome =>
      outcome.applied = false
      ∧ ∃ pending, (s.replicas r).pendingInsert = some pending ∧ pending.request.pool = pool
          ∧ ∃ entry ∈ pending.newRoots, ∃ k : Nat, entry.leafCount = k ∧ ¬ Stored s.db pool k
  | _ => False

/-- Entries of a batch are consecutive leaf counts that end at the length of the tree. -/
theorem entriesFrom_leafCount {hasher : TreeHasher} {leaves : List Leaf} {start k : Nat}
    : (∃ entry ∈ entriesFrom hasher leaves start, entry.leafCount = (k : Int))
      ↔ start < k ∧ k ≤ leaves.length := by
  constructor
  · intro waiting
    obtain ⟨entry, member, count⟩ := waiting
    obtain ⟨j, above, below, rfl⟩ := mem_entriesFrom.mp member
    simp only [historyEntry, List.length_take, Nat.min_eq_left below, Nat.cast_inj] at count
    exact count ▸ ⟨above, below⟩
  · intro bounds
    obtain ⟨above, below⟩ := bounds
    exact ⟨_, mem_entriesFrom.mpr ⟨k, above, below, rfl⟩, by simp [historyEntry, below]⟩

@[simp]
theorem length_entriesFrom (hasher : TreeHasher) (leaves : List Leaf) (start : Nat)
    : (entriesFrom hasher leaves start).length = leaves.length - start := by
  simp [entriesFrom]

theorem stored_congr {db next : Db} (same : next.treeRoots = db.treeRoots) {pool : String}
    {k : Nat}
    : Stored next pool k ↔ Stored db pool k := by
  simp only [Stored, same]

/-- A stored batch adds its leaf counts to its own pool and nothing else. -/
theorem stored_insertTreeRoots {db : Db} {target pool : String} {newRoots : List RootEntry}
    {k : Nat}
    : Stored (insertTreeRoots db target newRoots) pool k
      ↔ Stored db pool k
        ∨ target = pool ∧ ∃ entry ∈ newRoots, entry.leafCount = (k : Int) := by
  constructor
  · intro stored
    obtain ⟨row, member, samePool, count⟩ := stored
    rcases mem_insertTreeRoots member with old | ⟨entry, new, rfl⟩
    · exact Or.inl ⟨row, old, samePool, count⟩
    · exact Or.inr ⟨samePool, entry, new, count⟩
  · rintro (⟨row, member, samePool, count⟩ | ⟨rfl, entry, new, count⟩)
    · exact ⟨row, (prefix_insertAllIgnore _ _ _).subset member, samePool, count⟩
    · obtain ⟨row, member, found⟩ := exists_of_insertAllIgnore TreeRootRow.conflict
        db.treeRoots (List.mem_map_of_mem (f := entryRow target) new)
      rcases found with rfl | clash
      · exact ⟨_, member, rfl, count⟩
      · simp only [TreeRootRow.conflict, entryRow, Bool.and_eq_true, beq_iff_eq] at clash
        exact ⟨row, member, clash.1.symm, clash.2.symm.trans count⟩

/-- What the waiting entries of the log are in terms of the waiting batch. -/
theorem State.Sound.waiting_iff {hasher : TreeHasher} {s : State} (h : s.Sound hasher) {r : Nat}
    {pool : String} {k : Nat}
    : k ∈ (s.log hasher r pool).waiting
      ↔ ∃ pending, (s.replicas r).pendingInsert = some pending ∧ pending.request.pool = pool
          ∧ ∃ entry ∈ pending.newRoots, entry.leafCount = (k : Int) := by
  simp only [State.log, Replica.log, Log.waiting, Set.mem_Ioc, Replica.waitingFor]
  cases waiting : (s.replicas r).pendingInsert with
  | none => simp
  | some pending =>
      obtain ⟨leaves, start, below, mirrors, batch⟩ := (h.replicas r).pending pending waiting
      by_cases samePool : pending.request.pool = pool
      · subst samePool
        simp only [if_true, mirrors.len, batch, length_entriesFrom, Option.some.injEq,
          exists_eq_left', true_and, entriesFrom_leafCount]
        rw [Nat.sub_sub_self (Nat.le_of_lt below)]
      · simp [samePool]

theorem State.Sound.lossy_iff {hasher : TreeHasher} {s : State} (h : s.Sound hasher) {r : Nat}
    {pool : String} {outcome : InsertOutcome}
    : Lossy pool s (.insert r outcome)
      ↔ ¬ outcome.applied = true
        ∧ ∃ k ∈ (s.log hasher r pool).waiting, k ∉ (s.log hasher r pool).stored := by
  simp only [Lossy, h.waiting_iff, Bool.not_eq_true]
  constructor
  · rintro ⟨unapplied, pending, waiting, samePool, entry, member, k, count, missing⟩
    exact ⟨unapplied, k, ⟨pending, waiting, samePool, entry, member, count⟩, missing⟩
  · rintro ⟨unapplied, k, ⟨pending, waiting, samePool, entry, member, count⟩, missing⟩
    exact ⟨unapplied, pending, waiting, samePool, entry, member, k, count, missing⟩

-----------------------------------------------------------------------------------------
-- Every step is a step of the log
-----------------------------------------------------------------------------------------

/-- The batch of a top-up only waits for its own pool. -/
theorem Replica.waitingFor_batch (trees : Trees) (request : TreeRequest)
    (newRoots : List RootEntry) (lookups : List (String × RootQuery)) (pool : String)
    : Replica.waitingFor
        ⟨trees, if newRoots.isEmpty then none else some ⟨request, newRoots⟩, lookups⟩ pool
      = if request.pool = pool then newRoots.length else 0 := by
  cases newRoots <;> simp [Replica.waitingFor]

/-- A top-up of the pool counts the new leaves; a top-up of another pool changes nothing. -/
theorem State.Sound.log_begin {hasher : TreeHasher} {s : State} (h : s.Sound hasher) {r : Nat}
    (idle : (s.replicas r).pendingInsert = none) (request : TreeRequest) (pool : String)
    : ∃ n, (s.begin hasher r request).log hasher r pool = (s.log hasher r pool).advance n := by
  obtain ⟨leaves, mirrored⟩ := (h.replicas r).trees request.pool
  obtain ⟨next, more, run, mirrors⟩ := topUp_spec h.db.valid mirrored
  obtain ⟨lookups, replica⟩ := s.begin_replica idle run
  simp only [State.log, State.begin_db, replica, Replica.log, Replica.waitingFor_batch]
  by_cases samePool : request.pool = pool
  · subst samePool
    exact ⟨more.length, by simp [mirrors.len, mirrored.len, Log.advance]⟩
  · refine ⟨0, ?_⟩
    simp [samePool, Trees.entry_insert_of_ne hasher _ _ (Ne.symm samePool), Log.advance]

/-- The end of an INSERT of the replica gives up its batch. -/
theorem State.Sound.log_endInsert {hasher : TreeHasher} {s : State} (h : s.Sound hasher)
    {r : Nat} {pending : PendingInsert} (waiting : (s.replicas r).pendingInsert = some pending)
    (outcome : InsertOutcome) (pool : String)
    : (s.endInsert hasher r pending outcome).log hasher r pool
      = (s.log hasher r pool).flush (outcome.applied = true) := by
  obtain ⟨lookups, replica⟩ := s.endInsert_replica hasher r pending outcome
  apply Log.ext
  · simp [State.log, Replica.log, replica, Log.flush]
  · simp [State.log, Replica.log, replica, Log.flush, Replica.waitingFor]
  · ext k
    have batch : k ∈ (s.log hasher r pool).waiting ↔ _ := h.waiting_iff
    simp only [waiting, Option.some.injEq, exists_eq_left'] at batch
    simp only [Log.flush, Set.mem_ofPred_eq, batch]
    simp only [State.log, Replica.log, Set.mem_ofPred_eq, State.endInsert_db]
    cases outcome.applied with
    | true => simp [stored_insertTreeRoots]
    | false => simp

/-- Any other step of the indexer or of the process keeps the log or counts new leaves. -/
theorem step_log {codec : Codec} {hasher : TreeHasher} {r : Nat} {s t : State}
    {action : Action} (sound : s.Sound hasher) (own : action.OfProcess r)
    (other : ∀ outcome, action ≠ .insert r outcome)
    (stepped : step codec hasher s action = some t) (pool : String)
    : t.log hasher r pool = s.log hasher r pool
      ∨ ∃ n, (s.log hasher r pool).Idle
          ∧ t.log hasher r pool = (s.log hasher r pool).advance n := by
  cases step_effect stepped with
  | stored executed =>
      refine Or.inl ?_
      simp [State.log, Replica.log, Stored, execAll_treeRoots executed]
  | refused => exact Or.inl rfl
  | @begun r' request idle _ =>
      obtain rfl : r' = r := own
      obtain ⟨n, advanced⟩ := sound.log_begin idle request pool
      refine Or.inr ⟨n, ?_, advanced⟩
      simp [State.log, Replica.log, Log.Idle, Replica.waitingFor, idle]
  | @unread r' request idle _ | @dropped r' request idle _ =>
      obtain rfl : r' = r := own
      refine Or.inl ?_
      simp [State.createEntry, State.log, Replica.log, Replica.waitingFor, idle]
  | @inserted r' pending outcome _ =>
      obtain rfl : r' = r := own
      exact absurd rfl (other outcome)
  | @lookedUp r' position target query outcome _ =>
      obtain rfl : r' = r := own
      refine Or.inl ?_
      cases outcome <;> simp [State.endLookup, State.log, Replica.log, Replica.waitingFor]
  | restarted => cases own

/-- One step loses an entry of the history exactly if it is lossy. -/
theorem step_covered_iff {codec : Codec} {hasher : TreeHasher} {r : Nat} {s t : State}
    {action : Action} (sound : s.Sound hasher) (own : action.OfProcess r)
    (stepped : step codec hasher s action = some t) (pool : String)
    : (t.log hasher r pool).Covered
      ↔ (s.log hasher r pool).Covered ∧ ¬ Lossy pool s action := by
  by_cases insert : ∃ outcome, action = .insert r outcome
  · obtain ⟨outcome, rfl⟩ := insert
    obtain ⟨pending, waiting, rfl⟩ := Option.map_eq_some_iff.mp stepped
    rw [sound.log_endInsert waiting outcome pool, Log.covered_flush_iff, sound.lossy_iff]
  · have other : ∀ outcome, action ≠ .insert r outcome := fun outcome same =>
      insert ⟨outcome, same⟩
    have kept : ¬ Lossy pool s action := by
      cases action with
      | insert r' outcome => exact absurd (congrArg (Action.insert · outcome) own) (other outcome)
      | _ => exact id
    rw [and_iff_left kept]
    rcases step_log sound own other stepped pool with same | ⟨n, idle, advanced⟩
    · rw [same]
    · rw [advanced, Log.covered_advance_iff idle]

-----------------------------------------------------------------------------------------
-- Complete histories
-----------------------------------------------------------------------------------------

/-- The history has the row of the first `k + 1` leaves, and `get_root` finds it. -/
def HistoryHas (hasher : TreeHasher) (db : Db) (pool : String) (k : Nat) : Prop :=
  ∃ leaves leaf,
    LeafPrefix db pool (leaves ++ [leaf])
    ∧ leaves.length = k
    ∧ (⟨pool, k + 1, (rootOf hasher (leaves ++ [leaf])).bytes, leaf.ledger⟩ : TreeRootRow)
        ∈ db.treeRoots
    ∧ historyAnswer db pool { atLedger := none, atLeafCount := some (k + 1) }
      = .ok
        { pool
          root := Hex.hex0x (rootOf hasher (leaves ++ [leaf]))
          leafCount := k + 1
          anchoredLedger := leaf.ledger }

/-- `tree_roots` has the right row for every leaf count up to `n`. -/
def HistoryComplete (hasher : TreeHasher) (db : Db) (pool : String) (n : Nat) : Prop :=
  ∀ k < n, HistoryHas hasher db pool k

/-- The lookup by leaf count answers the row of exactly that count if there is one. -/
theorem DbSound.historyRow_eq {hasher : TreeHasher} {db : Db} (h : DbSound hasher db)
    {row : TreeRootRow} (stored : row ∈ db.treeRoots)
    : historyRow db row.pool { atLedger := none, atLeafCount := some row.leafCount }
      = some row := by
  have covered : RootQuery.covers { atLedger := none, atLeafCount := some row.leafCount } row
      = true := by
    simp [RootQuery.covers]
  obtain ⟨answer, found⟩ := exists_historyRow stored rfl covered
  obtain ⟨member, samePool, below, newest⟩ := historyRow_spec found
  have above := newest row stored rfl covered
  simp only [RootQuery.covers, Option.getD_some, decide_eq_true_eq] at below
  have clash : answer.conflict row = true := by
    simp [TreeRootRow.conflict, samePool, Int.le_antisymm below above]
  have comm (a b : TreeRootRow) : a.conflict b = b.conflict a := by
    simp only [TreeRootRow.conflict, Bool.beq_comm]
  rw [found, h.uniqueRoots.eq_of_conflict comm member stored clash]

/-- A recorded row of a pool: the leaves it covers, the last of them giving its ledger. -/
theorem DbSound.exists_leaves {hasher : TreeHasher} {db : Db} (h : DbSound hasher db)
    {row : TreeRootRow} (stored : row ∈ db.treeRoots)
    : ∃ leaves leaf,
        LeafPrefix db row.pool (leaves ++ [leaf])
        ∧ row.leafCount = (leaves.length + 1 : Nat)
        ∧ row.root = (rootOf hasher (leaves ++ [leaf])).bytes
        ∧ row.ledger = leaf.ledger := by
  obtain ⟨all, nonempty, prefixed, shape⟩ := h.rows row stored
  obtain ⟨leaves, leaf, rfl⟩ : ∃ leaves leaf, all = leaves ++ [leaf] :=
    ⟨_, _, (List.dropLast_concat_getLast nonempty).symm⟩
  refine ⟨leaves, leaf, prefixed, ?_, congrArg TreeRootRow.root shape, ?_⟩
  · exact (congrArg TreeRootRow.leafCount shape).trans (by simp [entryRow, historyEntry])
  · exact (congrArg TreeRootRow.ledger shape).trans (by simp [entryRow, historyEntry])

/-- Any row stored for a leaf count is the right one, and the one the lookup finds. -/
theorem DbSound.stored_iff {hasher : TreeHasher} {db : Db} (h : DbSound hasher db)
    {pool : String} {k : Nat}
    : Stored db pool (k + 1) ↔ HistoryHas hasher db pool k := by
  constructor
  · rintro ⟨row, member, rfl, count⟩
    obtain ⟨leaves, leaf, stored, length, root, ledger⟩ := h.exists_leaves member
    rw [count, Nat.cast_inj] at length
    have found := h.historyRow_eq member
    have bytes : Node.ofBytes? row.root = some (rootOf hasher (leaves ++ [leaf])) := by
      rw [root]
      exact Node.ofBytes?_bytes _
    refine ⟨leaves, leaf, stored, by omega, ?_, ?_⟩
    · rw [← root, ← ledger, ← Nat.cast_succ, ← count]
      exact member
    · rw [count, Nat.cast_add, Nat.cast_one] at found
      simp [historyAnswer, found, bytes, count, ledger, pure, Except.pure]
  · rintro ⟨leaves, leaf, _, _, member, _⟩
    exact ⟨_, member, rfl, rfl⟩

/-- The action ends a `sync_pool_tree` call for the pool with `Ok`. -/
def SyncReturnsOk (hasher : TreeHasher) (r : Nat) (pool : String) (s : State) : Action → Prop
  | .request r' request .ok =>
      r' = r ∧ request.pool = pool ∧ request.validate = .ok ()
      ∧ ∃ poolTree,
          topUp hasher s.db (s.replicas r).trees pool = (poolTree, [], none)
          ∧ poolTree.tree.isEmpty = false
  | .insert r' .ok =>
      r' = r ∧ ∃ pending, (s.replicas r).pendingInsert = some pending
        ∧ pending.request.pool = pool
  | _ => False

/-- The log counts the history entries, so its completeness is that of the history. -/
theorem State.Sound.complete_iff {hasher : TreeHasher} {s : State} (h : s.Sound hasher) (r : Nat)
    (pool : String)
    : (s.log hasher r pool).Complete
      ↔ HistoryComplete hasher s.db pool ((s.replicas r).trees.entry hasher pool).tree.len := by
  constructor
  · intro complete k below
    exact h.db.stored_iff.mp (complete (k + 1) ⟨Nat.succ_pos k, below⟩)
  · intro history k bounds
    obtain ⟨positive, below⟩ := bounds
    obtain ⟨j, rfl⟩ : ∃ j, k = j + 1 := ⟨k - 1, by omega⟩
    exact h.db.stored_iff.mpr (history j below)

/-- A call that returns `Ok` is a step of its process, loses nothing and leaves no batch. -/
theorem SyncReturnsOk.settles {codec : Codec} {hasher : TreeHasher} {r : Nat} {pool : String}
    {s t : State} {action : Action} (sound : s.Sound hasher)
    (h : SyncReturnsOk hasher r pool s action) (stepped : step codec hasher s action = some t)
    : action.OfProcess r ∧ ¬ Lossy pool s action ∧ (t.log hasher r pool).Idle := by
  cases action with
  | request r' request select =>
      cases select with
      | ok =>
          obtain ⟨rfl, rfl, valid, poolTree, run, _⟩ := h
          simp only [step, valid] at stepped
          split at stepped
          next => cases stepped
          next idle =>
            obtain rfl := Option.some.inj stepped
            obtain ⟨lookups, replica⟩ := s.begin_replica (by simpa using idle) run
            exact ⟨rfl, id, by simp [State.log, Replica.log, Log.Idle, replica,
              Replica.waitingFor]⟩
      | failed => cases h
      | cancelled => cases h
  | insert r' outcome =>
      cases outcome with
      | ok =>
          obtain ⟨rfl, _⟩ := h
          obtain ⟨pending, waiting, rfl⟩ := Option.map_eq_some_iff.mp stepped
          refine ⟨rfl, ?_, ?_⟩
          · rintro ⟨unapplied, _⟩
            cases unapplied
          · rw [sound.log_endInsert waiting .ok pool]
            rfl
      | failed => cases h
      | cancelled => cases h
  | store | lookup | restart => cases h

/-- In the life of one API process, started on any database the system can have produced, a
`sync_pool_tree` call that returns `Ok` leaves a complete history exactly if no INSERT of the
pool got lost before. One lost batch is never repaired by the same process.
-/
theorem history_complete_iff (codec : Codec) (hasher : TreeHasher) {r : Nat} {pool : String}
    {start s t : State} {actions : List Action} {last : Action}
    (reached : Machine.Reachable (step codec hasher) State.init start)
    (started : start.replicas r = Replica.fresh) (own : ∀ action ∈ actions, action.OfProcess r)
    (ran : Machine.run (step codec hasher) start actions = some s)
    (returns : SyncReturnsOk hasher r pool s last)
    (stepped : step codec hasher s last = some t)
    : HistoryComplete hasher t.db pool ((t.replicas r).trees.entry hasher pool).tree.len
      ↔ Machine.Along (step codec hasher) (fun s action => ¬ Lossy pool s action) start
          actions := by
  obtain ⟨earlier, reaches⟩ := reached
  have startSound := run_sound reaches
  have sound : s.Sound hasher :=
    Machine.invariant (fun _ _ _ sound stepped => step_sound sound stepped) startSound ran
  obtain ⟨ownLast, kept, idle⟩ := returns.settles sound stepped
  have empty : (start.log hasher r pool).Covered := by
    rw [State.log, started]
    exact Replica.fresh_covered hasher start.db pool
  have along := Machine.along_iff (fun _ action => action.OfProcess r)
    (fun s => (s.log hasher r pool).Covered) (fun s action => ¬ Lossy pool s action)
    (fun _ _ _ _ sound stepped => step_sound sound stepped)
    (fun _ _ _ own sound stepped => step_covered_iff sound own stepped pool)
    startSound (Machine.along_of_forall own start) ran
  rw [← (step_sound sound stepped).complete_iff r pool, ← idle.covered_iff,
    step_covered_iff sound ownLast stepped pool, and_iff_left kept, along, and_iff_right empty]

/-- The INSERT of the first leaf is applied although it is reported to have failed. -/
def appliedInsert : List Action :=
  [sampleStore 0 42, .request 0 (liveRequest "CPOOL") .ok, .insert 0 (.failed true),
    sampleStore 1 43, .request 0 (liveRequest "CPOOL") .ok]

theorem history_complete_applied
    : ∃ s t,
        Machine.run (step (sampleCodec 2) sampleHasher) State.init appliedInsert = some s
        ∧ step (sampleCodec 2) sampleHasher s (.insert 0 .ok) = some t
        ∧ HistoryComplete sampleHasher t.db "CPOOL" 2 := by
  have observed
      : ((Machine.run (step (sampleCodec 2) sampleHasher) State.init
            (appliedInsert ++ [.insert 0 .ok])).map
          (fun t => ((t.replicas 0).trees.entry sampleHasher "CPOOL").tree.len))
        = some 2 := by
    decide +kernel
  obtain ⟨t, whole, length⟩ := Option.map_eq_some_iff.mp observed
  obtain ⟨s, ran, stepped⟩ := Machine.run_concat.mp whole
  have waits
      : (Machine.run (step (sampleCodec 2) sampleHasher) State.init appliedInsert).map
          (fun s => (s.replicas 0).pendingInsert.map (fun pending => pending.request.pool))
        = some (some "CPOOL") := by
    decide +kernel
  rw [ran] at waits
  obtain ⟨pending, waiting, samePool⟩ := Option.map_eq_some_iff.mp (Option.some.inj waits)
  have returns : SyncReturnsOk sampleHasher 0 "CPOOL" s (.insert 0 .ok) :=
    ⟨rfl, pending, waiting, samePool⟩
  have complete := history_complete_iff (sampleCodec 2) sampleHasher
    ⟨[], rfl⟩ rfl (by simp [appliedInsert, Action.OfProcess, sampleStore]) ran returns stepped
  rw [length] at complete
  have lossless : ∀ action ∈ appliedInsert, ∀ s, ¬ Lossy "CPOOL" s action := by
    simp [appliedInsert, sampleStore, Lossy, InsertOutcome.applied]
  refine ⟨s, t, ran, stepped, complete.mpr ?_⟩
  exact (Machine.along_of_forall lossless State.init).mono fun s _ safe => safe s

/-- The INSERT of the first leaf fails, the one of the second succeeds: the call returns `Ok`
on a tree of two leaves although the history has no row for the first.
-/
theorem history_hole_after_failed_insert
    : ∃ s t,
        Machine.run (step (sampleCodec 2) sampleHasher) State.init
            [sampleStore 0 42, .request 0 (liveRequest "CPOOL") .ok, .insert 0 (.failed false),
              sampleStore 1 43, .request 0 (liveRequest "CPOOL") .ok]
          = some s
        ∧ SyncReturnsOk sampleHasher 0 "CPOOL" s (.insert 0 .ok)
        ∧ step (sampleCodec 2) sampleHasher s (.insert 0 .ok) = some t
        ∧ ((t.replicas 0).trees.entry sampleHasher "CPOOL").tree.len = 2
        ∧ ¬ HistoryComplete sampleHasher t.db "CPOOL" 2 := by
  have observed
      : ((Machine.run (step (sampleCodec 2) sampleHasher) State.init
            ([sampleStore 0 42, .request 0 (liveRequest "CPOOL") .ok, .insert 0 (.failed false),
              sampleStore 1 43, .request 0 (liveRequest "CPOOL") .ok] ++ [.insert 0 .ok])).map
          (fun t => (((t.replicas 0).trees.entry sampleHasher "CPOOL").tree.len,
            t.db.treeRoots.map TreeRootRow.leafCount)))
        = some (2, [2]) := by
    decide +kernel
  obtain ⟨t, whole, shape⟩ := Option.map_eq_some_iff.mp observed
  obtain ⟨length, counts⟩ := Prod.mk.inj shape
  obtain ⟨s, ran, stepped⟩ := Machine.run_concat.mp whole
  have waits
      : (Machine.run (step (sampleCodec 2) sampleHasher) State.init
            [sampleStore 0 42, .request 0 (liveRequest "CPOOL") .ok, .insert 0 (.failed false),
              sampleStore 1 43, .request 0 (liveRequest "CPOOL") .ok]).map
          (fun s => (s.replicas 0).pendingInsert.map (fun pending => pending.request.pool))
        = some (some "CPOOL") := by
    decide +kernel
  rw [ran] at waits
  obtain ⟨pending, waiting, samePool⟩ := Option.map_eq_some_iff.mp (Option.some.inj waits)
  refine ⟨s, t, ran, ⟨rfl, pending, waiting, samePool⟩, stepped, length, ?_⟩
  intro complete
  obtain ⟨_, _, _, _, member, _⟩ := complete 0 (by decide)
  have count := List.mem_map_of_mem (f := TreeRootRow.leafCount) member
  rw [counts] at count
  simp at count

/-- A new live root is the root of a nonempty cached tree with no batch waiting. -/
theorem step_live {codec : Codec} {hasher : TreeHasher} {s t : State} {action : Action}
    (sound : s.Sound hasher) (stepped : step codec hasher s action = some t) {pool : String}
    {live : RootResponse} (h : ⟨liveRequest pool, .ok (.root live)⟩ ∈ t.answers)
    : ⟨liveRequest pool, .ok (.root live)⟩ ∈ s.answers
      ∨ ∃ r, live = liveRoot pool ((t.replicas r).trees.entry hasher pool)
          ∧ ((t.replicas r).trees.entry hasher pool).tree.isEmpty = false
          ∧ (t.replicas r).pendingInsert = none := by
  have noError {request : TreeRequest} {e : ApiError} {base : State}
      (given : ⟨liveRequest pool, .ok (.root live)⟩ ∈ (base.answer request (.error e)).answers)
      : ⟨liveRequest pool, .ok (.root live)⟩ ∈ base.answers := by
    rcases List.mem_append.mp given with old | new
    · exact old
    · cases List.mem_singleton.mp new
  cases step_effect stepped with
  | stored | dropped | restarted => exact Or.inl h
  | refused | unread => exact Or.inl (noError h)
  | @begun r request idle passed =>
      obtain ⟨leaves, mirrored⟩ := (sound.replicas r).trees request.pool
      obtain ⟨next, more, run, mirrors⟩ := topUp_spec sound.db.valid mirrored
      obtain ⟨lookups, replica⟩ := s.begin_replica idle run
      simp only [State.begin, run] at h
      split at h
      next settled =>
        refine (State.finish_live h).imp_right ?_
        rintro ⟨rfl, rfl, nonempty⟩
        exact ⟨r, by simp [replica], by simpa [replica] using nonempty,
          by simp [replica, settled]⟩
      next => exact Or.inl h
  | @inserted r pending outcome waiting =>
      obtain ⟨lookups, replica⟩ := s.endInsert_replica hasher r pending outcome
      cases outcome with
      | ok =>
          refine (State.finish_live h).imp_right ?_
          rintro ⟨rfl, rfl, nonempty⟩
          exact ⟨r, by simp [replica], by simpa [replica] using nonempty, by simp [replica]⟩
      | failed applied => cases applied <;> exact Or.inl (noError h)
      | cancelled applied => cases applied <;> exact Or.inl h
  | @lookedUp r position target query outcome found =>
      cases outcome with
      | ok =>
          refine (List.mem_append.mp h).imp_right (fun new => ?_)
          have same := congrArg Answer.request (List.mem_singleton.mp new)
          obtain ⟨rfl, rfl⟩ := TreeRequest.root.inj same
          exact absurd rfl ((sound.replicas r).lookups _ _ (List.mem_of_getElem? found))
      | failed => exact Or.inl (noError h)
      | cancelled => exact Or.inl h

/-- The action does not make a history INSERT fail. -/
def Action.InsertsSucceed : Action → Prop
  | .insert _ outcome => outcome = .ok
  | _ => True

/-- What is on record about a live root: the leaves it was computed from and its history row. -/
def LiveRecorded (hasher : TreeHasher) (db : Db) (pool : String) (live : RootResponse) : Prop :=
  ∃ leaves,
    leaves ≠ []
    ∧ LeafPrefix db pool leaves
    ∧ Stored db pool leaves.length
    ∧ live = ⟨pool, Hex.hex0x (rootOf hasher leaves), leaves.length, anchorOf leaves⟩

/-- The invariant of runs in which every INSERT succeeds. -/
structure State.Recorded (hasher : TreeHasher) (s : State) : Prop where
  covered : ∀ r pool, (s.log hasher r pool).Covered
  downward : ∀ pool k j, Stored s.db pool k → 0 < j → j ≤ k → Stored s.db pool j
  live
    : ∀ pool live,
        ⟨liveRequest pool, .ok (.root live)⟩ ∈ s.answers → LiveRecorded hasher s.db pool live

theorem Stored.mono {db next : Db} (grows : db.treeRoots <+: next.treeRoots) {pool : String}
    {k : Nat} (h : Stored db pool k)
    : Stored next pool k := by
  obtain ⟨row, member, rest⟩ := h
  exact ⟨row, grows.subset member, rest⟩

/-- A batch that is stored in full covers its log, whoever stores it. -/
theorem step_covered {codec : Codec} {hasher : TreeHasher} {s t : State} {action : Action}
    (sound : s.Sound hasher) (succeeds : action.InsertsSucceed)
    (stepped : step codec hasher s action = some t) {r : Nat} {pool : String}
    (covered : (s.log hasher r pool).Covered)
    : (t.log hasher r pool).Covered := by
  by_cases own : action.OfProcess r
  · refine (step_covered_iff sound own stepped pool).mpr ⟨covered, ?_⟩
    cases action with
    | insert r' outcome =>
        obtain rfl := succeeds
        rintro ⟨unapplied, _⟩
        cases unapplied
    | _ => exact id
  · rcases step_other own stepped with kept | restarted
    · intro k counted
      rw [State.log, kept] at counted ⊢
      exact (covered k counted).imp_left (Stored.mono (step_treeRoots stepped))
    · rw [State.log, restarted]
      exact Replica.fresh_covered hasher t.db pool

/-- The history of a pool has no holes below its newest row. -/
theorem step_downward {codec : Codec} {hasher : TreeHasher} {s t : State} {action : Action}
    (sound : s.Sound hasher) (recorded : s.Recorded hasher)
    (stepped : step codec hasher s action = some t) (pool : String) (k j : Nat)
    (h : Stored t.db pool k) (positive : 0 < j) (below : j ≤ k)
    : Stored t.db pool j := by
  have kept (same : t.db.treeRoots = s.db.treeRoots) : Stored t.db pool j :=
    (stored_congr same).mpr
      (recorded.downward pool k j ((stored_congr same).mp h) positive below)
  rcases step_db stepped with ⟨_, _, _, _, executed⟩ | ⟨r, pending, waiting, stored⟩ | same
  · exact kept (execAll_treeRoots executed)
  · rw [stored, stored_insertTreeRoots] at h ⊢
    rcases h with old | ⟨rfl, entry, member, count⟩
    · exact Or.inl (recorded.downward pool k j old positive below)
    · have counted := (sound.waiting_iff (r := r)).mpr
        ⟨pending, waiting, rfl, entry, member, count⟩
      rcases recorded.covered r _ j ⟨positive, below.trans counted.2⟩ with old | new
      · exact Or.inl old
      · obtain ⟨_, same, _, batch⟩ := sound.waiting_iff.mp new
        obtain rfl := Option.some.inj (waiting.symm.trans same)
        exact Or.inr ⟨rfl, batch⟩
  · exact kept (congrArg Db.treeRoots same)

theorem LiveRecorded.mono {hasher : TreeHasher} {db next : Db} {pool : String}
    {live : RootResponse} (h : LiveRecorded hasher db pool live)
    (leaves : db.commitments <+: next.commitments) (roots : db.treeRoots <+: next.treeRoots)
    : LiveRecorded hasher next pool live := by
  obtain ⟨prefixed, nonempty, inTable, stored, shape⟩ := h
  exact ⟨prefixed, nonempty, inTable.mono leaves, stored.mono roots, shape⟩

theorem step_recorded {codec : Codec} {hasher : TreeHasher} {s t : State} {action : Action}
    (succeeds : action.InsertsSucceed) (h : s.Sound hasher ∧ s.Recorded hasher)
    (stepped : step codec hasher s action = some t)
    : t.Sound hasher ∧ t.Recorded hasher := by
  obtain ⟨sound, recorded⟩ := h
  have soundNext := step_sound sound stepped
  have covered (r : Nat) (pool : String) : (t.log hasher r pool).Covered :=
    step_covered sound succeeds stepped (recorded.covered r pool)
  refine ⟨soundNext, covered, step_downward sound recorded stepped, ?_⟩
  intro pool live given
  rcases step_live sound stepped given with old | ⟨r, rfl, nonempty, idle⟩
  · exact (recorded.live pool live old).mono (step_commitments sound stepped)
      (step_treeRoots stepped)
  · obtain ⟨leaves, mirrors⟩ := (soundNext.replicas r).trees pool
    have some : leaves ≠ [] := by
      rintro rfl
      simp [mirrors.tree.isEmpty] at nonempty
    have settled : (t.log hasher r pool).Idle := by
      simp [State.log, Replica.log, Log.Idle, Replica.waitingFor, idle]
    refine ⟨leaves, some, mirrors.stored, ?_, ?_⟩
    · have complete := settled.covered_iff.mp (covered r pool)
      refine complete leaves.length ⟨List.length_pos_iff.mpr some, ?_⟩
      exact Nat.le_of_eq mirrors.len.symm
    · simp [liveRoot, mirrors.root, mirrors.len, mirrors.anchor]

theorem run_recorded {codec : Codec} {hasher : TreeHasher} {s : State} {actions : List Action}
    (succeed : ∀ action ∈ actions, action.InsertsSucceed)
    (h : Machine.run (step codec hasher) State.init actions = some s)
    : s.Sound hasher ∧ s.Recorded hasher := by
  refine Machine.invariant_of_allowed (fun _ _ _ => step_recorded)
    ⟨State.init_sound hasher, ?_, ?_, ?_⟩ succeed h
  · exact fun _ pool => Replica.fresh_covered hasher Db.empty pool
  · rintro pool k j ⟨row, member, _⟩
    cases member
  · intro pool live given
    cases given

end Attesta.Api.TreeService
