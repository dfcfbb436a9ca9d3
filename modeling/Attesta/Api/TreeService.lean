import Attesta.Api.Tree
import Attesta.Foundation.Machine
import Attesta.Indexer.Store

/-! The tree endpoints as a machine: the indexer, any number of API replicas with their own
cached trees, and one database. A request holds its replica's tree lock from the first read
to the end of `sync_pool_tree`, and can be interrupted at each of its awaits.
-/

namespace Attesta.Api.TreeService

open Attesta.Merkle Attesta.Indexer

/-- A top-up that has appended its leaves and waits for its history batch to be stored. -/
structure PendingInsert where
  request : TreeRequest
  newRoots : List RootEntry

/-- One API process. -/
structure Replica where
  trees : Trees
  /-- The request that holds the tree lock, if it is waiting for its INSERT. -/
  pendingInsert : Option PendingInsert
  /-- Topped-up `get_root` requests that still have to query the history. -/
  lookups : List (String × RootQuery)

/-- A process right after its start. -/
def Replica.fresh : Replica where
  trees _ := none
  pendingInsert := none
  lookups := []

structure Answer where
  request : TreeRequest
  result : Except ApiError TreeResponse
  deriving DecidableEq

structure State where
  db : Db
  replicas : Nat → Replica
  /-- Every answer given so far; nothing reads it. -/
  answers : List Answer

def State.init : State where
  db := Db.empty
  replicas _ := Replica.fresh
  answers := []

/-- How an awaited query ends: with its result, with an error, or because the client went
away and the handler was dropped.
-/
inductive QueryOutcome
  | ok
  | failed
  | cancelled
  deriving DecidableEq

/-- How the awaited INSERT of a top-up ends. A failed or dropped call may still have been
applied by the server.
-/
inductive InsertOutcome
  | ok
  | failed (applied : Bool)
  | cancelled (applied : Bool)
  deriving DecidableEq

inductive Action
  /-- The indexer executes the first `count` statements for a raw event of a contract. -/
  | store (contract : String) (raw : RawEvent) (count : Nat)
  /-- A request takes the tree lock, reads the new leaves and appends them. -/
  | request (replica : Nat) (request : TreeRequest) (select : QueryOutcome)
  /-- The waiting top-up of a replica ends. -/
  | insert (replica : Nat) (outcome : InsertOutcome)
  /-- One of the waiting history lookups of a replica ends. -/
  | lookup (replica position : Nat) (outcome : QueryOutcome)
  /-- A replica is restarted and loses everything it holds in memory. -/
  | restart (replica : Nat)

def State.setReplica (s : State) (r : Nat) (replica : Replica) : State :=
  { s with replicas := fun other => if other = r then replica else s.replicas other }

def State.answer (s : State) (request : TreeRequest) (result : Except ApiError TreeResponse)
    : State :=
  { s with answers := s.answers ++ [⟨request, result⟩] }

/-- The handler after a successful `sync_pool_tree`. -/
def State.respond (s : State) (r : Nat) (poolTree : PoolTree) : TreeRequest → State
  | .path pool commitment =>
      s.answer (.path pool commitment)
        ((parseNode commitment).bind (pathAnswer pool poolTree)
          |>.map TreeResponse.path)
  | .root pool query =>
      if query.atLedger.isNone && query.atLeafCount.isNone then
        s.answer (.root pool query) (.ok (.root (liveRoot pool poolTree)))
      else
        s.setReplica r
          { s.replicas r with lookups := (s.replicas r).lookups ++ [(pool, query)] }

/-- The end of `sync_pool_tree` once the history batch is stored, and the handler after it. -/
def State.finish (s : State) (r : Nat) (poolTree : PoolTree) (request : TreeRequest) : State :=
  match checkNonEmpty request.pool poolTree with
  | .error e => s.answer request (.error e)
  | .ok poolTree => s.respond r poolTree request

/-- The handler from the tree lock to the INSERT of `sync_pool_tree`. -/
def State.begin (hasher : TreeHasher) (s : State) (r : Nat) (request : TreeRequest) : State :=
  let replica := s.replicas r
  let (poolTree, newRoots, abort) := topUp hasher s.db replica.trees request.pool
  let s := s.setReplica r
    { replica with trees := replica.trees.insert request.pool poolTree }
  match abort with
  | some .corruptCommitment =>
      s.answer request (.error (.badRequest "corrupt commitment in index"))
  | some .panicked => s
  | none =>
      if newRoots.isEmpty then s.finish r poolTree request
      else s.setReplica r { s.replicas r with pendingInsert := some ⟨request, newRoots⟩ }

/-- A request whose first query does not succeed has only created the map entry. -/
def State.createEntry (hasher : TreeHasher) (s : State) (r : Nat) (pool : String) : State :=
  let replica := s.replicas r
  s.setReplica r
    { replica with trees := replica.trees.insert pool (replica.trees.entry hasher pool) }

/-- The INSERT of a waiting top-up ends, with or without having been applied. -/
def State.endInsert (hasher : TreeHasher) (s : State) (r : Nat) (pending : PendingInsert)
    (outcome : InsertOutcome)
    : State :=
  let released := s.setReplica r { s.replicas r with pendingInsert := none }
  let stored :=
    { released with db := insertTreeRoots s.db pending.request.pool pending.newRoots }
  match outcome with
  | .ok =>
      stored.finish r ((s.replicas r).trees.entry hasher pending.request.pool)
        pending.request
  | .failed applied =>
      (if applied then stored else released).answer pending.request (.error .internal)
  | .cancelled applied => if applied then stored else released

/-- A history lookup ends. -/
def State.endLookup (s : State) (r : Nat) (pool : String) (query : RootQuery)
    (rest : List (String × RootQuery)) (outcome : QueryOutcome)
    : State :=
  let s := s.setReplica r { s.replicas r with lookups := rest }
  match outcome with
  | .ok => s.answer (.root pool query) ((historyAnswer s.db pool query).map .root)
  | .failed => s.answer (.root pool query) (.error .internal)
  | .cancelled => s

variable (codec : Codec) (hasher : TreeHasher)

/-- One step of the whole system; an action that is not enabled has no successor. -/
def step (s : State) : Action → Option State
  | .store contract raw count =>
      match execAll s.db ((storeRaw codec contract raw).take count) with
      | .ok db => some { s with db }
      | .error _ => none
  | .request r request select =>
      if (s.replicas r).pendingInsert.isSome then none
      else
        match request.validate, select with
        | .error e, _ => some (s.answer request (.error e))
        | .ok _, .ok => some (s.begin hasher r request)
        | .ok _, .failed =>
            some ((s.createEntry hasher r request.pool).answer request (.error .internal))
        | .ok _, .cancelled => some (s.createEntry hasher r request.pool)
  | .insert r outcome =>
      (s.replicas r).pendingInsert.map (fun pending => s.endInsert hasher r pending outcome)
  | .lookup r position outcome =>
      (s.replicas r).lookups[position]?.map (fun (pool, query) =>
        s.endLookup r pool query ((s.replicas r).lookups.eraseIdx position) outcome)
  | .restart r => some (s.setReplica r .fresh)

-----------------------------------------------------------------------------------------
-- Every way a step can go
-----------------------------------------------------------------------------------------

/-- The steps of the system as a relation, with what a step knows about its start. -/
inductive Effect (s : State) : Action → State → Prop
  | stored {contract : String} {raw : RawEvent} {count : Nat} {db : Db}
    (executed : execAll s.db ((storeRaw codec contract raw).take count) = .ok db)
    : Effect s (.store contract raw count) { s with db }
  | refused {r : Nat} {request : TreeRequest} {select : QueryOutcome} {e : ApiError}
    (failed : request.validate = .error e)
    : Effect s (.request r request select) (s.answer request (.error e))
  | begun {r : Nat} {request : TreeRequest} (idle : (s.replicas r).pendingInsert = none)
    (passed : request.validate = .ok ())
    : Effect s (.request r request .ok) (s.begin hasher r request)
  | unread {r : Nat} {request : TreeRequest} (idle : (s.replicas r).pendingInsert = none)
    (passed : request.validate = .ok ())
    : Effect s (.request r request .failed)
        ((s.createEntry hasher r request.pool).answer request (.error .internal))
  | dropped {r : Nat} {request : TreeRequest} (idle : (s.replicas r).pendingInsert = none)
    (passed : request.validate = .ok ())
    : Effect s (.request r request .cancelled) (s.createEntry hasher r request.pool)
  | inserted {r : Nat} {pending : PendingInsert} {outcome : InsertOutcome}
    (waiting : (s.replicas r).pendingInsert = some pending)
    : Effect s (.insert r outcome) (s.endInsert hasher r pending outcome)
  | lookedUp {r position : Nat} {pool : String} {query : RootQuery} {outcome : QueryOutcome}
    (found : (s.replicas r).lookups[position]? = some (pool, query))
    : Effect s (.lookup r position outcome)
        (s.endLookup r pool query ((s.replicas r).lookups.eraseIdx position) outcome)
  | restarted (r : Nat) : Effect s (.restart r) (s.setReplica r .fresh)

variable {codec hasher}

theorem step_effect {s t : State} {action : Action} (h : step codec hasher s action = some t)
    : Effect codec hasher s action t := by
  cases action with
  | store contract raw count =>
      simp only [step] at h
      split at h
      next db executed => exact Option.some.inj h ▸ .stored executed
      next => cases h
  | request r request select =>
      simp only [step] at h
      split at h
      next => cases h
      next busy =>
        have idle : (s.replicas r).pendingInsert = none := by simpa using busy
        split at h
        next e failed => exact Option.some.inj h ▸ .refused failed
        next passed => exact Option.some.inj h ▸ .begun idle passed
        next passed => exact Option.some.inj h ▸ .unread idle passed
        next passed => exact Option.some.inj h ▸ .dropped idle passed
  | insert r outcome =>
      obtain ⟨pending, waiting, rfl⟩ := Option.map_eq_some_iff.mp h
      exact .inserted waiting
  | lookup r position outcome =>
      obtain ⟨⟨pool, query⟩, found, rfl⟩ := Option.map_eq_some_iff.mp h
      exact .lookedUp found
  | restart r => exact Option.some.inj h ▸ .restarted r

-----------------------------------------------------------------------------------------
-- What the parts of a step change
-----------------------------------------------------------------------------------------

/-- Whether the server has applied the INSERT. -/
def InsertOutcome.applied : InsertOutcome → Bool
  | .ok => true
  | .failed applied => applied
  | .cancelled applied => applied

@[simp]
theorem State.setReplica_db (s : State) (r : Nat) (replica : Replica)
    : (s.setReplica r replica).db = s.db := rfl

@[simp]
theorem State.setReplica_self (s : State) (r : Nat) (replica : Replica)
    : (s.setReplica r replica).replicas r = replica := by
  simp [State.setReplica]

theorem State.setReplica_of_ne (s : State) {r other : Nat} (replica : Replica)
    (h : other ≠ r)
    : (s.setReplica r replica).replicas other = s.replicas other := by
  simp [State.setReplica, h]

@[simp]
theorem State.answer_db (s : State) (request : TreeRequest)
    (result : Except ApiError TreeResponse)
    : (s.answer request result).db = s.db := rfl

@[simp]
theorem State.answer_replicas (s : State) (request : TreeRequest)
    (result : Except ApiError TreeResponse)
    : (s.answer request result).replicas = s.replicas := rfl

@[simp]
theorem State.respond_db (s : State) (r : Nat) (poolTree : PoolTree) (request : TreeRequest)
    : (s.respond r poolTree request).db = s.db := by
  cases request with
  | path => rfl
  | root =>
      simp only [State.respond]
      split <;> rfl

@[simp]
theorem State.finish_db (s : State) (r : Nat) (poolTree : PoolTree) (request : TreeRequest)
    : (s.finish r poolTree request).db = s.db := by
  unfold State.finish
  split
  · rfl
  · exact s.respond_db r _ request

@[simp]
theorem State.begin_db (hasher : TreeHasher) (s : State) (r : Nat) (request : TreeRequest)
    : (s.begin hasher r request).db = s.db := by
  rcases run : topUp hasher s.db (s.replicas r).trees request.pool with ⟨_, newRoots, abort⟩
  simp only [State.begin, run]
  split
  · rfl
  · rfl
  · split <;> simp

@[simp]
theorem State.endLookup_db (s : State) (r : Nat) (pool : String) (query : RootQuery)
    (rest : List (String × RootQuery)) (outcome : QueryOutcome)
    : (s.endLookup r pool query rest outcome).db = s.db := by
  cases outcome <;> rfl

theorem State.endInsert_db (hasher : TreeHasher) (s : State) (r : Nat)
    (pending : PendingInsert) (outcome : InsertOutcome)
    : (s.endInsert hasher r pending outcome).db
      = if outcome.applied then insertTreeRoots s.db pending.request.pool pending.newRoots
        else s.db := by
  cases outcome with
  | ok => simp [State.endInsert, InsertOutcome.applied]
  | failed applied => cases applied <;> rfl
  | cancelled applied => cases applied <;> rfl

/-- Answering changes at most the waiting lookups of the replica. -/
theorem State.respond_replica (s : State) (r : Nat) (poolTree : PoolTree)
    (request : TreeRequest)
    : ∃ lookups, (s.respond r poolTree request).replicas r = { s.replicas r with lookups } := by
  cases request with
  | path => exact ⟨_, rfl⟩
  | root pool query =>
      simp only [State.respond]
      split
      · exact ⟨_, rfl⟩
      · exact ⟨_, s.setReplica_self r _⟩

theorem State.finish_replica (s : State) (r : Nat) (poolTree : PoolTree)
    (request : TreeRequest)
    : ∃ lookups, (s.finish r poolTree request).replicas r = { s.replicas r with lookups } := by
  unfold State.finish
  split
  · exact ⟨_, rfl⟩
  · exact s.respond_replica r _ request

/-- A top-up without abort caches its tree and lets a nonempty batch wait. -/
theorem State.begin_replica {hasher : TreeHasher} (s : State) {r : Nat} {request : TreeRequest}
    (idle : (s.replicas r).pendingInsert = none) {poolTree : PoolTree}
    {newRoots : List RootEntry}
    (run : topUp hasher s.db (s.replicas r).trees request.pool = (poolTree, newRoots, none))
    : ∃ lookups,
        (s.begin hasher r request).replicas r
          = { trees := (s.replicas r).trees.insert request.pool poolTree
              pendingInsert := if newRoots.isEmpty then none else some ⟨request, newRoots⟩
              lookups } := by
  simp only [State.begin, run]
  split
  · obtain ⟨lookups, replica⟩ := State.finish_replica
      (s.setReplica r
        { s.replicas r with trees := (s.replicas r).trees.insert request.pool poolTree })
      r poolTree request
    exact ⟨lookups, replica.trans (by simp [idle])⟩
  · exact ⟨(s.replicas r).lookups, by simp⟩

/-- The end of an INSERT releases the replica. -/
theorem State.endInsert_replica (hasher : TreeHasher) (s : State) (r : Nat)
    (pending : PendingInsert) (outcome : InsertOutcome)
    : ∃ lookups,
        (s.endInsert hasher r pending outcome).replicas r
          = { s.replicas r with pendingInsert := none, lookups } := by
  cases outcome with
  | ok =>
      obtain ⟨lookups, replica⟩ := State.finish_replica
        { s.setReplica r { s.replicas r with pendingInsert := none } with
          db := insertTreeRoots s.db pending.request.pool pending.newRoots }
        r ((s.replicas r).trees.entry hasher pending.request.pool) pending.request
      refine ⟨lookups, replica.trans ?_⟩
      simp [State.setReplica]
  | failed applied => cases applied <;> exact ⟨_, s.setReplica_self r _⟩
  | cancelled applied => cases applied <;> exact ⟨_, s.setReplica_self r _⟩

/-- The only ways a step changes the database: the indexer executes statements, or the
waiting history batch of a replica is stored.
-/
theorem step_db {codec : Codec} {hasher : TreeHasher} {s t : State} {action : Action}
    (h : step codec hasher s action = some t)
    : (∃ contract raw count, action = .store contract raw count
        ∧ execAll s.db ((storeRaw codec contract raw).take count) = .ok t.db)
      ∨ (∃ r pending, (s.replicas r).pendingInsert = some pending
          ∧ t.db = insertTreeRoots s.db pending.request.pool pending.newRoots)
      ∨ t.db = s.db := by
  cases step_effect h with
  | stored executed => exact Or.inl ⟨_, _, _, rfl, executed⟩
  | @inserted r pending outcome waiting =>
      rw [State.endInsert_db]
      split
      · exact Or.inr (Or.inl ⟨r, pending, waiting, rfl⟩)
      · exact Or.inr (Or.inr rfl)
  | refused | begun | unread | dropped | lookedUp | restarted =>
      exact Or.inr (Or.inr (by simp [State.createEntry]))

/-- The history only ever grows. -/
theorem step_treeRoots {codec : Codec} {hasher : TreeHasher} {s t : State} {action : Action}
    (h : step codec hasher s action = some t)
    : s.db.treeRoots <+: t.db.treeRoots := by
  rcases step_db h with ⟨_, _, _, _, executed⟩ | ⟨_, _, _, stored⟩ | same
  · exact execAll_treeRoots executed ▸ List.prefix_rfl
  · exact stored ▸ KeyedRows.prefix_insertAllIgnore _ _ _
  · exact same ▸ List.prefix_rfl

/-- The action is taken by the indexer or by the given process, which is not restarted. -/
def Action.OfProcess (r : Nat) : Action → Prop
  | .store _ _ _ => True
  | .request r' _ _ => r' = r
  | .insert r' _ => r' = r
  | .lookup r' _ _ => r' = r
  | .restart _ => False

theorem State.respond_other (s : State) {r other : Nat} (h : other ≠ r) (poolTree : PoolTree)
    (request : TreeRequest)
    : (s.respond r poolTree request).replicas other = s.replicas other := by
  cases request with
  | path => rfl
  | root pool query =>
      simp only [State.respond]
      split
      · rfl
      · exact s.setReplica_of_ne _ h

theorem State.finish_other (s : State) {r other : Nat} (h : other ≠ r) (poolTree : PoolTree)
    (request : TreeRequest)
    : (s.finish r poolTree request).replicas other = s.replicas other := by
  unfold State.finish
  split
  · rfl
  · exact s.respond_other h _ request

theorem State.begin_other (hasher : TreeHasher) (s : State) {r other : Nat} (h : other ≠ r)
    (request : TreeRequest)
    : (s.begin hasher r request).replicas other = s.replicas other := by
  rcases run : topUp hasher s.db (s.replicas r).trees request.pool with ⟨_, newRoots, abort⟩
  simp only [State.begin, run]
  split
  · exact s.setReplica_of_ne _ h
  · exact s.setReplica_of_ne _ h
  · split
    · exact (State.finish_other _ h _ request).trans (s.setReplica_of_ne _ h)
    · exact (State.setReplica_of_ne _ _ h).trans (s.setReplica_of_ne _ h)

theorem State.endInsert_other (hasher : TreeHasher) (s : State) {r other : Nat} (h : other ≠ r)
    (pending : PendingInsert) (outcome : InsertOutcome)
    : (s.endInsert hasher r pending outcome).replicas other = s.replicas other := by
  have released := s.setReplica_of_ne { s.replicas r with pendingInsert := none } h
  cases outcome with
  | ok => exact (State.finish_other _ h _ pending.request).trans released
  | failed applied => cases applied <;> exact released
  | cancelled applied => cases applied <;> exact released

/-- A process that does not act keeps its memory, unless it is restarted. -/
theorem step_other {codec : Codec} {hasher : TreeHasher} {r : Nat} {s t : State}
    {action : Action} (other : ¬ action.OfProcess r)
    (h : step codec hasher s action = some t)
    : t.replicas r = s.replicas r ∨ t.replicas r = Replica.fresh := by
  have apart {r' : Nat} (foreign : r' ≠ r) : r ≠ r' := foreign.symm
  cases step_effect h with
  | stored => exact absurd trivial other
  | refused => exact Or.inl rfl
  | begun => exact Or.inl (s.begin_other hasher (apart other) _)
  | unread | dropped => exact Or.inl (s.setReplica_of_ne _ (apart other))
  | inserted => exact Or.inl (s.endInsert_other hasher (apart other) _ _)
  | @lookedUp _ _ _ _ outcome found =>
      refine Or.inl ?_
      cases outcome <;> exact s.setReplica_of_ne _ (apart other)
  | restarted r' =>
      by_cases same : r = r'
      · subst same
        exact Or.inr (s.setReplica_self r _)
      · exact Or.inl (s.setReplica_of_ne _ same)

/-- `GET /v1/tree/{pool}/root` without parameters. -/
def liveRequest (pool : String) : TreeRequest :=
  .root pool { atLedger := none, atLeafCount := none }

/-- A new live root is read from the tree the request was answered from. -/
theorem State.finish_live {s : State} {r : Nat} {poolTree : PoolTree} {request : TreeRequest}
    {pool : String} {live : RootResponse}
    (h : ⟨liveRequest pool, .ok (.root live)⟩ ∈ (s.finish r poolTree request).answers)
    : ⟨liveRequest pool, .ok (.root live)⟩ ∈ s.answers
      ∨ request.pool = pool ∧ live = liveRoot pool poolTree
        ∧ poolTree.tree.isEmpty = false := by
  unfold State.finish checkNonEmpty at h
  split at h
  next e failed =>
    refine (List.mem_append.mp h).imp_right (fun new => ?_)
    cases List.mem_singleton.mp new
  next final passed =>
    split at passed
    next => cases passed
    next nonempty =>
      obtain rfl := Except.ok.inj passed
      cases request with
      | path target commitment =>
          refine (List.mem_append.mp h).imp_right (fun new => ?_)
          cases List.mem_singleton.mp new
      | root target query =>
          simp only [State.respond] at h
          split at h
          · refine (List.mem_append.mp h).imp_right (fun new => ?_)
            cases List.mem_singleton.mp new
            exact ⟨rfl, rfl, by simpa using nonempty⟩
          · exact Or.inl h

end Attesta.Api.TreeService
