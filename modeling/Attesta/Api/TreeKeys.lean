import Attesta.Api.TreeSafety
import Mathlib.Data.Set.Card

/-! The keys of the in-memory trees map. A request creates the entry of its pool before it
reads anything and `sync_pool_tree` looks for an empty pool last, so the map follows the
indexed pools only as long as nobody asks for another one.
-/

namespace Attesta.Api.TreeService

open Attesta.Merkle Attesta.Indexer KeyedRows

/-- The pools with at least one row in `commitments`. -/
def indexedPools (db : Db) : Finset String := (db.commitments.map (·.pool)).toFinset

/-- The pools a process has an entry for. -/
def Replica.keys (replica : Replica) : Set String := {pool | (replica.trees pool).isSome}

/-- Every entry of every process belongs to an indexed pool, and there are at most as many. -/
structure MapsBounded (s : State) : Prop where
  keys : ∀ r, ∀ pool ∈ (s.replicas r).keys, pool ∈ indexedPools s.db
  size : ∀ r, (s.replicas r).keys.encard ≤ (indexedPools s.db).card

/-- The 404 of `sync_pool_tree`. -/
def unknownPool (request : TreeRequest) : Answer :=
  ⟨request, .error (.notFound ("unknown or empty pool: " ++ request.pool))⟩

/-- If the step answers that a pool is unknown or empty, every map stays as it was. -/
def NotFoundKeepsMaps (codec : Codec) (hasher : TreeHasher) (s : State) (action : Action)
    : Prop :=
  ∀ t request, step codec hasher s action = some t
    → t.answers = s.answers ++ [unknownPool request]
    → ∀ r, (t.replicas r).trees = (s.replicas r).trees

/-- A request that passes its checks is for an indexed pool, and if its query succeeds the
pool is cached already or has its first leaf.
-/
def ForIndexedPool (s : State) (action : Action) : Prop :=
  ∀ r request select, action = .request r request select → request.validate = .ok ()
    → request.pool ∈ indexedPools s.db
      ∧ (select = .ok
          → request.pool ∈ (s.replicas r).keys ∨ (leaf? s.db request.pool 0).isSome)

theorem mem_indexedPools {db : Db} {pool : String}
    : pool ∈ indexedPools db ↔ ∃ row ∈ db.commitments, row.pool = pool := by
  simp [indexedPools]

theorem mem_indexedPools_mono {db next : Db} (grows : db.commitments <+: next.commitments)
    {pool : String} (h : pool ∈ indexedPools db)
    : pool ∈ indexedPools next := by
  obtain ⟨row, stored, samePool⟩ := mem_indexedPools.mp h
  exact mem_indexedPools.mpr ⟨row, grows.subset stored, samePool⟩

/-- The bound on the size follows from the keys. -/
theorem mapsBounded_iff {s : State}
    : MapsBounded s ↔ ∀ r, ∀ pool ∈ (s.replicas r).keys, pool ∈ indexedPools s.db := by
  refine ⟨MapsBounded.keys, fun keys => ⟨keys, fun r => ?_⟩⟩
  have within : (s.replicas r).keys ⊆ (indexedPools s.db : Set String) := keys r
  exact (Set.encard_le_encard within).trans (Set.encard_coe_eq_coe_finsetCard _).le

theorem mem_keys_insert {replica : Replica} {pool other : String} {poolTree : PoolTree}
    (trees : Trees) (h : replica.trees = trees.insert pool poolTree)
    : other ∈ replica.keys ↔ other = pool ∨ (trees other).isSome := by
  by_cases same : other = pool <;> simp [Replica.keys, h, Trees.insert, same]

-----------------------------------------------------------------------------------------
-- What a step does to the maps
-----------------------------------------------------------------------------------------

/-- A top-up leaves its tree under the pool of the request, however it ends. -/
theorem State.begin_trees (hasher : TreeHasher) (s : State) (r : Nat) (request : TreeRequest)
    : ((s.begin hasher r request).replicas r).trees
      = (s.replicas r).trees.insert request.pool
          (topUp hasher s.db (s.replicas r).trees request.pool).1 := by
  rcases run : topUp hasher s.db (s.replicas r).trees request.pool
    with ⟨poolTree, newRoots, abort⟩
  simp only [State.begin, run]
  split
  · simp
  · simp
  · split
    · obtain ⟨lookups, replica⟩ := State.finish_replica
        (s.setReplica r
          { s.replicas r with trees := (s.replicas r).trees.insert request.pool poolTree })
        r poolTree request
      rw [replica]
      simp
    · simp

/-- The action is a request of a process for a pool that passes the checks of its handler. -/
def Action.Syncs (action : Action) (r : Nat) (pool : String) : Prop :=
  ∃ request select, action = .request r request select ∧ request.validate = .ok ()
    ∧ request.pool = pool

/-- A request that is not refused inserts an entry for its pool into the map of its process.
Any other step keeps the maps, or empties the one of a process it restarts.
-/
theorem step_trees {codec : Codec} {hasher : TreeHasher} {s t : State} {action : Action}
    (h : step codec hasher s action = some t)
    : (∃ r pool poolTree, action.Syncs r pool
        ∧ t.db = s.db
        ∧ (t.replicas r).trees = (s.replicas r).trees.insert pool poolTree
        ∧ ∀ other, other ≠ r → t.replicas other = s.replicas other)
      ∨ ((∀ r pool, ¬ action.Syncs r pool)
        ∧ ∀ r, (t.replicas r).trees = (s.replicas r).trees
          ∨ (t.replicas r).trees = Replica.fresh.trees ∧ t.answers = s.answers) := by
  cases step_effect h with
  | stored => exact Or.inr ⟨by rintro r pool ⟨_, _, ⟨⟩, _⟩, fun _ => Or.inl rfl⟩
  | refused failed =>
      refine Or.inr ⟨?_, fun _ => Or.inl rfl⟩
      rintro _ _ ⟨_, _, ⟨⟩, passed, _⟩
      cases failed.symm.trans passed
  | @begun r request _ passed =>
      exact Or.inl ⟨r, request.pool, _, ⟨request, _, rfl, passed, rfl⟩, by simp,
        s.begin_trees hasher r request, fun other apart => s.begin_other hasher apart _⟩
  | @unread r request _ passed | @dropped r request _ passed =>
      exact Or.inl ⟨r, request.pool, (s.replicas r).trees.entry hasher request.pool,
        ⟨request, _, rfl, passed, rfl⟩, rfl, by simp [State.createEntry],
        fun other apart => s.setReplica_of_ne _ apart⟩
  | @inserted r pending outcome _ =>
      refine Or.inr ⟨by rintro r pool ⟨_, _, ⟨⟩, _⟩, fun other => Or.inl ?_⟩
      by_cases same : other = r
      · subst same
        obtain ⟨lookups, replica⟩ := s.endInsert_replica hasher other pending outcome
        rw [replica]
      · rw [s.endInsert_other hasher same]
  | @lookedUp r _ pool query outcome _ =>
      refine Or.inr ⟨by rintro r pool ⟨_, _, ⟨⟩, _⟩, fun other => Or.inl ?_⟩
      by_cases same : other = r
      · subst same
        cases outcome <;> simp [State.endLookup]
      · cases outcome <;> simp [State.endLookup, State.setReplica, same]
  | restarted r =>
      refine Or.inr ⟨by rintro r pool ⟨_, _, ⟨⟩, _⟩, fun other => ?_⟩
      by_cases same : other = r
      · subst same
        exact Or.inr ⟨by simp, rfl⟩
      · exact Or.inl (by rw [s.setReplica_of_ne _ same])

/-- A step keeps every key indexed exactly if it is no request for a pool without rows. -/
theorem MapsBounded.step_iff {codec : Codec} {hasher : TreeHasher} {s t : State}
    {action : Action} (sound : s.Sound hasher) (bounded : MapsBounded s)
    (h : step codec hasher s action = some t)
    : MapsBounded t ↔ ∀ r pool, action.Syncs r pool → pool ∈ indexedPools s.db := by
  have grows := step_commitments sound h
  rw [mapsBounded_iff]
  rcases step_trees h with ⟨r, pool, poolTree, syncs, sameDb, trees, others⟩ | ⟨none, kept⟩
  · constructor
    · intro keys r' pool' syncs'
      obtain ⟨request, select, rfl, _, rfl⟩ := syncs
      obtain ⟨_, _, ⟨⟩, _, rfl⟩ := syncs'
      have listed := keys r request.pool ((mem_keys_insert _ trees).mpr (Or.inl rfl))
      rwa [sameDb] at listed
    · intro indexed r' other key
      rw [sameDb]
      by_cases same : r' = r
      · subst same
        rcases (mem_keys_insert _ trees).mp key with rfl | old
        · exact indexed r' other syncs
        · exact bounded.keys r' other old
      · rw [others r' same] at key
        exact bounded.keys r' other key
  · refine iff_of_true ?_ (fun r pool syncs => absurd syncs (none r pool))
    intro r pool key
    rcases kept r with same | ⟨fresh, _⟩
    · simp only [Replica.keys, same] at key
      exact mem_indexedPools_mono grows (bounded.keys r pool key)
    · simp [Replica.keys, fresh, Replica.fresh] at key

-----------------------------------------------------------------------------------------
-- The requests that are answered 404
-----------------------------------------------------------------------------------------

theorem parseNode_error {text : String} {e : ApiError} (h : parseNode text = .error e)
    : e.status = 400 := by
  unfold parseNode at h
  split at h
  · exact Except.error.inj h ▸ rfl
  · split at h
    · exact Except.error.inj h ▸ rfl
    · cases h

theorem pathAnswer_error {pool : String} {poolTree : PoolTree} {node : Node} {e : ApiError}
    (h : pathAnswer pool poolTree node = .error e)
    : e = .notFound "commitment not found in tree" := by
  unfold pathAnswer at h
  split at h
  · split at h
    · cases h
    · exact (Except.error.inj h).symm
  · exact (Except.error.inj h).symm

theorem unknownPool_text (pool : String)
    : "unknown or empty pool: " ++ pool ≠ "commitment not found in tree" := by
  intro same
  have first := congrArg (fun text => text.toList.head?) same
  simp at first

/-- The handlers themselves never answer what `sync_pool_tree` answers for an empty pool. -/
theorem State.respond_found (s : State) (r : Nat) (poolTree : PoolTree)
    (request other : TreeRequest)
    : (s.respond r poolTree request).answers ≠ s.answers ++ [unknownPool other] := by
  intro same
  cases request with
  | path pool commitment =>
      have result
          : ((parseNode commitment).bind (pathAnswer pool poolTree)).map TreeResponse.path
            = (unknownPool other).result :=
        congrArg Answer.result (List.singleton_inj.mp (List.append_cancel_left same))
      cases parsed : parseNode commitment with
      | error e =>
          rw [parsed] at result
          have status := congrArg ApiError.status (Except.error.inj result)
          exact absurd ((parseNode_error parsed).symm.trans status) (by simp [ApiError.notFound])
      | ok node =>
          rw [parsed] at result
          cases answered : pathAnswer pool poolTree node with
          | error e =>
              simp only [Except.bind, answered, Except.map] at result
              have told := congrArg ApiError.message
                ((pathAnswer_error answered).symm.trans (Except.error.inj result))
              exact unknownPool_text other.pool told.symm
          | ok response =>
              simp only [Except.bind, answered, Except.map] at result
              cases result
  | root pool query =>
      simp only [State.respond] at same
      split at same
      · have result := congrArg Answer.result
          (List.singleton_inj.mp (List.append_cancel_left same))
        cases result
      · exact absurd same (by simp [State.setReplica])

/-- The 404 comes from `checkNonEmpty` alone. -/
theorem State.finish_unknownPool {s : State} {r : Nat} {poolTree : PoolTree}
    {request other : TreeRequest}
    (h : (s.finish r poolTree request).answers = s.answers ++ [unknownPool other])
    : poolTree.tree.isEmpty := by
  unfold State.finish checkNonEmpty at h
  by_contra filled
  rw [if_neg filled] at h
  exact s.respond_found r poolTree request other h

/-- A top-up that ends with an empty tree found nothing to append to an empty tree. -/
theorem State.Sound.empty_topUp {hasher : TreeHasher} {s : State} (sound : s.Sound hasher)
    (r : Nat) (pool : String)
    : ∃ next newRoots,
        topUp hasher s.db (s.replicas r).trees pool = (next, newRoots, none)
        ∧ (next.tree.isEmpty = true ↔ leaf? s.db pool 0 = none)
        ∧ (next.tree.isEmpty = true
          → newRoots = [] ∧ (s.replicas r).trees.entry hasher pool = next) := by
  obtain ⟨leaves, mirrored⟩ := (sound.replicas r).trees pool
  obtain ⟨next, more, run, mirrors⟩ := topUp_spec sound.db.valid mirrored
  have stops := topUp_stops sound.db.valid mirrored run
  have isEmpty : next.tree.isEmpty = true ↔ leaves = [] ∧ more = [] := by
    simp [mirrors.tree.isEmpty]
  refine ⟨next, _, run, ?_, ?_⟩
  · rw [isEmpty]
    constructor
    · rintro ⟨rfl, rfl⟩
      simpa [mirrors.len] using stops
    · intro missing
      by_contra filled
      have first := mirrors.stored 0
        (by simpa [List.length_pos_iff] using not_and_or.mp filled)
      cases missing.symm.trans first
  · intro empty
    obtain ⟨rfl, rfl⟩ := isEmpty.mp empty
    exact ⟨rfl, mirrored.eq mirrors⟩

/-- A request is answered 404 for its pool exactly if the pool has no first leaf. -/
theorem State.Sound.begin_unknownPool {hasher : TreeHasher} {s : State} (sound : s.Sound hasher)
    (r : Nat) (request : TreeRequest)
    : (leaf? s.db request.pool 0 = none
        → (s.begin hasher r request).answers = s.answers ++ [unknownPool request])
      ∧ ∀ other, (s.begin hasher r request).answers = s.answers ++ [unknownPool other]
        → leaf? s.db request.pool 0 = none := by
  obtain ⟨next, newRoots, run, empty, unchanged⟩ := sound.empty_topUp r request.pool
  simp only [State.begin, run]
  constructor
  · intro missing
    obtain ⟨rfl, _⟩ := unchanged (empty.mpr missing)
    simp [State.finish, checkNonEmpty, empty.mpr missing, State.answer, State.setReplica,
      unknownPool]
  · intro other answered
    split at answered
    · exact empty.mp (State.finish_unknownPool answered)
    · exact absurd answered (by simp [State.setReplica])

/-- A request whose answer is a 404 keeps the map exactly if its pool has an entry. -/
theorem State.Sound.begin_keeps_iff {hasher : TreeHasher} {s : State} (sound : s.Sound hasher)
    (r : Nat) {request : TreeRequest} (missing : leaf? s.db request.pool 0 = none)
    : ((s.begin hasher r request).replicas r).trees = (s.replicas r).trees
      ↔ request.pool ∈ (s.replicas r).keys := by
  obtain ⟨next, newRoots, run, empty, unchanged⟩ := sound.empty_topUp r request.pool
  have cached := (unchanged (empty.mpr missing)).2
  rw [s.begin_trees hasher r request, run]
  constructor
  · intro same
    have entry := congrFun same request.pool
    simp only [Trees.insert, if_true] at entry
    simp [Replica.keys, ← entry]
  · intro key
    obtain ⟨old, found⟩ := Option.isSome_iff_exists.mp key
    have same : old = next := by simpa [Trees.entry, found] using cached
    funext other
    by_cases here : other = request.pool
    · simp [Trees.insert, here, found, same]
    · simp [Trees.insert, here]

theorem idle_of_request {codec : Codec} {hasher : TreeHasher} {s t : State} {r : Nat}
    {request : TreeRequest} {select : QueryOutcome}
    (h : step codec hasher s (.request r request select) = some t)
    : (s.replicas r).pendingInsert.isSome = false := by
  by_contra busy
  simp [step, busy] at h

/-- A step keeps the maps on a 404 exactly if it is no successful query for a pool that is
neither cached nor has a first leaf.
-/
theorem State.Sound.notFoundKeepsMaps_iff {codec : Codec} {hasher : TreeHasher} {s t : State}
    {action : Action} (sound : s.Sound hasher) (h : step codec hasher s action = some t)
    : NotFoundKeepsMaps codec hasher s action
      ↔ ∀ r request, action = .request r request .ok → request.validate = .ok ()
          → request.pool ∈ (s.replicas r).keys ∨ (leaf? s.db request.pool 0).isSome := by
  constructor
  · rintro keeps r request rfl passed
    by_contra! unknown
    obtain ⟨noKey, noLeaf⟩ := unknown
    replace noLeaf : leaf? s.db request.pool 0 = none := by simpa using noLeaf
    have idle := idle_of_request h
    have begun
        : step codec hasher s (.request r request .ok) = some (s.begin hasher r request) := by
      simp [step, idle, passed]
    have answered := (sound.begin_unknownPool r request).1 noLeaf
    have same := keeps _ request begun answered r
    exact noKey ((sound.begin_keeps_iff r noLeaf).mp same)
  · intro condition t' request stepped answered r
    cases h.symm.trans stepped
    rcases step_trees h with ⟨r', pool, poolTree, syncs, _, _, others⟩ | ⟨_, kept⟩
    · obtain ⟨asked, select, rfl, passed, rfl⟩ := syncs
      by_cases same : r = r'
      · subst same
        have idle := idle_of_request h
        simp only [step, idle, passed] at h
        cases select with
        | ok =>
            obtain rfl := Option.some.inj h
            have missing := (sound.begin_unknownPool r asked).2 request answered
            rw [sound.begin_keeps_iff r missing]
            simpa [missing] using condition r asked rfl passed
        | failed =>
            obtain rfl := Option.some.inj h
            have result := congrArg Answer.result
              (List.singleton_inj.mp (List.append_cancel_left answered))
            cases result
        | cancelled =>
            obtain rfl := Option.some.inj h
            exact absurd answered (by simp [State.createEntry, State.setReplica])
      · rw [others r same]
    · rcases kept r with same | ⟨_, silent⟩
      · exact same
      · exact absurd (silent.symm.trans answered) (by simp)

/-- The maps follow the indexed pools, and a 404 leaves them as they were, exactly in the runs
in which every request that passes its checks is for an indexed pool that is cached or has its
first leaf.
-/
theorem requests_leave_no_trace_iff (codec : Codec) (hasher : TreeHasher)
    {actions : List Action} {s : State}
    (h : Machine.run (step codec hasher) State.init actions = some s)
    : Machine.Always (step codec hasher) MapsBounded State.init actions
        ∧ Machine.Along (step codec hasher) (NotFoundKeepsMaps codec hasher) State.init actions
      ↔ Machine.Along (step codec hasher) ForIndexedPool State.init actions := by
  have bounded : MapsBounded State.init :=
    mapsBounded_iff.mpr (by simp [State.init, Replica.keys, Replica.fresh])
  have keys := Machine.always_iff_along_of_step MapsBounded
    (fun s action => ∀ r pool, action.Syncs r pool → pool ∈ indexedPools s.db)
    (fun _ _ _ sound stepped => step_sound sound stepped)
    (fun _ _ _ sound good stepped => MapsBounded.step_iff sound good stepped)
    (State.init_sound hasher) bounded h
  rw [keys, ← Machine.along_and]
  refine Machine.along_congr (fun _ _ _ sound stepped => step_sound sound stepped) ?_
    (State.init_sound hasher) h
  intro s action t sound stepped
  rw [sound.notFoundKeepsMaps_iff stepped]
  constructor
  · rintro ⟨indexed, known⟩ r request select rfl passed
    refine ⟨indexed r _ ⟨request, select, rfl, passed, rfl⟩, ?_⟩
    rintro rfl
    exact known r request rfl passed
  · intro condition
    constructor
    · rintro r pool ⟨request, select, rfl, passed, rfl⟩
      exact (condition r request select rfl passed).1
    · rintro r request rfl passed
      exact (condition r request .ok rfl passed).2 rfl

theorem requests_leave_no_trace_iff_indexed
    : ∃ s, Machine.run (step (sampleCodec 1) sampleHasher) State.init
          [sampleStore 0 42, .request 0 (liveRequest "CPOOL") .ok]
        = some s
      ∧ Machine.Always (step (sampleCodec 1) sampleHasher) MapsBounded State.init
          [sampleStore 0 42, .request 0 (liveRequest "CPOOL") .ok]
      ∧ "CPOOL" ∈ (s.replicas 0).keys := by
  have observed
      : (Machine.run (step (sampleCodec 1) sampleHasher) State.init
            [sampleStore 0 42, .request 0 (liveRequest "CPOOL") .ok]).map
          (fun s => ((s.replicas 0).trees "CPOOL").isSome)
        = some true := by
    decide +kernel
  have indexed
      : (step (sampleCodec 1) sampleHasher State.init (sampleStore 0 42)).map
          (fun s => (s.db.commitments.map (·.pool), (leaf? s.db "CPOOL" 0).isSome))
        = some (["CPOOL"], true) := by
    decide +kernel
  obtain ⟨s, ran, key⟩ := Option.map_eq_some_iff.mp observed
  refine ⟨s, ran, ((requests_leave_no_trace_iff (sampleCodec 1) sampleHasher ran).mpr ?_).1, key⟩
  refine ⟨by rintro _ _ _ ⟨⟩, fun t stored => ⟨?_, fun _ _ => trivial⟩⟩
  rw [stored] at indexed
  obtain ⟨pools, leaf⟩ := Prod.mk.inj (Option.some.inj indexed)
  rintro _ _ _ ⟨⟩ _
  refine ⟨?_, fun _ => Or.inr leaf⟩
  rw [indexedPools, pools]
  simp [liveRequest, TreeRequest.pool]

/-- The first request for a name nobody has indexed is answered 404 and leaves an entry. -/
theorem unknown_pool_leaves_entry
    : ∃ s, Machine.run (step (sampleCodec 0) sampleHasher) State.init
          [.request 0 (liveRequest "CNONE") .ok]
        = some s
      ∧ s.answers = [unknownPool (liveRequest "CNONE")]
      ∧ "CNONE" ∈ (s.replicas 0).keys
      ∧ (State.init.replicas 0).keys = ∅
      ∧ indexedPools s.db = ∅ := by
  have observed
      : (Machine.run (step (sampleCodec 0) sampleHasher) State.init
            [.request 0 (liveRequest "CNONE") .ok]).map
          (fun s => (s.answers, ((s.replicas 0).trees "CNONE").isSome, s.db.commitments))
        = some ([unknownPool (liveRequest "CNONE")], true, []) := by
    decide +kernel
  obtain ⟨s, ran, shape⟩ := Option.map_eq_some_iff.mp observed
  obtain ⟨answers, rest⟩ := Prod.mk.inj shape
  obtain ⟨key, rows⟩ := Prod.mk.inj rest
  exact ⟨s, ran, answers, key, by simp [State.init, Replica.keys, Replica.fresh],
    by simp [indexedPools, rows]⟩

end Attesta.Api.TreeService
