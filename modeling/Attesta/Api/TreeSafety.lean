import Attesta.Api.TreeMirror
import Attesta.Api.TreeService

/-! Every reachable state of the tree service is sound: cached trees mirror stored leaves,
history rows are roots of stored prefixes, and every answer describes a stored prefix. An
indexer that only sees genuine leaf events then never lets a misplaced leaf reach a client.
-/

namespace Attesta.Api.TreeService

open Attesta.Merkle Attesta.Indexer KeyedRows

/-- What every component may assume about the tables. -/
structure DbSound (hasher : TreeHasher) (db : Db) : Prop where
  valid : LeavesValid db
  uniqueRoots : NoConflict TreeRootRow.conflict db.treeRoots
  rows : ∀ row ∈ db.treeRoots, RowCorrect hasher db row

/-- A waiting batch holds the entries of the last leaves of its own tree. -/
def PendingInsert.Sound (hasher : TreeHasher) (db : Db) (trees : Trees)
    (pending : PendingInsert)
    : Prop :=
  ∃ leaves start,
    start < leaves.length
    ∧ (trees.entry hasher pending.request.pool).Mirrors hasher db pending.request.pool leaves
    ∧ pending.newRoots = entriesFrom hasher leaves start

structure Replica.Sound (hasher : TreeHasher) (db : Db) (replica : Replica) : Prop where
  trees : ∀ pool, ∃ leaves, (replica.trees.entry hasher pool).Mirrors hasher db pool leaves
  pending
    : ∀ pending, replica.pendingInsert = some pending
        → pending.Sound hasher db replica.trees
  lookups
    : ∀ pool query, (pool, query) ∈ replica.lookups
        → query ≠ { atLedger := none, atLeafCount := none }

/-- What a successful path answer says is true of a prefix of the stored leaves. -/
def PathSound (hasher : TreeHasher) (db : Db) (pool commitment : String)
    (response : PathResponse)
    : Prop :=
  ∃ (leaves : List Leaf) (i : Nat) (node : Node),
    LeafPrefix db pool leaves
    ∧ parseNode commitment = .ok node
    ∧ leaves[i]?.map Leaf.node = some node
    ∧ response.pool = pool
    ∧ response.leafIndex = (i : Int)
    ∧ response.leafCount = (leaves.length : Int)
    ∧ response.root = Hex.hex0x (rootOf hasher leaves)

/-- What a successful root answer says is true of a prefix of the stored leaves. -/
def RootSound (hasher : TreeHasher) (db : Db) (pool : String) (response : RootResponse)
    : Prop :=
  ∃ leaves,
    LeafPrefix db pool leaves
    ∧ response.pool = pool
    ∧ response.leafCount = (leaves.length : Int)
    ∧ response.root = Hex.hex0x (rootOf hasher leaves)

def Answer.Sound (hasher : TreeHasher) (db : Db) (answer : Answer) : Prop :=
  match answer.request, answer.result with
  | .path pool commitment, .ok (.path response) =>
      PathSound hasher db pool commitment response
  | .root pool _, .ok (.root response) => RootSound hasher db pool response
  | _, .ok _ => False
  | _, .error _ => True

/-- The invariant of the tree service. -/
structure State.Sound (hasher : TreeHasher) (s : State) : Prop where
  db : DbSound hasher s.db
  replicas : ∀ r, (s.replicas r).Sound hasher s.db
  answers : ∀ answer ∈ s.answers, answer.Sound hasher s.db

theorem PendingInsert.Sound.mono {hasher : TreeHasher} {db next : Db} {trees : Trees}
    {pending : PendingInsert} (h : pending.Sound hasher db trees)
    (grows : db.commitments <+: next.commitments)
    : pending.Sound hasher next trees := by
  obtain ⟨leaves, start, below, mirrors, batch⟩ := h
  exact ⟨leaves, start, below, mirrors.mono grows, batch⟩

theorem Replica.Sound.mono {hasher : TreeHasher} {db next : Db} {replica : Replica}
    (h : replica.Sound hasher db) (grows : db.commitments <+: next.commitments)
    : replica.Sound hasher next where
  trees pool := by
    obtain ⟨leaves, mirrors⟩ := h.trees pool
    exact ⟨leaves, mirrors.mono grows⟩
  pending pending waiting := (h.pending pending waiting).mono grows
  lookups := h.lookups

theorem Answer.Sound.mono {hasher : TreeHasher} {db next : Db} {answer : Answer}
    (h : answer.Sound hasher db) (grows : db.commitments <+: next.commitments)
    : answer.Sound hasher next := by
  obtain ⟨request, result⟩ := answer
  rcases request with ⟨pool, commitment⟩ | ⟨pool, query⟩
    <;> rcases result with _ | (response | response)
  case path.ok.path =>
    obtain ⟨leaves, i, node, stored, rest⟩ := h
    exact ⟨leaves, i, node, stored.mono grows, rest⟩
  case root.ok.root =>
    obtain ⟨leaves, stored, rest⟩ := h
    exact ⟨leaves, stored.mono grows, rest⟩
  all_goals exact h

/-- New leaves may be inserted as long as the database stays sound by itself. -/
theorem State.Sound.withDb {hasher : TreeHasher} {s : State} (h : s.Sound hasher) {db : Db}
    (sound : DbSound hasher db) (grows : s.db.commitments <+: db.commitments)
    : State.Sound hasher { s with db } where
  db := sound
  replicas r := (h.replicas r).mono grows
  answers answer member := (h.answers answer member).mono grows

theorem State.Sound.setReplica {hasher : TreeHasher} {s : State} (h : s.Sound hasher) (r : Nat)
    {replica : Replica} (sound : replica.Sound hasher s.db)
    : (s.setReplica r replica).Sound hasher where
  db := h.db
  replicas other := by
    by_cases same : other = r
    · simpa [State.setReplica, same] using sound
    · simpa [State.setReplica, same] using h.replicas other
  answers := h.answers

theorem State.Sound.answer {hasher : TreeHasher} {s : State} (h : s.Sound hasher)
    {request : TreeRequest} {result : Except ApiError TreeResponse}
    (sound : Answer.Sound hasher s.db ⟨request, result⟩)
    : (s.answer request result).Sound hasher where
  db := h.db
  replicas := h.replicas
  answers answer member := by
    rcases List.mem_append.mp member with old | new
    · exact h.answers answer old
    · exact List.mem_singleton.mp new ▸ sound

theorem Answer.sound_error (hasher : TreeHasher) (db : Db) (request : TreeRequest)
    (e : ApiError)
    : Answer.Sound hasher db ⟨request, .error e⟩ := by
  cases request <;> trivial

/-- An executed statement keeps the leaves unique and of 32 bytes, and only adds leaves. -/
theorem exec_leavesValid {codec : Codec} {contract : String} {raw : RawEvent}
    {st : Statement} (issued : st ∈ storeRaw codec contract raw) {db next : Db}
    (valid : LeavesValid db) (h : st.exec db = .ok next)
    : LeavesValid next ∧ db.commitments <+: next.commitments := by
  rcases Statement.exec_commitments h with same | ⟨row, rfl, inserted⟩
  · exact ⟨⟨same ▸ valid.unique, same ▸ valid.sized⟩, same ▸ List.prefix_rfl⟩
  · obtain ⟨commitment, leafIndex, amount, asset, _, shape⟩ :=
      insertCommitment_mem_storeRaw issued
    have grows := prefix_insertIgnore CommitmentRow.conflict db.commitments row
    refine ⟨⟨?_, ?_⟩, inserted ▸ grows⟩
    · exact inserted ▸ valid.unique.insertIgnore row
    · intro old member
      rw [inserted] at member
      rcases mem_insertIgnore member with kept | rfl
      · exact valid.sized old kept
      · exact ⟨commitment, by rw [shape]⟩

/-- Any number of statements of one raw event keeps the database sound. -/
theorem execAll_dbSound {codec : Codec} {hasher : TreeHasher} {contract : String}
    {raw : RawEvent} {count : Nat} {db next : Db} (sound : DbSound hasher db)
    (h : execAll db ((storeRaw codec contract raw).take count) = .ok next)
    : DbSound hasher next ∧ db.commitments <+: next.commitments := by
  have kept := by
    refine execAll_invariant
      (fun later =>
        LeavesValid later ∧ db.commitments <+: later.commitments
          ∧ later.treeRoots = db.treeRoots)
      ?_ ⟨sound.valid, List.prefix_rfl, rfl⟩ h
    intro st member before after ⟨valid, grows, roots⟩ executed
    have step := exec_leavesValid (List.mem_of_mem_take member) valid executed
    exact ⟨step.1, grows.trans step.2, (Statement.exec_treeRoots executed).trans roots⟩
  obtain ⟨valid, grows, roots⟩ := kept
  refine ⟨⟨valid, roots ▸ sound.uniqueRoots, ?_⟩, grows⟩
  intro row member
  exact (sound.rows row (roots ▸ member)).mono grows

-----------------------------------------------------------------------------------------
-- The handlers
-----------------------------------------------------------------------------------------

/-- The index lookup of a mirrored tree finds the position of the commitment. -/
theorem pathAnswer_sound {hasher : TreeHasher} {db : Db} {pool commitment : String}
    {poolTree : PoolTree} {leaves : List Leaf} {node : Node} {response : PathResponse}
    (mirrors : poolTree.Mirrors hasher db pool leaves) (parsed : parseNode commitment = .ok node)
    (h : pathAnswer pool poolTree node = .ok response)
    : PathSound hasher db pool commitment response := by
  unfold pathAnswer at h
  split at h
  next i found =>
    split at h
    next path _ =>
      have shape := Except.ok.inj h
      refine ⟨leaves, i, node, mirrors.stored, parsed, (mirrors.index node i).mp found, ?_⟩
      simp [← shape, mirrors.len, mirrors.root]
    next => cases h
  next => cases h

/-- The tree a top-up answers from makes every answer sound. -/
theorem State.Sound.respond {hasher : TreeHasher} {s : State} (h : s.Sound hasher) (r : Nat)
    {poolTree : PoolTree} {request : TreeRequest} {leaves : List Leaf}
    (mirrors : poolTree.Mirrors hasher s.db request.pool leaves)
    : (s.respond r poolTree request).Sound hasher := by
  cases request with
  | path pool commitment =>
      apply h.answer
      cases parsed : parseNode commitment with
      | error e => exact Answer.sound_error hasher s.db _ _
      | ok node =>
          simp only [Except.bind]
          cases answered : pathAnswer pool poolTree node with
          | error e => exact Answer.sound_error hasher s.db _ _
          | ok response => exact pathAnswer_sound mirrors parsed answered
  | root pool query =>
      simp only [State.respond]
      split
      next =>
        exact h.answer ⟨leaves, mirrors.stored, rfl, by simp [liveRoot, mirrors.len],
          by simp [liveRoot, mirrors.root]⟩
      next historical =>
        refine h.setReplica r ⟨(h.replicas r).trees, (h.replicas r).pending, ?_⟩
        intro target asked listed
        rcases List.mem_append.mp listed with old | new
        · exact (h.replicas r).lookups target asked old
        · obtain ⟨rfl, rfl⟩ := Prod.mk.inj (List.mem_singleton.mp new)
          rintro rfl
          exact historical rfl

theorem State.Sound.finish {hasher : TreeHasher} {s : State} (h : s.Sound hasher) (r : Nat)
    {poolTree : PoolTree} {request : TreeRequest} {leaves : List Leaf}
    (mirrors : poolTree.Mirrors hasher s.db request.pool leaves)
    : (s.finish r poolTree request).Sound hasher := by
  unfold State.finish checkNonEmpty
  split
  next e failed => exact h.answer (Answer.sound_error hasher s.db request e)
  next final passed =>
    split at passed
    · cases passed
    · exact Except.ok.inj passed ▸ h.respond r mirrors

/-- Replacing one tree by a longer mirror keeps a replica sound while no batch waits. -/
theorem Replica.Sound.setTree {hasher : TreeHasher} {db : Db} {replica : Replica}
    (h : replica.Sound hasher db) (idle : replica.pendingInsert = none) {pool : String}
    {poolTree : PoolTree} {leaves : List Leaf}
    (mirrors : poolTree.Mirrors hasher db pool leaves)
    : Replica.Sound hasher db { replica with trees := replica.trees.insert pool poolTree } where
  trees other := by
    by_cases same : other = pool
    · subst same
      exact ⟨leaves, by simpa using mirrors⟩
    · obtain ⟨old, oldMirrors⟩ := h.trees other
      exact ⟨old, by simpa [Trees.entry_insert_of_ne hasher _ _ same] using oldMirrors⟩
  pending pending waiting := by simp [idle] at waiting
  lookups := h.lookups

theorem State.Sound.begin {hasher : TreeHasher} {s : State} (h : s.Sound hasher) {r : Nat}
    (idle : (s.replicas r).pendingInsert = none) (request : TreeRequest)
    : (s.begin hasher r request).Sound hasher := by
  obtain ⟨leaves, mirrored⟩ := (h.replicas r).trees request.pool
  obtain ⟨next, more, run, mirrors⟩ := topUp_spec h.db.valid mirrored
  have advanced := h.setReplica r ((h.replicas r).setTree idle mirrors)
  simp only [State.begin, run]
  split
  next empty => exact advanced.finish r mirrors
  next waiting =>
    apply advanced.setReplica r
    refine ⟨(advanced.replicas r).trees, ?_, (advanced.replicas r).lookups⟩
    rintro pending ⟨⟩
    refine ⟨leaves ++ more, leaves.length, ?_, ?_, rfl⟩
    · by_contra short
      have none : more = [] := by simpa using short
      simp [none] at waiting
    · simpa [State.setReplica] using mirrors

theorem State.Sound.createEntry {hasher : TreeHasher} {s : State} (h : s.Sound hasher) {r : Nat}
    (idle : (s.replicas r).pendingInsert = none) (pool : String)
    : (s.createEntry hasher r pool).Sound hasher := by
  obtain ⟨leaves, mirrors⟩ := (h.replicas r).trees pool
  exact h.setReplica r ((h.replicas r).setTree idle mirrors)

theorem mem_insertTreeRoots {db : Db} {pool : String} {newRoots : List RootEntry}
    {row : TreeRootRow} (h : row ∈ (insertTreeRoots db pool newRoots).treeRoots)
    : row ∈ db.treeRoots ∨ ∃ entry ∈ newRoots, row = entryRow pool entry := by
  rcases mem_insertAllIgnore h with old | new
  · exact Or.inl old
  · obtain ⟨entry, member, shape⟩ := List.mem_map.mp new
    exact Or.inr ⟨entry, member, shape.symm⟩

/-- Storing the entries of stored leaves keeps the history sound. -/
theorem DbSound.insertTreeRoots {hasher : TreeHasher} {db : Db} (h : DbSound hasher db)
    {pool : String} {leaves : List Leaf} (stored : LeafPrefix db pool leaves) (start : Nat)
    : DbSound hasher (insertTreeRoots db pool (entriesFrom hasher leaves start)) where
  valid := ⟨h.valid.unique, h.valid.sized⟩
  uniqueRoots := h.uniqueRoots.insertAllIgnore _
  rows row member := by
    rcases mem_insertTreeRoots member with old | ⟨entry, new, rfl⟩
    · exact h.rows row old
    · exact entriesFrom_correct stored new

theorem State.Sound.endInsert {hasher : TreeHasher} {s : State} (h : s.Sound hasher) {r : Nat}
    {pending : PendingInsert} (waiting : (s.replicas r).pendingInsert = some pending)
    (outcome : InsertOutcome)
    : (s.endInsert hasher r pending outcome).Sound hasher := by
  obtain ⟨leaves, start, _, mirrors, batch⟩ := (h.replicas r).pending pending waiting
  have released
      : (s.setReplica r { s.replicas r with pendingInsert := none }).Sound hasher :=
    h.setReplica r ⟨(h.replicas r).trees, by simp, (h.replicas r).lookups⟩
  have sound
      : DbSound hasher (insertTreeRoots s.db pending.request.pool pending.newRoots) := by
    rw [batch]
    exact h.db.insertTreeRoots mirrors.stored start
  have stored := released.withDb sound List.prefix_rfl
  cases outcome with
  | ok => exact stored.finish r (mirrors.mono List.prefix_rfl)
  | failed applied =>
      cases applied
      · exact released.answer (Answer.sound_error hasher _ _ _)
      · exact stored.answer (Answer.sound_error hasher _ _ _)
  | cancelled applied =>
      cases applied
      · exact released
      · exact stored

/-- A history answer reports a row, and every row is the root of a stored prefix. -/
theorem historyAnswer_sound {hasher : TreeHasher} {db : Db} (sound : DbSound hasher db)
    {pool : String} {query : RootQuery} {response : RootResponse}
    (h : historyAnswer db pool query = .ok response)
    : RootSound hasher db pool response := by
  unfold historyAnswer at h
  split at h
  next row found =>
    split at h
    next root bytes =>
      obtain ⟨member, rfl, _, _⟩ := historyRow_spec found
      obtain ⟨leaves, _, stored, shape⟩ := sound.rows row member
      have stamp : row.root = (rootOf hasher leaves).bytes := congrArg TreeRootRow.root shape
      rw [stamp, Node.ofBytes?_bytes] at bytes
      refine ⟨leaves, stored, ?_⟩
      rw [← Except.ok.inj h, ← Option.some.inj bytes]
      exact ⟨rfl, congrArg TreeRootRow.leafCount shape, rfl⟩
    next => cases h
  next => cases h

theorem State.Sound.endLookup {hasher : TreeHasher} {s : State} (h : s.Sound hasher) (r : Nat)
    (pool : String) (query : RootQuery) {rest : List (String × RootQuery)}
    (remaining : rest ⊆ (s.replicas r).lookups) (outcome : QueryOutcome)
    : (s.endLookup r pool query rest outcome).Sound hasher := by
  have released : (s.setReplica r { s.replicas r with lookups := rest }).Sound hasher :=
    h.setReplica r
      ⟨(h.replicas r).trees, (h.replicas r).pending,
        fun pool query listed => (h.replicas r).lookups pool query (remaining listed)⟩
  cases outcome with
  | ok =>
      apply released.answer
      change Answer.Sound hasher s.db ⟨_, (historyAnswer s.db pool query).map .root⟩
      cases answered : historyAnswer s.db pool query with
      | error e => exact Answer.sound_error hasher _ _ e
      | ok response => exact historyAnswer_sound h.db answered
  | failed => exact released.answer (Answer.sound_error hasher _ _ _)
  | cancelled => exact released

-----------------------------------------------------------------------------------------
-- Runs
-----------------------------------------------------------------------------------------

theorem Replica.fresh_sound (hasher : TreeHasher) (db : Db)
    : Replica.fresh.Sound hasher db where
  trees pool := ⟨[], PoolTree.new_mirrors hasher db pool⟩
  pending pending waiting := by cases waiting
  lookups pool query listed := by cases listed

theorem State.init_sound (hasher : TreeHasher) : State.init.Sound hasher where
  db := ⟨⟨List.Pairwise.nil, by simp [State.init, Db.empty]⟩, List.Pairwise.nil,
    by simp [State.init, Db.empty]⟩
  replicas _ := Replica.fresh_sound hasher _
  answers := by simp [State.init]

/-- No action of the indexer or of a replica, and no failure, makes a sound state unsound. -/
theorem step_sound {codec : Codec} {hasher : TreeHasher} {s t : State} {action : Action}
    (h : s.Sound hasher) (stepped : step codec hasher s action = some t)
    : t.Sound hasher := by
  cases step_effect stepped with
  | stored executed =>
      have kept := execAll_dbSound h.db executed
      exact h.withDb kept.1 kept.2
  | refused => exact h.answer (Answer.sound_error hasher _ _ _)
  | begun idle => exact h.begin idle _
  | unread idle => exact (h.createEntry idle _).answer (Answer.sound_error hasher _ _ _)
  | dropped idle => exact h.createEntry idle _
  | inserted waiting => exact h.endInsert waiting _
  | lookedUp => exact h.endLookup _ _ _ (List.eraseIdx_subset) _
  | restarted r => exact h.setReplica r (Replica.fresh_sound hasher s.db)

/-- The table of leaves only ever grows. -/
theorem step_commitments {codec : Codec} {hasher : TreeHasher} {s t : State} {action : Action}
    (h : s.Sound hasher) (stepped : step codec hasher s action = some t)
    : s.db.commitments <+: t.db.commitments := by
  rcases step_db stepped with ⟨_, _, _, _, executed⟩ | ⟨_, _, _, stored⟩ | same
  · exact (execAll_dbSound h.db executed).2
  · exact stored ▸ List.prefix_rfl
  · exact same ▸ List.prefix_rfl

theorem run_sound {codec : Codec} {hasher : TreeHasher} {s : State} {actions : List Action}
    (h : Machine.run (step codec hasher) State.init actions = some s)
    : s.Sound hasher :=
  Machine.invariant (fun _ _ _ sound stepped => step_sound sound stepped)
    (State.init_sound hasher) h

/-- A `new_commitment` event of the pool names a leaf of the contract and its index. -/
def Action.Genuine (codec : Codec) (pool : String) (contractLeaves : List Node) : Action → Prop
  | .store contract raw _ =>
      ∀ commitment leafIndex depositAmount asset,
        contract = pool
        → codec.decode raw = some (.newCommitment commitment leafIndex depositAmount asset)
        → ∃ i : Nat, leafIndex = i ∧ contractLeaves[i]? = some commitment
  | _ => True

/-- Every stored leaf of the pool is the contract's leaf at the stored index. -/
def LeavesGenuine (pool : String) (contractLeaves : List Node) (db : Db) : Prop :=
  ∀ row ∈ db.commitments, row.pool = pool
    → ∃ (i : Nat) (node : Node),
        row.leafIndex = i ∧ contractLeaves[i]? = some node ∧ row.commitment = node.bytes

theorem LeavesGenuine.eq_take {pool : String} {contractLeaves : List Node} {db : Db}
    (genuine : LeavesGenuine pool contractLeaves db) {leaves : List Leaf}
    (stored : LeafPrefix db pool leaves)
    : leaves.length ≤ contractLeaves.length
      ∧ leaves.map Leaf.node = contractLeaves.take leaves.length := by
  have same (i : Nat) (inside : i < leaves.length)
      : contractLeaves[i]? = some leaves[i].node := by
    obtain ⟨row, member, samePool, index, bytes, _⟩ := exists_row_of_leaf? (stored i inside)
    obtain ⟨j, node, atIndex, found, content⟩ := genuine row member samePool
    have position : j = i := Int.ofNat.inj (atIndex.symm.trans index)
    have value : node = leaves[i].node := Node.bytes_injective (content.symm.trans bytes)
    exact value ▸ position ▸ found
  have within : leaves.length ≤ contractLeaves.length := by
    rcases Nat.eq_zero_or_pos leaves.length with none | some
    · omega
    · have last := (List.getElem?_eq_some_iff.mp (same (leaves.length - 1) (by omega))).1
      omega
  refine ⟨within, List.ext_getElem (by simp [within]) ?_⟩
  intro i inside _
  rw [List.length_map] at inside
  rw [List.getElem_map, List.getElem_take]
  exact (List.getElem?_eq_some_iff.mp (same i inside)).2.symm

/-- Statements issued for a genuine event only store genuine leaves. -/
theorem execAll_genuine {codec : Codec} {pool contract : String} {contractLeaves : List Node}
    {raw : RawEvent} {count : Nat}
    (event : (Action.store contract raw count).Genuine codec pool contractLeaves) {db next : Db}
    (genuine : LeavesGenuine pool contractLeaves db)
    (h : execAll db ((storeRaw codec contract raw).take count) = .ok next)
    : LeavesGenuine pool contractLeaves next := by
  refine execAll_invariant (LeavesGenuine pool contractLeaves) ?_ genuine h
  intro st member before after kept executed row inTable samePool
  rcases Statement.exec_commitments executed with same | ⟨new, rfl, inserted⟩
  · exact kept row (same ▸ inTable) samePool
  · rcases mem_insertIgnore (inserted ▸ inTable) with old | rfl
    · exact kept row old samePool
    · obtain ⟨commitment, leafIndex, amount, asset, decoded, rfl⟩ :=
        insertCommitment_mem_storeRaw (List.mem_of_mem_take member)
      obtain ⟨i, index, found⟩ := event commitment leafIndex amount asset samePool decoded
      exact ⟨i, commitment, index, found, rfl⟩

/-- Requests, failures and restarts store no leaves. -/
theorem step_genuine {codec : Codec} {hasher : TreeHasher} {pool : String}
    {contractLeaves : List Node} {s t : State} {action : Action}
    (event : action.Genuine codec pool contractLeaves)
    (genuine : LeavesGenuine pool contractLeaves s.db)
    (stepped : step codec hasher s action = some t)
    : LeavesGenuine pool contractLeaves t.db := by
  rcases step_db stepped with ⟨contract, raw, count, rfl, executed⟩ | ⟨_, _, _, stored⟩ | same
  · exact execAll_genuine event genuine executed
  · exact stored ▸ genuine
  · exact same ▸ genuine

/-- What a successful answer has to say about the leaves of the contract. -/
def Answer.Placed (hasher : TreeHasher) (contractLeaves : List Node) (answer : Answer) : Prop :=
  match answer.request, answer.result with
  | .path _ commitment, .ok (.path response) =>
      ∃ (count i : Nat) (node : Node),
        count ≤ contractLeaves.length
        ∧ response.leafCount = count
        ∧ response.root
            = Hex.hex0x (hasher.scheme.root (contractLeaves.take count) treeDepth)
        ∧ response.leafIndex = i
        ∧ i < count
        ∧ parseNode commitment = .ok node
        ∧ contractLeaves[i]? = some node
  | .root _ _, .ok (.root response) =>
      ∃ count ≤ contractLeaves.length,
        response.leafCount = count
        ∧ response.root
            = Hex.hex0x (hasher.scheme.root (contractLeaves.take count) treeDepth)
  | _, .ok _ => False
  | _, .error _ => True

theorem Answer.Sound.placed {hasher : TreeHasher} {db : Db} {contractLeaves : List Node}
    {answer : Answer} (h : answer.Sound hasher db)
    (genuine : LeavesGenuine answer.request.pool contractLeaves db)
    : answer.Placed hasher contractLeaves := by
  obtain ⟨request, result⟩ := answer
  rcases request with ⟨pool, commitment⟩ | ⟨pool, query⟩
    <;> rcases result with _ | (response | response)
  case path.ok.path =>
    obtain ⟨leaves, i, node, stored, parsed, found, _, index, count, root⟩ := h
    obtain ⟨within, same⟩ := LeavesGenuine.eq_take genuine stored
    have inside : i < leaves.length := by
      obtain ⟨leaf, atIndex, _⟩ := Option.map_eq_some_iff.mp found
      exact (List.getElem?_eq_some_iff.mp atIndex).1
    refine ⟨leaves.length, i, node, within, count, ?_, index, inside, parsed, ?_⟩
    · rw [root, rootOf, same]
    · rw [← List.getElem?_map, same, List.getElem?_take_of_lt inside] at found
      exact found
  case root.ok.root =>
    obtain ⟨leaves, stored, _, count, root⟩ := h
    obtain ⟨within, same⟩ := LeavesGenuine.eq_take genuine stored
    exact ⟨leaves.length, within, count, by rw [root, rootOf, same]⟩
  all_goals exact h

/-- However indexing, top-ups, failures and restarts interleave, a successful answer carries
the root of the first `leafCount` leaves of the contract and the true index of its leaf.
Events may arrive in any order, more than once, or never.
-/
theorem answers_placed (codec : Codec) (hasher : TreeHasher) (pool : String)
    (contractLeaves : List Node) {actions : List Action} {s : State}
    (genuine : ∀ action ∈ actions, action.Genuine codec pool contractLeaves)
    (h : Machine.run (step codec hasher) State.init actions = some s)
    : ∀ answer ∈ s.answers,
        answer.request.pool = pool → answer.Placed hasher contractLeaves := by
  have leaves : LeavesGenuine pool contractLeaves s.db :=
    Machine.invariant_of_allowed (fun _ _ _ => step_genuine)
      (by simp [LeavesGenuine, State.init, Db.empty]) genuine h
  rintro answer member rfl
  exact ((run_sound h).answers answer member).placed leaves

/-- A hasher that can be evaluated: it adds the children byte by byte. -/
def sampleHasher : TreeHasher where
  hashPair left right := ⟨List.zipWith UInt8.add left.bytes right.bytes,
    by simp [left.size, right.size]⟩
  emptyLeaf := Node.zero

/-- The indexer stores sample leaf `i` of the pool `CPOOL`. -/
def sampleStore (i : Nat) (ledger : UInt64) : Action :=
  .store "CPOOL" (sampleEvent "new_commitment" (sampleDeposit i) ledger) 1

/-- The second leaf is stored first and again after the first one. A request comes too early,
and then two replicas are asked for the place of the second leaf.
-/
def replayedStore : List Action :=
  [sampleStore 1 43, .request 0 (.path "CPOOL" (Hex.hex0x (sampleLeaf 1))) .ok, sampleStore 0 42,
    sampleStore 1 43, .request 0 (.path "CPOOL" (Hex.hex0x (sampleLeaf 1))) .ok, .insert 0 .ok,
    .request 1 (.path "CPOOL" (Hex.hex0x (sampleLeaf 1))) .ok, .insert 1 .ok]

theorem replayedStore_genuine
    : ∀ action ∈ replayedStore,
        action.Genuine (sampleCodec 2) "CPOOL" [sampleLeaf 0, sampleLeaf 1] := by
  have stored (i : Nat) {leaf : Node} (ledger : UInt64)
      (there : [sampleLeaf 0, sampleLeaf 1][i]? = some leaf)
      (event
        : (sampleCodec 2).decode (sampleEvent "new_commitment" (sampleDeposit i) ledger)
          = some (.newCommitment leaf i (some 100) (some "USDC")))
      : (sampleStore i ledger).Genuine (sampleCodec 2) "CPOOL"
          [sampleLeaf 0, sampleLeaf 1] := by
    intro commitment leafIndex depositAmount asset _ decoded
    obtain ⟨rfl, rfl, _⟩ :=
      PoolEvent.newCommitment.inj (Option.some.inj (event.symm.trans decoded))
    exact ⟨i, rfl, there⟩
  have first := stored 0 42 rfl (by decide +kernel)
  have second := stored 1 43 rfl (by decide +kernel)
  simp only [replayedStore, List.forall_mem_cons, first, second, true_and]
  simp [Action.Genuine]

theorem answers_placed_replay
    : ∃ s,
        Machine.run (step (sampleCodec 2) sampleHasher) State.init replayedStore = some s
        ∧ s.answers.map (fun answer => answer.result.toBool) = [false, true, true]
        ∧ ∀ answer ∈ s.answers, answer.Placed sampleHasher [sampleLeaf 0, sampleLeaf 1] := by
  have observed
      : (Machine.run (step (sampleCodec 2) sampleHasher) State.init replayedStore).map
          (fun s =>
            (s.answers.map (fun answer => answer.result.toBool),
              decide (∀ answer ∈ s.answers, answer.request.pool = "CPOOL")))
        = some ([false, true, true], true) := by
    decide +kernel
  obtain ⟨s, ran, shape⟩ := Option.map_eq_some_iff.mp observed
  obtain ⟨results, pools⟩ := Prod.mk.inj shape
  refine ⟨s, ran, results, fun answer member => ?_⟩
  exact answers_placed (sampleCodec 2) sampleHasher "CPOOL" [sampleLeaf 0, sampleLeaf 1]
    replayedStore_genuine ran answer member (of_decide_eq_true pools answer member)

end Attesta.Api.TreeService
