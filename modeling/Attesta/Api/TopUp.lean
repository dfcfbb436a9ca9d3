import Attesta.Api.StoredLeaves

/-! How far the top-ups of one process reach while rows of `commitments` arrive in any order:
after every call whose read succeeds the tree holds the leaves up to the first missing index,
and nothing but the stored rows decides what it holds.
-/

namespace Attesta.Api.TopUp

open Attesta.Merkle KeyedRows
open TreeService (sampleHasher)

/-- The stored tables and the trees one process has cached from them. -/
structure State where
  db : Db
  trees : Trees

def State.init : State where
  db := Db.empty
  trees _ := none

/-- A leaf on its way into the table, at any index. -/
structure Arrival where
  pool : String
  leafIndex : Int
  commitment : Node
  ledger : Int
  txHash : String

def Arrival.row (arrival : Arrival) : CommitmentRow :=
  ⟨arrival.pool, arrival.leafIndex, arrival.commitment.bytes, arrival.ledger, arrival.txHash⟩

inductive Action
  /-- A row is inserted, or ignored if its index or its commitment is stored already. -/
  | insert (arrival : Arrival)
  /-- `sync_pool_tree` is called, its SELECT may fail, and its INSERT be applied or not. -/
  | sync (pool : String) (read applied : Bool)

def State.insert (s : State) (arrival : Arrival) : State :=
  { s with
    db := { s.db with
      commitments := insertIgnore CommitmentRow.conflict s.db.commitments arrival.row } }

/-- A call leaves its tree in the map even if it returns an error. -/
def State.sync (hasher : TreeHasher) (s : State) (pool : String) (read applied : Bool) : State :=
  if read then
    let (poolTree, newRoots, abort) := topUp hasher s.db s.trees pool
    { db := if applied && abort.isNone then insertTreeRoots s.db pool newRoots else s.db
      trees := s.trees.insert pool poolTree }
  else { s with trees := s.trees.insert pool (s.trees.entry hasher pool) }

variable (hasher : TreeHasher)

def step (s : State) : Action → Option State
  | .insert arrival => some (s.insert arrival)
  | .sync pool read applied => some (s.sync hasher pool read applied)

/-- The tables are valid and every cached tree mirrors stored leaves. -/
structure State.Sound (s : State) : Prop where
  valid : LeavesValid s.db
  trees : ∀ pool, ∃ leaves, (s.trees.entry hasher pool).Mirrors hasher s.db pool leaves

/-- Every tree of the earlier state has only been appended to. -/
def State.Extends (earlier later : State) : Prop :=
  ∀ pool leaves, (earlier.trees.entry hasher pool).Mirrors hasher earlier.db pool leaves
    → ∃ more, (later.trees.entry hasher pool).Mirrors hasher later.db pool (leaves ++ more)

variable {hasher}

theorem State.init_sound : State.init.Sound hasher where
  valid := {
    unique := List.Pairwise.nil
    sized := fun _ member => absurd member List.not_mem_nil
  }
  trees pool := ⟨[], PoolTree.new_mirrors hasher _ pool⟩

theorem State.Extends.refl (s : State) : s.Extends hasher s :=
  fun _ leaves mirrors => ⟨[], by rwa [List.append_nil]⟩

theorem State.Extends.trans {first second third : State} (h : first.Extends hasher second)
    (later : second.Extends hasher third)
    : first.Extends hasher third := by
  intro pool leaves mirrors
  obtain ⟨more, mirrors⟩ := h pool leaves mirrors
  obtain ⟨others, mirrors⟩ := later pool _ mirrors
  exact ⟨more ++ others, by rwa [← List.append_assoc]⟩

/-- Both parts of the invariant come from what a step does to the tree of each pool. -/
theorem State.Sound.of_extends {s t : State} (h : s.Sound hasher) (valid : LeavesValid t.db)
    (grown : s.Extends hasher t)
    : t.Sound hasher where
  valid := valid
  trees pool := by
    obtain ⟨leaves, mirrors⟩ := h.trees pool
    obtain ⟨more, mirrors⟩ := grown pool leaves mirrors
    exact ⟨leaves ++ more, mirrors⟩

theorem insert_leavesValid {db : Db} (h : LeavesValid db) (arrival : Arrival)
    : LeavesValid
        { db with
          commitments := insertIgnore CommitmentRow.conflict db.commitments arrival.row } where
  unique := h.unique.insertIgnore arrival.row
  sized row member := by
    rcases mem_insertIgnore member with old | new
    · exact h.sized row old
    · exact ⟨arrival.commitment, congrArg CommitmentRow.commitment new⟩

theorem State.insert_extends (s : State) (arrival : Arrival)
    : s.Extends hasher (s.insert arrival) := by
  intro pool leaves mirrors
  have grows : s.db.commitments <+: (s.insert arrival).db.commitments :=
    prefix_insertIgnore _ _ _
  have grown := mirrors.mono grows
  exact ⟨[], by rwa [List.append_nil]⟩

@[simp]
theorem State.sync_commitments (s : State) (pool : String) (read applied : Bool)
    : (s.sync hasher pool read applied).db.commitments = s.db.commitments := by
  unfold State.sync
  split
  · dsimp only
    split <;> rfl
  · rfl

/-- A call whose read succeeds extends what was cached by all leaves up to the first gap. -/
theorem State.Sound.sync_spec {s : State} (h : s.Sound hasher) {pool : String}
    {cached : List Leaf} (mirrors : (s.trees.entry hasher pool).Mirrors hasher s.db pool cached)
    (applied : Bool)
    : ∃ more, AllLeaves s.db pool (cached ++ more)
        ∧ ((s.sync hasher pool true applied).trees.entry hasher pool).Mirrors hasher s.db pool
            (cached ++ more) := by
  obtain ⟨next, more, run, mirrored⟩ := topUp_spec h.valid mirrors
  have ended := topUp_stops h.valid mirrors run
  rw [mirrored.len] at ended
  refine ⟨more, ⟨mirrored.stored, ended⟩, ?_⟩
  simpa [State.sync, run] using mirrored

theorem State.Sound.sync_extends {s : State} (h : s.Sound hasher) (pool : String)
    (read applied : Bool)
    : s.Extends hasher (s.sync hasher pool read applied) := by
  intro other leaves mirrors
  have grows : s.db.commitments <+: (s.sync hasher pool read applied).db.commitments :=
    State.sync_commitments s pool read applied ▸ List.prefix_rfl
  cases read with
  | false => exact ⟨[], by simpa [State.sync] using mirrors⟩
  | true =>
      by_cases same : other = pool
      · subst same
        obtain ⟨more, _, mirrored⟩ := h.sync_spec mirrors applied
        exact ⟨more, mirrored.mono grows⟩
      · refine ⟨[], ?_⟩
        rw [List.append_nil, State.sync, if_pos rfl, Trees.entry_insert_of_ne _ _ _ same]
        exact mirrors.mono grows

theorem step_sound {s t : State} {action : Action} (h : s.Sound hasher)
    (stepped : step hasher s action = some t)
    : t.Sound hasher ∧ s.Extends hasher t := by
  cases action with
  | insert arrival =>
      obtain rfl := Option.some.inj stepped
      have grown : s.Extends hasher (s.insert arrival) := s.insert_extends arrival
      exact ⟨h.of_extends (insert_leavesValid h.valid arrival) grown, grown⟩
  | sync pool read applied =>
      obtain rfl := Option.some.inj stepped
      have grown := h.sync_extends pool read applied
      have valid : LeavesValid (s.sync hasher pool read applied).db := by
        refine ⟨?_, ?_⟩
        · rw [State.sync_commitments]
          exact h.valid.unique
        · rw [State.sync_commitments]
          exact h.valid.sized
      exact ⟨h.of_extends valid grown, grown⟩

/-- The trees of a whole run only grow, by induction on the run. -/
theorem run_sound {s t : State} {actions : List Action} (h : s.Sound hasher)
    (ran : Machine.run (step hasher) s actions = some t)
    : t.Sound hasher ∧ s.Extends hasher t := by
  have preserved (middle : State) (action : Action) (next : State)
      (reached : middle.Sound hasher ∧ s.Extends hasher middle)
      (stepped : step hasher middle action = some next)
      : next.Sound hasher ∧ s.Extends hasher next := by
    obtain ⟨sound, grown⟩ := step_sound reached.1 stepped
    exact ⟨sound, reached.2.trans grown⟩
  exact Machine.invariant preserved ⟨h, State.Extends.refl s⟩ ran

theorem leaf?_of_rows {db next : Db} (valid : LeavesValid next) {pool : String}
    (rows : ∀ row, row.pool = pool → row ∈ db.commitments → row ∈ next.commitments) {i : Nat}
    {leaf : Leaf} (h : leaf? db pool i = some leaf)
    : leaf? next pool i = some leaf := by
  obtain ⟨row, stored, samePool, index, bytes, ledger⟩ := exists_row_of_leaf? h
  have found := valid.leaf?_of_mem (rows row samePool stored) index bytes
  rwa [samePool, ledger] at found

/-- The same rows of a pool, in whatever order they were stored, are the same leaves. -/
theorem allLeaves_of_rows {db next : Db} (valid : LeavesValid db) (validNext : LeavesValid next)
    {pool : String}
    (rows : ∀ row, row.pool = pool → (row ∈ db.commitments ↔ row ∈ next.commitments))
    {leaves : List Leaf} (h : AllLeaves db pool leaves)
    : AllLeaves next pool leaves where
  stored i inside :=
    leaf?_of_rows validNext (fun row samePool => (rows row samePool).mp) (h.stored i inside)
  ended := by
    refine Option.eq_none_iff_forall_ne_some.mpr ?_
    intro leaf found
    have earlier := leaf?_of_rows valid (fun row samePool => (rows row samePool).mpr) found
    rw [h.ended] at earlier
    cases earlier

/-- What was cached stays cached at its index. -/
theorem State.Extends.kept {s t : State} (h : s.Extends hasher t) (sound : s.Sound hasher)
    (pool : String)
    : (s.trees.entry hasher pool).tree.levels.get 0
        <+: (t.trees.entry hasher pool).tree.levels.get 0
      ∧ ∀ c i,
          (s.trees.entry hasher pool).indexByCommitment c = some i
          → (t.trees.entry hasher pool).indexByCommitment c = some i := by
  obtain ⟨leaves, mirrors⟩ := sound.trees pool
  obtain ⟨more, mirrored⟩ := h pool leaves mirrors
  constructor
  · rw [mirrors.holds.1, mirrored.holds.1, List.map_append]
    exact List.prefix_append _ _
  · intro c i cached
    refine (mirrored.index c i).mpr ?_
    obtain ⟨leaf, found, node⟩ := Option.map_eq_some_iff.mp ((mirrors.index c i).mp cached)
    have inside := (List.getElem?_eq_some_iff.mp found).1
    rw [List.getElem?_append_left inside, found, Option.map_some, node]

/-- After every call whose read succeeds the tree holds the leaves of its pool below the first
missing index, their positions, and the greatest of 0 and their ledgers. Leaves and positions
never change, and the same stored rows give the same tree in whatever order and between
whichever calls they arrived.
-/
theorem topUp_reaches_gap (hasher : TreeHasher) {s t : State} {actions : List Action}
    {pool : String} {applied : Bool}
    (ran : Machine.run (step hasher) State.init actions = some s)
    (synced : step hasher s (.sync pool true applied) = some t)
    : (∃ leaves,
        AllLeaves s.db pool leaves
        ∧ (t.trees.entry hasher pool).Holds hasher (leaves.map Leaf.node)
        ∧ (∀ c i,
            (t.trees.entry hasher pool).indexByCommitment c = some i
            ↔ leaves[i]?.map Leaf.node = some c)
        ∧ (t.trees.entry hasher pool).anchoredLedger = anchorOf leaves)
      ∧ (∀ later u other,
          Machine.run (step hasher) s later = some u
          → (s.trees.entry hasher other).tree.levels.get 0
              <+: (u.trees.entry hasher other).tree.levels.get 0
            ∧ ∀ c i,
                (s.trees.entry hasher other).indexByCommitment c = some i
                → (u.trees.entry hasher other).indexByCommitment c = some i)
      ∧ (∀ others applied' s' t',
          Machine.run (step hasher) State.init others = some s'
          → (∀ row, row.pool = pool → (row ∈ s.db.commitments ↔ row ∈ s'.db.commitments))
          → step hasher s' (.sync pool true applied') = some t'
          → t'.trees.entry hasher pool = t.trees.entry hasher pool) := by
  obtain ⟨sound, _⟩ := run_sound State.init_sound ran
  obtain ⟨cached, mirrors⟩ := sound.trees pool
  obtain ⟨more, all, mirrored⟩ := sound.sync_spec mirrors applied
  obtain rfl := Option.some.inj synced
  refine ⟨⟨_, all, mirrored.holds, mirrored.index, mirrored.anchor⟩, ?_, ?_⟩
  · intro later u other ranOn
    exact (run_sound sound ranOn).2.kept sound other
  · intro others applied' s' t' ran' rows synced'
    obtain ⟨sound', _⟩ := run_sound State.init_sound ran'
    obtain ⟨cached', mirrors'⟩ := sound'.trees pool
    obtain ⟨more', all', mirrored'⟩ := sound'.sync_spec mirrors' applied'
    obtain rfl := Option.some.inj synced'
    have same := AllLeaves.unique (allLeaves_of_rows sound.valid sound'.valid rows all) all'
    rw [← same] at mirrored'
    exact mirrored'.eq mirrored

/-- Leaf `i` of the pool `CPOOL` arrives. -/
def sampleArrival (i : Nat) (ledger : Int) : Action :=
  .insert ⟨"CPOOL", i, Indexer.sampleLeaf i, ledger, "abc"⟩

/-- The second leaf arrives before the first, with a call in between. -/
theorem topUp_reaches_gap_late
    : ∃ s t,
        Machine.run (step sampleHasher) State.init
            [sampleArrival 1 43, .sync "CPOOL" true true, sampleArrival 0 42]
          = some s
        ∧ step sampleHasher s (.sync "CPOOL" true true) = some t
        ∧ (t.trees.entry sampleHasher "CPOOL").tree.levels.get 0
          = [Indexer.sampleLeaf 0, Indexer.sampleLeaf 1]
        ∧ (t.trees.entry sampleHasher "CPOOL").anchoredLedger = 43 := by
  have observed
      : (Machine.run (step sampleHasher) State.init
            [sampleArrival 1 43, .sync "CPOOL" true true, sampleArrival 0 42]).map
          (fun s => (List.range 3).map (leaf? s.db "CPOOL"))
        = some [some ⟨Indexer.sampleLeaf 0, 42⟩, some ⟨Indexer.sampleLeaf 1, 43⟩, none] := by
    decide +kernel
  obtain ⟨s, ran, table⟩ := Option.map_eq_some_iff.mp observed
  have synced
      : step sampleHasher s (.sync "CPOOL" true true)
        = some (s.sync sampleHasher "CPOOL" true true) := rfl
  obtain ⟨⟨leaves, all, holds, _, anchor⟩, _⟩ := topUp_reaches_gap sampleHasher ran synced
  have known : leaves = [⟨Indexer.sampleLeaf 0, 42⟩, ⟨Indexer.sampleLeaf 1, 43⟩] :=
    all.unique (allLeaves_of_range table)
  subst known
  exact ⟨s, _, ran, synced, holds.1, anchor⟩

/-- The anchor of a tree whose only leaf has a negative ledger is 0. -/
theorem anchor_of_negative_ledger
    : ∃ s,
        Machine.run (step sampleHasher) State.init
            [sampleArrival 0 (-5), .sync "CPOOL" true true]
          = some s
        ∧ AllLeaves s.db "CPOOL" [⟨Indexer.sampleLeaf 0, -5⟩]
        ∧ (s.trees.entry sampleHasher "CPOOL").tree.len = 1
        ∧ (s.trees.entry sampleHasher "CPOOL").anchoredLedger = 0 := by
  have observed
      : (Machine.run (step sampleHasher) State.init
            [sampleArrival 0 (-5), .sync "CPOOL" true true]).map
          (fun s => ((List.range 2).map (leaf? s.db "CPOOL"),
            (s.trees.entry sampleHasher "CPOOL").tree.len,
            (s.trees.entry sampleHasher "CPOOL").anchoredLedger))
        = some ([some ⟨Indexer.sampleLeaf 0, -5⟩, none], 1, 0) := by
    decide +kernel
  obtain ⟨s, ran, shape⟩ := Option.map_eq_some_iff.mp observed
  obtain ⟨table, rest⟩ := Prod.mk.inj shape
  obtain ⟨length, anchor⟩ := Prod.mk.inj rest
  exact ⟨s, ran, allLeaves_of_range table, length, anchor⟩

end Attesta.Api.TopUp
