import Attesta.Api.RootHistory

/-! Historical roots against the leaves themselves: over a complete history `get_root` selects,
by ledger or by leaf count, the beginning of the leaves that the parameter describes, and the
live answer is that of the whole list.
-/

namespace Attesta.Api.TreeService

open Attesta.Merkle Attesta.Indexer KeyedRows

/-- `sync_pool_tree` when its queries succeed and nobody writes in between, with the database
it leaves behind; none for a panic.
-/
def syncPoolTree (hasher : TreeHasher) (db : Db) (trees : Trees) (pool : String)
    : Option (Except ApiError PoolTree × Db) :=
  match topUp hasher db trees pool with
  | (_, _, some .corruptCommitment) =>
      some (.error (.badRequest "corrupt commitment in index"), db)
  | (_, _, some .panicked) => none
  | (poolTree, newRoots, none) =>
      some (checkNonEmpty pool poolTree, insertTreeRoots db pool newRoots)

/-- What `get_root` does with the tree it has got. -/
def rootAnswer (db : Db) (pool : String) (poolTree : PoolTree) (query : RootQuery)
    : Except ApiError RootResponse :=
  if query.atLedger.isNone && query.atLeafCount.isNone then .ok (liveRoot pool poolTree)
  else historyAnswer db pool query

/-- `get_root` when its queries succeed and nobody writes in between, none for a panic. -/
def getRoot (hasher : TreeHasher) (db : Db) (trees : Trees) (pool : String) (query : RootQuery)
    : Option (Except ApiError RootResponse) :=
  match (TreeRequest.root pool query).validate with
  | .error e => some (.error e)
  | .ok _ =>
      (syncPoolTree hasher db trees pool).map (fun (synced, db) =>
        synced.bind (fun poolTree => rootAnswer db pool poolTree query))

/-- The steps of a request on its own: the request, its INSERT and its lookup succeed. -/
def Action.OfCall (r : Nat) (request : TreeRequest) : Action → Prop
  | .request r' request' select => r' = r ∧ request' = request ∧ select = .ok
  | .insert r' outcome => r' = r ∧ outcome = .ok
  | .lookup r' _ outcome => r' = r ∧ outcome = .ok
  | _ => False

/-- Steps of the request lead to these answers. -/
def Leads (codec : Codec) (hasher : TreeHasher) (r : Nat) (request : TreeRequest) (s : State)
    (answers : List Answer)
    : Prop :=
  ∃ actions t,
    (∀ action ∈ actions, action.OfCall r request)
    ∧ Machine.run (step codec hasher) s actions = some t
    ∧ t.answers = answers

theorem Leads.refl (codec : Codec) (hasher : TreeHasher) (r : Nat) (request : TreeRequest)
    (s : State)
    : Leads codec hasher r request s s.answers :=
  ⟨[], s, by simp, rfl, rfl⟩

theorem Leads.step {codec : Codec} {hasher : TreeHasher} {r : Nat} {request : TreeRequest}
    {s t : State} {answers : List Answer} {action : Action}
    (stepped : step codec hasher s action = some t) (own : action.OfCall r request)
    (h : Leads codec hasher r request t answers)
    : Leads codec hasher r request s answers := by
  obtain ⟨actions, final, rest, ran, given⟩ := h
  refine ⟨action :: actions, final, ?_, Machine.run_cons.mpr ⟨t, stepped, ran⟩, given⟩
  intro other member
  rcases List.mem_cons.mp member with rfl | later
  · exact own
  · exact rest other later

/-- After the top-up a request only needs its history lookup. -/
theorem State.finish_leads (codec : Codec) (hasher : TreeHasher) (s : State) (r : Nat)
    (pool : String) (query : RootQuery) (poolTree : PoolTree)
    : Leads codec hasher r (.root pool query) (s.finish r poolTree (.root pool query))
        (s.answers
          ++ [⟨.root pool query,
            ((checkNonEmpty pool poolTree).bind
              (fun poolTree => rootAnswer s.db pool poolTree query)).map .root⟩]) := by
  unfold State.finish
  simp only [TreeRequest.pool]
  cases checkNonEmpty pool poolTree with
  | error e => exact Leads.refl ..
  | ok final =>
      simp only [State.respond, rootAnswer, Except.bind]
      by_cases live : (query.atLedger.isNone && query.atLeafCount.isNone) = true
      · simp only [live, if_true]
        exact Leads.refl ..
      · let waiting := s.setReplica r
          { s.replicas r with lookups := (s.replicas r).lookups ++ [(pool, query)] }
        have looked
            : step codec hasher waiting (.lookup r (s.replicas r).lookups.length .ok)
              = some (waiting.endLookup r pool query (s.replicas r).lookups .ok) := by
          simp [step, waiting, List.eraseIdx_append_of_length_le]
        simp only [live]
        exact Leads.step looked ⟨rfl, rfl⟩ (Leads.refl ..)

/-- A replica that holds no tree lock serves the request with the answer of `getRoot`. -/
theorem getRoot_leads (codec : Codec) {hasher : TreeHasher} {s : State} (sound : s.Sound hasher)
    {r : Nat} (idle : (s.replicas r).pendingInsert = none) (pool : String) (query : RootQuery)
    : ∃ answer,
        getRoot hasher s.db (s.replicas r).trees pool query = some answer
        ∧ Leads codec hasher r (.root pool query) s
            (s.answers ++ [⟨.root pool query, answer.map .root⟩]) := by
  cases valid : (TreeRequest.root pool query).validate with
  | error e =>
      refine ⟨.error e, by rw [getRoot, valid], ?_⟩
      have refused
          : step codec hasher s (.request r (.root pool query) .ok)
            = some (s.answer (.root pool query) (.error e)) := by
        simp [step, idle, valid]
      exact Leads.step refused ⟨rfl, rfl, rfl⟩ (Leads.refl ..)
  | ok =>
      obtain ⟨cached, mirrored⟩ := (sound.replicas r).trees pool
      obtain ⟨next, more, run, mirrors⟩ := topUp_spec sound.db.valid mirrored
      have begun
          : step codec hasher s (.request r (.root pool query) .ok)
            = some (s.begin hasher r (.root pool query)) := by
        simp [step, idle, valid]
      refine ⟨_, by rw [getRoot, valid, syncPoolTree, run]; rfl,
        Leads.step begun ⟨rfl, rfl, rfl⟩ ?_⟩
      simp only [State.begin, TreeRequest.pool, run]
      by_cases empty : (entriesFrom hasher (cached ++ more) cached.length).isEmpty = true
      · rw [if_pos empty, List.isEmpty_iff.mp empty]
        exact State.finish_leads codec hasher _ r pool query next
      · rw [if_neg empty]
        set waiting := State.setReplica _ r _
        have inserted
            : step codec hasher waiting (.insert r .ok)
              = some (waiting.endInsert hasher r
                  ⟨.root pool query, entriesFrom hasher (cached ++ more) cached.length⟩ .ok) := by
          simp [step, waiting]
        have cachedTree : (waiting.replicas r).trees.entry hasher pool = next := by
          simp [waiting]
        refine Leads.step inserted ⟨rfl, rfl⟩ ?_
        simp only [State.endInsert, TreeRequest.pool, cachedTree]
        exact State.finish_leads codec hasher _ r pool query next

-----------------------------------------------------------------------------------------
-- Answers for beginnings of the leaves
-----------------------------------------------------------------------------------------

/-- What to answer for a beginning of the leaves: its root, its length and the ledger of its
newest leaf.
-/
def prefixAnswer (hasher : TreeHasher) (pool : String) (leaves : List Leaf)
    : Except ApiError RootResponse :=
  match leaves.getLast? with
  | none => .error (.notFound "no root recorded at or before that point")
  | some newest =>
      .ok
        { pool
          root := Hex.hex0x (rootOf hasher leaves)
          leafCount := leaves.length
          anchoredLedger := newest.ledger }

/-- Over a complete history a lookup answers for the first `n` leaves if it covers their row and
none past it.
-/
theorem DbSound.historyAnswer_eq {hasher : TreeHasher} {db : Db} (h : DbSound hasher db)
    {pool : String} {leaves : List Leaf} (all : AllLeaves db pool leaves)
    (complete : ∀ k, 0 < k → k ≤ leaves.length → Stored db pool k) {query : RootQuery} {n : Nat}
    (within : n ≤ leaves.length)
    (bounded
      : ∀ row ∈ db.treeRoots, row.pool = pool → query.covers row = true → row.leafCount ≤ n)
    (attained
      : ∀ row ∈ db.treeRoots, row.pool = pool → row.leafCount = n → query.covers row = true)
    : historyAnswer db pool query = prefixAnswer hasher pool (leaves.take n) := by
  rcases Nat.eq_zero_or_pos n with rfl | positive
  · have missing : historyRow db pool query = none := by
      rw [Option.eq_none_iff_forall_ne_some]
      intro row found
      obtain ⟨member, samePool, covered, _⟩ := historyRow_spec found
      obtain ⟨earlier, _, _, count, _⟩ := h.exists_leaves member
      have below := bounded row member samePool covered
      omega
    rw [historyAnswer, missing]
    rfl
  · obtain ⟨recorded, inTable, recordedPool, recordedCount⟩ := complete n positive within
    have covered := attained recorded inTable recordedPool recordedCount
    obtain ⟨row, found⟩ := exists_historyRow inTable recordedPool covered
    obtain ⟨member, samePool, below, newest⟩ := historyRow_spec found
    have count : row.leafCount = n := by
      have above := newest recorded inTable recordedPool covered
      have bound := bounded row member samePool below
      omega
    obtain ⟨earlier, leaf, stored, length, root, ledger⟩ := h.exists_leaves member
    rw [samePool] at stored
    have beginning : leaves.take n = earlier ++ [leaf] := by
      rw [all.eq_take stored, List.length_append, List.length_singleton]
      congr 1
      omega
    rw [historyAnswer, found]
    simp [root, Node.ofBytes?_bytes, prefixAnswer, beginning, length, ledger, Pure.pure,
      Except.pure]

/-- The leaves of a pool whose history has a row for all that the replica has cached. The rows of
newer leaves are stored by the call itself.
-/
structure Recorded (hasher : TreeHasher) (s : State) (r : Nat) (pool : String)
    (leaves : List Leaf)
    : Prop where
  all : AllLeaves s.db pool leaves
  nonempty : leaves ≠ []
  history
    : ∀ k, 0 < k → k ≤ ((s.replicas r).trees.entry hasher pool).tree.len → Stored s.db pool k

/-- The leaves are in the order of their ledgers as well. -/
structure OnRecord (hasher : TreeHasher) (s : State) (r : Nat) (pool : String)
    (leaves : List Leaf)
    : Prop
    extends Recorded hasher s r pool leaves where
  ordered : leaves.Pairwise (fun a b => a.ledger ≤ b.ledger)

/-- A tree with leaves passes the last check of `sync_pool_tree`. -/
theorem checkNonEmpty_eq {hasher : TreeHasher} {db : Db} {pool : String} {poolTree : PoolTree}
    {leaves : List Leaf} (mirrors : poolTree.Mirrors hasher db pool leaves)
    (nonempty : leaves ≠ [])
    : checkNonEmpty pool poolTree = .ok poolTree := by
  simp [checkNonEmpty, mirrors.tree.isEmpty, nonempty]

/-- What a call of `get_root` finds in the database and in the tree. -/
structure Consulted (hasher : TreeHasher) (db : Db) (pool : String) (poolTree : PoolTree)
    (leaves : List Leaf)
    : Prop where
  sound : DbSound hasher db
  all : AllLeaves db pool leaves
  mirrors : poolTree.Mirrors hasher db pool leaves
  complete : ∀ k, 0 < k → k ≤ leaves.length → Stored db pool k

theorem Recorded.consulted {hasher : TreeHasher} {s : State} (sound : s.Sound hasher) {r : Nat}
    {pool : String} {leaves : List Leaf} (record : Recorded hasher s r pool leaves)
    : ∃ db poolTree,
        Consulted hasher db pool poolTree leaves
        ∧ ∀ query, (TreeRequest.root pool query).validate = .ok ()
            → getRoot hasher s.db (s.replicas r).trees pool query
              = some (rootAnswer db pool poolTree query) := by
  obtain ⟨cached, mirrored⟩ := (sound.replicas r).trees pool
  obtain ⟨next, run, mirrors⟩ := topUp_all sound.db.valid mirrored record.all
  refine ⟨insertTreeRoots s.db pool (entriesFrom hasher leaves cached.length), next,
    ⟨sound.db.insertTreeRoots record.all.stored cached.length,
      ⟨record.all.stored, record.all.ended⟩, mirrors.mono List.prefix_rfl, ?_⟩, ?_⟩
  · intro k positive within
    rw [stored_insertTreeRoots, entriesFrom_leafCount]
    by_cases old : k ≤ cached.length
    · exact Or.inl (record.history k positive (old.trans mirrored.len.ge))
    · exact Or.inr ⟨rfl, by omega, within⟩
  · intro query valid
    have filled : checkNonEmpty pool next = .ok next := checkNonEmpty_eq mirrors record.nonempty
    simp only [getRoot, valid, syncPoolTree, run, Option.map_some, filled, Except.bind]

theorem Consulted.historical {hasher : TreeHasher} {db : Db} {pool : String}
    {poolTree : PoolTree} {leaves : List Leaf} (h : Consulted hasher db pool poolTree leaves)
    {query : RootQuery}
    (historical : (query.atLedger.isNone && query.atLeafCount.isNone) = false) {n : Nat}
    (within : n ≤ leaves.length)
    (bounded
      : ∀ row ∈ db.treeRoots, row.pool = pool → query.covers row = true → row.leafCount ≤ n)
    (attained
      : ∀ row ∈ db.treeRoots, row.pool = pool → row.leafCount = n → query.covers row = true)
    : rootAnswer db pool poolTree query = prefixAnswer hasher pool (leaves.take n) := by
  rw [← h.sound.historyAnswer_eq h.all h.complete within bounded attained]
  simp [rootAnswer, historical]

/-- The leaf that a recorded row ends with. -/
theorem Consulted.row_leaf {hasher : TreeHasher} {db : Db} {pool : String}
    {poolTree : PoolTree} {leaves : List Leaf} (h : Consulted hasher db pool poolTree leaves)
    {row : TreeRootRow} (member : row ∈ db.treeRoots) (samePool : row.pool = pool)
    : ∃ (i : Nat) (inside : i < leaves.length),
        row.leafCount = (i + 1 : Nat) ∧ row.ledger = leaves[i].ledger := by
  obtain ⟨earlier, leaf, stored, count, _, ledger⟩ := h.sound.exists_leaves member
  rw [samePool] at stored
  have within := h.all.length_le stored
  have beginning := h.all.eq_take stored
  simp only [List.length_append, List.length_singleton] at within beginning
  refine ⟨earlier.length, within, count, ?_⟩
  have last : leaves[earlier.length]? = some leaf := by
    rw [← List.getElem?_take_of_lt (Nat.lt_succ_self earlier.length), ← beginning]
    simp
  rw [ledger, (List.getElem?_eq_some_iff.mp last).2]

/-- The leaves up to the newest one of the ledger or an earlier one. -/
def upToLedger (leaves : List Leaf) (ledger : Int) : List Leaf :=
  leaves.rdropWhile (fun leaf => !decide (leaf.ledger ≤ ledger))

/-- In the order of ledgers these are all leaves up to the ledger. -/
theorem filter_eq_upToLedger {leaves : List Leaf}
    (ordered : leaves.Pairwise (fun a b => a.ledger ≤ b.ledger)) (ledger : Int)
    : leaves.filter (fun leaf => decide (leaf.ledger ≤ ledger)) = upToLedger leaves ledger := by
  refine filter_eq_rdropWhile (ordered.imp fun inOrder covered => ?_)
  simp only [decide_eq_true_eq] at covered ⊢
  exact Int.le_trans inOrder covered

/-- A lookup by a ledger answers for the leaves up to the newest one it covers. -/
theorem Consulted.at_ledger {hasher : TreeHasher} {db : Db} {pool : String}
    {poolTree : PoolTree} {leaves : List Leaf} (h : Consulted hasher db pool poolTree leaves)
    (ledger : Int)
    : rootAnswer db pool poolTree { atLedger := some ledger, atLeafCount := none }
      = prefixAnswer hasher pool (upToLedger leaves ledger) := by
  let past : Leaf → Bool := fun leaf => !decide (leaf.ledger ≤ ledger)
  have beginning : upToLedger leaves ledger <+: leaves := List.rdropWhile_prefix past leaves
  have split : upToLedger leaves ledger ++ leaves.rtakeWhile past = leaves :=
    List.rdropWhile_append_rtakeWhile
  have cut := List.prefix_iff_eq_take.mp beginning
  rw [cut]
  refine h.historical rfl beginning.length_le ?_ ?_
  · intro row member samePool covered
    obtain ⟨i, inside, count, stamp⟩ := h.row_leaf member samePool
    rw [count]
    by_contra late
    have later : leaves[i] ∈ leaves.rtakeWhile past := by
      have dropped : leaves.drop (upToLedger leaves ledger).length = leaves.rtakeWhile past :=
        (congrArg (List.drop _) split).symm.trans List.drop_left
      rw [← dropped]
      exact List.mem_drop_iff_getElem.mpr ⟨i - (upToLedger leaves ledger).length, by omega, by
        congr 1
        omega⟩
    have beyond := List.mem_rtakeWhile_imp later
    simp only [RootQuery.covers, stamp, decide_eq_true_eq] at covered
    simp [past, covered] at beyond
  · intro row member samePool last
    obtain ⟨i, inside, count, stamp⟩ := h.row_leaf member samePool
    have length : (upToLedger leaves ledger).length = i + 1 := by omega
    have nonempty : upToLedger leaves ledger ≠ [] := List.ne_nil_of_length_eq_add_one length
    have kept := List.rdropWhile_last_not past leaves nonempty
    have same : (upToLedger leaves ledger).getLast nonempty = leaves[i] := by
      rw [List.getLast_eq_getElem]
      simp only [length, Nat.add_sub_cancel]
      exact beginning.getElem (by omega)
    rw [show (leaves.rdropWhile past).getLast nonempty = leaves[i] from same] at kept
    simpa [RootQuery.covers, stamp, past] using kept

theorem Consulted.at_leaf_count {hasher : TreeHasher} {db : Db} {pool : String}
    {poolTree : PoolTree} {leaves : List Leaf} (h : Consulted hasher db pool poolTree leaves)
    (count : Int)
    : rootAnswer db pool poolTree { atLedger := none, atLeafCount := some count }
      = prefixAnswer hasher pool (leaves.take (min count leaves.length).toNat) := by
  have covers
      : ∀ row ∈ db.treeRoots, row.pool = pool
          → (RootQuery.covers { atLedger := none, atLeafCount := some count } row = true
            ↔ row.leafCount ≤ (min count leaves.length).toNat) := by
    intro row member samePool
    obtain ⟨i, inside, rowCount, _⟩ := h.row_leaf member samePool
    simp only [RootQuery.covers, Option.getD_some, decide_eq_true_eq, rowCount]
    omega
  refine h.historical rfl (by omega) ?_ ?_
  · exact fun row member samePool => (covers row member samePool).mp
  · exact fun row member samePool last => (covers row member samePool).mpr last.le

/-- No leaf before the newest moves the anchor past it. -/
theorem anchorOf_le {leaves : List Leaf} {bound : Int} (positive : 0 ≤ bound)
    (below : ∀ leaf ∈ leaves, leaf.ledger ≤ bound)
    : anchorOf leaves ≤ bound := by
  induction leaves using List.reverseRecOn with
  | nil => exact positive
  | append_singleton leaves leaf ih =>
      have earlier := ih (fun leaf member => below leaf (List.mem_append_left _ member))
      have last := below leaf (by simp)
      simpa [anchorOf] using ⟨earlier, last⟩

/-- The live answer is that of all leaves, as long as the anchor has moved past its start. -/
theorem Consulted.live {hasher : TreeHasher} {db : Db} {pool : String} {poolTree : PoolTree}
    {leaves : List Leaf} (h : Consulted hasher db pool poolTree leaves)
    (ordered : leaves.Pairwise (fun a b => a.ledger ≤ b.ledger)) {newest : Leaf}
    (last : leaves.getLast? = some newest) (positive : 0 ≤ newest.ledger)
    : rootAnswer db pool poolTree { atLedger := none, atLeafCount := none }
      = prefixAnswer hasher pool leaves := by
  obtain ⟨earlier, rfl⟩ := List.getLast?_eq_some_iff.mp last
  have before := (List.pairwise_append.mp ordered).2.2
  have anchor : anchorOf (earlier ++ [newest]) = newest.ledger := by
    have below : anchorOf earlier ≤ newest.ledger :=
      anchorOf_le positive (fun leaf member => before leaf member newest (by simp))
    simpa [anchorOf] using below
  simp [rootAnswer, prefixAnswer, liveRoot, h.mirrors.root, h.mirrors.len, h.mirrors.anchor,
    anchor]

-----------------------------------------------------------------------------------------
-- The three ways to ask
-----------------------------------------------------------------------------------------

/-- Over a complete history `get_root` answers by ledger for exactly the leaves up to that
ledger and by leaf count for that many leaves or for all. The live answer is the same as both
for all leaves, unless the newest leaf has a negative ledger.
-/
theorem getRoot_selects (codec : Codec) (hasher : TreeHasher) {s : State} {actions : List Action}
    (reached : Machine.run (step codec hasher) State.init actions = some s) {r : Nat}
    {pool : String} {leaves : List Leaf} (record : OnRecord hasher s r pool leaves)
    : (∀ ledger : Int,
        leaves.filter (fun leaf => decide (leaf.ledger ≤ ledger)) <+: leaves
        ∧ getRoot hasher s.db (s.replicas r).trees pool
            { atLedger := some ledger, atLeafCount := none }
          = some (prefixAnswer hasher pool
              (leaves.filter (fun leaf => decide (leaf.ledger ≤ ledger)))))
      ∧ (∀ count : Int,
          getRoot hasher s.db (s.replicas r).trees pool
              { atLedger := none, atLeafCount := some count }
            = some (prefixAnswer hasher pool (leaves.take (min count leaves.length).toNat)))
      ∧ ∀ newest, leaves.getLast? = some newest → 0 ≤ newest.ledger
          → ∃ live : RootResponse,
              getRoot hasher s.db (s.replicas r).trees pool
                  { atLedger := none, atLeafCount := none }
                = some (.ok live)
              ∧ getRoot hasher s.db (s.replicas r).trees pool
                  { atLedger := none, atLeafCount := some leaves.length }
                = some (.ok live)
              ∧ getRoot hasher s.db (s.replicas r).trees pool
                  { atLedger := some live.anchoredLedger, atLeafCount := none }
                = some (.ok live) := by
  obtain ⟨db, poolTree, consulted, answers⟩ := record.consulted (run_sound reached)
  have upTo := filter_eq_upToLedger record.ordered
  have byLedger (ledger : Int) := consulted.at_ledger ledger
  have byCount (count : Int) := consulted.at_leaf_count count
  refine ⟨fun ledger => ?_, fun count => ?_, ?_⟩
  · rw [answers _ rfl, byLedger, upTo]
    exact ⟨List.rdropWhile_prefix _ _, rfl⟩
  · rw [answers _ rfl, byCount count]
  · intro newest last positive
    have all : prefixAnswer hasher pool leaves
        = .ok ⟨pool, Hex.hex0x (rootOf hasher leaves), leaves.length, newest.ledger⟩ := by
      simp [prefixAnswer, last]
    have covered
        : leaves.filter (fun leaf => decide (leaf.ledger ≤ newest.ledger)) = leaves := by
      obtain ⟨earlier, rfl⟩ := List.getLast?_eq_some_iff.mp last
      have before := (List.pairwise_append.mp record.ordered).2.2
      refine List.filter_eq_self.mpr (fun leaf member => decide_eq_true ?_)
      rcases List.mem_append.mp member with old | new
      · exact before leaf old newest (by simp)
      · exact (List.mem_singleton.mp new ▸ Int.le_refl _)
    refine ⟨⟨pool, Hex.hex0x (rootOf hasher leaves), leaves.length, newest.ledger⟩, ?_, ?_, ?_⟩
    · rw [answers _ rfl, consulted.live record.ordered last positive, all]
    · rw [answers _ rfl, byCount, min_self, Int.toNat_natCast, List.take_length, all]
    · rw [answers _ rfl, byLedger, ← upTo, covered, all]

/-- A replica that has cached nothing finds two leaves of one ledger and one of the next. -/
theorem getRoot_selects_batch
    : ∃ s,
        Machine.run (step (sampleCodec 3) sampleHasher) State.init
            [sampleStore 0 42, sampleStore 1 42, sampleStore 2 43]
          = some s
        ∧ getRoot sampleHasher s.db (s.replicas 0).trees "CPOOL"
            { atLedger := some 42, atLeafCount := none }
          = some (prefixAnswer sampleHasher "CPOOL" [⟨sampleLeaf 0, 42⟩, ⟨sampleLeaf 1, 42⟩]) := by
  have observed
      : (Machine.run (step (sampleCodec 3) sampleHasher) State.init
            [sampleStore 0 42, sampleStore 1 42, sampleStore 2 43]).map
          (fun s => ((List.range 4).map (leaf? s.db "CPOOL"),
            ((s.replicas 0).trees.entry sampleHasher "CPOOL").tree.len))
        = some ([some ⟨sampleLeaf 0, 42⟩, some ⟨sampleLeaf 1, 42⟩, some ⟨sampleLeaf 2, 43⟩,
            none], 0) := by
    decide +kernel
  obtain ⟨s, ran, shape⟩ := Option.map_eq_some_iff.mp observed
  obtain ⟨table, length⟩ := Prod.mk.inj shape
  have record : OnRecord sampleHasher s 0 "CPOOL"
      [⟨sampleLeaf 0, 42⟩, ⟨sampleLeaf 1, 42⟩, ⟨sampleLeaf 2, 43⟩] :=
    ⟨⟨allLeaves_of_range table, by simp, fun k positive cached => by omega⟩, by simp⟩
  exact ⟨s, ran, ((getRoot_selects (sampleCodec 3) sampleHasher ran record).1 42).2⟩

/-- A ledger past `i64::MAX` is stored as a negative number, which the live anchor never is. -/
theorem live_anchor_of_negative_ledger
    : ∃ s,
        Machine.run (step (sampleCodec 1) sampleHasher) State.init
            [sampleStore 0 0xffffffffffffffff]
          = some s
        ∧ OnRecord sampleHasher s 0 "CPOOL" [⟨sampleLeaf 0, -1⟩]
        ∧ getRoot sampleHasher s.db (s.replicas 0).trees "CPOOL"
            { atLedger := none, atLeafCount := none }
          ≠ getRoot sampleHasher s.db (s.replicas 0).trees "CPOOL"
            { atLedger := none, atLeafCount := some 1 } := by
  have observed
      : (Machine.run (step (sampleCodec 1) sampleHasher) State.init
            [sampleStore 0 0xffffffffffffffff]).map
          (fun s => ((List.range 2).map (leaf? s.db "CPOOL"),
            ((s.replicas 0).trees.entry sampleHasher "CPOOL").tree.len,
            decide (getRoot sampleHasher s.db (s.replicas 0).trees "CPOOL"
                { atLedger := none, atLeafCount := none }
              = getRoot sampleHasher s.db (s.replicas 0).trees "CPOOL"
                { atLedger := none, atLeafCount := some 1 })))
        = some ([some ⟨sampleLeaf 0, -1⟩, none], 0, false) := by
    decide +kernel
  obtain ⟨s, ran, shape⟩ := Option.map_eq_some_iff.mp observed
  obtain ⟨table, rest⟩ := Prod.mk.inj shape
  obtain ⟨length, differ⟩ := Prod.mk.inj rest
  exact ⟨s, ran,
    ⟨⟨allLeaves_of_range table, by simp, fun k positive cached => by omega⟩, by simp⟩,
    of_decide_eq_false differ⟩

end Attesta.Api.TreeService
