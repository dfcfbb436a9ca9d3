import Attesta.Api.Error
import Attesta.Core.Hex
import Attesta.Core.Models

/-! The tree endpoints: the top-up of a cached tree from `commitments`, the history batch it
persists in `tree_roots`, and the answers of `get_path` and `get_root`. The two awaits of
`sync_pool_tree` separate the functions below.
-/

namespace Attesta.Api

open Attesta.Merkle KeyedRows

/-- In-memory mirror of one pool's commitment tree. -/
structure PoolTree where
  tree : MerkleTree
  /-- Commitment to leaf index, for path lookups. -/
  indexByCommitment : Node → Option Nat
  /-- Ledger of the newest leaf, the block anchor clients pin proofs to. -/
  anchoredLedger : Int

def PoolTree.new (hasher : TreeHasher) : PoolTree where
  tree := MerkleTree.new hasher
  indexByCommitment _ := none
  anchoredLedger := 0

/-- `AppState::trees`: the cached trees by pool. -/
abbrev Trees := String → Option PoolTree

def Trees.insert (trees : Trees) (pool : String) (poolTree : PoolTree) : Trees :=
  fun other => if other = pool then some poolTree else trees other

/-- `trees.entry(pool).or_default()`. -/
def Trees.entry (hasher : TreeHasher) (trees : Trees) (pool : String) : PoolTree :=
  (trees pool).getD (PoolTree.new hasher)

-----------------------------------------------------------------------------------------
-- sync_pool_tree
-----------------------------------------------------------------------------------------

/-- A row the top-up reads: leaf index, commitment, ledger. -/
structure LeafRow where
  leafIndex : Int
  commitment : List UInt8
  ledger : Int
  deriving DecidableEq

/-- A row of the history batch: leaf count, root, ledger. -/
structure RootEntry where
  leafCount : Int
  root : List UInt8
  ledger : Int
  deriving DecidableEq

def leafRow (row : CommitmentRow) : LeafRow :=
  ⟨row.leafIndex, row.commitment, row.ledger⟩

/-- `SELECT ... FROM commitments WHERE pool = $1 AND leaf_index >= $2 ORDER BY leaf_index`. -/
def selectLeaves (db : Db) (pool : String) (start : Int) : List LeafRow :=
  ((db.commitments.filter (fun row => row.pool == pool && decide (start ≤ row.leafIndex)))
    |>.map leafRow).insertionSort (fun a b => a.leafIndex ≤ b.leafIndex)

/-- How the append loop can leave the call before the history batch is persisted. -/
inductive SyncAbort
  | corruptCommitment
  | panicked
  deriving DecidableEq

/-- The append loop of `sync_pool_tree`: the tree and the history batch it leaves behind. -/
def appendRows (poolTree : PoolTree) (newRoots : List RootEntry)
    : List LeafRow → PoolTree × List RootEntry × Option SyncAbort
  | [] => (poolTree, newRoots, none)
  | row :: rows =>
      -- A gap means the indexer is mid-backfill: serve what is there up to it.
      if row.leafIndex ≠ poolTree.tree.len then (poolTree, newRoots, none)
      else
        match Node.ofBytes? row.commitment with
        | none => (poolTree, newRoots, some .corruptCommitment)
        | some node =>
            match poolTree.tree.append node with
            | .error _ => (poolTree, newRoots, some .panicked)
            | .ok (idx, tree) =>
                let next : PoolTree := {
                  tree
                  indexByCommitment := fun c =>
                    if c = node then some idx else poolTree.indexByCommitment c
                  anchoredLedger := max poolTree.anchoredLedger row.ledger
                }
                appendRows next (newRoots ++ [⟨tree.len, tree.root.bytes, row.ledger⟩]) rows

/-- The part of `sync_pool_tree` up to its second await: read the new leaves and append. -/
def topUp (hasher : TreeHasher) (db : Db) (trees : Trees) (pool : String)
    : PoolTree × List RootEntry × Option SyncAbort :=
  let poolTree := trees.entry hasher pool
  appendRows poolTree [] (selectLeaves db pool poolTree.tree.len)

def entryRow (pool : String) (entry : RootEntry) : TreeRootRow :=
  ⟨pool, entry.leafCount, entry.root, entry.ledger⟩

/-- `INSERT INTO tree_roots ... ON CONFLICT (pool, leaf_count) DO NOTHING` of one batch. -/
def insertTreeRoots (db : Db) (pool : String) (newRoots : List RootEntry) : Db :=
  { db with
    treeRoots := insertAllIgnore TreeRootRow.conflict db.treeRoots
      (newRoots.map (entryRow pool)) }

/-- The last check of `sync_pool_tree`. -/
def checkNonEmpty (pool : String) (poolTree : PoolTree) : Except ApiError PoolTree :=
  if poolTree.tree.isEmpty then .error (.notFound ("unknown or empty pool: " ++ pool))
  else .ok poolTree

-----------------------------------------------------------------------------------------
-- Requests and answers
-----------------------------------------------------------------------------------------

structure RootQuery where
  atLedger : Option Int
  atLeafCount : Option Int
  deriving DecidableEq

inductive TreeRequest
  | path (pool commitment : String)
  | root (pool : String) (query : RootQuery)
  deriving DecidableEq

structure PathElementJson where
  sibling : String
  siblingOnRight : Bool
  deriving DecidableEq

structure PathResponse where
  pool : String
  leafIndex : Int
  root : String
  leafCount : Int
  anchoredLedger : Int
  path : List PathElementJson
  deriving DecidableEq

structure RootResponse where
  pool : String
  root : String
  leafCount : Int
  anchoredLedger : Int
  deriving DecidableEq

inductive TreeResponse
  | path (response : PathResponse)
  | root (response : RootResponse)
  deriving DecidableEq

def TreeRequest.pool : TreeRequest → String
  | .path pool _ => pool
  | .root pool _ => pool

/-- `parse_node`. -/
def parseNode (s : String) : Except ApiError Node :=
  match Hex.hexBytes s with
  | none => .error (.badRequest "commitment must be 0x-hex")
  | some bytes =>
      match Node.ofBytes? bytes with
      | none => .error (.badRequest "commitment must be 32 bytes")
      | some node => .ok node

/-- The checks both handlers make before they take the tree lock. -/
def TreeRequest.validate : TreeRequest → Except ApiError Unit
  | .path _ commitment => (parseNode commitment).map (fun _ => ())
  | .root _ query =>
      if query.atLedger.isSome && query.atLeafCount.isSome then
        .error (.badRequest "at_ledger and at_leaf_count are mutually exclusive")
      else .ok ()

/-- What `get_path` answers from the topped-up tree. -/
def pathAnswer (pool : String) (poolTree : PoolTree) (commitment : Node)
    : Except ApiError PathResponse := do
  let some leafIndex := poolTree.indexByCommitment commitment
    | .error (.notFound "commitment not found in tree")
  let some path := poolTree.tree.path leafIndex
    | .error (.notFound "commitment not found in tree")
  pure {
    pool
    leafIndex
    root := Hex.hex0x poolTree.tree.root
    leafCount := poolTree.tree.len
    anchoredLedger := poolTree.anchoredLedger
    path := path.map (fun el => ⟨Hex.hex0x el.sibling, el.siblingOnRight⟩)
  }

/-- What `get_root` answers from the topped-up tree when no history parameter is given. -/
def liveRoot (pool : String) (poolTree : PoolTree) : RootResponse where
  pool
  root := Hex.hex0x poolTree.tree.root
  leafCount := poolTree.tree.len
  anchoredLedger := poolTree.anchoredLedger

/-- The history rows at or before the queried point. -/
def RootQuery.covers (query : RootQuery) (row : TreeRootRow) : Bool :=
  match query.atLedger with
  | some ledger => decide (row.ledger ≤ ledger)
  | none => decide (row.leafCount ≤ query.atLeafCount.getD 0)

/-- The `tree_roots` lookup of `get_root`: the newest row at or before the given point. -/
def historyRow (db : Db) (pool : String) (query : RootQuery) : Option TreeRootRow :=
  firstBy (fun a b => b.leafCount ≤ a.leafCount)
    (db.treeRoots.filter (fun row => row.pool == pool && query.covers row))

/-- What `get_root` answers from the history. -/
def historyAnswer (db : Db) (pool : String) (query : RootQuery)
    : Except ApiError RootResponse := do
  let some row := historyRow db pool query
    | .error (.notFound "no root recorded at or before that point")
  let some root := Node.ofBytes? row.root
    | .error (.badRequest "corrupt root in history")
  pure ⟨pool, Hex.hex0x root, row.leafCount, row.ledger⟩

end Attesta.Api
