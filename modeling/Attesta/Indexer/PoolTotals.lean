import Attesta.Indexer.Wedge

/-! What `pool_totals` holds after any list of decoded events has been stored: for each pool
with a payment one row, under the asset of its first payment and with the sums of all of them,
whatever their assets.
-/

namespace Attesta.Indexer

open KeyedRows

/-- The arguments of one call of `store_event`. -/
structure StoredEvent where
  contractId : String
  ledger : Int
  txHash : String
  event : PoolEvent
  deriving DecidableEq

def StoredEvent.statements (e : StoredEvent) : List Statement :=
  storeEvent e.contractId e.ledger e.txHash e.event

/-- Store each of the events once, in order. -/
def storeAll (db : Db) (events : List StoredEvent) : Except SqlError Db :=
  execAll db (events.flatMap StoredEvent.statements)

/-- A public amount that crosses the boundary of a pool in an asset. -/
structure Payment where
  asset : String
  inflow : Int
  outflow : Int
  deriving DecidableEq

/-- The deposit or withdrawal of an event of the pool, if it names an asset. -/
def StoredEvent.payment (pool : String) (e : StoredEvent) : Option Payment :=
  match e.event with
  | .newCommitment _ _ (some amount) (some asset) =>
      if e.contractId = pool then some ⟨asset, amount, 0⟩ else none
  | .withdrawal amount asset => if e.contractId = pool then some ⟨asset, 0, amount⟩ else none
  | _ => none

def payments (events : List StoredEvent) (pool : String) : List Payment :=
  events.filterMap (StoredEvent.payment pool)

/-- The asset of the first payment of a pool. -/
def mainAsset (events : List StoredEvent) (pool : String) : Option String :=
  (payments events pool).head?.map Payment.asset

/-- The payment a statement adds to the totals of a pool. -/
def Statement.payment (pool : String) : Statement → Option Payment
  | .addPoolTotal other asset inflow outflow =>
      if other = pool then some ⟨asset, inflow, outflow⟩ else none
  | _ => none

/-- The row of a pool after one more payment. -/
def Payment.addTo (pool : String) (row : Option PoolTotalRow) (payment : Payment)
    : Option PoolTotalRow :=
  some ((row.map (fun row =>
      { row with
        totalIn := row.totalIn + payment.inflow
        totalOut := row.totalOut + payment.outflow })).getD
    ⟨pool, payment.asset, payment.inflow, payment.outflow⟩)

/-- The row of a pool. -/
def poolRow (db : Db) (pool : String) : Option PoolTotalRow :=
  db.poolTotals.find? (fun row => row.pool == pool)

theorem exec_poolRow {st : Statement} {db next : Db} (h : st.exec db = .ok next) (pool : String)
    : poolRow next pool
      = (st.payment pool).toList.foldl (Payment.addTo pool) (poolRow db pool) := by
  cases st <;> simp only [Statement.exec] at h
  case addPoolTotal other asset inflow outflow =>
    split at h
    next =>
      rw [← Except.ok.inj h]
      by_cases same : other = pool
      · subst same
        simp only [Statement.payment, if_true, Option.toList_some, List.foldl_cons,
          List.foldl_nil, Payment.addTo, poolRow, addPoolTotalRows]
        exact find?_upsert db.poolTotals (by simp) (by simp)
      · simp only [Statement.payment, if_neg same, Option.toList_none, List.foldl_nil, poolRow,
          addPoolTotalRows]
        refine find?_upsert_of_disjoint db.poolTotals (by simpa using same) (fun row hit => ?_)
        have key : row.pool = other := by simpa using hit
        simpa [key] using same
    next => cases h
  all_goals
    rw [← Except.ok.inj h]
    rfl

/-- Only the payments of the executed statements matter, in their order. -/
theorem execAll_poolRow {statements : List Statement} {db next : Db}
    (h : execAll db statements = .ok next) (pool : String)
    : poolRow next pool
      = (statements.filterMap (Statement.payment pool)).foldl (Payment.addTo pool)
          (poolRow db pool) := by
  induction statements generalizing db with
  | nil => rw [← Except.ok.inj h]; rfl
  | cons st rest ih =>
      obtain ⟨middle, first, later⟩ := execAll_cons.mp h
      rw [ih later, exec_poolRow first]
      cases paid : st.payment pool <;> simp [paid]

theorem payment_statements (pool : String) (e : StoredEvent)
    : e.statements.filterMap (Statement.payment pool) = (e.payment pool).toList := by
  obtain ⟨contractId, ledger, txHash, event⟩ := e
  cases event with
  | newCommitment commitment leafIndex depositAmount asset =>
      cases depositAmount with
      | none => rfl
      | some amount =>
          cases asset with
          | none => rfl
          | some asset =>
              by_cases same : contractId = pool <;>
                simp [StoredEvent.statements, StoredEvent.payment, storeEvent,
                  Statement.payment, List.filterMap_cons, same]
  | withdrawal amount asset =>
      by_cases same : contractId = pool <;>
        simp [StoredEvent.statements, StoredEvent.payment, storeEvent, Statement.payment, same]
  | nullifierSpent | encryptedNote | issuerUpdated => rfl

theorem payments_statements (pool : String) (events : List StoredEvent)
    : (events.flatMap StoredEvent.statements).filterMap (Statement.payment pool)
      = payments events pool := by
  rw [List.filterMap_flatMap, payments]
  induction events with
  | nil => rfl
  | cons e rest ih =>
      rw [List.flatMap_cons, ih, payment_statements, List.filterMap_cons]
      cases e.payment pool <;> rfl

/-- Later payments only add to the totals. -/
theorem foldl_addTo (pool : String) (more : List Payment) (row : PoolTotalRow)
    : more.foldl (Payment.addTo pool) (some row)
      = some { row with
          totalIn := row.totalIn + (more.map Payment.inflow).sum
          totalOut := row.totalOut + (more.map Payment.outflow).sum } := by
  induction more generalizing row with
  | nil => simp
  | cons payment rest ih =>
      rw [List.foldl_cons, Payment.addTo]
      simp only [Option.map_some, Option.getD_some, ih, List.map_cons, List.sum_cons, add_assoc]

/-- The row of a pool is under the asset of its first payment and adds up all of them. -/
theorem storeAll_poolRow {events : List StoredEvent} {db : Db}
    (h : storeAll Db.empty events = .ok db) (pool : String)
    : poolRow db pool
      = (mainAsset events pool).map (fun asset =>
          ⟨pool, asset, ((payments events pool).map Payment.inflow).sum,
            ((payments events pool).map Payment.outflow).sum⟩) := by
  rw [execAll_poolRow h, payments_statements, mainAsset]
  cases payments events pool with
  | nil => rfl
  | cons first rest =>
      rw [List.foldl_cons]
      exact foldl_addTo pool rest ⟨pool, first.asset, first.inflow, first.outflow⟩

/-- The rows of the table are the rows of the pools. -/
theorem storeAll_mem {events : List StoredEvent} {db : Db}
    (h : storeAll Db.empty events = .ok db) {row : PoolTotalRow}
    : row ∈ db.poolTotals ↔ poolRow db row.pool = some row := by
  have unique : NoConflict (fun a b => a.pool == b.pool) db.poolTotals := by
    refine execAll_invariant
      (fun later => NoConflict (fun a b => a.pool == b.pool) later.poolTotals) ?_ ?_ h
    · exact fun _ _ _ _ unique executed => exec_unique executed unique
    · exact List.Pairwise.nil
  constructor
  · intro member
    cases found : poolRow db row.pool with
    | none =>
        have missing := List.find?_eq_none.mp found row member
        simp at missing
    | some other =>
        have key := List.find?_some found
        have same := unique.eq_of_conflict (fun _ _ => BEq.comm)
          (List.mem_of_find?_eq_some found) member key
        rw [same]
  · exact fun found => List.mem_of_find?_eq_some found

end Attesta.Indexer
