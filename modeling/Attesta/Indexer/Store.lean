import Mathlib.Algebra.Group.Prod
import Attesta.Core.Models
import Attesta.Indexer.Events

/-! `store_event` as the SQL statements it issues, one after the other and outside any
transaction. A failure or a crash can fall between two statements, so callers execute
prefixes of the list.
-/

namespace Attesta.Indexer

open KeyedRows

/-- Two's complement reading of a `u64` as `i64`, the `as i64` cast of the source. -/
def asI64 (n : UInt64) : Int := (n.toNat : Int).bmod (2 ^ 64)

theorem asI64_lt (n : UInt64) : asI64 n < 2 ^ 63 := by
  have bound := Int.bmod_lt (x := (n.toNat : Int)) (m := 2 ^ 64) (by decide)
  unfold asI64
  omega

/-- The cast never invents a later ledger; it wraps to a negative number instead. -/
theorem asI64_le (n : UInt64) : asI64 n ≤ n.toNat := by
  unfold asI64
  rw [Int.bmod_def]
  split <;> omega

/-- Below 2^63 the cast keeps the number. -/
theorem asI64_eq {n : UInt64} (fits : n.toNat < 2 ^ 63) : asI64 n = n.toNat := by
  unfold asI64
  rw [Int.bmod_def]
  split <;> omega

/-- The statements `store_event` and `add_pool_total` issue. -/
inductive Statement
  | insertCommitment (row : CommitmentRow)
  | insertNullifier (row : NullifierRow)
  | insertNote (pool : String) (commitment ephemeralPubkey ciphertext : List UInt8)
      (ledger : Int) (txHash : String)
  | addPoolTotal (pool asset : String) (inflow outflow : Int)
  | upsertIssuer (row : IssuerRow)
  deriving DecidableEq

/-- Why the database refuses a statement it did receive. -/
inductive SqlError
  | numericOverflow
  deriving DecidableEq

/-- `NUMERIC(39, 0)` holds integers below `10 ^ 39` in absolute value. -/
def fitsNumeric (n : Int) : Bool := decide (n.natAbs < 10 ^ 39)

/-- The `pool_totals` upsert: the asset column is written by the first event only. -/
def addPoolTotalRows (pool asset : String) (inflow outflow : Int) (rows : List PoolTotalRow)
    : List PoolTotalRow :=
  upsert (fun row => row.pool == pool) ⟨pool, asset, inflow, outflow⟩
    (fun row =>
      { row with totalIn := row.totalIn + inflow, totalOut := row.totalOut + outflow }) rows

/-- The `issuers` upsert: every column but the first ledger follows the last event. -/
def upsertIssuerRows (row : IssuerRow) (rows : List IssuerRow) : List IssuerRow :=
  upsert (fun old => old.issuerId == row.issuerId) row
    (fun old => { row with registeredLedger := old.registeredLedger }) rows

/-- Execute one statement on a reachable database. -/
def Statement.exec (db : Db) : Statement → Except SqlError Db
  | .insertCommitment row =>
      .ok { db with commitments := insertIgnore CommitmentRow.conflict db.commitments row }
  | .insertNullifier row =>
      .ok { db with nullifiers := insertIgnore NullifierRow.conflict db.nullifiers row }
  | .insertNote pool commitment ephemeralPubkey ciphertext ledger txHash =>
      let id := db.lastNoteId + 1
      .ok { db with
        lastNoteId := id
        encryptedNotes := db.encryptedNotes
          ++ [⟨id, pool, commitment, ephemeralPubkey, ciphertext, ledger, txHash⟩] }
  | .addPoolTotal pool asset inflow outflow =>
      let rows := addPoolTotalRows pool asset inflow outflow db.poolTotals
      if rows.all (fun row =>
          row.pool != pool || fitsNumeric row.totalIn && fitsNumeric row.totalOut) then
        .ok { db with poolTotals := rows }
      else .error .numericOverflow
  | .upsertIssuer row => .ok { db with issuers := upsertIssuerRows row db.issuers }

/-- What a statement leaves behind if the server rolls it back: a sequence does not take back the
value that has been drawn from it.
-/
def Statement.undo (db : Db) : Statement → Db
  | .insertNote .. => { db with lastNoteId := db.lastNoteId + 1 }
  | _ => db

/-- No table is changed. -/
theorem Statement.undo_eq (st : Statement) (db : Db)
    : ∃ lastNoteId,
        st.undo db = { db with lastNoteId := lastNoteId } ∧ db.lastNoteId ≤ lastNoteId := by
  cases st with
  | insertNote => exact ⟨db.lastNoteId + 1, rfl, by simp⟩
  | insertCommitment | insertNullifier | addPoolTotal | upsertIssuer =>
      exact ⟨db.lastNoteId, rfl, le_rfl⟩

/-- `store_event`: the statements issued for one decoded event, in order. -/
def storeEvent (contractId : String) (ledger : Int) (txHash : String)
    : PoolEvent → List Statement
  | .newCommitment commitment leafIndex depositAmount asset =>
      .insertCommitment ⟨contractId, leafIndex, commitment.bytes, ledger, txHash⟩
      :: match depositAmount, asset with
        | some amount, some asset => [.addPoolTotal contractId asset amount 0]
        | _, _ => []
  | .nullifierSpent nullifier =>
      [.insertNullifier ⟨contractId, nullifier.bytes, ledger, txHash⟩]
  | .encryptedNote commitment ephemeralPubkey ciphertext =>
      [.insertNote contractId commitment.bytes ephemeralPubkey ciphertext ledger txHash]
  | .withdrawal amount asset => [.addPoolTotal contractId asset 0 amount]
  | .issuerUpdated issuerId name publicKey claimTypes status =>
      [.upsertIssuer ⟨issuerId, name, publicKey, claimTypes, status, ledger⟩]

/-- The statements `sync_contract` issues for a raw event; an undecodable one issues none. -/
def storeRaw (codec : Codec) (contractId : String) (raw : RawEvent) : List Statement :=
  match codec.decode raw with
  | some event => storeEvent contractId (asI64 raw.ledger) raw.txHash event
  | none => []

/-- An event is accounted to the contract that has published it. -/
theorem addPoolTotal_mem_storeRaw {codec : Codec} {contractId pool asset : String}
    {inflow outflow : Int} {raw : RawEvent}
    (h : .addPoolTotal pool asset inflow outflow ∈ storeRaw codec contractId raw)
    : pool = contractId := by
  unfold storeRaw at h
  split at h
  next event _ =>
    cases event with
    | newCommitment commitment leafIndex depositAmount paid =>
        simp only [storeEvent, List.mem_cons, reduceCtorEq, false_or] at h
        split at h
        next => exact (Statement.addPoolTotal.inj (List.mem_singleton.mp h)).1
        next => cases h
    | withdrawal amount paid => exact (Statement.addPoolTotal.inj (List.mem_singleton.mp h)).1
    | nullifierSpent | encryptedNote | issuerUpdated => simp [storeEvent] at h
  next => cases h

/-- Execute statements in order up to the first refused one. -/
def execAll (db : Db) (statements : List Statement) : Except SqlError Db :=
  statements.foldlM Statement.exec db

-----------------------------------------------------------------------------------------
-- What executed statements can change
-----------------------------------------------------------------------------------------

/-- A property that every listed statement keeps holds after all of them. -/
theorem execAll_invariant (inv : Db → Prop) {statements : List Statement}
    (preserved : ∀ st ∈ statements, ∀ db next, inv db → st.exec db = .ok next → inv next)
    {db next : Db} (initially : inv db) (h : execAll db statements = .ok next)
    : inv next := by
  induction statements generalizing db with
  | nil => exact Except.ok.inj h ▸ initially
  | cons st rest ih =>
      simp only [execAll, List.foldlM_cons, bind, Except.bind] at h
      cases first : st.exec db with
      | error e => simp [first] at h
      | ok middle =>
          rw [first] at h
          exact ih (fun st member => preserved st (List.mem_cons_of_mem _ member))
            (preserved st (by simp) db middle initially first) h

/-- No statement of the indexer touches the root history. -/
theorem Statement.exec_treeRoots {st : Statement} {db next : Db} (h : st.exec db = .ok next)
    : next.treeRoots = db.treeRoots := by
  cases st <;> simp only [Statement.exec] at h
  case addPoolTotal =>
    split at h
    · rw [← Except.ok.inj h]
    · cases h
  all_goals rw [← Except.ok.inj h]

/-- No statement of `store_event` touches the cursors. -/
theorem Statement.exec_indexerCursors {st : Statement} {db next : Db}
    (h : st.exec db = .ok next)
    : next.indexerCursors = db.indexerCursors := by
  cases st <;> simp only [Statement.exec] at h
  case addPoolTotal =>
    split at h
    · rw [← Except.ok.inj h]
    · cases h
  all_goals rw [← Except.ok.inj h]

theorem execAll_treeRoots {statements : List Statement} {db next : Db}
    (h : execAll db statements = .ok next)
    : next.treeRoots = db.treeRoots := by
  refine execAll_invariant (fun later => later.treeRoots = db.treeRoots) ?_ rfl h
  intro st _ before after same executed
  exact (Statement.exec_treeRoots executed).trans same

/-- Leaves are only ever inserted, and only by the insert statement. -/
theorem Statement.exec_commitments {st : Statement} {db next : Db} (h : st.exec db = .ok next)
    : next.commitments = db.commitments
      ∨ ∃ row, st = .insertCommitment row
          ∧ next.commitments = insertIgnore CommitmentRow.conflict db.commitments row := by
  cases st <;> simp only [Statement.exec] at h
  case insertCommitment row =>
    exact Or.inr ⟨row, rfl, by rw [← Except.ok.inj h]⟩
  case addPoolTotal =>
    split at h
    · exact Or.inl (by rw [← Except.ok.inj h])
    · cases h
  all_goals exact Or.inl (by rw [← Except.ok.inj h])

/-- The statement is the insert of a note. -/
def Statement.isNote : Statement → Bool
  | .insertNote .. => true
  | _ => false

/-- The insert a stored note comes from. -/
def insertionOf (row : EncryptedNoteRow) : Statement :=
  .insertNote row.pool row.commitment row.ephemeralPubkey row.ciphertext row.ledger row.txHash

/-- Notes are only ever appended, one row for each execution of an insert. -/
theorem Statement.exec_encryptedNotes {st : Statement} {db next : Db} (h : st.exec db = .ok next)
    : next.encryptedNotes.map insertionOf
      = db.encryptedNotes.map insertionOf ++ [st].filter Statement.isNote := by
  cases st <;> simp only [Statement.exec] at h
  case insertNote =>
    rw [← Except.ok.inj h, List.map_append]
    rfl
  case addPoolTotal =>
    split at h
    · rw [← Except.ok.inj h]
      exact (List.append_nil _).symm
    · cases h
  all_goals
    rw [← Except.ok.inj h]
    exact (List.append_nil _).symm

/-- The totals of a pool, zero as long as it has no row. -/
def poolTotals (db : Db) (pool : String) : Int × Int :=
  match db.poolTotals.find? (fun row => row.pool == pool) with
  | some row => (row.totalIn, row.totalOut)
  | none => (0, 0)

/-- What a statement adds to the totals of a pool. -/
def Statement.movement (pool : String) : Statement → Int × Int
  | .addPoolTotal other _ inflow outflow => if other = pool then (inflow, outflow) else 0
  | _ => 0

/-- The statement changes a total. -/
def Statement.isMovement : Statement → Bool
  | .addPoolTotal _ _ inflow outflow => decide (inflow ≠ 0 ∨ outflow ≠ 0)
  | _ => false

theorem Statement.movement_eq_zero {st : Statement} (still : st.isMovement = false)
    (pool : String)
    : st.movement pool = 0 := by
  cases st with
  | addPoolTotal other asset inflow outflow =>
      simp only [isMovement, ne_eq, decide_eq_false_iff_not, not_or, not_not] at still
      obtain ⟨rfl, rfl⟩ := still
      simp only [movement]
      split <;> rfl
  | insertCommitment | insertNullifier | insertNote | upsertIssuer => rfl

/-- The upsert adds its amounts to the totals of its pool and leaves the others alone. -/
theorem poolTotals_addPoolTotalRows (db : Db) (other asset : String) (inflow outflow : Int)
    (pool : String)
    : poolTotals
          { db with poolTotals := addPoolTotalRows other asset inflow outflow db.poolTotals } pool
      = poolTotals db pool + (Statement.addPoolTotal other asset inflow outflow).movement pool := by
  simp only [poolTotals, addPoolTotalRows, Statement.movement]
  by_cases same : other = pool
  · subst same
    rw [find?_upsert db.poolTotals (by simp) (by simp)]
    cases db.poolTotals.find? (fun row => row.pool == other) <;> simp
  · rw [find?_upsert_of_disjoint db.poolTotals (by simpa using same) ?_]
    · simp [same]
    · intro row hit
      have key : row.pool = other := by simpa using hit
      simpa [key] using same

/-- Totals are sums: every execution of an upsert adds its amounts once more. -/
theorem Statement.exec_poolTotals {st : Statement} {db next : Db} (pool : String)
    (h : st.exec db = .ok next)
    : poolTotals next pool = poolTotals db pool + st.movement pool := by
  cases st <;> simp only [Statement.exec] at h
  case addPoolTotal other asset inflow outflow =>
    split at h
    · rw [← Except.ok.inj h]
      exact poolTotals_addPoolTotalRows db other asset inflow outflow pool
    · cases h
  all_goals
    rw [← Except.ok.inj h]
    simp [poolTotals, Statement.movement]

/-- An inserted leaf comes from a decoded `new_commitment` event of the same contract. -/
theorem insertCommitment_mem_storeRaw {codec : Codec} {contractId : String} {raw : RawEvent}
    {row : CommitmentRow} (h : .insertCommitment row ∈ storeRaw codec contractId raw)
    : ∃ commitment leafIndex depositAmount asset,
        codec.decode raw = some (.newCommitment commitment leafIndex depositAmount asset)
        ∧ row = ⟨contractId, leafIndex, commitment.bytes, asI64 raw.ledger, raw.txHash⟩ := by
  unfold storeRaw at h
  split at h
  next event decoded =>
    cases event with
    | newCommitment commitment leafIndex depositAmount asset =>
        rcases List.mem_cons.mp h with first | later
        · exact ⟨commitment, leafIndex, depositAmount, asset, decoded,
            Statement.insertCommitment.inj first⟩
        · split at later <;> simp at later
    | nullifierSpent | encryptedNote | withdrawal | issuerUpdated => simp [storeEvent] at h
  next => cases h

end Attesta.Indexer
