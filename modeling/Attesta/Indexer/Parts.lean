import Attesta.Indexer.SyncSafety

/-! The part of the database that belongs to one contract. Apart from the issuers, ingestion of
a contract reads and writes nothing else, so it goes on next to that of other contracts as if
it were alone.
-/

namespace Attesta.Indexer

open KeyedRows

/-- The rows of one contract in the tables that have a `pool` column. -/
structure Rows where
  commitments : List CommitmentRow
  nullifiers : List NullifierRow
  encryptedNotes : List EncryptedNoteRow
  poolTotals : List PoolTotalRow

def rowsOf (contractId : String) (db : Db) : Rows where
  commitments := db.commitments.filter (fun row => row.pool == contractId)
  nullifiers := db.nullifiers.filter (fun row => row.pool == contractId)
  encryptedNotes := db.encryptedNotes.filter (fun row => row.pool == contractId)
  poolTotals := db.poolTotals.filter (fun row => row.pool == contractId)

/-- What a contract has in the database, without the ids its notes were given. -/
structure Part where
  cursor : Int × Option String
  commitments : List CommitmentRow
  nullifiers : List NullifierRow
  notes : List Statement
  poolTotals : List PoolTotalRow

def partOf (contractId : String) (db : Db) : Part where
  cursor := Sync.loadCursor db contractId
  commitments := (rowsOf contractId db).commitments
  nullifiers := (rowsOf contractId db).nullifiers
  notes := (rowsOf contractId db).encryptedNotes.map insertionOf
  poolTotals := (rowsOf contractId db).poolTotals

/-- The statement is about no contract but this one. -/
def Statement.Of (contractId : String) : Statement → Prop
  | .insertCommitment row => row.pool = contractId
  | .insertNullifier row => row.pool = contractId
  | .insertNote pool .. => pool = contractId
  | .addPoolTotal pool .. => pool = contractId
  | .upsertIssuer _ => True

/-- A statement of a contract, executed on its part alone. -/
def Part.exec (part : Part) : Statement → Except SqlError Part
  | .insertCommitment row =>
      .ok { part with
        commitments := insertIgnore CommitmentRow.conflict part.commitments row }
  | .insertNullifier row =>
      .ok { part with nullifiers := insertIgnore NullifierRow.conflict part.nullifiers row }
  | .insertNote pool commitment ephemeralPubkey ciphertext ledger txHash =>
      .ok { part with
        notes := part.notes
          ++ [.insertNote pool commitment ephemeralPubkey ciphertext ledger txHash] }
  | .addPoolTotal pool asset inflow outflow =>
      let rows := addPoolTotalRows pool asset inflow outflow part.poolTotals
      if rows.all (fun row =>
          row.pool != pool || fitsNumeric row.totalIn && fitsNumeric row.totalOut) then
        .ok { part with poolTotals := rows }
      else .error .numericOverflow
  | .upsertIssuer _ => .ok part

/-- `store_event` only issues statements about the contract of the event. -/
theorem storeRaw_of {codec : Codec} {contractId : String} {raw : RawEvent} {st : Statement}
    (h : st ∈ storeRaw codec contractId raw)
    : st.Of contractId := by
  unfold storeRaw at h
  split at h
  next event _ =>
    cases event with
    | newCommitment commitment leafIndex depositAmount asset =>
        rcases List.mem_cons.mp h with rfl | later
        · rfl
        · split at later
          · exact List.mem_singleton.mp later ▸ rfl
          · cases later
    | nullifierSpent | encryptedNote | withdrawal => exact List.mem_singleton.mp h ▸ rfl
    | issuerUpdated => exact List.mem_singleton.mp h ▸ trivial
  next => cases h

/-- A statement of one contract leaves every row of the others as it is. -/
theorem rowsOf_exec_of_ne {contractId other : String} (apart : contractId ≠ other)
    {st : Statement} (own : st.Of contractId) {db next : Db} (h : st.exec db = .ok next)
    : rowsOf other next = rowsOf other db := by
  have foreign {pool : String} (same : pool = contractId) : (pool == other) = false := by
    simpa [same] using apart
  cases st with
  | insertCommitment row =>
      obtain rfl := Except.ok.inj h
      simp only [rowsOf]
      rw [filter_insertIgnore_of_not db.commitments]
      exact foreign own
  | insertNullifier row =>
      obtain rfl := Except.ok.inj h
      simp only [rowsOf]
      rw [filter_insertIgnore_of_not db.nullifiers]
      exact foreign own
  | insertNote pool commitment ephemeralPubkey ciphertext ledger txHash =>
      obtain rfl := Except.ok.inj h
      simp [rowsOf, foreign own]
  | addPoolTotal pool asset inflow outflow =>
      simp only [Statement.exec] at h
      split at h
      · obtain rfl := Except.ok.inj h
        simp only [rowsOf, addPoolTotalRows]
        rw [filter_upsert_of_disjoint db.poolTotals (foreign own)]
        intro row hit
        have key : row.pool = contractId := (beq_iff_eq.mp hit).trans own
        exact ⟨foreign key, foreign key⟩
      · cases h
  | upsertIssuer row =>
      obtain rfl := Except.ok.inj h
      rfl

/-- A statement of the contract does to the database what it does to the contract's part. -/
theorem partOf_exec {contractId : String} {st : Statement} (own : st.Of contractId) (db : Db)
    : (st.exec db).map (partOf contractId) = (partOf contractId db).exec st := by
  have mine {pool : String} (same : pool = contractId) : (pool == contractId) = true := by
    simpa using same
  cases st with
  | insertCommitment row =>
      simp only [Statement.exec, Part.exec, Except.map, partOf, rowsOf]
      rw [filter_insertIgnore db.commitments (mine own)]
      · rfl
      · intro r clash
        simp only [CommitmentRow.conflict, Bool.and_eq_true, beq_iff_eq] at clash
        exact mine (clash.1.symm.trans own)
  | insertNullifier row =>
      simp only [Statement.exec, Part.exec, Except.map, partOf, rowsOf]
      rw [filter_insertIgnore db.nullifiers (mine own)]
      · rfl
      · intro r clash
        simp only [NullifierRow.conflict, Bool.and_eq_true, beq_iff_eq] at clash
        exact mine (clash.1.symm.trans own)
  | insertNote pool commitment ephemeralPubkey ciphertext ledger txHash =>
      simp [Statement.exec, Part.exec, Except.map, partOf, rowsOf, mine own, insertionOf,
        Sync.loadCursor]
  | addPoolTotal pool asset inflow outflow =>
      obtain rfl : pool = contractId := own
      have rows
          : (addPoolTotalRows pool asset inflow outflow db.poolTotals).filter
              (fun row => row.pool == pool)
            = addPoolTotalRows pool asset inflow outflow
                (db.poolTotals.filter (fun row => row.pool == pool)) :=
        filter_upsert db.poolTotals (mine rfl) (fun _ hit => ⟨hit, hit⟩)
      -- The check of the column only looks at rows of the pool.
      have fits
          : (db.poolTotals.filter (fun row => row.pool == pool)
              |> addPoolTotalRows pool asset inflow outflow).all (fun row =>
                row.pool != pool || fitsNumeric row.totalIn && fitsNumeric row.totalOut)
            = (addPoolTotalRows pool asset inflow outflow db.poolTotals).all (fun row =>
                row.pool != pool || fitsNumeric row.totalIn && fitsNumeric row.totalOut) := by
        rw [← rows, List.all_filter]
        refine congrArg (List.all _) (funext fun row => ?_)
        cases hit : row.pool == pool <;> simp [hit, bne]
      simp only [Statement.exec, Part.exec, partOf, rowsOf, fits]
      split
      · rw [← rows]
        rfl
      · rfl
  | upsertIssuer row => rfl

/-- Equal parts stay equal under a statement of the contract, which is refused by both or none. -/
theorem exec_of_part {contractId : String} {st : Statement} (own : st.Of contractId)
    {left right : Db} (same : partOf contractId left = partOf contractId right)
    : (∀ next, st.exec left = .ok next
        → ∃ other, st.exec right = .ok other ∧ partOf contractId next = partOf contractId other)
      ∧ (∀ e, st.exec left = .error e → ∃ e', st.exec right = .error e') := by
  have both := partOf_exec own left
  rw [same, ← partOf_exec own right] at both
  constructor
  · intro next executed
    rw [executed] at both
    cases result : st.exec right with
    | ok other =>
        rw [result] at both
        exact ⟨other, rfl, Except.ok.inj both⟩
    | error e =>
        rw [result] at both
        cases both
  · intro e refused
    rw [refused] at both
    cases result : st.exec right with
    | ok other =>
        rw [result] at both
        cases both
    | error e' => exact ⟨e', rfl⟩

end Attesta.Indexer

namespace Attesta.Indexer.Sync

open KeyedRows

variable {codec : Codec} {contractId : String}

/-- The cursor of a contract is not touched by the others. -/
theorem loadCursor_saveCursor_of_ne {other : String} (apart : contractId ≠ other) (db : Db)
    (lastLedger : Int) (cursor : Option String)
    : loadCursor (saveCursor db contractId lastLedger cursor) other = loadCursor db other := by
  simp only [loadCursor, saveCursor]
  rw [find?_upsert_of_disjoint db.indexerCursors (by simpa using apart)]
  intro row hit
  have key : row.contractId = contractId := by simpa using hit
  simpa [key] using apart

theorem partOf_saveCursor (db : Db) (lastLedger : Int) (cursor : Option String)
    : partOf contractId (saveCursor db contractId lastLedger cursor)
      = { partOf contractId db with cursor := (lastLedger, cursor) } := by
  simp only [partOf, loadCursor_saveCursor]
  rfl

/-- A pass only holds statements of its own contract. -/
def Phase.Owned (codec : Codec) (contractId : String) : Phase → Prop
  | .storing _ _ _ todo raw _ => todo <:+ storeRaw codec contractId raw
  | _ => True

theorem forEvents_owned (lastLedger : Int) (page : EventsPage) (position : Nat)
    (raws : List RawEvent)
    : (forEvents codec contractId lastLedger page position raws).Owned codec contractId := by
  cases raws with
  | nil => trivial
  | cons raw rest => exact List.suffix_rfl

theorem step_owned {s t : State} {action : Action} (h : s.phase.Owned codec contractId)
    (stepped : step codec contractId s action = some t)
    : t.phase.Owned codec contractId := by
  cases step_effect stepped with
  | grow | notStarted | resetCursor => exact h
  | started | overflowed | rpcError | lost | notExecuted | undone | persistLost | notPersisted
    | crash => trivial
  | responded | nextEvent => exact forEvents_owned _ _ _ _
  | @executed lastLedger page position st todo raw rest db phase result =>
      rw [phase] at h
      exact (List.suffix_cons st todo).trans h
  | @persisted lastLedger cursor done phase => cases done <;> trivial

/-- Every effect is that of a step. -/
theorem Effect.step {s t : State} {action : Action} (h : Effect codec contractId s action t)
    : Sync.step codec contractId s action = some t := by
  cases h with
  | grow | crash | resetCursor => rfl
  | notStarted idle => simp [Sync.step, idle]
  | started idle row => simp [Sync.step, idle, row]
  | responded phase asked => simp [Sync.step, phase, asked]
  | overflowed phase overflow => simp [Sync.step, phase, overflow]
  | rpcError phase => simp [Sync.step, phase]
  | executed phase result => simp [Sync.step, phase, result]
  | lost phase result => simp [Sync.step, phase, result]
  | @notExecuted lastLedger page position st todo raw rest outcome phase failed =>
      rcases failed with rfl | ⟨e, refused⟩
      · simp [Sync.step, phase]
      · rcases outcome with _ | (_ | _) | _ <;> simp [Sync.step, phase, refused]
  | undone phase result drawn => simp [Sync.step, phase, result, drawn]
  | nextEvent phase => simp [Sync.step, phase]
  | persisted phase | persistLost phase | notPersisted phase => simp [Sync.step, phase]

/-- Two states that differ only in what other contracts have in the database. -/
structure Alike (contractId : String) (s t : State) : Prop where
  chain : s.chain = t.chain
  phase : s.phase = t.phase
  log : s.log = t.log
  handled : s.handled = t.handled
  part : partOf contractId s.db = partOf contractId t.db

theorem Alike.refl (contractId : String) (s : State) : Alike contractId s s :=
  ⟨rfl, rfl, rfl, rfl, rfl⟩

theorem Alike.trans {s t u : State} (h : Alike contractId s t) (h' : Alike contractId t u)
    : Alike contractId s u :=
  ⟨h.chain.trans h'.chain, h.phase.trans h'.phase, h.log.trans h'.log,
    h.handled.trans h'.handled, h.part.trans h'.part⟩

theorem Alike.cursor {s t : State} (h : Alike contractId s t)
    : loadCursor s.db contractId = loadCursor t.db contractId :=
  congrArg Part.cursor h.part

theorem Alike.interrupted {s t : State} (h : Alike contractId s t)
    : Alike contractId s.interrupted t.interrupted :=
  ⟨h.chain, rfl, h.log, h.handled, h.part⟩

theorem Alike.saved {s t : State} (h : Alike contractId s t) (lastLedger : Int)
    (cursor : Option String) (phase : Phase)
    : Alike contractId { s with db := saveCursor s.db contractId lastLedger cursor, phase }
        { t with db := saveCursor t.db contractId lastLedger cursor, phase } where
  chain := h.chain
  phase := rfl
  log := h.log
  handled := h.handled
  part := by rw [partOf_saveCursor, partOf_saveCursor, h.part]

/-- What a contract does, it also does in a database that looks the same to it. -/
theorem Alike.step {s t next : State} (h : Alike contractId s t)
    (owned : s.phase.Owned codec contractId) {action : Action}
    (stepped : Sync.step codec contractId s action = some next)
    : ∃ other, Sync.step codec contractId t action = some other
        ∧ Alike contractId next other := by
  cases step_effect stepped with
  | grow events head =>
      exact ⟨_, rfl, by simp only [h.chain], h.phase, h.log, h.handled, h.part⟩
  | notStarted idle => exact ⟨t, (Effect.notStarted (h.phase ▸ idle)).step, h⟩
  | started idle row =>
      exact ⟨_, (Effect.started (h.phase ▸ idle) (h.cursor ▸ row)).step,
        h.chain, rfl, h.log, h.handled, h.part⟩
  | responded phase asked =>
      exact ⟨_, (Effect.responded (h.phase ▸ phase) asked).step,
        h.chain, rfl, h.log, h.handled, h.part⟩
  | overflowed phase overflow =>
      exact ⟨_, (Effect.overflowed (h.phase ▸ phase) overflow).step, h.interrupted⟩
  | rpcError phase => exact ⟨_, (Effect.rpcError (h.phase ▸ phase)).step, h.interrupted⟩
  | executed phase result =>
      rw [phase] at owned
      obtain ⟨db, executed, part⟩ :=
        (exec_of_part (storeRaw_of (owned.subset (by simp))) h.part).1 _ result
      exact ⟨_, (Effect.executed (h.phase ▸ phase) executed).step,
        h.chain, rfl, by simp only [State.applied, h.log], h.handled, part⟩
  | lost phase result =>
      rw [phase] at owned
      obtain ⟨db, executed, part⟩ :=
        (exec_of_part (storeRaw_of (owned.subset (by simp))) h.part).1 _ result
      exact ⟨_, (Effect.lost (h.phase ▸ phase) executed).step,
        h.chain, rfl, by simp only [State.applied, State.interrupted, h.log], h.handled, part⟩
  | @notExecuted lastLedger page position st todo raw rest outcome phase failed =>
      rw [phase] at owned
      have refused : outcome = .failed false ∨ ∃ e, st.exec t.db = .error e := by
        refine failed.imp_right fun refused => ?_
        obtain ⟨e, refused⟩ := refused
        exact (exec_of_part (storeRaw_of (owned.subset (by simp))) h.part).2 e refused
      exact ⟨_, (Effect.notExecuted (h.phase ▸ phase) refused).step, h.interrupted⟩
  | @undone lastLedger page position st todo raw rest db lastNoteId phase result =>
      rw [phase] at owned
      obtain ⟨other, executed, _⟩ :=
        (exec_of_part (storeRaw_of (owned.subset (by simp))) h.part).1 _ result
      obtain ⟨drawn, same, later⟩ := st.undo_eq t.db
      exact ⟨_, (Effect.undone (h.phase ▸ phase) executed same later).step,
        h.chain, rfl, h.log, h.handled, h.part⟩
  | nextEvent phase =>
      exact ⟨_, (Effect.nextEvent (h.phase ▸ phase)).step,
        h.chain, rfl, h.log, by simp only [h.handled], h.part⟩
  | persisted phase =>
      exact ⟨_, (Effect.persisted (h.phase ▸ phase)).step, h.saved _ _ _⟩
  | persistLost phase =>
      exact ⟨_, (Effect.persistLost (h.phase ▸ phase)).step, h.saved _ _ .idle⟩
  | notPersisted phase => exact ⟨_, (Effect.notPersisted (h.phase ▸ phase)).step, h.interrupted⟩
  | crash => exact ⟨_, rfl, h.interrupted⟩
  | resetCursor lastLedger cursor =>
      refine ⟨_, rfl, h.chain, h.phase, h.log, h.handled, ?_⟩
      rw [partOf_saveCursor, partOf_saveCursor, h.part]

/-- The world around the indexer is documented for both or none. -/
theorem Alike.documented {rpc : Rpc} {s t : State} (h : Alike contractId s t) {action : Action}
    (documented : Documented rpc contractId s action)
    : Documented rpc contractId t action := by
  cases action with
  | grow events head => simpa only [Documented, h.chain] using documented
  | respond position page =>
      simpa only [Documented, State.Answered, h.phase, h.chain] using documented
  | resetCursor lastLedger cursor =>
      simpa only [Documented, rowPosition, h.chain, h.cursor] using documented
  | start | rpcError | statement | nextEvent | persist | crash => trivial

/-- What has been stored for a contract does not depend on the rest of the database. -/
theorem Safe.of_alike {rpc : Rpc} {s t : State} (h : Safe rpc codec contractId t)
    (alike : Alike contractId s t)
    : Safe rpc codec contractId s where
  closed := alike.chain ▸ h.closed
  row := by
    rw [alike.cursor]
    exact h.row.mono (alike.chain ▸ Chain.Continues.refl _)
      (alike.handled ▸ List.Subset.refl _)
  inside := by
    rw [alike.handled, alike.chain]
    exact h.inside
  executed := by
    rw [alike.handled, alike.chain, alike.log]
    exact h.executed
  logged := by
    rw [alike.log, alike.chain]
    exact h.logged
  memory := by
    rw [alike.phase]
    refine h.memory.mono (alike.chain ▸ Chain.Continues.refl _) ?_
      (alike.handled ▸ List.Subset.refl _) (alike.log ▸ List.Subset.refl _)
    rw [rowPosition, rowPosition, alike.cursor, alike.chain]

/-- No step of one contract touches the rows or the cursor of another. -/
theorem step_foreign {other : String} (apart : contractId ≠ other) {s t : State}
    (owned : s.phase.Owned codec contractId) {action : Action}
    (stepped : step codec contractId s action = some t)
    : rowsOf other t.db = rowsOf other s.db
      ∧ loadCursor t.db other = loadCursor s.db other := by
  have executed {st : Statement} {todo : List Statement} {raw : RawEvent} {next : Db}
      (own : st :: todo <:+ storeRaw codec contractId raw) (result : st.exec s.db = .ok next)
      : rowsOf other next = rowsOf other s.db ∧ loadCursor next other = loadCursor s.db other :=
    ⟨rowsOf_exec_of_ne apart (storeRaw_of (own.subset (by simp))) result,
      loadCursor_exec other result⟩
  cases step_effect stepped with
  | grow | notStarted | started | responded | overflowed | rpcError | notExecuted | undone
    | nextEvent | notPersisted | crash => exact ⟨rfl, rfl⟩
  | executed phase result | lost phase result =>
      rw [phase] at owned
      exact executed owned result
  | persisted | persistLost | resetCursor =>
      exact ⟨rfl, loadCursor_saveCursor_of_ne apart _ _ _⟩

theorem partOf_congr {other : String} {left right : Db}
    (rows : rowsOf other left = rowsOf other right)
    (cursor : loadCursor left other = loadCursor right other)
    : partOf other left = partOf other right := by
  simp only [partOf, rows, cursor]

end Attesta.Indexer.Sync
