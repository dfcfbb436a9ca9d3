import Attesta.Indexer.Run

/-! When ingestion of a contract can go on. `pool_totals` holds sums over the whole history in
columns of 39 digits; a sum that does not fit has its statement refused, and with it every later
event of the contract.
-/

namespace Attesta.Indexer

open KeyedRows

/-- Both totals fit their columns. -/
def Fits (totals : Int × Int) : Prop :=
  fitsNumeric totals.1 = true ∧ fitsNumeric totals.2 = true

instance (totals : Int × Int) : Decidable (Fits totals) := inferInstanceAs (Decidable (_ ∧ _))

/-- What an event adds to the totals of its pool. A deposit counts if it names its asset. -/
def movementOf (codec : Codec) (raw : RawEvent) : Int × Int :=
  match codec.decode raw with
  | some (.newCommitment _ _ (some amount) (some _)) => (amount, 0)
  | some (.withdrawal amount _) => (0, amount)
  | _ => 0

/-- The totals fit before and after each of the events. -/
def TotalsFit (codec : Codec) (totals : Int × Int) (events : List RawEvent) : Prop :=
  ∀ k ≤ events.length, Fits (totals + ((events.take k).map (movementOf codec)).sum)

instance (codec : Codec) (totals : Int × Int) (events : List RawEvent)
    : Decidable (TotalsFit codec totals events) :=
  inferInstanceAs (Decidable (∀ k ≤ events.length, _))

/-- There is at most one row of totals for each pool, and those of the contract fit. -/
structure TotalsValid (contractId : String) (db : Db) : Prop where
  unique : NoConflict (fun a b => a.pool == b.pool) db.poolTotals
  fits : Fits (poolTotals db contractId)

variable {codec : Codec} {contractId : String}

theorem totalsFit_cons {totals : Int × Int} {raw : RawEvent} {rest : List RawEvent}
    : TotalsFit codec totals (raw :: rest)
      ↔ Fits totals ∧ TotalsFit codec (totals + movementOf codec raw) rest := by
  constructor
  · intro h
    refine ⟨by simpa using h 0 (Nat.zero_le _), fun k within => ?_⟩
    simpa [add_assoc] using h (k + 1) (Nat.succ_le_succ within)
  · intro h k within
    cases k with
    | zero => simpa using h.1
    | succ k => simpa [add_assoc] using h.2 k (Nat.le_of_succ_le_succ within)

theorem addPoolTotalRows_unique {rows : List PoolTotalRow}
    (unique : NoConflict (fun a b => a.pool == b.pool) rows) (pool asset : String)
    (inflow outflow : Int)
    : NoConflict (fun a b => a.pool == b.pool)
        (addPoolTotalRows pool asset inflow outflow rows) := by
  have kept (new old : PoolTotalRow) (_ : new.pool = old.pool)
      : ({ old with
          totalIn := old.totalIn + new.totalIn
          totalOut := old.totalOut + new.totalOut } : PoolTotalRow).pool = old.pool := rfl
  exact unique.upsertRow kept ⟨pool, asset, inflow, outflow⟩

theorem exec_unique {st : Statement} {db next : Db} (h : st.exec db = .ok next)
    (unique : NoConflict (fun a b => a.pool == b.pool) db.poolTotals)
    : NoConflict (fun a b => a.pool == b.pool) next.poolTotals := by
  cases st <;> simp only [Statement.exec] at h
  case addPoolTotal pool asset inflow outflow =>
    split at h
    · rw [← Except.ok.inj h]
      exact addPoolTotalRows_unique unique pool asset inflow outflow
    · cases h
  all_goals rwa [← Except.ok.inj h]

/-- With one row for each pool the check of all rows is the check of the pool's own. -/
theorem all_fit_iff {rows : List PoolTotalRow}
    (unique : NoConflict (fun a b => a.pool == b.pool) rows) {pool : String} {row : PoolTotalRow}
    (found : rows.find? (fun row => row.pool == pool) = some row)
    : rows.all (fun row =>
        row.pool != pool || fitsNumeric row.totalIn && fitsNumeric row.totalOut) = true
      ↔ Fits (row.totalIn, row.totalOut) := by
  have key : row.pool = pool := by simpa using List.find?_some found
  have member := List.mem_of_find?_eq_some found
  rw [List.all_eq_true]
  constructor
  · intro all
    simpa [key, Fits] using all row member
  · intro fits other listed
    by_cases mine : other.pool = pool
    · have clash : (other.pool == row.pool) = true := by simp [mine, key]
      obtain rfl := unique.eq_of_conflict (fun _ _ => BEq.comm) listed member clash
      simpa [mine, Fits] using fits
    · simp [mine]

/-- A statement of a contract is executed exactly if it leaves totals that fit. -/
theorem exec_iff {st : Statement} (own : st.Of contractId) {db : Db}
    (valid : TotalsValid contractId db)
    : (∃ next, st.exec db = .ok next)
      ↔ Fits (poolTotals db contractId + st.movement contractId) := by
  have always (next : Db) (executed : st.exec db = .ok next)
      (still : st.movement contractId = 0)
      : (∃ next, st.exec db = .ok next)
        ↔ Fits (poolTotals db contractId + st.movement contractId) := by
    rw [still, add_zero]
    exact iff_of_true ⟨next, executed⟩ valid.fits
  cases st with
  | insertCommitment | insertNullifier | insertNote | upsertIssuer => exact always _ rfl rfl
  | addPoolTotal pool asset inflow outflow =>
      obtain rfl : pool = contractId := own
      have totals := poolTotals_addPoolTotalRows db pool asset inflow outflow pool
      obtain ⟨row, found⟩
          : ∃ row,
              (addPoolTotalRows pool asset inflow outflow db.poolTotals).find?
                (fun row => row.pool == pool) = some row :=
        ⟨_, find?_upsert db.poolTotals (by simp) (by simp)⟩
      have check := all_fit_iff
        (addPoolTotalRows_unique valid.unique pool asset inflow outflow) found
      have stored
          : poolTotals
              { db with poolTotals := addPoolTotalRows pool asset inflow outflow db.poolTotals }
              pool
            = (row.totalIn, row.totalOut) := by
        simp only [poolTotals, found]
      rw [← totals, stored, ← check]
      simp only [Statement.exec]
      split
      next fits => exact iff_of_true ⟨_, rfl⟩ fits
      next refused =>
        refine iff_of_false (fun stored => ?_) refused
        obtain ⟨_, executed⟩ := stored
        cases executed

theorem movement_foreign {st : Statement} (foreign : ¬ st.Of contractId)
    : st.movement contractId = 0 := by
  cases st with
  | addPoolTotal pool => exact if_neg foreign
  | insertCommitment | insertNullifier | insertNote | upsertIssuer => rfl

/-- Statements of other contracts included, what has been executed has left totals that fit. -/
theorem exec_valid {st : Statement} {db next : Db} (valid : TotalsValid contractId db)
    (h : st.exec db = .ok next)
    : TotalsValid contractId next where
  unique := exec_unique h valid.unique
  fits := by
    rw [Statement.exec_poolTotals contractId h]
    by_cases own : st.Of contractId
    · exact (exec_iff own valid).mp ⟨next, h⟩
    · rw [movement_foreign own, add_zero]
      exact valid.fits

theorem execAll_cons {db next : Db} {st : Statement} {rest : List Statement}
    : execAll db (st :: rest) = .ok next
      ↔ ∃ middle, st.exec db = .ok middle ∧ execAll middle rest = .ok next := by
  simp only [execAll, List.foldlM_cons, bind, Except.bind]
  cases st.exec db <;> simp

theorem execAll_append {db next : Db} {first second : List Statement}
    : execAll db (first ++ second) = .ok next
      ↔ ∃ middle, execAll db first = .ok middle ∧ execAll middle second = .ok next := by
  simp only [execAll, List.foldlM_append, bind, Except.bind]
  cases List.foldlM Statement.exec db first <;> simp

theorem movement_own (contractId asset : String) (inflow outflow : Int)
    : (Statement.addPoolTotal contractId asset inflow outflow).movement contractId
      = (inflow, outflow) :=
  if_pos rfl

/-- A deposit is stored exactly if its amount fits; the leaf before it always is inserted. -/
theorem deposit_iff {db : Db} (valid : TotalsValid contractId db) (row : CommitmentRow)
    (asset : String) (amount : Int)
    : (∃ next,
        execAll db [.insertCommitment row, .addPoolTotal contractId asset amount 0] = .ok next)
      ↔ Fits (poolTotals db contractId + (amount, 0)) := by
  have paid : (Statement.addPoolTotal contractId asset amount 0).Of contractId := rfl
  obtain ⟨inserted, insert⟩ : ∃ inserted, (Statement.insertCommitment row).exec db = .ok inserted :=
    ⟨_, rfl⟩
  have same : poolTotals inserted contractId = poolTotals db contractId :=
    (Statement.exec_poolTotals contractId insert).trans (add_zero _)
  have add := exec_iff paid (exec_valid valid insert)
  rw [same, movement_own] at add
  rw [← add]
  constructor
  · intro stored
    obtain ⟨next, both⟩ := stored
    obtain ⟨middle, first, second⟩ := execAll_cons.mp both
    obtain rfl := Except.ok.inj (insert.symm.trans first)
    obtain ⟨last, executed, _⟩ := execAll_cons.mp second
    exact ⟨last, executed⟩
  · intro stored
    obtain ⟨next, executed⟩ := stored
    exact ⟨next, execAll_cons.mpr ⟨inserted, insert, execAll_cons.mpr ⟨next, executed, rfl⟩⟩⟩

/-- The statements of an event are executed exactly if they leave totals that fit. -/
theorem storeRaw_iff {raw : RawEvent} {db : Db} (valid : TotalsValid contractId db)
    : (∃ next, execAll db (storeRaw codec contractId raw) = .ok next)
      ↔ Fits (poolTotals db contractId + movementOf codec raw) := by
  have one (st : Statement) (own : st.Of contractId)
      : (∃ next, execAll db [st] = .ok next)
        ↔ Fits (poolTotals db contractId + st.movement contractId) := by
    rw [← exec_iff own valid]
    simp [execAll]
  unfold storeRaw movementOf
  cases codec.decode raw with
  | none => exact iff_of_true ⟨db, rfl⟩ (by simpa using valid.fits)
  | some event =>
      cases event with
      | newCommitment commitment leafIndex depositAmount asset =>
          rcases depositAmount with _ | amount
          · exact one _ rfl
          · rcases asset with _ | asset
            · exact one _ rfl
            · exact deposit_iff valid _ asset amount
      | nullifierSpent => exact one _ rfl
      | encryptedNote => exact one _ rfl
      | withdrawal amount asset =>
          have add := one (.addPoolTotal contractId asset 0 amount) rfl
          rwa [movement_own] at add
      | issuerUpdated => exact one _ trivial

theorem execAll_valid {statements : List Statement} {db next : Db}
    (valid : TotalsValid contractId db) (h : execAll db statements = .ok next)
    : TotalsValid contractId next :=
  execAll_invariant (TotalsValid contractId) (fun _ _ _ _ => exec_valid) valid h

theorem execAll_totals {statements : List Statement} {db next : Db}
    (h : execAll db statements = .ok next)
    : poolTotals next contractId
      = poolTotals db contractId + (statements.map (Statement.movement contractId)).sum := by
  induction statements generalizing db with
  | nil => simp [Except.ok.inj h]
  | cons st rest ih =>
      obtain ⟨middle, first, second⟩ := execAll_cons.mp h
      rw [ih second, Statement.exec_poolTotals contractId first, List.map_cons, List.sum_cons,
        add_assoc]

theorem storeRaw_totals {raw : RawEvent} {db next : Db}
    (h : execAll db (storeRaw codec contractId raw) = .ok next)
    : poolTotals next contractId = poolTotals db contractId + movementOf codec raw := by
  rw [execAll_totals h]
  refine congrArg (poolTotals db contractId + ·) ?_
  unfold storeRaw movementOf
  cases codec.decode raw with
  | none => rfl
  | some event =>
      cases event with
      | newCommitment commitment leafIndex depositAmount asset =>
          cases depositAmount <;> cases asset <;> simp [storeEvent, Statement.movement]
      | nullifierSpent | encryptedNote | withdrawal | issuerUpdated =>
          simp [storeEvent, Statement.movement]

/-- The events of a history are stored exactly if the totals fit all the way. -/
theorem store_iff {events : List RawEvent} {db : Db} (valid : TotalsValid contractId db)
    : (∃ next, execAll db (events.flatMap (storeRaw codec contractId)) = .ok next)
      ↔ TotalsFit codec (poolTotals db contractId) events := by
  induction events generalizing db with
  | nil =>
      refine iff_of_true ⟨db, rfl⟩ fun k within => ?_
      simpa using valid.fits
  | cons raw rest ih =>
      rw [List.flatMap_cons, totalsFit_cons]
      constructor
      · intro stored
        obtain ⟨next, both⟩ := stored
        obtain ⟨middle, first, second⟩ := execAll_append.mp both
        have after := execAll_valid valid first
        rw [← storeRaw_totals first]
        exact ⟨valid.fits, (ih after).mp ⟨next, second⟩⟩
      · intro fits
        have here : Fits (poolTotals db contractId + movementOf codec raw) := by
          simpa using fits.2 0 (Nat.zero_le _)
        obtain ⟨middle, first⟩ := (storeRaw_iff valid).mpr here
        have after := execAll_valid valid first
        obtain ⟨next, second⟩ := (ih after).mpr (storeRaw_totals first ▸ fits.2)
        exact ⟨next, execAll_append.mpr ⟨middle, first, second⟩⟩

end Attesta.Indexer

namespace Attesta.Indexer.Sync

variable {codec : Codec} {contractId : String} {rpc : Rpc}

-----------------------------------------------------------------------------------------
-- A call in which nothing fails
-----------------------------------------------------------------------------------------

/-- A server that answers every request for the events of a chain as documented. -/
structure Server (rpc : Rpc) (chain : Chain) where
  answer : Nat → Option String → EventsPage
  documented
    : ∀ start cursor,
        rpc.Answers chain start cursor (rpc.position chain (getEvents start cursor))
          (answer start cursor)

/-- A server that answers with as many events as it may. -/
def Server.paged (rpc : Rpc) (chain : Chain) : Server rpc chain where
  answer start cursor :=
    let position := rpc.position chain (getEvents start cursor)
    let events := (chain.events.drop position).take 100
    { events
      cursor := if events.isEmpty then cursor else some (rpc.cursorAt (position + events.length))
      latestLedger := .ofNat chain.head }
  documented start cursor := by
    refine ⟨rfl, List.take_prefix _ _, List.length_take_le _ _, ?_, rfl, Nat.mod_le _ _⟩
    intro empty
    simpa using empty

/-- A step of a call with no failure but that of a refused statement. -/
def Undisturbed {chain : Chain} (server : Server rpc chain) (s : State) : Action → Prop
  | .respond position page =>
      ∃ lastLedger cursor start,
        s.phase = .fetching lastLedger cursor
        ∧ startLedger lastLedger = some start
        ∧ position = rpc.position chain (getEvents start cursor)
        ∧ page = server.answer start cursor
  | .statement .ok | .nextEvent | .persist .ok => True
  | _ => False

/-- Called in this state, `sync_contract` returns Ok after its last upsert; every event is
stored and the cursor stands at the end.
-/
def CallSucceeds (codec : Codec) (contractId : String) {chain : Chain}
    (server : Server rpc chain) (s : State)
    : Prop :=
  ∃ called actions t,
    step codec contractId s (.start true) = some called
    ∧ Machine.Along (step codec contractId) (Undisturbed server) called actions
    ∧ Machine.run (step codec contractId) called (actions ++ [.persist .ok]) = some t
    ∧ t.phase = .idle
    ∧ (∀ i raw, chain.events[i]? = some raw
        → i ∈ t.handled ∧ ∀ st ∈ storeRaw codec contractId raw, (i, st) ∈ t.log)
    ∧ rowPosition rpc contractId t = chain.events.length

/-- The statements of the current event that are still to be executed. -/
def Phase.todo : Phase → List Statement
  | .storing _ _ _ todo _ _ => todo
  | _ => []

/-- The number of events the pass has taken up. -/
def passed (rpc : Rpc) (contractId : String) (s : State) : Phase → Nat
  | .idle => rowPosition rpc contractId s
  | .fetching lastLedger cursor | .persisting lastLedger cursor _ =>
      rpc.resume s.chain lastLedger cursor
  | .storing _ _ position _ _ _ => position + 1

/-- The events of a chain between two positions. -/
def Chain.between (chain : Chain) (first last : Nat) : List RawEvent :=
  (chain.events.drop first).take (last - first)

/-- A call that was begun in the state `start` has executed the statements of the events it has
taken up, and nothing else.
-/
structure Underway (rpc : Rpc) (codec : Codec) (contractId : String) (start s : State)
    : Prop where
  chain : s.chain = start.chain
  begun : rowPosition rpc contractId start ≤ passed rpc contractId s s.phase
  stored
    : ∃ done,
        execAll start.db done = .ok { s.db with indexerCursors := start.db.indexerCursors }
        ∧ done ++ s.phase.todo
          = (start.chain.between (rowPosition rpc contractId start)
              (passed rpc contractId s s.phase)).flatMap (storeRaw codec contractId)

theorem between_succ {chain : Chain} {first last : Nat} (ordered : first ≤ last) {raw : RawEvent}
    (found : chain.events[last]? = some raw)
    : chain.between first (last + 1) = chain.between first last ++ [raw] := by
  have here : (chain.events.drop first)[last - first]? = some raw := by
    rw [List.getElem?_drop, Nat.add_sub_cancel' ordered, found]
  rw [Chain.between, Nat.succ_sub ordered, List.take_add_one, here]
  rfl

/-- Statements do not look at the cursors. -/
theorem exec_withCursors {st : Statement} {db next : Db} (h : st.exec db = .ok next)
    (cursors : List CursorRow)
    : st.exec { db with indexerCursors := cursors }
      = .ok { next with indexerCursors := cursors } := by
  cases st <;> simp only [Statement.exec] at h ⊢
  case addPoolTotal =>
    split at h
    next fits => rw [if_pos fits, ← Except.ok.inj h]
    next => cases h
  all_goals rw [← Except.ok.inj h]

/-- The loop over the events of a page takes up the next event. -/
theorem underway_forEvents {start s : State} {lastLedger : Int} {page : EventsPage}
    {position : Nat} {raws : List RawEvent} (chain : s.chain = start.chain)
    (begun : rowPosition rpc contractId start ≤ position)
    (phase : s.phase = forEvents codec contractId lastLedger page position raws)
    (events : raws <+: s.chain.events.drop position)
    (after : raws = [] → passed rpc contractId s (afterEvents lastLedger page) = position)
    (stored
      : execAll start.db
          ((start.chain.between (rowPosition rpc contractId start) position).flatMap
            (storeRaw codec contractId))
        = .ok { s.db with indexerCursors := start.db.indexerCursors })
    : Underway rpc codec contractId start s := by
  cases raws with
  | nil =>
      have here := after rfl
      rw [forEvents] at phase
      rw [← phase] at here
      refine ⟨chain, by rw [here]; exact begun, _, stored, ?_⟩
      rw [here, phase]
      exact List.append_nil _
  | cons raw rest =>
      rw [forEvents] at phase
      refine ⟨chain, by rw [phase]; exact Nat.le_succ_of_le begun, _, stored, ?_⟩
      rw [phase]
      simp only [passed, Phase.todo]
      rw [between_succ begun (chain ▸ event_of_block events), List.flatMap_append]
      simp

theorem Undisturbed.documented {chain : Chain} {server : Server rpc chain} {s : State}
    {action : Action} (h : Undisturbed server s action) (same : s.chain = chain)
    : Documented rpc contractId s action := by
  cases action with
  | respond position page =>
      obtain ⟨lastLedger, cursor, start, phase, asked, rfl, rfl⟩ := h
      simp only [Documented, State.Answered, phase, asked, same]
      exact server.documented start cursor
  | grow | resetCursor => cases h
  | start | rpcError | statement | nextEvent | persist | crash => trivial

/-- The history is finite: it stays as it is during the call. -/
theorem Undisturbed.chain {chain : Chain} {server : Server rpc chain} {s t : State}
    {action : Action} (h : Undisturbed server s action)
    (stepped : step codec contractId s action = some t)
    : t.chain = s.chain := by
  cases action with
  | start | respond | rpcError | statement | nextEvent | persist =>
      exact Run.chain_of_call rfl stepped
  | grow | crash | resetCursor => cases h

theorem step_underway {chain : Chain} {server : Server rpc chain} {start s t : State}
    {action : Action} (same : start.chain = chain) (undisturbed : Undisturbed server s action)
    (safe : Safe rpc codec contractId s) (h : Underway rpc codec contractId start s)
    (stepped : step codec contractId s action = some t)
    : t.phase = .idle ∨ Underway rpc codec contractId start t := by
  have memory := safe.memory
  have documented : Documented rpc contractId s action :=
    undisturbed.documented (h.chain.trans same)
  obtain ⟨chain, begun, done, executed, progress⟩ := h
  cases step_effect stepped with
  | grow | notStarted | started | rpcError | lost | undone | persistLost | notPersisted | crash
    | resetCursor => cases undisturbed
  | overflowed | notExecuted => exact Or.inl rfl
  | @responded lastLedger cursor begin position page phase asked =>
      rw [phase] at memory begun progress
      obtain ⟨reached, ahead⟩ := memory
      have answers := reached.answers phase documented
      have exhausted := reached.exhausted answers
      obtain ⟨rfl, block, _⟩ := answers
      refine Or.inr (underway_forEvents chain begun rfl block ?_ ?_)
      · intro empty
        obtain ⟨done, raised⟩ := exhausted empty
        simp only [afterEvents, passed, empty, List.isEmpty_nil, if_true]
        exact raised.trans done.symm
      · simp only [Phase.todo, List.append_nil, passed] at progress
        rw [progress] at executed
        exact executed
  | @executed lastLedger page position st todo raw rest db phase result =>
      rw [phase] at begun progress
      refine Or.inr ⟨chain, begun, done ++ [st], execAll_append.mpr ⟨_, executed, ?_⟩, ?_⟩
      · exact execAll_cons.mpr ⟨_, exec_withCursors result _, rfl⟩
      · simpa [Phase.todo, passed] using progress
  | @nextEvent lastLedger page position raw rest phase =>
      rw [phase] at memory begun progress
      have storing : Storing rpc codec contractId s lastLedger page position [] raw rest := memory
      refine Or.inr (underway_forEvents chain begun rfl storing.following ?_ ?_)
      · intro last
        have more : page.events.isEmpty = false := by simpa using storing.nonempty
        have token := storing.cursor
        rw [last, List.length_nil, Nat.add_zero] at token
        simp only [afterEvents, passed, more, token, Bool.false_eq_true, if_false,
          resume_cursorAt]
      · simp only [Phase.todo, List.append_nil, passed] at progress
        rw [progress] at executed
        exact executed
  | @persisted lastLedger cursor finished phase =>
      cases finished with
      | true => exact Or.inl rfl
      | false =>
          rw [phase] at begun progress
          exact Or.inr ⟨chain, begun, done, executed, progress⟩

/-- A call that has just been begun has executed nothing. -/
theorem started_underway (rpc : Rpc) {s called : State}
    (started : step codec contractId s (.start true) = some called)
    : Underway rpc codec contractId s called := by
  cases step_effect started with
  | @started lastLedger cursor _ row =>
      have here : rowPosition rpc contractId s = rpc.resume s.chain lastLedger cursor := by
        rw [rowPosition, row]
      refine ⟨rfl, Nat.le_of_eq here, [], rfl, ?_⟩
      simp only [passed, here, Chain.between, Nat.sub_self]
      rfl

/-- Nothing goes on once the call is over. -/
theorem undisturbed_idle {chain : Chain} {server : Server rpc chain} {s t : State}
    {action : Action} (idle : s.phase = .idle) (undisturbed : Undisturbed server s action)
    (stepped : step codec contractId s action = some t)
    : False := by
  cases step_effect stepped with
  | grow | notStarted | started | rpcError | lost | undone | persistLost | notPersisted | crash
    | resetCursor => cases undisturbed
  | responded phase | overflowed phase | executed phase | notExecuted phase | nextEvent phase
    | persisted phase => cases idle.symm.trans phase

/-- A call that succeeds has executed the statements of all events it had to pass. -/
theorem CallSucceeds.executed {chain : Chain} {server : Server rpc chain} {s : State}
    (safe : Safe rpc codec contractId s) (same : s.chain = chain)
    (h : CallSucceeds codec contractId server s)
    : ∃ next,
        execAll s.db ((chain.events.drop (rowPosition rpc contractId s)).flatMap
          (storeRaw codec contractId))
        = .ok next := by
  obtain ⟨called, actions, t, started, along, ran, ended, _, finished⟩ := h
  obtain ⟨last, ranActions, saved⟩ := Machine.run_concat.mp ran
  have preserved (before : State) (action : Action) (after : State)
      (undisturbed : Undisturbed server before action)
      (inv
        : Safe rpc codec contractId before
          ∧ (before.phase = .idle ∨ Underway rpc codec contractId s before))
      (stepped : step codec contractId before action = some after)
      : Safe rpc codec contractId after
        ∧ (after.phase = .idle ∨ Underway rpc codec contractId s after) := by
    obtain ⟨safe, stopped | underway⟩ := inv
    · exact (undisturbed_idle stopped undisturbed stepped).elim
    · exact ⟨step_safe (undisturbed.documented (underway.chain.trans same)) safe stepped,
        step_underway same undisturbed safe underway stepped⟩
  have begin : Documented rpc contractId s (.start true) := trivial
  have final : Undisturbed server last (.persist .ok) := trivial
  obtain ⟨_, stopped | underway⟩ := Machine.invariant_along preserved
    ⟨step_safe begin safe started, Or.inr (started_underway rpc started)⟩ along ranActions
  · exact (undisturbed_idle stopped final saved).elim
  · obtain ⟨sameChain, _, done, executed, progress⟩ := underway
    cases step_effect saved with
    | @persisted lastLedger cursor whole phase =>
        cases whole with
        | false => cases ended
        | true =>
            have position : rpc.resume last.chain lastLedger cursor = chain.events.length :=
              (rowPosition_saved rpc last lastLedger cursor).symm.trans finished
            simp only [phase, Phase.todo, List.append_nil, passed, position, Chain.between, same]
              at progress
            rw [List.take_of_length_le (by simp)] at progress
            exact ⟨_, progress ▸ executed⟩

-----------------------------------------------------------------------------------------
-- A call whose statements are all accepted
-----------------------------------------------------------------------------------------

/-- The steps between the answer and the upsert of a page. -/
def Action.ofPage : Action → Prop
  | .statement .ok | .nextEvent => True
  | _ => False

theorem Action.ofPage.undisturbed {chain : Chain} (server : Server rpc chain) (s : State)
    {action : Action} (h : action.ofPage)
    : Undisturbed server s action := by
  cases action with
  | statement outcome =>
      cases outcome with
      | ok => trivial
      | failed | undone => cases h
  | nextEvent => trivial
  | grow | start | respond | rpcError | persist | crash | resetCursor => cases h

theorem execAll_withCursors {statements : List Statement} {db next : Db}
    (h : execAll db statements = .ok next) (cursors : List CursorRow)
    : execAll { db with indexerCursors := cursors } statements
      = .ok { next with indexerCursors := cursors } := by
  induction statements generalizing db with
  | nil => rw [← Except.ok.inj h]; rfl
  | cons st rest ih =>
      obtain ⟨middle, first, second⟩ := execAll_cons.mp h
      exact execAll_cons.mpr ⟨_, exec_withCursors first cursors, ih second⟩

/-- The statements of one event, by induction on those that are left. -/
theorem store_event_run {s : State} {lastLedger : Int} {page : EventsPage} {position : Nat}
    {todo : List Statement} {raw : RawEvent} {rest : List RawEvent}
    (phase : s.phase = .storing lastLedger page position todo raw rest) {db : Db}
    (executed : execAll s.db todo = .ok db)
    : ∃ actions t,
        (∀ action ∈ actions, action.ofPage)
        ∧ Machine.run (step codec contractId) s actions = some t
        ∧ t.chain = s.chain
        ∧ t.db = db
        ∧ t.phase
          = forEvents codec contractId (max lastLedger (asI64 raw.ledger)) page (position + 1)
              rest := by
  induction todo generalizing s with
  | nil =>
      have went : step codec contractId s .nextEvent = some _ := (Effect.nextEvent phase).step
      refine ⟨[.nextEvent], _, ?_, Machine.run_cons.mpr ⟨_, went, rfl⟩, rfl, ?_, rfl⟩
      · intro action member
        exact List.mem_singleton.mp member ▸ trivial
      · exact Except.ok.inj executed
  | cons st todo ih =>
      obtain ⟨middle, first, second⟩ := execAll_cons.mp executed
      let next : State :=
        { s.applied middle position st with
          phase := .storing lastLedger page position todo raw rest }
      have went : step codec contractId s (.statement .ok) = some next :=
        (Effect.executed phase first).step
      obtain ⟨actions, t, ofPage, ran, chain, stored, after⟩ := ih (s := next) rfl second
      refine ⟨.statement .ok :: actions, t, ?_, Machine.run_cons.mpr ⟨_, went, ran⟩, chain, stored,
        after⟩
      intro action member
      rcases List.mem_cons.mp member with rfl | later
      · trivial
      · exact ofPage action later

/-- The events of a page, by induction on those that are left. -/
theorem page_run {page : EventsPage} {raws : List RawEvent} {s : State} {lastLedger : Int}
    {position : Nat} (phase : s.phase = forEvents codec contractId lastLedger page position raws)
    {db : Db}
    (executed : execAll s.db (raws.flatMap (storeRaw codec contractId)) = .ok db)
    : ∃ actions t reached,
        (∀ action ∈ actions, action.ofPage)
        ∧ Machine.run (step codec contractId) s actions = some t
        ∧ t.chain = s.chain
        ∧ t.db = db
        ∧ t.phase = afterEvents reached page := by
  induction raws generalizing s lastLedger position with
  | nil => exact ⟨[], s, lastLedger, by simp, rfl, rfl, Except.ok.inj executed, phase⟩
  | cons raw rest ih =>
      rw [List.flatMap_cons] at executed
      obtain ⟨middle, first, second⟩ := execAll_append.mp executed
      obtain ⟨actions, t, ofPage, ran, chain, stored, next⟩ := store_event_run phase first
      obtain ⟨later, u, reached, laterOfPage, laterRan, laterChain, laterStored, after⟩ :=
        ih next (stored ▸ second)
      refine ⟨actions ++ later, u, reached, ?_, Machine.run_append.mpr ⟨t, ran, laterRan⟩,
        laterChain.trans chain, laterStored, after⟩
      intro action member
      rcases List.mem_append.mp member with here | there
      · exact ofPage action here
      · exact laterOfPage action there

theorem Action.ofPage.documented {s : State} {action : Action} (h : action.ofPage)
    : Documented rpc contractId s action := by
  cases action with
  | statement | nextEvent => trivial
  | grow | start | respond | rpcError | persist | crash | resetCursor => cases h

/-- A nonempty page is stored, its cursor is saved and the next page is asked for. -/
theorem block_run {chain : Chain} (server : Server rpc chain) {s : State}
    (safe : Safe rpc codec contractId s) (same : s.chain = chain) {lastLedger : Int}
    {page : EventsPage} (nonempty : page.events ≠ []) {position : Nat}
    (phase : s.phase = forEvents codec contractId lastLedger page position page.events)
    {token : String} (pageCursor : page.cursor = some token) {db : Db}
    (executed : execAll s.db (page.events.flatMap (storeRaw codec contractId)) = .ok db)
    : ∃ actions t reached,
        Machine.Along (step codec contractId) (Undisturbed server) s actions
        ∧ Machine.run (step codec contractId) s actions = some t
        ∧ Safe rpc codec contractId t
        ∧ t.chain = chain
        ∧ t.phase = .fetching reached (some token)
        ∧ ∃ cursors, t.db = { db with indexerCursors := cursors } := by
  obtain ⟨actions, stored, reached, ofPage, ran, sameChain, sameDb, after⟩ :=
    page_run phase executed
  have storedSafe : Safe rpc codec contractId stored :=
    Machine.invariant_of_allowed (fun _ _ _ allowed => step_safe allowed.documented) safe ofPage ran
  have more : page.events.isEmpty = false := by simpa using nonempty
  simp only [afterEvents, more, Bool.false_eq_true, if_false, pageCursor] at after
  have saved
      : step codec contractId stored (.persist .ok)
        = some { stored with
            db := saveCursor stored.db contractId reached (some token)
            phase := .fetching reached (some token) } :=
    (Effect.persisted after).step
  have plain : Documented rpc contractId stored (.persist .ok) := trivial
  refine ⟨actions ++ [.persist .ok], _, reached, ?_, Machine.run_concat.mpr ⟨stored, ran, saved⟩,
    step_safe plain storedSafe saved, sameChain.trans same, rfl, ?_⟩
  · refine Machine.along_append.mpr ⟨?_, fun _ _ => ⟨trivial, fun _ _ => trivial⟩⟩
    exact (Machine.along_of_forall ofPage s).mono (fun s _ here => here.undisturbed server s)
  · rw [← sameDb]
    exact ⟨_, rfl⟩

/-- A call goes on to the end of the history, by induction on the number of events left. -/
theorem call_run {chain : Chain} (server : Server rpc chain) {left : Nat} {s : State}
    (safe : Safe rpc codec contractId s) (same : s.chain = chain) {lastLedger : Int}
    {cursor : Option String} (phase : s.phase = .fetching lastLedger cursor)
    (remaining : chain.events.length - rpc.resume chain lastLedger cursor = left) {db : Db}
    (executed
      : execAll s.db ((chain.events.drop (rpc.resume chain lastLedger cursor)).flatMap
          (storeRaw codec contractId))
        = .ok db)
    : ∃ actions t,
        Machine.Along (step codec contractId) (Undisturbed server) s actions
        ∧ Machine.run (step codec contractId) s (actions ++ [.persist .ok]) = some t
        ∧ t.phase = .idle
        ∧ t.chain = chain
        ∧ rowPosition rpc contractId t = chain.events.length := by
  induction left using Nat.strong_induction_on generalizing s lastLedger cursor db with
  | _ left ih =>
    have memory := safe.memory
    rw [phase] at memory
    obtain ⟨reached, _⟩ := memory
    have asked := startLedger_eq reached.nonneg reached.fits
    have within := reached.within
    rw [same] at within
    have answers := server.documented (lastLedger.toNat + 1) cursor
    have exhausted := reached.exhausted (by rw [same]; exact answers)
    obtain ⟨_, block, _, _, token, _⟩ := answers
    let page := server.answer (lastLedger.toNat + 1) cursor
    let position := rpc.resume chain lastLedger cursor
    let answered : State :=
      { s with phase := forEvents codec contractId lastLedger page position page.events }
    have went : step codec contractId s (.respond position page) = some answered :=
      (Effect.responded phase asked).step
    have undisturbed : Undisturbed server s (.respond position page) :=
      ⟨lastLedger, cursor, _, phase, asked, rfl, rfl⟩
    have answeredSafe : Safe rpc codec contractId answered :=
      step_safe (undisturbed.documented same) safe went
    by_cases empty : page.events = []
    · have after
          : answered.phase
            = .persisting (max lastLedger (asI64 page.latestLedger)) page.cursor true := by
        simp only [answered, empty, forEvents, afterEvents, List.isEmpty_nil, if_true]
      have saved : step codec contractId answered (.persist .ok) = some _ :=
        (Effect.persisted after).step
      refine ⟨[.respond position page], _, ⟨undisturbed, fun _ _ => trivial⟩,
        Machine.run_cons.mpr ⟨answered, went, Machine.run_cons.mpr ⟨_, saved, rfl⟩⟩, rfl, same, ?_⟩
      refine (rowPosition_saved rpc answered _ page.cursor).trans ?_
      rw [← same]
      exact (exhausted empty).2
    · have pageToken : page.cursor = some (rpc.cursorAt (position + page.events.length)) :=
        token.trans (by rw [if_neg (by simpa using empty)]; rfl)
      obtain ⟨more, shape⟩ := block
      have split : chain.events.drop position = page.events ++ more := shape.symm
      have following : chain.events.drop (position + page.events.length) = more := by
        rw [← List.drop_drop, split, List.drop_left]
      have fewer : position + page.events.length ≤ chain.events.length := by
        have lengths := congrArg List.length split
        simp only [List.length_drop, List.length_append] at lengths
        omega
      have progress : 0 < page.events.length := List.length_pos_of_ne_nil empty
      rw [split, List.flatMap_append] at executed
      obtain ⟨middle, first, second⟩ := execAll_append.mp executed
      obtain ⟨actions, t, next, along, ran, tSafe, tChain, tPhase, cursors, stored⟩ :=
        block_run server answeredSafe same empty rfl pageToken first
      have resumed
          : rpc.resume chain next (some (rpc.cursorAt (position + page.events.length)))
            = position + page.events.length :=
        resume_cursorAt rpc chain next _
      have rest
          : execAll t.db ((chain.events.drop (rpc.resume chain next
              (some (rpc.cursorAt (position + page.events.length))))).flatMap
              (storeRaw codec contractId))
            = .ok { db with indexerCursors := cursors } := by
        rw [stored, resumed, following]
        exact execAll_withCursors second cursors
      have shorter
          : chain.events.length - rpc.resume chain next
              (some (rpc.cursorAt (position + page.events.length))) < left := by
        rw [resumed]
        omega
      obtain ⟨later, u, laterAlong, laterRan, ended⟩ :=
        ih _ shorter tSafe tChain tPhase rfl rest
      refine ⟨.respond position page :: (actions ++ later), u, ⟨undisturbed, ?_⟩, ?_, ended⟩
      · intro reached stepped
        obtain rfl := Option.some.inj (went.symm.trans stepped)
        refine Machine.along_append.mpr ⟨along, fun middle toMiddle => ?_⟩
        obtain rfl := Option.some.inj (ran.symm.trans toMiddle)
        exact laterAlong
      · refine Machine.run_cons.mpr ⟨answered, went, ?_⟩
        change Machine.run _ answered (actions ++ later ++ [.persist .ok]) = some u
        rw [List.append_assoc]
        exact Machine.run_append.mpr ⟨t, ran, laterRan⟩

/-- A call succeeds exactly if the schema accepts the statements of all events it has to pass. -/
theorem callSucceeds_iff_executed {chain : Chain} {s : State} (safe : Safe rpc codec contractId s)
    (idle : s.phase = .idle) (same : s.chain = chain) (server : Server rpc chain)
    : CallSucceeds codec contractId server s
      ↔ ∃ db,
          execAll s.db ((chain.events.drop (rowPosition rpc contractId s)).flatMap
            (storeRaw codec contractId))
          = .ok db := by
  refine ⟨fun succeeds => succeeds.executed safe same, fun accepted => ?_⟩
  obtain ⟨db, executed⟩ := accepted
  have started
      : step codec contractId s (.start true)
        = some { s with
            phase :=
              .fetching (loadCursor s.db contractId).1 (loadCursor s.db contractId).2 } :=
    (Effect.started idle rfl).step
  have begin : Documented rpc contractId s (.start true) := trivial
  have here
      : rowPosition rpc contractId s
        = rpc.resume chain (loadCursor s.db contractId).1 (loadCursor s.db contractId).2 := by
    rw [rowPosition, same]
  have calledSafe := step_safe begin safe started
  obtain ⟨actions, t, along, ran, ended, sameChain, finished⟩ :=
    call_run server calledSafe same rfl rfl (here ▸ executed)
  obtain ⟨last, ranActions, saved⟩ := Machine.run_concat.mp ran
  have tSafe : Safe rpc codec contractId t := by
    have preserved (before : State) (action : Action) (after : State)
        (undisturbed : Undisturbed server before action)
        (inv : Safe rpc codec contractId before ∧ before.chain = chain)
        (stepped : step codec contractId before action = some after)
        : Safe rpc codec contractId after ∧ after.chain = chain :=
      ⟨step_safe (undisturbed.documented inv.2) inv.1 stepped,
        (undisturbed.chain stepped).trans inv.2⟩
    have final : Documented rpc contractId last (.persist .ok) := trivial
    exact step_safe final
      (Machine.invariant_along preserved ⟨calledSafe, same⟩ along ranActions).1 saved
  refine ⟨_, actions, t, started, along, ran, ended, ?_, finished⟩
  intro i raw found
  have before : i < rowPosition rpc contractId t := by
    rw [finished]
    exact (List.getElem?_eq_some_iff.mp found).1
  have handled := tSafe.row.handled i before
  exact ⟨handled, tSafe.executed i handled raw (sameChain ▸ found)⟩

/-- No step of `sync_contract` makes totals that do not fit. -/
theorem step_totalsValid {other : String} {s t : State} {action : Action}
    (valid : TotalsValid other s.db) (stepped : step codec contractId s action = some t)
    : TotalsValid other t.db := by
  cases step_effect stepped with
  | executed phase result | lost phase result => exact exec_valid valid result
  | persisted | persistLost | resetCursor | undone => exact ⟨valid.unique, valid.fits⟩
  | grow | notStarted | started | responded | overflowed | rpcError | notExecuted | nextEvent
    | notPersisted | crash => exact valid

end Attesta.Indexer.Sync

namespace Attesta.Indexer.Run

open Sync

variable {codec : Codec} {config : Config} {contractId : String}

theorem step_totalsValid {s t : State} {action : Action} (valid : TotalsValid contractId s.db)
    (stepped : step codec config s action = some t)
    : TotalsValid contractId t.db := by
  cases action with
  | grow | crash =>
      obtain rfl := Option.some.inj stepped
      exact valid
  | resetCursor =>
      obtain rfl := Option.some.inj stepped
      exact ⟨valid.unique, valid.fits⟩
  | poll =>
      obtain ⟨_, rfl⟩ := poll_step stepped
      exact valid
  | sync action =>
      obtain ⟨first, rest, next, _, _, went, rfl⟩ := sync_step stepped
      have before : TotalsValid contractId (s.view first).db := valid
      exact Sync.step_totalsValid before went

theorem empty_totalsValid (contractId : String) : TotalsValid contractId Db.empty where
  unique := List.Pairwise.nil
  fits := by
    change Fits (0, 0)
    decide

theorem run_totalsValid {s : State} {actions : List Action}
    (ran : Machine.run (step codec config) .init actions = some s) (contractId : String)
    : TotalsValid contractId s.db :=
  Machine.invariant (fun _ _ _ => step_totalsValid) (empty_totalsValid contractId) ran

/-- Whatever has happened before: a call of `sync_contract` in which nothing fails from outside
reaches the end of the history exactly if the totals fit their columns before and after each of
the events it has to pass.
-/
theorem call_succeeds_iff (rpc : String → Rpc) (codec : Codec) (config : Config) {s : State}
    {actions : List Action}
    (documented : Machine.Along (step codec config) (Documented rpc) .init actions)
    (ran : Machine.run (step codec config) .init actions = some s) (contractId : String)
    (idle : (s.view contractId).phase = .idle)
    (server : Server (rpc contractId) (s.chains contractId))
    : CallSucceeds codec contractId server (s.view contractId)
      ↔ TotalsFit codec (poolTotals s.db contractId)
          ((s.chains contractId).events.drop
            (rowPosition (rpc contractId) contractId (s.view contractId))) := by
  have safe := run_view_safe init_closed documented ran contractId
  have valid := run_totalsValid ran contractId
  exact (callSucceeds_iff_executed safe idle rfl server).trans (store_iff valid)

theorem call_succeeds_history
    : ∃ s,
        Machine.run (step (sampleCodec 1) ⟨["CPOOL"], none⟩) .init
            [.grow "CPOOL" (sampleHistory 0) 42, .poll]
          = some s
        ∧ CallSucceeds (sampleCodec 1) "CPOOL" (.paged sampleRpc (s.chains "CPOOL"))
            (s.view "CPOOL") := by
  have documented
      : Machine.Along (step (sampleCodec 1) ⟨["CPOOL"], none⟩) (Documented fun _ => sampleRpc) .init
          [.grow "CPOOL" (sampleHistory 0) 42, .poll] := by
    decide +kernel
  refine ⟨_, rfl, ?_⟩
  refine (call_succeeds_iff (fun _ => sampleRpc) (sampleCodec 1) ⟨["CPOOL"], none⟩ documented rfl
    "CPOOL" rfl (.paged sampleRpc _)).mpr ?_
  decide +kernel

/-- The payload of a deposit of the largest amount. -/
def largestDeposit (i : Nat) : String :=
  "\x7b\"commitment\":\"" ++ Hex.hex0x (sampleLeaf i) ++ "\",\"leaf_index\":" ++ toString i
    ++ ",\"deposit_amount\":\"170141183460469231731687303715884105727\",\"asset\":\"USDC\"\x7d"

def largestDeposits : List RawEvent :=
  (List.range 6).map (fun i => sampleEvent "new_commitment" (largestDeposit i) 42)

/-- The codec as it behaves on these payloads. -/
def largestCodec : Codec :=
  .plainText
    ((List.range 6).map (fun i =>
      (largestDeposit i,
        ⟨Hex.hex0x (sampleLeaf i), i, some "170141183460469231731687303715884105727",
          some "USDC"⟩)))
    []

/-- Six deposits that all decode are more than the column holds. -/
theorem call_fails_on_deposits
    : ∃ s,
        Machine.Along (step largestCodec ⟨["CPOOL"], none⟩) (Documented fun _ => sampleRpc) .init
            [.grow "CPOOL" largestDeposits 42, .poll]
        ∧ Machine.run (step largestCodec ⟨["CPOOL"], none⟩) .init
            [.grow "CPOOL" largestDeposits 42, .poll]
          = some s
        ∧ (s.view "CPOOL").phase = .idle
        ∧ (∀ raw ∈ (s.chains "CPOOL").events, (largestCodec.decode raw).isSome = true)
        ∧ ∀ server : Server sampleRpc (s.chains "CPOOL"),
            ¬ CallSucceeds largestCodec "CPOOL" server (s.view "CPOOL") := by
  have documented
      : Machine.Along (step largestCodec ⟨["CPOOL"], none⟩) (Documented fun _ => sampleRpc) .init
          [.grow "CPOOL" largestDeposits 42, .poll] := by
    decide +kernel
  have decodes : ∀ raw ∈ largestDeposits, (largestCodec.decode raw).isSome = true := by
    decide +kernel
  have overflow : ¬ TotalsFit largestCodec 0 largestDeposits := by
    decide +kernel
  refine ⟨_, documented, rfl, rfl, decodes, fun server succeeds => overflow ?_⟩
  have safe := run_view_safe init_closed documented rfl "CPOOL"
  have accepted := (callSucceeds_iff_executed safe rfl rfl server).mp succeeds
  exact (store_iff (empty_totalsValid "CPOOL")).mp accepted

end Attesta.Indexer.Run
