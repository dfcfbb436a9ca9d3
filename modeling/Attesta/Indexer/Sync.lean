import Attesta.Foundation.Machine
import Attesta.Indexer.Store

/-! `sync_contract` for one contract, one await at a time: the SELECT of the cursor row, the
RPC call of every page, each statement of `store_event` and the upsert of the cursor. Every
call can fail, a failed statement may have been applied, and the process can stop anywhere.
-/

namespace Attesta.Indexer.Sync

open KeyedRows

/-- The SELECT at the start of a pass, with its default for a missing row. -/
def loadCursor (db : Db) (contractId : String) : Int × Option String :=
  match db.indexerCursors.find? (fun row => row.contractId == contractId) with
  | some row => (row.lastLedger, row.lastCursor)
  | none => (0, none)

/-- The upsert at the end of every page. -/
def saveCursor (db : Db) (contractId : String) (lastLedger : Int) (cursor : Option String) : Db :=
  let row : CursorRow := ⟨contractId, lastLedger, cursor⟩
  { db with
    indexerCursors :=
      upsert (fun row => row.contractId == contractId) row (fun _ => row) db.indexerCursors }

@[simp]
theorem loadCursor_saveCursor (db : Db) (contractId : String) (lastLedger : Int)
    (cursor : Option String)
    : loadCursor (saveCursor db contractId lastLedger cursor) contractId
      = (lastLedger, cursor) := by
  simp only [loadCursor, saveCursor]
  rw [find?_upsert db.indexerCursors (by simp) (by simp)]
  cases db.indexerCursors.find? (fun row => row.contractId == contractId) <;> rfl

/-- `last_ledger as u64 + 1`, none if the addition overflows. -/
def startLedger (lastLedger : Int) : Option Nat :=
  let ledger := (lastLedger % 2 ^ 64).toNat
  if ledger + 1 < 2 ^ 64 then some (ledger + 1) else none

/-- Every nonnegative `i64` has a successor among the `u64`. -/
theorem startLedger_eq {lastLedger : Int} (nonneg : 0 ≤ lastLedger) (bound : lastLedger < 2 ^ 63)
    : startLedger lastLedger = some (lastLedger.toNat + 1) := by
  have same : lastLedger % 2 ^ 64 = lastLedger := Int.emod_eq_of_lt nonneg (by omega)
  have fits : lastLedger.toNat + 1 < 2 ^ 64 := by omega
  simp only [startLedger, same, fits, if_true]

-----------------------------------------------------------------------------------------
-- The RPC server
-----------------------------------------------------------------------------------------

/-- The events of the contract so far and the newest closed ledger. -/
structure Chain where
  events : List RawEvent
  head : Nat

structure EventsPage where
  events : List RawEvent
  cursor : Option String
  latestLedger : UInt64
  deriving DecidableEq

/-- Where a `getEvents` request starts. -/
inductive Pagination
  | cursor (token : String)
  | startLedger (ledger : Nat)
  deriving DecidableEq

/-- The parameters `get_events` sends. -/
def getEvents (startLedger : Nat) : Option String → Pagination
  | some token => .cursor token
  | none => .startLedger (max startLedger 1)

/-- The pagination tokens of the server: a token stands for the number of events up to and
including the last one returned.
-/
structure Rpc where
  cursorAt : Nat → String
  positionOf : String → Nat
  positionOf_cursorAt : ∀ n, positionOf (cursorAt n) = n

/-- How many events lie before the first one a request asks for. -/
def Rpc.position (rpc : Rpc) (chain : Chain) : Pagination → Nat
  | .cursor token => rpc.positionOf token
  | .startLedger ledger =>
      (chain.events.takeWhile (fun raw => decide (raw.ledger.toNat < ledger))).length

/-- The documented answer to `getEvents`: the next block of at most 100 events, the token of
the last of them (the given one if there is none), and a ledger that is closed by now.
-/
def Rpc.Answers (rpc : Rpc) (chain : Chain) (startLedger : Nat) (cursor : Option String)
    (position : Nat) (page : EventsPage)
    : Prop :=
  position = rpc.position chain (getEvents startLedger cursor)
  ∧ page.events <+: chain.events.drop position
  ∧ page.events.length ≤ 100
  ∧ (page.events = [] → chain.events.length ≤ position)
  ∧ page.cursor
    = (if page.events.isEmpty then cursor
      else some (rpc.cursorAt (position + page.events.length)))
  ∧ page.latestLedger.toNat ≤ chain.head

-----------------------------------------------------------------------------------------
-- The pass as a machine
-----------------------------------------------------------------------------------------

/-- What the running pass holds in memory. -/
inductive Phase
  | idle
  /-- Before the RPC call of the next page. -/
  | fetching (lastLedger : Int) (cursor : Option String)
  /-- Inside `store_event` for `raw`, with `todo` still to be executed and `rest` to follow.
  `position` is the number of the event in the history; the code does not know it.
  -/
  | storing (lastLedger : Int) (page : EventsPage) (position : Nat) (todo : List Statement)
      (raw : RawEvent) (rest : List RawEvent)
  /-- Before the upsert of the cursor row. -/
  | persisting (lastLedger : Int) (cursor : Option String) (done : Bool)

/-- How a statement ends; a failed one may still have been applied by the server. -/
inductive StatementOutcome
  | ok
  | failed (applied : Bool)
  /-- Executed and rolled back again. -/
  | undone
  deriving DecidableEq

inductive Action
  /-- New ledgers close and bring further events. -/
  | grow (events : List RawEvent) (head : Nat)
  /-- The poll loop starts a pass; its SELECT succeeds or not. -/
  | start (selected : Bool)
  /-- `getEvents` answers with a page whose events begin at `position`. -/
  | respond (position : Nat) (page : EventsPage)
  | rpcError
  /-- The next statement of the current event is executed. -/
  | statement (outcome : StatementOutcome)
  /-- `store_event` has returned, the loop goes on with the next event. -/
  | nextEvent
  /-- The upsert of the cursor row. -/
  | persist (outcome : StatementOutcome)
  /-- The process stops. -/
  | crash
  /-- An operator sets the cursor row. -/
  | resetCursor (lastLedger : Int) (cursor : Option String)

structure State where
  chain : Chain
  db : Db
  phase : Phase
  /-- Every statement applied so far with the number of its event; nothing reads it. -/
  log : List (Nat × Statement)
  /-- The events for which `store_event` has returned successfully; nothing reads it. -/
  handled : List Nat

def State.init : State where
  chain := ⟨[], 0⟩
  db := Db.empty
  phase := .idle
  log := []
  handled := []

/-- The code between the loop over the events of a page and the upsert. -/
def afterEvents (lastLedger : Int) (page : EventsPage) : Phase :=
  let done := page.events.isEmpty
  .persisting (if done then max lastLedger (asI64 page.latestLedger) else lastLedger)
    page.cursor done

variable (codec : Codec) (contractId : String)

/-- The loop over the events of a page, at its head. -/
def forEvents (lastLedger : Int) (page : EventsPage) (position : Nat) : List RawEvent → Phase
  | [] => afterEvents lastLedger page
  | raw :: rest =>
      .storing lastLedger page position (storeRaw codec contractId raw) raw rest

/-- The server has applied a statement of the event at `position`. -/
def State.applied (s : State) (db : Db) (position : Nat) (st : Statement) : State :=
  { s with db, log := s.log ++ [(position, st)] }

/-- The pass is over before its end; everything it held in memory is gone. -/
def State.interrupted (s : State) : State := { s with phase := .idle }

/-- One step; an action that is not enabled has no successor. -/
def step (s : State) : Action → Option State
  | .grow events head => some { s with chain := ⟨s.chain.events ++ events, head⟩ }
  | .start selected =>
      match s.phase with
      | .idle =>
          let (lastLedger, cursor) := loadCursor s.db contractId
          some (if selected then { s with phase := .fetching lastLedger cursor } else s)
      | _ => none
  | .respond position page =>
      match s.phase with
      | .fetching lastLedger _ =>
          match startLedger lastLedger with
          | some _ =>
              some { s with
                phase := forEvents codec contractId lastLedger page position page.events }
          | none => some s.interrupted
      | _ => none
  | .rpcError =>
      match s.phase with
      | .fetching _ _ => some s.interrupted
      | _ => none
  | .statement outcome =>
      match s.phase with
      | .storing lastLedger page position (st :: todo) raw rest =>
          match outcome, st.exec s.db with
          | .ok, .ok db =>
              some { s.applied db position st with
                phase := .storing lastLedger page position todo raw rest }
          | .failed true, .ok db => some (s.applied db position st).interrupted
          | .failed false, _ => some s.interrupted
          | .undone, .ok _ => some (State.interrupted { s with db := st.undo s.db })
          | _, .error _ => some s.interrupted
      | _ => none
  | .nextEvent =>
      match s.phase with
      | .storing lastLedger page position [] raw rest =>
          some { s with
            phase :=
              forEvents codec contractId (max lastLedger (asI64 raw.ledger)) page (position + 1)
                rest
            handled := s.handled ++ [position] }
      | _ => none
  | .persist outcome =>
      match s.phase with
      | .persisting lastLedger cursor done =>
          let saved := { s with db := saveCursor s.db contractId lastLedger cursor }
          match outcome with
          | .ok =>
              some { saved with phase := if done then .idle else .fetching lastLedger cursor }
          | .failed true => some saved.interrupted
          | .failed false => some s.interrupted
          -- The upsert draws from no sequence.
          | .undone => none
      | _ => none
  | .crash => some s.interrupted
  | .resetCursor lastLedger cursor =>
      some { s with db := saveCursor s.db contractId lastLedger cursor }

-----------------------------------------------------------------------------------------
-- Every way a step can go
-----------------------------------------------------------------------------------------

/-- The steps of the machine as a relation, with everything a step knows about its start. -/
inductive Effect (s : State) : Action → State → Prop
  | grow (events : List RawEvent) (head : Nat)
    : Effect s (.grow events head) { s with chain := ⟨s.chain.events ++ events, head⟩ }
  | notStarted (idle : s.phase = .idle) : Effect s (.start false) s
  | started {lastLedger : Int} {cursor : Option String} (idle : s.phase = .idle)
    (row : loadCursor s.db contractId = (lastLedger, cursor))
    : Effect s (.start true) { s with phase := .fetching lastLedger cursor }
  | responded {lastLedger : Int} {cursor : Option String} {start position : Nat}
    {page : EventsPage} (phase : s.phase = .fetching lastLedger cursor)
    (asked : startLedger lastLedger = some start)
    : Effect s (.respond position page)
        { s with phase := forEvents codec contractId lastLedger page position page.events }
  | overflowed {lastLedger : Int} {cursor : Option String} {position : Nat}
    {page : EventsPage} (phase : s.phase = .fetching lastLedger cursor)
    (overflow : startLedger lastLedger = none)
    : Effect s (.respond position page) s.interrupted
  | rpcError {lastLedger : Int} {cursor : Option String}
    (phase : s.phase = .fetching lastLedger cursor)
    : Effect s .rpcError s.interrupted
  | executed {lastLedger : Int} {page : EventsPage} {position : Nat} {st : Statement}
    {todo : List Statement} {raw : RawEvent} {rest : List RawEvent} {db : Db}
    (phase : s.phase = .storing lastLedger page position (st :: todo) raw rest)
    (result : st.exec s.db = .ok db)
    : Effect s (.statement .ok)
        { s.applied db position st with
          phase := .storing lastLedger page position todo raw rest }
  | lost {lastLedger : Int} {page : EventsPage} {position : Nat} {st : Statement}
    {todo : List Statement} {raw : RawEvent} {rest : List RawEvent} {db : Db}
    (phase : s.phase = .storing lastLedger page position (st :: todo) raw rest)
    (result : st.exec s.db = .ok db)
    : Effect s (.statement (.failed true)) (s.applied db position st).interrupted
  | notExecuted {lastLedger : Int} {page : EventsPage} {position : Nat} {st : Statement}
    {todo : List Statement} {raw : RawEvent} {rest : List RawEvent}
    {outcome : StatementOutcome}
    (phase : s.phase = .storing lastLedger page position (st :: todo) raw rest)
    (failed : outcome = .failed false ∨ ∃ e, st.exec s.db = .error e)
    : Effect s (.statement outcome) s.interrupted
  | undone {lastLedger : Int} {page : EventsPage} {position : Nat} {st : Statement}
    {todo : List Statement} {raw : RawEvent} {rest : List RawEvent} {db : Db} {lastNoteId : Int}
    (phase : s.phase = .storing lastLedger page position (st :: todo) raw rest)
    (result : st.exec s.db = .ok db)
    (drawn : st.undo s.db = { s.db with lastNoteId := lastNoteId })
    (later : s.db.lastNoteId ≤ lastNoteId)
    : Effect s (.statement .undone)
        (State.interrupted { s with db := { s.db with lastNoteId := lastNoteId } })
  | nextEvent {lastLedger : Int} {page : EventsPage} {position : Nat} {raw : RawEvent}
    {rest : List RawEvent} (phase : s.phase = .storing lastLedger page position [] raw rest)
    : Effect s .nextEvent
        { s with
          phase :=
            forEvents codec contractId (max lastLedger (asI64 raw.ledger)) page (position + 1)
              rest
          handled := s.handled ++ [position] }
  | persisted {lastLedger : Int} {cursor : Option String} {done : Bool}
    (phase : s.phase = .persisting lastLedger cursor done)
    : Effect s (.persist .ok)
        { s with
          db := saveCursor s.db contractId lastLedger cursor
          phase := if done then .idle else .fetching lastLedger cursor }
  | persistLost {lastLedger : Int} {cursor : Option String} {done : Bool}
    (phase : s.phase = .persisting lastLedger cursor done)
    : Effect s (.persist (.failed true))
        (State.interrupted { s with db := saveCursor s.db contractId lastLedger cursor })
  | notPersisted {lastLedger : Int} {cursor : Option String} {done : Bool}
    (phase : s.phase = .persisting lastLedger cursor done)
    : Effect s (.persist (.failed false)) s.interrupted
  | crash : Effect s .crash s.interrupted
  | resetCursor (lastLedger : Int) (cursor : Option String)
    : Effect s (.resetCursor lastLedger cursor)
        { s with db := saveCursor s.db contractId lastLedger cursor }

variable {codec contractId}

theorem step_effect {s t : State} {action : Action}
    (h : step codec contractId s action = some t)
    : Effect codec contractId s action t := by
  cases action with
  | grow events head => exact Option.some.inj h ▸ .grow events head
  | start selected =>
      simp only [step] at h
      split at h
      next idle =>
        cases selected with
        | true => exact Option.some.inj h ▸ .started idle rfl
        | false => exact Option.some.inj h ▸ .notStarted idle
      next => cases h
  | respond position page =>
      simp only [step] at h
      split at h
      next phase =>
        split at h
        next asked => exact Option.some.inj h ▸ .responded phase asked
        next overflow => exact Option.some.inj h ▸ .overflowed phase overflow
      next => cases h
  | rpcError =>
      simp only [step] at h
      split at h
      next phase => exact Option.some.inj h ▸ .rpcError phase
      next => cases h
  | statement outcome =>
      simp only [step] at h
      split at h
      next phase =>
        split at h
        next result => exact Option.some.inj h ▸ .executed phase result
        next result => exact Option.some.inj h ▸ .lost phase result
        next => exact Option.some.inj h ▸ .notExecuted phase (Or.inl rfl)
        next result =>
          obtain ⟨lastNoteId, drawn, later⟩ := Statement.undo_eq _ s.db
          rw [drawn] at h
          exact Option.some.inj h ▸ .undone phase result drawn later
        next e _ failed => exact Option.some.inj h ▸ .notExecuted phase (Or.inr ⟨_, failed⟩)
      next => cases h
  | nextEvent =>
      simp only [step] at h
      split at h
      next phase => exact Option.some.inj h ▸ .nextEvent phase
      next => cases h
  | persist outcome =>
      simp only [step] at h
      split at h
      next phase =>
        split at h
        next => exact Option.some.inj h ▸ .persisted phase
        next => exact Option.some.inj h ▸ .persistLost phase
        next => exact Option.some.inj h ▸ .notPersisted phase
        next => cases h
      next => cases h
  | crash => exact Option.some.inj h ▸ .crash
  | resetCursor lastLedger cursor => exact Option.some.inj h ▸ .resetCursor lastLedger cursor

end Attesta.Indexer.Sync
