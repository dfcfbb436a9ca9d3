import Attesta.Indexer.KeyedTables
import Attesta.Indexer.Run

/-! The database as a mirror of the chain, over all contracts and at every moment: each row says
what an event of the chain has said, no key is stored twice, and what is stored stays stored.
-/

namespace Attesta.Indexer

open KeyedRows

variable {codec : Codec}

/-- The statement is issued for an event of the contract. -/
def IssuedBy (codec : Codec) (chains : String → Sync.Chain) (contractId : String)
    (st : Statement)
    : Prop :=
  ∃ raw ∈ (chains contractId).events, st ∈ storeRaw codec contractId raw

/-- Every row repeats an event. The rows of a pool come from the events of its own contract; an
issuer has the columns of one event and the ledger of another one for the same issuer.
-/
structure Genuine (codec : Codec) (chains : String → Sync.Chain) (db : Db) : Prop where
  leaves : ∀ row ∈ db.commitments, IssuedBy codec chains row.pool (.insertCommitment row)
  nullifiers : ∀ row ∈ db.nullifiers, IssuedBy codec chains row.pool (.insertNullifier row)
  notes : ∀ row ∈ db.encryptedNotes, IssuedBy codec chains row.pool (insertionOf row)
  issuers
    : ∀ row ∈ db.issuers,
        ∃ (first latest : IssuerRow) (contractId other : String),
          IssuedBy codec chains contractId (.upsertIssuer first)
          ∧ IssuedBy codec chains other (.upsertIssuer latest)
          ∧ first.issuerId = row.issuerId
          ∧ row = { latest with registeredLedger := first.registeredLedger }

/-- No key is stored twice, and the ids of the notes increase. They are the ones the sequence has
drawn; an INSERT that was rolled back has left a gap.
-/
structure Keyed (db : Db) : Prop where
  leaves : NoConflict CommitmentRow.conflict db.commitments
  nullifiers : NoConflict NullifierRow.conflict db.nullifiers
  issuers : NoConflict (fun a b => a.issuerId == b.issuerId) db.issuers
  notes : db.encryptedNotes.Pairwise (fun a b => a.id < b.id)
  drawn : ∀ row ∈ db.encryptedNotes, 0 < row.id ∧ row.id ≤ db.lastNoteId
  lastNoteId : 0 ≤ db.lastNoteId

/-- The later database has everything the earlier one has, and its issuers keep the ledger they
were registered at.
-/
structure Continues (before after : Db) : Prop where
  leaves : before.commitments <+: after.commitments
  nullifiers : before.nullifiers <+: after.nullifiers
  notes : before.encryptedNotes <+: after.encryptedNotes
  issuers
    : before.issuers.map (fun row => (row.issuerId, row.registeredLedger))
      <+: after.issuers.map (fun row => (row.issuerId, row.registeredLedger))

theorem Continues.refl (db : Db) : Continues db db :=
  ⟨List.prefix_rfl, List.prefix_rfl, List.prefix_rfl, List.prefix_rfl⟩

theorem Continues.trans {first second third : Db} (h : Continues first second)
    (h' : Continues second third)
    : Continues first third :=
  ⟨h.leaves.trans h'.leaves, h.nullifiers.trans h'.nullifiers, h.notes.trans h'.notes,
    h.issuers.trans h'.issuers⟩

-----------------------------------------------------------------------------------------
-- One statement
-----------------------------------------------------------------------------------------

/-- The pool a statement writes to. -/
def Statement.pool? : Statement → Option String
  | .insertCommitment row => some row.pool
  | .insertNullifier row => some row.pool
  | .insertNote pool .. => some pool
  | .addPoolTotal pool .. => some pool
  | .upsertIssuer _ => none

/-- A statement writes to the pool whose event it is issued for. -/
theorem pool?_of_mem_storeRaw {contractId pool : String} {raw : RawEvent} {st : Statement}
    (h : st ∈ storeRaw codec contractId raw) (writes : st.pool? = some pool)
    : pool = contractId := by
  unfold storeRaw at h
  split at h
  next event _ =>
    cases event with
    | newCommitment commitment leafIndex depositAmount asset =>
        rcases List.mem_cons.mp h with rfl | later
        · exact (Option.some.inj writes).symm
        · split at later
          · obtain rfl := List.mem_singleton.mp later
            exact (Option.some.inj writes).symm
          · cases later
    | nullifierSpent | encryptedNote | withdrawal =>
        obtain rfl := List.mem_singleton.mp h
        exact (Option.some.inj writes).symm
    | issuerUpdated =>
        obtain rfl := List.mem_singleton.mp h
        cases writes
  next => cases h

/-- Upserting an issuer keeps the ledgers of those that are there. -/
theorem prefix_upsertIssuerRows (row : IssuerRow) (rows : List IssuerRow)
    : rows.map (fun row => (row.issuerId, row.registeredLedger))
      <+: (upsertIssuerRows row rows).map (fun row => (row.issuerId, row.registeredLedger)) := by
  unfold upsertIssuerRows upsert
  split
  · rw [List.map_map]
    refine (List.map_congr_left fun old _ => ?_) ▸ List.prefix_rfl
    simp only [Function.comp_apply]
    split
    next same => simp [beq_iff_eq.mp same]
    next => rfl
  · rw [List.map_append]
    exact List.prefix_append _ _

theorem mem_upsertIssuerRows {row r : IssuerRow} {rows : List IssuerRow}
    (h : r ∈ upsertIssuerRows row rows)
    : r ∈ rows ∨ r = row
      ∨ ∃ old ∈ rows, old.issuerId = row.issuerId
          ∧ r = { row with registeredLedger := old.registeredLedger } := by
  unfold upsertIssuerRows upsert at h
  split at h
  · obtain ⟨old, member, rfl⟩ := List.mem_map.mp h
    split
    next same => exact Or.inr (Or.inr ⟨old, member, beq_iff_eq.mp same, rfl⟩)
    next => exact Or.inl member
  · rcases List.mem_append.mp h with old | new
    · exact Or.inl old
    · exact Or.inr (Or.inl (List.mem_singleton.mp new))

/-- Executing a statement loses nothing. -/
theorem Statement.exec_continues {st : Statement} {db next : Db} (h : st.exec db = .ok next)
    : Continues db next := by
  cases st <;> simp only [Statement.exec] at h
  case addPoolTotal =>
    split at h
    · exact Except.ok.inj h ▸ { Continues.refl db with }
    · cases h
  case insertCommitment row =>
    exact Except.ok.inj h ▸ { Continues.refl db with leaves := prefix_insertIgnore _ _ _ }
  case insertNullifier row =>
    exact Except.ok.inj h ▸ { Continues.refl db with nullifiers := prefix_insertIgnore _ _ _ }
  case insertNote =>
    exact Except.ok.inj h ▸ { Continues.refl db with notes := List.prefix_append _ _ }
  case upsertIssuer row =>
    exact Except.ok.inj h ▸ { Continues.refl db with issuers := prefix_upsertIssuerRows _ _ }

theorem Keyed.exec {st : Statement} {db next : Db} (keyed : Keyed db)
    (h : st.exec db = .ok next)
    : Keyed next := by
  cases st <;> simp only [Statement.exec] at h
  case addPoolTotal =>
    split at h
    · exact Except.ok.inj h ▸ { keyed with }
    · cases h
  case insertCommitment row =>
    exact Except.ok.inj h ▸ { keyed with leaves := keyed.leaves.insertIgnore row }
  case insertNullifier row =>
    exact Except.ok.inj h ▸ { keyed with nullifiers := keyed.nullifiers.insertIgnore row }
  case insertNote =>
    have next := keyed.lastNoteId
    refine Except.ok.inj h ▸ { keyed with notes := ?_, drawn := ?_, lastNoteId := ?_ }
    · refine List.pairwise_append.mpr ⟨keyed.notes, List.pairwise_singleton _ _, ?_⟩
      intro old stored row new
      obtain rfl := List.mem_singleton.mp new
      exact Int.lt_add_one_of_le (keyed.drawn old stored).2
    · intro row member
      rcases List.mem_append.mp member with old | new
      · obtain ⟨positive, before⟩ := keyed.drawn row old
        exact ⟨positive, by change row.id ≤ db.lastNoteId + 1; omega⟩
      · obtain rfl := List.mem_singleton.mp new
        exact ⟨by change 0 < db.lastNoteId + 1; omega, le_rfl⟩
    · change 0 ≤ db.lastNoteId + 1
      omega
  case upsertIssuer row =>
    exact Except.ok.inj h ▸
      { keyed with issuers := NoConflict.upsertRow issuer_lastWins.key keyed.issuers row }

/-- Neither the cursors nor ids that are never used count. -/
theorem Keyed.spared {db : Db} (keyed : Keyed db) (cursors : List CursorRow) {lastNoteId : Int}
    (later : db.lastNoteId ≤ lastNoteId)
    : Keyed { db with indexerCursors := cursors, lastNoteId := lastNoteId } :=
  { keyed with
    drawn := fun row member =>
      ⟨(keyed.drawn row member).1, (keyed.drawn row member).2.trans later⟩
    lastNoteId := keyed.lastNoteId.trans later }

theorem Genuine.exec {chains : String → Sync.Chain} {contractId : String} {raw : RawEvent}
    {st : Statement} {db next : Db} (genuine : Genuine codec chains db)
    (event : raw ∈ (chains contractId).events) (issued : st ∈ storeRaw codec contractId raw)
    (h : st.exec db = .ok next)
    : Genuine codec chains next := by
  have from_event : IssuedBy codec chains contractId st := ⟨raw, event, issued⟩
  cases st <;> simp only [Statement.exec] at h
  case addPoolTotal =>
    split at h
    · exact Except.ok.inj h ▸ { genuine with }
    · cases h
  case insertCommitment row =>
    refine Except.ok.inj h ▸ { genuine with leaves := fun r member => ?_ }
    rcases mem_insertIgnore member with old | rfl
    · exact genuine.leaves r old
    · exact (pool?_of_mem_storeRaw issued rfl).symm ▸ from_event
  case insertNullifier row =>
    refine Except.ok.inj h ▸ { genuine with nullifiers := fun r member => ?_ }
    rcases mem_insertIgnore member with old | rfl
    · exact genuine.nullifiers r old
    · exact (pool?_of_mem_storeRaw issued rfl).symm ▸ from_event
  case insertNote =>
    refine Except.ok.inj h ▸ { genuine with notes := fun r member => ?_ }
    rcases List.mem_append.mp member with old | new
    · exact genuine.notes r old
    · obtain rfl := List.mem_singleton.mp new
      exact (pool?_of_mem_storeRaw issued rfl).symm ▸ from_event
  case upsertIssuer row =>
    refine Except.ok.inj h ▸ { genuine with issuers := fun r member => ?_ }
    rcases mem_upsertIssuerRows member with old | rfl | ⟨old, inTable, same, rfl⟩
    · exact genuine.issuers r old
    · exact ⟨r, r, contractId, contractId, from_event, from_event, rfl, rfl⟩
    · obtain ⟨first, latest, by_, _, firstIssued, _, firstSame, shape⟩ :=
        genuine.issuers old inTable
      refine ⟨first, row, by_, contractId, firstIssued, from_event, firstSame.trans same, ?_⟩
      rw [shape]

/-- Further events leave the rows as genuine as they are. -/
theorem Genuine.mono {chains next : String → Sync.Chain} {db : Db}
    (genuine : Genuine codec chains db)
    (grows : ∀ contractId, (chains contractId).events ⊆ (next contractId).events)
    : Genuine codec next db := by
  have kept {contractId : String} {st : Statement} (h : IssuedBy codec chains contractId st)
      : IssuedBy codec next contractId st := by
    obtain ⟨raw, member, issued⟩ := h
    exact ⟨raw, grows contractId member, issued⟩
  refine ⟨fun row member => kept (genuine.leaves row member),
    fun row member => kept (genuine.nullifiers row member),
    fun row member => kept (genuine.notes row member), fun row member => ?_⟩
  obtain ⟨first, latest, contractId, other, firstIssued, latestIssued, rest⟩ :=
    genuine.issuers row member
  exact ⟨first, latest, contractId, other, kept firstIssued, kept latestIssued, rest⟩

-----------------------------------------------------------------------------------------
-- Runs
-----------------------------------------------------------------------------------------

/-- The databases differ in their cursors at most, and in how many ids the sequence has drawn. -/
def Spared (db next : Db) : Prop :=
  ∃ cursors lastNoteId,
    next = { db with indexerCursors := cursors, lastNoteId := lastNoteId }
    ∧ db.lastNoteId ≤ lastNoteId

theorem Spared.cursors (db : Db) (cursors : List CursorRow)
    : Spared db { db with indexerCursors := cursors } :=
  ⟨cursors, db.lastNoteId, rfl, le_rfl⟩

theorem Spared.issuers {db next : Db} (h : Spared db next) : next.issuers = db.issuers := by
  obtain ⟨_, _, rfl, _⟩ := h
  rfl

/-- A step of a call spares the tables or executes a statement of one of its events. -/
theorem Sync.step_executes {rpc : Sync.Rpc} {contractId : String} {s t : Sync.State}
    {action : Sync.Action} (safe : Sync.Safe rpc codec contractId s)
    (stepped : Sync.step codec contractId s action = some t)
    : Spared s.db t.db
      ∨ ∃ raw ∈ s.chain.events, ∃ st ∈ storeRaw codec contractId raw,
          st.exec s.db = .ok t.db := by
  have issued {lastLedger : Int} {page : Sync.EventsPage} {position : Nat} {st : Statement}
      {todo : List Statement} {raw : RawEvent} {rest : List RawEvent}
      (phase : s.phase = .storing lastLedger page position (st :: todo) raw rest)
      : raw ∈ s.chain.events ∧ st ∈ storeRaw codec contractId raw := by
    have memory := safe.memory
    rw [phase] at memory
    exact ⟨List.mem_of_getElem? memory.event, memory.suffix.subset List.mem_cons_self⟩
  cases Sync.step_effect stepped with
  | executed phase result =>
      exact Or.inr ⟨_, (issued phase).1, _, (issued phase).2, result⟩
  | lost phase result =>
      exact Or.inr ⟨_, (issued phase).1, _, (issued phase).2, result⟩
  | undone _ _ _ later => exact Or.inl ⟨_, _, rfl, later⟩
  | persisted | persistLost | resetCursor => exact Or.inl (.cursors _ _)
  | grow | notStarted | started | responded | overflowed | rpcError | notExecuted | nextEvent
    | notPersisted | crash =>
      exact Or.inl (.cursors _ _)

/-- Whatever is in flight, a step of a call executes a statement or none. -/
theorem Sync.step_db {contractId : String} {s t : Sync.State} {action : Sync.Action}
    (stepped : Sync.step codec contractId s action = some t)
    : Spared s.db t.db ∨ ∃ st : Statement, st.exec s.db = .ok t.db := by
  cases Sync.step_effect stepped with
  | executed _ result | lost _ result => exact Or.inr ⟨_, result⟩
  | undone _ _ _ later => exact Or.inl ⟨_, _, rfl, later⟩
  | persisted | persistLost | resetCursor => exact Or.inl (.cursors _ _)
  | grow | notStarted | started | responded | overflowed | rpcError | notExecuted | nextEvent
    | notPersisted | crash =>
      exact Or.inl (.cursors _ _)

/-- What a step does to the tables, if their keys have been in order so far. -/
theorem Keyed.kept {db next : Db} (keyed : Keyed db)
    (changed : Spared db next ∨ ∃ st : Statement, st.exec db = .ok next)
    : Keyed next ∧ Continues db next := by
  rcases changed with ⟨cursors, lastNoteId, rfl, later⟩ | ⟨st, executed⟩
  · exact ⟨keyed.spared cursors later, { Continues.refl db with }⟩
  · exact ⟨keyed.exec executed, Statement.exec_continues executed⟩

namespace Run

open Sync (sampleRpc sampleHistory)

/-- The mirror of the chains, with what it was at an earlier moment. -/
structure Mirrors (codec : Codec) (chains : String → Sync.Chain) (before db : Db) : Prop where
  genuine : Genuine codec chains db
  keyed : Keyed db
  continues : Continues before db

theorem Mirrors.executed {chains : String → Sync.Chain} {contractId : String} {raw : RawEvent}
    {st : Statement} {before db next : Db} (h : Mirrors codec chains before db)
    (event : raw ∈ (chains contractId).events) (issued : st ∈ storeRaw codec contractId raw)
    (result : st.exec db = .ok next)
    : Mirrors codec chains before next :=
  ⟨h.genuine.exec event issued result, h.keyed.exec result,
    h.continues.trans (Statement.exec_continues result)⟩

/-- The cursors are no part of the mirror, nor are the ids no row has. -/
theorem Mirrors.spared {chains : String → Sync.Chain} {before db next : Db}
    (h : Mirrors codec chains before db) (same : Spared db next)
    : Mirrors codec chains before next := by
  obtain ⟨cursors, lastNoteId, rfl, later⟩ := same
  exact ⟨{ h.genuine with }, h.keyed.spared cursors later, { h.continues with }⟩

variable {config : Config}

theorem step_mirrors {rpc : String → Sync.Rpc} {before : Db} {s t : State} {action : Action}
    (safe : ∀ contractId, Sync.Safe (rpc contractId) codec contractId (s.view contractId))
    (h : Mirrors codec s.chains before s.db) (stepped : step codec config s action = some t)
    : Mirrors codec t.chains before t.db := by
  cases action with
  | grow contractId events head =>
      obtain rfl := Option.some.inj stepped
      refine { h with genuine := h.genuine.mono fun other => ?_ }
      by_cases same : other = contractId
      · subst same
        simp
      · simp [Function.update_of_ne same]
  | poll =>
      obtain ⟨_, rfl⟩ := poll_step stepped
      exact h
  | sync action =>
      obtain ⟨contractId, rest, next, _, _, went, rfl⟩ := sync_step stepped
      rcases Sync.step_executes (safe contractId) went with same | executed
      · exact h.spared same
      · obtain ⟨raw, event, st, issued, result⟩ := executed
        exact h.executed event issued result
  | crash =>
      obtain rfl := Option.some.inj stepped
      exact h
  | resetCursor contractId lastLedger cursor =>
      obtain rfl := Option.some.inj stepped
      exact h.spared (.cursors _ _)

/-- The mirror stays one along every documented run from any state of such a run. -/
theorem run_mirrors {rpc : String → Sync.Rpc} {before : Db} {s t : State} {actions : List Action}
    (owned : s.Owned codec)
    (safe : ∀ contractId, Sync.Safe (rpc contractId) codec contractId (s.view contractId))
    (h : Mirrors codec s.chains before s.db)
    (documented : Machine.Along (step codec config) (Documented rpc) s actions)
    (ran : Machine.run (step codec config) s actions = some t)
    : Mirrors codec t.chains before t.db := by
  have preserved (middle : State) (action : Action) (next : State)
      (allowed : Documented rpc middle action)
      (inv
        : (middle.Owned codec
            ∧ ∀ contractId, Sync.Safe (rpc contractId) codec contractId (middle.view contractId))
          ∧ Mirrors codec middle.chains before middle.db)
      (stepped : step codec config middle action = some next)
      : (next.Owned codec
          ∧ ∀ contractId, Sync.Safe (rpc contractId) codec contractId (next.view contractId))
        ∧ Mirrors codec next.chains before next.db :=
    ⟨⟨step_owned inv.1.1 stepped, step_view_safe allowed inv.1.1 inv.1.2 stepped⟩,
      step_mirrors inv.1.2 inv.2 stepped⟩
  exact (Machine.invariant_along preserved ⟨⟨owned, safe⟩, h⟩ documented ran).2

theorem step_kept {s t : State} {action : Action} (keyed : Keyed s.db)
    (stepped : step codec config s action = some t)
    : Keyed t.db ∧ Continues s.db t.db := by
  cases action with
  | sync action =>
      obtain ⟨contractId, rest, next, _, _, went, rfl⟩ := sync_step stepped
      exact keyed.kept (Sync.step_db went)
  | poll =>
      obtain ⟨_, rfl⟩ := poll_step stepped
      exact ⟨keyed, .refl _⟩
  | grow | crash =>
      obtain rfl := Option.some.inj stepped
      exact ⟨keyed, .refl _⟩
  | resetCursor =>
      obtain rfl := Option.some.inj stepped
      exact keyed.kept (Or.inl (.cursors _ _))

/-- No run loses a row, and in all of them ids increase. -/
theorem reachable_kept {s t : State} (keyed : Keyed s.db)
    (reachable : Machine.Reachable (step codec config) s t)
    : Keyed t.db ∧ Continues s.db t.db := by
  obtain ⟨actions, ran⟩ := reachable
  have preserved (middle : State) (action : Action) (next : State)
      (inv : Keyed middle.db ∧ Continues s.db middle.db)
      (stepped : step codec config middle action = some next)
      : Keyed next.db ∧ Continues s.db next.db := by
    obtain ⟨counted, continued⟩ := step_kept inv.1 stepped
    exact ⟨counted, inv.2.trans continued⟩
  exact Machine.invariant preserved ⟨keyed, .refl _⟩ ran

theorem empty_mirrors (codec : Codec) (chains : String → Sync.Chain)
    : Mirrors codec chains Db.empty Db.empty where
  genuine := by constructor <;> simp [Db.empty]
  keyed := by constructor <;> simp [Db.empty, NoConflict]
  continues := .refl _

/-- The tables mirror the chain, over any number of contracts and whatever fails or is repeated:
at every moment each leaf, nullifier, note and issuer repeats an event, of the pool's own
contract where it has a pool; keys are unique and note ids positive and increasing; and from any
moment to any later one leaves, nullifiers and notes are only appended and no issuer is removed
or gets another registration ledger.
-/
theorem mirror_genuine (rpc : String → Sync.Rpc) (codec : Codec) (config : Config)
    {chains : String → Sync.Chain} (closed : ∀ contractId, (chains contractId).Closed)
    {s t : State} {earlier later : List Action}
    (documented
      : Machine.Along (step codec config) (Documented rpc) (.start chains) (earlier ++ later))
    (reached : Machine.run (step codec config) (.start chains) earlier = some s)
    (ran : Machine.run (step codec config) s later = some t)
    : Genuine codec t.chains t.db ∧ Keyed t.db ∧ Continues s.db t.db := by
  obtain ⟨first, rest⟩ := Machine.along_append.mp documented
  have owned := start_owned codec chains
  have safe := start_view_safe rpc codec closed
  have before : Mirrors codec s.chains Db.empty s.db :=
    run_mirrors owned safe (empty_mirrors codec chains) first reached
  have started : Mirrors codec s.chains s.db s.db :=
    ⟨before.genuine, before.keyed, .refl _⟩
  have reachedOwned : s.Owned codec :=
    Machine.invariant (fun _ _ _ => step_owned) owned reached
  have after := run_mirrors reachedOwned (run_view_safe closed first reached) started
    (rest s reached) ran
  exact ⟨after.genuine, after.keyed, after.continues⟩

/-- A page up to its note, whose INSERT is rolled back; then the process stops. -/
def rolledBackPass : List Action :=
  [.grow "CPOOL" (sampleHistory 0) 42, .poll, .sync (.start true),
    .sync (.respond 0 ⟨sampleHistory 0, some (sampleRpc.cursorAt 2), 42⟩), .sync (.statement .ok),
    .sync (.statement .ok), .sync .nextEvent, .sync (.statement .undone), .crash]

/-- The same page again. -/
def repeatedPass : List Action :=
  [.poll, .sync (.start true),
    .sync (.respond 0 ⟨sampleHistory 0, some (sampleRpc.cursorAt 2), 42⟩), .sync (.statement .ok),
    .sync (.statement .ok), .sync .nextEvent, .sync (.statement .ok), .sync .nextEvent]

theorem mirror_genuine_rolled_back
    : ∃ s t,
        Machine.run (step (sampleCodec 1) ⟨["CPOOL"], none⟩) (.start (fun _ => ⟨[], 0⟩))
            rolledBackPass
          = some s
        ∧ Machine.run (step (sampleCodec 1) ⟨["CPOOL"], none⟩) s repeatedPass = some t
        ∧ t.db.commitments.length = 1
        ∧ t.db.encryptedNotes.map EncryptedNoteRow.id = [2]
        ∧ Genuine (sampleCodec 1) t.chains t.db ∧ Keyed t.db ∧ Continues s.db t.db := by
  have documented
      : Machine.Along (step (sampleCodec 1) ⟨["CPOOL"], none⟩) (Documented fun _ => sampleRpc)
          (.start (fun _ => ⟨[], 0⟩)) (rolledBackPass ++ repeatedPass) := by
    decide +kernel
  have observed
      : (Machine.run (step (sampleCodec 1) ⟨["CPOOL"], none⟩) (.start (fun _ => ⟨[], 0⟩))
          (rolledBackPass ++ repeatedPass)).map
            (fun t => (t.db.commitments.length, t.db.encryptedNotes.map EncryptedNoteRow.id))
        = some (1, [2]) := by
    decide +kernel
  obtain ⟨t, whole, shape⟩ := Option.map_eq_some_iff.mp observed
  obtain ⟨length, ids⟩ := Prod.mk.inj shape
  obtain ⟨s, reached, ran⟩ := Machine.run_append.mp whole
  exact ⟨s, t, reached, ran, length, ids,
    mirror_genuine (fun _ => sampleRpc) (sampleCodec 1) ⟨["CPOOL"], none⟩ init_closed documented
      reached ran⟩

end Run

end Attesta.Indexer
