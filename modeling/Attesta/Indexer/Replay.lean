import Attesta.Foundation.Replay
import Attesta.Indexer.Recount

/-! Ingestion as a replaying consumer: for statements of which an event issues at most one,
every step of the indexer, whatever fails in it, is a sequence of the consumer's moves.
-/

namespace Attesta.Indexer.Sync

open Checkpoint Replay

variable {β : Type*} {codec : Codec} {contractId : String}

/-- The statements a choice of rows is about. -/
def picks (pick : Statement → Option β) (st : Statement) : Bool := (pick st).isSome

/-- What an event asks for. -/
def itemOf (codec : Codec) (contractId : String) (pick : Statement → Option β) (raw : RawEvent)
    : Option β :=
  (watchedOf codec contractId (picks pick) raw).bind pick

/-- What has been applied so far. -/
def picked (pick : Statement → Option β) (log : List (Nat × Statement)) : List (Nat × β) :=
  log.filterMap (fun entry => (pick entry.2).map (fun b => (entry.1, b)))

def progress (rpc : Rpc) (contractId : String) (pick : Statement → Option β) (s : State)
    : Progress RawEvent β :=
  ⟨s.chain.events, picked pick s.log, frontier rpc contractId (picks pick) s s.phase⟩

variable {rpc : Rpc} {pick : Statement → Option β}

theorem picked_map_snd (log : List (Nat × Statement))
    : (picked pick log).map Prod.snd = (log.map Prod.snd).filterMap pick := by
  rw [picked, List.map_filterMap, List.filterMap_map]
  refine congrArg (fun f => List.filterMap f log) ?_
  funext entry
  cases row : pick entry.2 <;> simp [row]

/-- An event that issues a picked statement asks for its row. -/
theorem itemOf_eq (single : Single codec contractId (picks pick)) {raw : RawEvent}
    {st : Statement} {b : β} (issued : st ∈ storeRaw codec contractId raw)
    (row : pick st = some b)
    : itemOf codec contractId pick raw = some b := by
  rw [itemOf, single.item issued (by simp [picks, row]), Option.bind_some, row]

theorem itemOf_eq_none {raw : RawEvent}
    (quiet : (storeRaw codec contractId raw).any (picks pick) = false)
    : itemOf codec contractId pick raw = none := by
  have nothing : watchedOf codec contractId (picks pick) raw = none := by
    rw [watchedOf, List.find?_eq_none]
    exact List.any_eq_false.mp quiet
  rw [itemOf, nothing, Option.bind_none]

/-- The rows of an event are what it asks for. -/
theorem filterMap_storeRaw (single : Single codec contractId (picks pick)) (raw : RawEvent)
    : (storeRaw codec contractId raw).filterMap pick
      = (itemOf codec contractId pick raw).toList := by
  cases quiet : (storeRaw codec contractId raw).any (picks pick) with
  | false =>
      rw [itemOf_eq_none quiet, Option.toList_none, List.filterMap_eq_nil_iff]
      intro st issued
      simpa [picks] using List.any_eq_false.mp quiet st issued
  | true =>
      obtain ⟨st, issued, hit⟩ := List.any_eq_true.mp quiet
      obtain ⟨b, row⟩ := Option.isSome_iff_exists.mp hit
      obtain ⟨before, after, shape⟩ := List.append_of_mem issued
      rw [itemOf_eq single issued row, Option.toList_some, shape]
      have bound := single raw
      rw [shape, List.filter_append, List.filter_cons_of_pos hit, List.length_append,
        List.length_cons] at bound
      have first : before.filter (picks pick) = [] := List.eq_nil_of_length_eq_zero (by omega)
      have later : after.filter (picks pick) = [] := List.eq_nil_of_length_eq_zero (by omega)
      have none {part : List Statement} (empty : part.filter (picks pick) = [])
          : part.filterMap pick = [] := by
        rw [List.filterMap_eq_nil_iff]
        intro other member
        simpa [picks] using List.filter_eq_nil_iff.mp empty other member
      rw [List.filterMap_append, List.filterMap_cons, row, none first, none later]
      rfl

theorem filterMap_flatMap (single : Single codec contractId (picks pick))
    (events : List RawEvent)
    : (events.flatMap (storeRaw codec contractId)).filterMap pick
      = events.filterMap (itemOf codec contractId pick) := by
  induction events with
  | nil => rfl
  | cons raw rest ih =>
      rw [List.flatMap_cons, List.filterMap_append, ih, filterMap_storeRaw single,
        List.filterMap_cons]
      cases itemOf codec contractId pick raw <;> rfl

/-- The end of a pass goes back to the stored position. -/
theorem moves_interrupted (pick : Statement → Option β) {s : State}
    (h : Safe rpc codec contractId s)
    : Moves (itemOf codec contractId pick) (progress rpc contractId pick s)
        (progress rpc contractId pick s.interrupted) :=
  Relation.ReflTransGen.single (.back h.behind)

/-- The head of the event loop passes an event that asks for nothing. -/
theorem moves_forEvents (rpc : Rpc) (contractId : String) (pick : Statement → Option β)
    {s : State} {lastLedger : Int} {page : EventsPage} {position : Nat} {raws : List RawEvent}
    (events : raws <+: s.chain.events.drop position)
    (after
      : raws = []
        → frontier rpc contractId (picks pick) s (afterEvents lastLedger page) = position)
    : Moves (itemOf codec contractId pick)
        ⟨s.chain.events, picked pick s.log, position⟩
        ⟨s.chain.events, picked pick s.log,
          frontier rpc contractId (picks pick) s
            (forEvents codec contractId lastLedger page position raws)⟩ := by
  cases raws with
  | nil => exact .of_eq (by rw [forEvents, after rfl])
  | cons raw rest =>
      simp only [forEvents, frontier]
      split
      next => exact .of_eq rfl
      next quiet =>
        exact Relation.ReflTransGen.single
          (.skip (event_of_block events) (itemOf_eq_none (by simpa using quiet)))

/-- Applying a statement is a move if the statement is picked. -/
theorem moves_applied (single : Single codec contractId (picks pick)) {s : State} (db : Db)
    {lastLedger : Int} {page : EventsPage} {position : Nat} {st : Statement}
    {todo : List Statement} {raw : RawEvent} {rest : List RawEvent}
    (phase : s.phase = .storing lastLedger page position (st :: todo) raw rest)
    (storing
      : Storing rpc codec contractId s lastLedger page position (st :: todo) raw rest)
    : Moves (itemOf codec contractId pick) (progress rpc contractId pick s)
        (progress rpc contractId pick
          { s.applied db position st with
            phase := .storing lastLedger page position todo raw rest }) := by
  simp only [progress, State.applied, phase, frontier, picked, List.filterMap_append,
    List.any_cons]
  cases row : pick st with
  | none =>
      refine .of_eq ?_
      simp [picks, row]
  | some b =>
      have hit : picks pick st = true := by simp [picks, row]
      have last := single.last storing.suffix hit
      have asked := itemOf_eq single (storing.suffix.subset (by simp)) row
      simp only [hit, last, Bool.true_or, if_true, Bool.false_eq_true, if_false,
        List.filterMap_cons, List.filterMap_nil, row, Option.map_some]
      exact Relation.ReflTransGen.single (.apply storing.event asked)

/-- Every documented step is a sequence of moves. -/
theorem step_moves (single : Single codec contractId (picks pick)) {s t : State}
    {action : Action} (documented : Documented rpc contractId s action)
    (h : Safe rpc codec contractId s) (stepped : step codec contractId s action = some t)
    : Moves (itemOf codec contractId pick) (progress rpc contractId pick s)
        (progress rpc contractId pick t) := by
  have memory := h.memory
  cases step_effect stepped with
  | grow events head =>
      obtain ⟨above, later⟩ := documented
      have chain : s.chain.Continues ⟨s.chain.events ++ events, head⟩ :=
        ⟨events, rfl, above, fun raw member => (later raw member).1⟩
      have same : frontier rpc contractId (picks pick)
            { s with chain := ⟨s.chain.events ++ events, head⟩ } s.phase
          = frontier rpc contractId (picks pick) s s.phase := by
        cases phase : s.phase with
        | idle => exact chain.resume rpc h.row.closed _
        | fetching | persisting =>
            rw [phase] at memory
            exact chain.resume rpc memory.1.closed _
        | storing => rfl
      simp only [progress, same]
      exact Relation.ReflTransGen.single (.grow _ events)
  | notStarted => exact .of_eq rfl
  | started idle row => exact .of_eq (by simp [progress, frontier, idle, rowPosition, row])
  | @responded lastLedger cursor start position page phase asked =>
      rw [phase] at memory
      obtain ⟨reached, ahead⟩ := memory
      have answers := reached.answers phase documented
      have exhausted := reached.exhausted answers
      obtain ⟨rfl, block, _⟩ := answers
      rw [progress, progress, phase]
      refine moves_forEvents rpc contractId pick block ?_
      intro empty
      obtain ⟨done, raised⟩ := exhausted empty
      simp only [afterEvents, frontier, empty, List.isEmpty_nil, if_true]
      exact raised.trans done.symm
  | @overflowed lastLedger cursor position page phase overflow =>
      rw [phase] at memory
      rw [startLedger_eq memory.1.nonneg memory.1.fits] at overflow
      cases overflow
  | rpcError | crash | notPersisted | notExecuted | undone => exact moves_interrupted pick h
  | executed phase result =>
      rw [phase] at memory
      exact moves_applied single _ phase memory
  | @lost lastLedger page position st todo raw rest db phase result =>
      rw [phase] at memory
      have applied := moves_applied single db phase memory
      exact applied.trans (moves_interrupted pick (h.applied memory result))
  | @nextEvent lastLedger page position raw rest phase =>
      rw [phase] at memory
      have storing : Storing rpc codec contractId s lastLedger page position [] raw rest := memory
      rw [progress, progress, phase]
      refine moves_forEvents rpc contractId pick storing.following ?_
      intro last
      have more : page.events.isEmpty = false := by simpa using storing.nonempty
      have token := storing.cursor
      rw [last, List.length_nil, Nat.add_zero] at token
      simp only [afterEvents, frontier, more, token, Bool.false_eq_true, if_false,
        resume_cursorAt, List.any_nil]
  | @persisted lastLedger cursor done phase =>
      refine .of_eq ?_
      cases done <;> simp [progress, frontier, phase, rowPosition]
  | @persistLost lastLedger cursor done phase =>
      exact .of_eq (by simp [progress, frontier, phase, State.interrupted, rowPosition])
  | @resetCursor lastLedger cursor =>
      obtain ⟨_, _, _, back⟩ := documented
      cases phase : s.phase with
      | idle =>
          simp only [progress, phase, frontier, rowPosition, loadCursor_saveCursor]
          exact Relation.ReflTransGen.single (.back back)
      | fetching | storing | persisting =>
          exact .of_eq (by simp [progress, phase, frontier])

/-- The whole run of the indexer is a run of the consumer. -/
theorem run_moves (single : Single codec contractId (picks pick)) {s : State}
    {actions : List Action}
    (documented
      : Machine.Along (step codec contractId) (Documented rpc contractId) State.init actions)
    (ran : Machine.run (step codec contractId) State.init actions = some s)
    : Replay.Run (itemOf codec contractId pick) (progress rpc contractId pick s) := by
  have preserved (before : State) (action : Action) (after : State)
      (allowed : Documented rpc contractId before action)
      (h : Safe rpc codec contractId before
        ∧ Replay.Run (itemOf codec contractId pick) (progress rpc contractId pick before))
      (stepped : step codec contractId before action = some after)
      : Safe rpc codec contractId after
        ∧ Replay.Run (itemOf codec contractId pick) (progress rpc contractId pick after) :=
    ⟨step_safe allowed h.1 stepped, h.2.moves (step_moves single allowed h.1 stepped)⟩
  have start : progress rpc contractId pick State.init = ⟨[], [], 0⟩ := by
    have within : rowPosition rpc contractId State.init ≤ 0 :=
      (init_safe rpc : Safe rpc codec contractId State.init).row.within
    simp only [progress, picked, State.init, frontier, List.filterMap_nil]
    exact congrArg (Progress.mk [] []) (Nat.le_zero.mp within)
  exact (Machine.invariant_along preserved
    ⟨init_safe rpc, Replay.Moves.of_eq start.symm⟩ documented ran).2

end Attesta.Indexer.Sync
