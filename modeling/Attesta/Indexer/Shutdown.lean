import Attesta.Indexer.Run

/-! The poll loop next to signals. `shutdown_signal()` is called anew between the passes, so the
streams for the two signals exist only while the loop sits in the `select!`. A signal kills the
process if it comes before the first of them was created, and is lost if it comes during a pass.
-/

namespace Attesta.Indexer.Shutdown

/-- The signals that ask for a shutdown. -/
inductive Signal
  | sigterm
  | sigint
  deriving DecidableEq

/-- The two branches of the `select!`. -/
structure Select where
  /-- The sleep is over. -/
  elapsed : Bool
  /-- Which streams exist by now, and whether they have seen a signal. -/
  streams : Signal → Option Bool

inductive Phase
  /-- In the loop over the contracts. -/
  | syncing
  | selecting (select : Select)
  /-- `run` has returned `Ok(())`. -/
  | returned
  /-- The default action of a signal has ended the process. -/
  | killed

structure State where
  indexer : Run.State
  phase : Phase
  /-- The signals whose default action is switched off for good. -/
  handlers : Signal → Bool
  /-- How many passes have begun; nothing reads it. -/
  passes : Nat
  /-- In which pass the first signal came; nothing reads it. -/
  signalled : Option Nat

inductive Action
  /-- The chain grows, or an operator sets a cursor row. -/
  | others (action : Run.Action)
  /-- `sync_contract` goes on. -/
  | sync (action : Sync.Action)
  /-- The loop over the contracts is over. -/
  | endPass
  /-- A poll of `shutdown_signal()` gets to the creation of a stream. -/
  | create (signal : Signal)
  | elapse
  | deliver (signal : Signal)
  /-- The `select!` takes the branch of the sleep. -/
  | sleepWins
  /-- The `select!` takes the branch of the signal. -/
  | signalWins

def ofOthers : Run.Action → Bool
  | .grow _ _ _ | .resetCursor _ _ _ => true
  | .poll | .sync _ | .crash => false

def Select.fresh : Select := ⟨false, fun _ => none⟩

def Select.set (select : Select) (signal : Signal) (seen : Bool) : Select :=
  { select with streams := Function.update select.streams signal (some seen) }

/-- The streams that a signal finds see it. -/
def Phase.notify (signal : Signal) : Phase → Phase
  | .selecting select =>
      .selecting (if select.streams signal = none then select else select.set signal true)
  | phase => phase

/-- `run` starts with its first pass, on whatever the database holds. -/
def State.init (config : Run.Config) (indexer : Run.State) : State where
  indexer := { indexer with waiting := config.contracts, phase := .idle }
  phase := .syncing
  handlers _ := false
  passes := 1
  signalled := none

variable (codec : Codec) (config : Run.Config)

/-- One step; an action that is not enabled has no successor. -/
def step (s : State) : Action → Option State
  | .others action =>
      if ofOthers action then
        (Run.step codec config s.indexer action).map (fun indexer => { s with indexer })
      else none
  | .sync action =>
      match s.phase with
      | .syncing =>
          (Run.step codec config s.indexer (.sync action)).map
            (fun indexer => { s with indexer })
      | _ => none
  | .endPass =>
      match s.phase with
      | .syncing =>
          match s.indexer.waiting with
          | [] => some { s with phase := .selecting .fresh }
          | _ => none
      | _ => none
  | .create signal =>
      match s.phase with
      | .selecting select =>
          if select.streams signal = none then
            some { s with
              phase := .selecting (select.set signal false)
              handlers := Function.update s.handlers signal true }
          else none
      | _ => none
  | .elapse =>
      match s.phase with
      | .selecting select => some { s with phase := .selecting { select with elapsed := true } }
      | _ => none
  | .deliver signal =>
      match s.phase with
      | .returned => some s
      | .killed => none
      | phase =>
          let signalled := s.signalled.or (some s.passes)
          if s.handlers signal then some { s with signalled, phase := phase.notify signal }
          else
            (Run.step codec config s.indexer .crash).map
              (fun indexer => { s with signalled, indexer, phase := .killed })
  | .sleepWins =>
      match s.phase with
      | .selecting select =>
          if select.elapsed then
            (Run.step codec config s.indexer .poll).map
              (fun indexer => { s with indexer, phase := .syncing, passes := s.passes + 1 })
          else none
      | _ => none
  | .signalWins =>
      match s.phase with
      | .selecting select =>
          if select.streams .sigterm = some true ∨ select.streams .sigint = some true then
            some { s with phase := .returned }
          else none
      | _ => none

-----------------------------------------------------------------------------------------
-- Signals that are honoured
-----------------------------------------------------------------------------------------

/-- What happens without a further signal and before the sleep ends. -/
def Action.IsOwn : Action → Prop
  | .deliver _ | .elapse => False
  | _ => True

/-- Without a further signal the process can get from one state to the other. -/
def Leads (s t : State) : Prop :=
  ∃ actions, (∀ action ∈ actions, action.IsOwn)
    ∧ Machine.run (step codec config) s actions = some t

/-- Whatever the process does on its own, it starts no other pass, and returns if it goes on. -/
def WillReturn (s : State) : Prop :=
  ∀ t, Leads codec config s t
    → t.passes = s.passes ∧ ∃ u, Leads codec config t u ∧ u.phase = .returned

/-- Since the first signal no other pass has begun, and `run` will return. -/
def Honoured (s : State) : Prop :=
  ∀ pass, s.signalled = some pass → s.passes = pass ∧ WillReturn codec config s

/-- A stream of this select has seen a signal. -/
def Select.Heard (select : Select) : Prop := ∃ signal, select.streams signal = some true

theorem Select.heard_iff {select : Select}
    : select.Heard ↔ select.streams .sigterm = some true ∨ select.streams .sigint = some true := by
  constructor
  · rintro ⟨signal, seen⟩
    cases signal with
    | sigterm => exact Or.inl seen
    | sigint => exact Or.inr seen
  · exact fun either => either.elim (fun seen => ⟨_, seen⟩) (fun seen => ⟨_, seen⟩)

instance (select : Select) : Decidable select.Heard := decidable_of_iff _ Select.heard_iff.symm

/-- The signal finds its stream before the sleep is over, or comes when `run` is about to return
anyway, and the sleep does not end after a signal that the select has not acted on.
-/
def OnTime (s : State) : Action → Prop
  | .deliver signal =>
      match s.phase with
      | .selecting select =>
          select.elapsed = false ∧ s.handlers signal = true
            ∧ (select.streams signal ≠ none ∨ select.Heard)
      | .returned => True
      | .syncing | .killed => False
  | .elapse =>
      match s.phase with
      | .selecting select => ¬ select.Heard
      | _ => True
  | _ => True

instance : (s : State) → (action : Action) → Decidable (OnTime s action)
  | ⟨_, .selecting select, handlers, _, _⟩, .deliver signal =>
      inferInstanceAs (Decidable (select.elapsed = false ∧ handlers signal = true
        ∧ (select.streams signal ≠ none ∨ select.Heard)))
  | ⟨_, .selecting select, _, _, _⟩, .elapse => inferInstanceAs (Decidable (¬ select.Heard))
  | ⟨_, .returned, _, _, _⟩, .deliver _ => isTrue trivial
  | ⟨_, .syncing, _, _, _⟩, .deliver _ | ⟨_, .killed, _, _, _⟩, .deliver _ => isFalse not_false
  | ⟨_, .returned, _, _, _⟩, .elapse | ⟨_, .syncing, _, _, _⟩, .elapse
    | ⟨_, .killed, _, _, _⟩, .elapse => isTrue trivial
  | _, .others _ | _, .sync _ | _, .endPass | _, .create _ | _, .sleepWins | _, .signalWins =>
      isTrue trivial

-----------------------------------------------------------------------------------------
-- Every way a step can go
-----------------------------------------------------------------------------------------

/-- The steps of the machine as a relation, with what a step knows about its start. -/
inductive Effect (s : State) : Action → State → Prop
  | others {action : Run.Action} {indexer : Run.State} (foreign : ofOthers action = true)
    (went : Run.step codec config s.indexer action = some indexer)
    : Effect s (.others action) { s with indexer }
  | synced {action : Sync.Action} {indexer : Run.State} (syncing : s.phase = .syncing)
    (went : Run.step codec config s.indexer (.sync action) = some indexer)
    : Effect s (.sync action) { s with indexer }
  | passEnded (syncing : s.phase = .syncing) (ended : s.indexer.waiting = [])
    : Effect s .endPass { s with phase := .selecting .fresh }
  | created {select : Select} {signal : Signal} (selecting : s.phase = .selecting select)
    (missing : select.streams signal = none)
    : Effect s (.create signal)
        { s with
          phase := .selecting (select.set signal false)
          handlers := Function.update s.handlers signal true }
  | elapsed {select : Select} (selecting : s.phase = .selecting select)
    : Effect s .elapse { s with phase := .selecting { select with elapsed := true } }
  | afterReturn {signal : Signal} (returned : s.phase = .returned) : Effect s (.deliver signal) s
  | notified {signal : Signal} (running : s.phase ≠ .returned ∧ s.phase ≠ .killed)
    (handled : s.handlers signal = true)
    : Effect s (.deliver signal)
        { s with signalled := s.signalled.or (some s.passes), phase := s.phase.notify signal }
  | killed {signal : Signal} {indexer : Run.State}
    (running : s.phase ≠ .returned ∧ s.phase ≠ .killed) (unhandled : s.handlers signal = false)
    (crashed : Run.step codec config s.indexer .crash = some indexer)
    : Effect s (.deliver signal)
        { s with signalled := s.signalled.or (some s.passes), indexer, phase := .killed }
  | sleepWon {select : Select} {indexer : Run.State} (selecting : s.phase = .selecting select)
    (ended : select.elapsed = true)
    (polled : Run.step codec config s.indexer .poll = some indexer)
    : Effect s .sleepWins { s with indexer, phase := .syncing, passes := s.passes + 1 }
  | signalWon {select : Select} (selecting : s.phase = .selecting select) (heard : select.Heard)
    : Effect s .signalWins { s with phase := .returned }

variable {codec config}

theorem Leads.refl (s : State) : Leads codec config s s := ⟨[], by simp, rfl⟩

theorem Leads.trans {s t u : State} (h : Leads codec config s t) (h' : Leads codec config t u)
    : Leads codec config s u := by
  obtain ⟨first, own, ran⟩ := h
  obtain ⟨second, own', ran'⟩ := h'
  refine ⟨first ++ second, fun action member => ?_, Machine.run_append.mpr ⟨t, ran, ran'⟩⟩
  exact (List.mem_append.mp member).elim (own action) (own' action)

theorem Leads.single {s t : State} {action : Action}
    (stepped : step codec config s action = some t) (own : action.IsOwn)
    : Leads codec config s t :=
  ⟨[action], by simpa using own, Machine.run_cons.mpr ⟨t, stepped, rfl⟩⟩

theorem step_effect {s t : State} {action : Action} (h : step codec config s action = some t)
    : Effect codec config s action t := by
  cases action with
  | others action =>
      simp only [step] at h
      split at h
      next foreign =>
        obtain ⟨indexer, went, rfl⟩ := Option.map_eq_some_iff.mp h
        exact .others foreign went
      next => cases h
  | sync action =>
      simp only [step] at h
      split at h
      next syncing =>
        obtain ⟨indexer, went, rfl⟩ := Option.map_eq_some_iff.mp h
        exact .synced syncing went
      next => cases h
  | endPass =>
      simp only [step] at h
      split at h
      next syncing =>
        split at h
        next ended => exact Option.some.inj h ▸ .passEnded syncing ended
        next => cases h
      next => cases h
  | create signal =>
      simp only [step] at h
      split at h
      next select selecting =>
        split at h
        next missing => exact Option.some.inj h ▸ .created selecting missing
        next => cases h
      next => cases h
  | elapse =>
      simp only [step] at h
      split at h
      next select selecting => exact Option.some.inj h ▸ .elapsed selecting
      next => cases h
  | deliver signal =>
      simp only [step] at h
      split at h
      next returned => exact Option.some.inj h ▸ .afterReturn returned
      next => cases h
      next other alive =>
        split at h
        next handled => exact Option.some.inj h ▸ .notified ⟨other, alive⟩ handled
        next unhandled =>
          obtain ⟨indexer, crashed, rfl⟩ := Option.map_eq_some_iff.mp h
          exact .killed ⟨other, alive⟩ (by simpa using unhandled) crashed
  | sleepWins =>
      simp only [step] at h
      split at h
      next select selecting =>
        split at h
        next ended =>
          obtain ⟨indexer, polled, rfl⟩ := Option.map_eq_some_iff.mp h
          exact .sleepWon selecting ended polled
        next => cases h
      next => cases h
  | signalWins =>
      simp only [step] at h
      split at h
      next select selecting =>
        split at h
        next heard =>
          exact Option.some.inj h ▸ .signalWon selecting (Select.heard_iff.mpr heard)
        next => cases h
      next => cases h

/-- The phases that no signal has led to. -/
def Phase.Quiet : Phase → Prop
  | .syncing => True
  | .selecting select => ¬ select.Heard
  | .returned | .killed => False

/-- Between two passes no contract waits, a stream comes with its handler, and nothing but a
signal ends the loop.
-/
structure Sound (s : State) : Prop where
  between : ∀ select, s.phase = .selecting select → s.indexer.waiting = []
  handled
    : ∀ select signal, s.phase = .selecting select → select.streams signal ≠ none
      → s.handlers signal = true
  quiet : s.signalled = none → s.phase.Quiet

theorem Sound.of_not_selecting {s : State} (outside : ∀ select, s.phase ≠ .selecting select)
    (quiet : s.signalled = none → s.phase.Quiet)
    : Sound s :=
  ⟨fun select selecting => absurd selecting (outside select),
    fun select _ selecting => absurd selecting (outside select), quiet⟩

theorem Select.fresh_unheard : ¬ Select.fresh.Heard := by
  rintro ⟨signal, seen⟩
  cases seen

theorem Select.Heard.of_set {select : Select} {signal : Signal}
    (h : (select.set signal false).Heard)
    : select.Heard := by
  obtain ⟨other, seen⟩ := h
  have apart : other ≠ signal := fun same => by
    simp [Select.set, same] at seen
  exact ⟨other, by simpa [Select.set, Function.update_of_ne apart] using seen⟩

theorem others_waiting {s t : Run.State} {action : Run.Action} (foreign : ofOthers action = true)
    (went : Run.step codec config s action = some t)
    : t.waiting = s.waiting := by
  cases action with
  | grow | resetCursor => exact Option.some.inj went ▸ rfl
  | poll | sync | crash => cases foreign

theorem Select.streams_set {select : Select} {signal other : Signal} {seen : Bool}
    (h : (select.set signal seen).streams other ≠ none)
    : other = signal ∨ select.streams other ≠ none := by
  by_cases same : other = signal
  · exact Or.inl same
  · exact Or.inr (by simpa [Select.set, Function.update_of_ne same] using h)

/-- A signal creates no stream. -/
theorem Phase.notify_selecting {phase : Phase} {signal : Signal} {select : Select}
    (h : phase.notify signal = .selecting select)
    : ∃ before, phase = .selecting before
        ∧ select = (if before.streams signal = none then before else before.set signal true) := by
  cases phase with
  | selecting before => exact ⟨before, rfl, (Phase.selecting.inj h).symm⟩
  | syncing | returned | killed => cases h

theorem step_sound {s t : State} {action : Action} (h : Sound s)
    (stepped : step codec config s action = some t)
    : Sound t := by
  cases step_effect stepped with
  | others foreign went =>
      refine ⟨fun select selecting => ?_, h.handled, h.quiet⟩
      rw [others_waiting foreign went]
      exact h.between select selecting
  | synced syncing => exact .of_not_selecting (fun select => by simp [syncing]) h.quiet
  | passEnded _ ended =>
      refine ⟨fun _ _ => ended, fun select signal selecting stream => ?_,
        fun _ => Select.fresh_unheard⟩
      cases selecting
      exact absurd rfl stream
  | @created before signal selecting missing =>
      have quiet : s.signalled = none → ¬ (before.set signal false).Heard := fun none heard => by
        have unheard := h.quiet none
        rw [selecting] at unheard
        exact unheard heard.of_set
      refine ⟨fun _ _ => h.between _ selecting, fun select other now stream => ?_, quiet⟩
      cases now
      rcases Select.streams_set stream with rfl | old
      · exact Function.update_self _ _ _
      · by_cases same : other = signal
        · subst same
          exact Function.update_self _ _ _
        · simpa only [Function.update_of_ne same] using h.handled _ _ selecting old
  | @elapsed before selecting =>
      have quiet : s.signalled = none → ¬ before.Heard := fun none => by
        have unheard := h.quiet none
        rwa [selecting] at unheard
      refine ⟨fun _ _ => h.between _ selecting, fun select signal now stream => ?_, quiet⟩
      cases now
      exact h.handled _ _ selecting stream
  | afterReturn => exact h
  | @notified signal _ handled =>
      constructor
      · intro select selecting
        obtain ⟨before, phase, _⟩ := Phase.notify_selecting selecting
        exact h.between before phase
      · intro select other selecting stream
        obtain ⟨before, phase, rfl⟩ := Phase.notify_selecting selecting
        split at stream
        next => exact h.handled before other phase stream
        next =>
          rcases Select.streams_set stream with rfl | old
          · exact handled
          · exact h.handled before other phase old
      · intro none
        cases (Option.or_eq_none_iff.mp none).2
  | killed =>
      refine .of_not_selecting (fun select => by simp) fun none => ?_
      cases (Option.or_eq_none_iff.mp none).2
  | sleepWon => exact .of_not_selecting (fun select => by simp) (fun _ => trivial)
  | signalWon selecting heard =>
      refine .of_not_selecting (fun select => by simp) fun none => ?_
      have unheard := h.quiet none
      rw [selecting] at unheard
      exact unheard heard

theorem init_sound (config : Run.Config) (indexer : Run.State)
    : Sound (State.init config indexer) :=
  .of_not_selecting (fun select => by simp [State.init]) (fun _ => trivial)

-----------------------------------------------------------------------------------------
-- A signal that was heard makes `run` return
-----------------------------------------------------------------------------------------

/-- `run` has returned, or the select knows of a signal and of no end of the sleep. -/
def Phase.Heard : Phase → Prop
  | .selecting select => select.elapsed = false ∧ select.Heard
  | .returned => True
  | .syncing | .killed => False

/-- Other streams do not make a select forget what it has heard. -/
theorem Select.Heard.create {select : Select} (h : select.Heard) {signal : Signal}
    (missing : select.streams signal = none)
    : (select.set signal false).Heard := by
  obtain ⟨other, seen⟩ := h
  have apart : other ≠ signal := fun same => by
    cases (same ▸ seen).symm.trans missing
  exact ⟨other, by simpa [Select.set, Function.update_of_ne apart] using seen⟩

theorem step_heard {s t : State} {action : Action} (own : action.IsOwn) (h : s.phase.Heard)
    (stepped : step codec config s action = some t)
    : t.passes = s.passes ∧ t.phase.Heard := by
  cases step_effect stepped with
  | others => exact ⟨rfl, h⟩
  | synced syncing | passEnded syncing =>
      rw [syncing] at h
      exact h.elim
  | created selecting missing =>
      rw [selecting] at h
      exact ⟨rfl, h.1, h.2.create missing⟩
  | elapsed | afterReturn | notified | killed => exact own.elim
  | sleepWon selecting ended =>
      rw [selecting] at h
      cases ended.symm.trans h.1
  | signalWon => exact ⟨rfl, trivial⟩

/-- The select takes the branch of the signal as it is. -/
theorem leads_returned {s : State} (h : s.phase.Heard)
    : ∃ t, Leads codec config s t ∧ t.phase = .returned := by
  cases phase : s.phase with
  | returned => exact ⟨s, .refl s, phase⟩
  | selecting select =>
      rw [phase] at h
      have taken : step codec config s .signalWins = some { s with phase := .returned } := by
        simp only [step, phase, if_pos (Select.heard_iff.mp h.2)]
      exact ⟨_, .single taken trivial, rfl⟩
  | syncing | killed =>
      rw [phase] at h
      exact h.elim

theorem willReturn_of_heard {s : State} (h : s.phase.Heard) : WillReturn codec config s := by
  rintro t ⟨actions, own, ran⟩
  have preserved (before : State) (action : Action) (after : State) (allowed : action.IsOwn)
      (inv : before.passes = s.passes ∧ before.phase.Heard)
      (stepped : step codec config before action = some after)
      : after.passes = s.passes ∧ after.phase.Heard := by
    obtain ⟨same, heard⟩ := step_heard allowed inv.2 stepped
    exact ⟨same.trans inv.1, heard⟩
  obtain ⟨same, heard⟩ := Machine.invariant_of_allowed preserved ⟨rfl, h⟩ own ran
  exact ⟨same, leads_returned heard⟩

-----------------------------------------------------------------------------------------
-- A signal that was not heard does not
-----------------------------------------------------------------------------------------

/-- What a call of `sync_contract` does is a step of the pass. -/
theorem call_step {s : Run.State} {contractId : String} {rest : List String}
    (waiting : s.waiting = contractId :: rest) {action : Sync.Action}
    (call : Run.ofCall action = true) {next : Sync.State}
    (went : Sync.step codec contractId (s.view contractId) action = some next)
    : Run.step codec config s (.sync action) = some (s.advance contractId rest next) := by
  simp only [Run.step, waiting, if_pos call, went, Option.map_some]

theorem view_phase {s : Run.State} {contractId : String} {rest : List String}
    (waiting : s.waiting = contractId :: rest)
    : (s.view contractId).phase = s.phase := by
  simp [Run.State.view, waiting]

/-- A call can end at its next await, if that fails. -/
theorem exists_call_failing {contractId : String} {s : Sync.State}
    (await
      : ∀ lastLedger page position raw rest,
          s.phase ≠ .storing lastLedger page position [] raw rest)
    : ∃ action next, Run.ofCall action = true
        ∧ Sync.step codec contractId s action = some next ∧ next.phase = .idle := by
  cases phase : s.phase with
  | idle => exact ⟨.start false, s, rfl, by simp [Sync.step, phase], phase⟩
  | fetching lastLedger cursor =>
      exact ⟨.rpcError, s.interrupted, rfl, by simp [Sync.step, phase], rfl⟩
  | storing lastLedger page position todo raw rest =>
      cases todo with
      | nil => exact absurd phase (await _ _ _ _ _)
      | cons st todo =>
          exact ⟨.statement (.failed false), s.interrupted, rfl, by simp [Sync.step, phase], rfl⟩
  | persisting lastLedger cursor done =>
      exact ⟨.persist (.failed false), s.interrupted, rfl, by simp [Sync.step, phase], rfl⟩

theorem exists_call_failing_end {s : Run.State} {contractId : String} {rest : List String}
    (waiting : s.waiting = contractId :: rest)
    (await
      : ∀ lastLedger page position raw events,
          s.phase ≠ .storing lastLedger page position [] raw events)
    : ∃ (actions : List Sync.Action) (t : Run.State),
        Machine.run (Run.step codec config) s (actions.map .sync) = some t
        ∧ t.waiting = rest := by
  rw [← view_phase waiting] at await
  obtain ⟨action, next, call, went, idle⟩ := @exists_call_failing codec _ _ await
  exact ⟨[action], _, Machine.run_cons.mpr ⟨_, call_step waiting call went, rfl⟩,
    by simp [Run.State.advance, idle, Run.isIdle]⟩

/-- How many events of its page a call has not finished. -/
def eventsLeft : Sync.Phase → Nat
  | .storing _ _ _ _ _ rest => rest.length + 1
  | .idle | .fetching _ _ | .persisting _ _ _ => 0

theorem eventsLeft_forEvents (contractId : String) (lastLedger : Int) (page : Sync.EventsPage)
    (position : Nat) (rest : List RawEvent)
    : eventsLeft (Sync.forEvents codec contractId lastLedger page position rest) = rest.length := by
  cases rest <;> rfl

theorem isIdle_forEvents (contractId : String) (lastLedger : Int) (page : Sync.EventsPage)
    (position : Nat) (rest : List RawEvent)
    : Run.isIdle (Sync.forEvents codec contractId lastLedger page position rest) = false := by
  cases rest <;> rfl

/-- A call that is under way can end, by induction on the events of its page. -/
theorem exists_call_end {s : Run.State} {contractId : String} {rest : List String}
    (waiting : s.waiting = contractId :: rest)
    : ∃ (actions : List Sync.Action) (t : Run.State),
        Machine.run (Run.step codec config) s (actions.map .sync) = some t
        ∧ t.waiting = rest := by
  generalize size : eventsLeft s.phase = n
  induction n generalizing s with
  | zero =>
      refine exists_call_failing_end waiting fun lastLedger page position raw events storing => ?_
      rw [storing] at size
      cases size
  | succ n ih =>
      by_cases await
          : ∃ lastLedger page position raw events,
              s.phase = .storing lastLedger page position [] raw events
      · obtain ⟨lastLedger, page, position, raw, events, storing⟩ := await
        have here := (view_phase waiting).trans storing
        let next : Sync.State :=
          { s.view contractId with
            phase :=
              Sync.forEvents codec contractId (max lastLedger (asI64 raw.ledger)) page
                (position + 1) events
            handled := (s.view contractId).handled ++ [position] }
        have went : Sync.step codec contractId (s.view contractId) .nextEvent = some next := by
          simp [Sync.step, here, next]
        have again : (s.advance contractId rest next).waiting = contractId :: rest := by
          simp [Run.State.advance, next, isIdle_forEvents]
        have fewer : eventsLeft (s.advance contractId rest next).phase = n := by
          have left : events.length = n := by
            rw [storing] at size
            exact Nat.succ.inj size
          exact (eventsLeft_forEvents _ _ _ _ _).trans left
        obtain ⟨actions, t, ran, left⟩ := ih again fewer
        exact ⟨.nextEvent :: actions, t,
          Machine.run_cons.mpr ⟨_, call_step waiting rfl went, ran⟩, left⟩
      · refine exists_call_failing_end waiting fun lastLedger page position raw events storing => ?_
        exact await ⟨lastLedger, page, position, raw, events, storing⟩

/-- A pass that is under way can end. -/
theorem exists_pass_end (s : Run.State)
    : ∃ (actions : List Sync.Action) (t : Run.State),
        Machine.run (Run.step codec config) s (actions.map .sync) = some t
        ∧ t.waiting = [] := by
  generalize length : s.waiting = waiting
  induction waiting generalizing s with
  | nil => exact ⟨[], s, rfl, length⟩
  | cons contractId rest ih =>
      obtain ⟨first, middle, ran, left⟩ :=
        @exists_call_end codec config _ _ _ length
      obtain ⟨later, t, onwards, none⟩ := ih middle left
      refine ⟨first ++ later, t, ?_, none⟩
      rw [List.map_append]
      exact Machine.run_append.mpr ⟨middle, ran, onwards⟩

/-- The pass goes on next to the signals as it does without them. -/
theorem leads_sync {s : State} (syncing : s.phase = .syncing) {actions : List Sync.Action}
    {indexer : Run.State}
    (ran : Machine.run (Run.step codec config) s.indexer (actions.map .sync) = some indexer)
    : Leads codec config s { s with indexer } := by
  induction actions generalizing s with
  | nil =>
      obtain rfl := Option.some.inj ran
      exact .refl s
  | cons action rest ih =>
      obtain ⟨middle, went, onwards⟩ := Machine.run_cons.mp ran
      have first : step codec config s (.sync action) = some { s with indexer := middle } := by
        simp only [step, syncing, went, Option.map_some]
      have later := @ih { s with indexer := middle } syncing onwards
      exact .trans (.single first trivial) later

theorem leads_created {s : State} {select : Select} (selecting : s.phase = .selecting select)
    (unheard : ¬ select.Heard) (signal : Signal)
    : ∃ (t : State) (after : Select),
        Leads codec config s t
        ∧ t.phase = .selecting after
        ∧ after.elapsed = select.elapsed
        ∧ after.streams = Function.update select.streams signal (some false) := by
  by_cases missing : select.streams signal = none
  · have created : step codec config s (.create signal) = some
        { s with
          phase := .selecting (select.set signal false)
          handlers := Function.update s.handlers signal true } := by
      simp only [step, selecting, if_pos missing]
    exact ⟨_, select.set signal false, .single created trivial, rfl, rfl, rfl⟩
  · obtain ⟨seen, there⟩ := Option.ne_none_iff_exists'.mp missing
    have deaf : seen = false := by
      by_contra heard
      exact unheard ⟨signal, by rw [there, Bool.of_not_eq_false heard]⟩
    refine ⟨s, select, .refl s, selecting, rfl, ?_⟩
    rw [← deaf, ← there, Function.update_eq_self]

/-- The process is dead, or sits in the `select!` until a signal comes or the sleep is over. -/
def Phase.Stuck : Phase → Prop
  | .selecting select =>
      select.elapsed = false ∧ ∀ signal, select.streams signal = some false
  | .killed => True
  | .syncing | .returned => False

theorem step_stuck {s t : State} {action : Action} (own : action.IsOwn) (h : s.phase.Stuck)
    (stepped : step codec config s action = some t)
    : t.phase.Stuck := by
  cases step_effect stepped with
  | others => exact h
  | synced syncing | passEnded syncing =>
      rw [syncing] at h
      exact h.elim
  | @created _ signal selecting missing =>
      rw [selecting] at h
      cases missing.symm.trans (h.2 signal)
  | elapsed | afterReturn | notified | killed => exact own.elim
  | sleepWon selecting ended =>
      rw [selecting] at h
      cases ended.symm.trans h.1
  | signalWon selecting heard =>
      rw [selecting] at h
      obtain ⟨signal, seen⟩ := heard
      cases seen.symm.trans (h.2 signal)

theorem Phase.Stuck.not_willReturn {s : State} (h : s.phase.Stuck)
    : ¬ WillReturn codec config s := by
  intro returns
  obtain ⟨_, t, ⟨actions, own, ran⟩, returned⟩ := returns s (.refl s)
  have still : t.phase.Stuck :=
    Machine.invariant_of_allowed (fun _ _ _ own stuck stepped => step_stuck own stuck stepped)
      h own ran
  rw [returned] at still
  exact still

theorem WillReturn.leads {s t : State} (h : WillReturn codec config s)
    (leads : Leads codec config s t)
    : WillReturn codec config t := by
  intro u onwards
  obtain ⟨same, returns⟩ := h u (leads.trans onwards)
  exact ⟨same.trans (h t leads).1.symm, returns⟩

/-- A select that has heard nothing gets stuck. -/
theorem leads_stuck {s : State} {select : Select} (selecting : s.phase = .selecting select)
    (running : select.elapsed = false) (unheard : ¬ select.Heard)
    : ∃ t, Leads codec config s t ∧ t.phase.Stuck := by
  obtain ⟨middle, between, leads, selecting', running', streams⟩ :=
    @leads_created codec config _ _ selecting unheard .sigterm
  have still : ¬ between.Heard := by
    rintro ⟨signal, seen⟩
    rw [streams] at seen
    cases signal with
    | sigterm => cases seen
    | sigint => exact unheard ⟨.sigint, seen⟩
  obtain ⟨t, after, onwards, selecting'', running'', streams'⟩ :=
    @leads_created codec config _ _ selecting' still .sigint
  refine ⟨t, leads.trans onwards, ?_⟩
  rw [selecting'']
  refine ⟨(running''.trans running').trans running, fun signal => ?_⟩
  rw [streams', streams]
  cases signal <;> rfl

/-- A process that has heard nothing may start another pass or get stuck. -/
theorem heard_of_willReturn {s : State} (sound : Sound s) (h : WillReturn codec config s)
    : s.phase.Heard := by
  have never {t : State} (leads : Leads codec config s t) : ¬ t.phase.Stuck :=
    fun stuck => stuck.not_willReturn (h.leads leads)
  cases phase : s.phase with
  | returned => trivial
  | killed => exact absurd (by rw [phase]; trivial) (never (.refl s))
  | syncing =>
      obtain ⟨actions, indexer, ran, empty⟩ := @exists_pass_end codec config s.indexer
      have passed := leads_sync phase ran
      have ended : step codec config { s with indexer } .endPass
          = some { s with indexer, phase := .selecting .fresh } := by
        simp only [step, phase, empty]
      obtain ⟨t, onwards, stuck⟩ :=
        @leads_stuck codec config { s with indexer, phase := .selecting .fresh } .fresh rfl rfl
          Select.fresh_unheard
      exact absurd stuck (never (passed.trans (.trans (.single ended trivial) onwards)))
  | selecting select =>
      by_cases ended : select.elapsed = true
      · have polled : Run.step codec config s.indexer .poll
            = some { s.indexer with waiting := config.contracts, phase := .idle } := by
          simp only [Run.step, sound.between select phase]
        have next : step codec config s .sleepWins = some { s with
            indexer := { s.indexer with waiting := config.contracts, phase := .idle }
            phase := .syncing
            passes := s.passes + 1 } := by
          simp only [step, phase, if_pos ended, polled, Option.map_some]
        exact absurd (h _ (.single next trivial)).1 (Nat.succ_ne_self _)
      · have running : select.elapsed = false := by simpa using ended
        refine ⟨running, ?_⟩
        by_contra unheard
        obtain ⟨t, leads, stuck⟩ := @leads_stuck codec config _ _ phase running unheard
        exact never leads stuck

theorem honoured_iff {s : State} (sound : Sound s)
    : Honoured codec config s
      ↔ ∀ pass, s.signalled = some pass → s.passes = pass ∧ s.phase.Heard :=
  forall₂_congr fun _ _ =>
    and_congr_right fun _ => ⟨heard_of_willReturn sound, willReturn_of_heard⟩

-----------------------------------------------------------------------------------------
-- When every signal is honoured
-----------------------------------------------------------------------------------------

theorem signalled_of_own {s t : State} {action : Action} (own : action.IsOwn)
    (stepped : step codec config s action = some t)
    : t.signalled = s.signalled := by
  cases step_effect stepped with
  | others | synced | passEnded | created | sleepWon | signalWon => rfl
  | elapsed | afterReturn | notified | killed => exact own.elim

/-- A signal finds its stream, or the select has heard of one before. -/
theorem Phase.notify_heard {select : Select} {signal : Signal}
    : ((Phase.selecting select).notify signal).Heard
      ↔ select.elapsed = false ∧ (select.streams signal ≠ none ∨ select.Heard) := by
  simp only [Phase.notify, Phase.Heard]
  by_cases missing : select.streams signal = none
  · rw [if_pos missing]
    exact and_congr_right fun _ => ⟨Or.inr, fun either => either.resolve_left (absurd missing)⟩
  · rw [if_neg missing]
    have seen : (select.set signal true).Heard := ⟨signal, Function.update_self _ _ _⟩
    exact and_congr_right fun _ => iff_of_true seen (Or.inl missing)

/-- The pass a signal is charged to is the current one, as long as all were honoured. -/
theorem Honoured.signalled {s : State} (h : Honoured codec config s)
    : s.signalled.or (some s.passes) = some s.passes := by
  cases before : s.signalled with
  | none => rfl
  | some pass => rw [(h pass before).1, Option.some_or]

theorem step_honoured_of_own {s t : State} {action : Action} (own : action.IsOwn)
    (h : Honoured codec config s) (stepped : step codec config s action = some t)
    : Honoured codec config t := by
  intro pass signalled
  obtain ⟨same, returns⟩ := h pass ((signalled_of_own own stepped).symm.trans signalled)
  have leads := Leads.single stepped own
  exact ⟨(returns t leads).1.trans same, returns.leads leads⟩

/-- Per way a step can go: what the process does on its own harms nothing, and a signal is on
time if the select hears it.
-/
theorem step_honoured_iff {s t : State} {action : Action} (sound : Sound s)
    (h : Honoured codec config s) (stepped : step codec config s action = some t)
    : Honoured codec config t ↔ OnTime s action := by
  have sound' := step_sound sound stepped
  have own (own : action.IsOwn) (free : OnTime s action)
      : Honoured codec config t ↔ OnTime s action :=
    iff_of_true (step_honoured_of_own own h stepped) free
  cases step_effect stepped with
  | others | synced | passEnded | created | sleepWon | signalWon => exact own trivial trivial
  | @elapsed select selecting =>
      rw [honoured_iff sound', OnTime, selecting]
      constructor
      · intro honoured heard
        cases before : s.signalled with
        | none =>
            have unheard := sound.quiet before
            rw [selecting] at unheard
            exact unheard heard
        | some pass => cases (honoured pass before).2.1
      · intro unheard pass signalled
        have heard := ((honoured_iff sound).mp h pass signalled).2
        rw [selecting] at heard
        exact absurd heard.2 unheard
  | afterReturn returned =>
      exact iff_of_true h (by simp only [OnTime, returned])
  | @notified signal running handled =>
      have current := h.signalled
      rw [honoured_iff sound', OnTime]
      cases phase : s.phase with
      | returned => exact absurd phase running.1
      | killed => exact absurd phase running.2
      | syncing =>
          exact iff_of_false (fun honoured => (honoured _ current).2) not_false
      | selecting select =>
          constructor
          · intro honoured
            obtain ⟨waits, either⟩ := Phase.notify_heard.mp (honoured _ current).2
            exact ⟨waits, handled, either⟩
          · rintro ⟨waits, _, either⟩ pass signalled
            cases current.symm.trans signalled
            exact ⟨rfl, Phase.notify_heard.mpr ⟨waits, either⟩⟩
  | @killed signal indexer running unhandled crashed =>
      have current := h.signalled
      rw [honoured_iff sound']
      refine iff_of_false (fun honoured => (honoured _ current).2) fun onTime => ?_
      cases phase : s.phase with
      | returned => exact running.1 phase
      | killed => exact running.2 phase
      | syncing => simp only [OnTime, phase] at onTime
      | selecting select =>
          simp only [OnTime, phase, unhandled] at onTime
          cases onTime.2.1

/-- In every run, with any number of signals at any points of it, each signal is honoured from
then on exactly if each of them was on time.
-/
theorem signals_honoured_iff (indexer : Run.State) {actions : List Action} {s : State}
    (ran : Machine.run (step codec config) (State.init config indexer) actions = some s)
    : Machine.Always (step codec config) (Honoured codec config) (State.init config indexer)
        actions
      ↔ Machine.Along (step codec config) OnTime (State.init config indexer) actions := by
  have quiet : Honoured codec config (State.init config indexer) := by
    intro pass signalled
    cases signalled
  exact Machine.always_iff_along_of_step _ _
    (fun _ _ _ sound stepped => step_sound sound stepped)
    (fun _ _ _ sound honoured stepped => step_honoured_iff sound honoured stepped)
    (init_sound config indexer) quiet ran

def onePool : Run.Config := ⟨["CPOOL"], none⟩

/-- The only pass fails at its first query; then both streams exist, and a SIGTERM comes. -/
def askedAsleep : List Action :=
  [.sync (.start false), .endPass, .create .sigint, .create .sigterm, .deliver .sigterm,
    .signalWins]

theorem signals_honoured_iff_asleep
    : ∃ s,
        Machine.run (step (sampleCodec 1) onePool) (State.init onePool .init) askedAsleep
          = some s
        ∧ s.phase = .returned
        ∧ s.signalled = some 1
        ∧ Machine.Always (step (sampleCodec 1) onePool) (Honoured (sampleCodec 1) onePool)
            (State.init onePool .init) askedAsleep := by
  have onTime
      : Machine.Along (step (sampleCodec 1) onePool) OnTime (State.init onePool .init)
          askedAsleep := by
    decide +kernel
  exact ⟨_, rfl, rfl, rfl, (signals_honoured_iff _ rfl).mpr onTime⟩

/-- A SIGTERM in the first pass; nothing has switched its default action off. -/
def askedAtStart : List Action := [.deliver .sigterm]

/-- A SIGTERM in the second pass; its stream was dropped when the sleep was over. -/
def askedMidPass : List Action :=
  [.sync (.start false), .endPass, .create .sigterm, .create .sigint, .elapse, .sleepWins,
    .deliver .sigterm, .sync (.start false), .endPass, .elapse, .sleepWins]

theorem signal_lost_mid_pass
    : (∃ s,
        Machine.run (step (sampleCodec 1) onePool) (State.init onePool .init) askedAtStart
          = some s
        ∧ s.phase = .killed
        ∧ ¬ Honoured (sampleCodec 1) onePool s)
      ∧ ∃ s,
          Machine.run (step (sampleCodec 1) onePool) (State.init onePool .init) askedMidPass
            = some s
          ∧ s.signalled = some 2
          ∧ s.passes = 3
          ∧ ¬ Honoured (sampleCodec 1) onePool s := by
  constructor
  · refine ⟨_, rfl, rfl, fun honoured => ?_⟩
    refine absurd (honoured 1 rfl).2 (Phase.Stuck.not_willReturn ?_)
    trivial
  · refine ⟨_, rfl, rfl, rfl, fun honoured => ?_⟩
    cases (honoured 2 rfl).1

-----------------------------------------------------------------------------------------
-- The poll loop underneath
-----------------------------------------------------------------------------------------

/-- A step is one of the poll loop or leaves it as it is. -/
theorem step_indexer {s t : State} {action : Action} (stepped : step codec config s action = some t)
    : t.indexer = s.indexer
      ∨ ∃ own, Run.step codec config s.indexer own = some t.indexer := by
  cases step_effect stepped with
  | others _ went | synced _ went => exact Or.inr ⟨_, went⟩
  | passEnded | created | elapsed | afterReturn | notified | signalWon => exact Or.inl rfl
  | killed _ _ crashed => exact Or.inr ⟨_, crashed⟩
  | sleepWon _ _ polled => exact Or.inr ⟨_, polled⟩

/-- Signals make no difference to what the poll loop may do: what is shown of all its runs holds
next to them, a death by a signal being a crash.
-/
theorem run_indexer {indexer : Run.State} (between : indexer.waiting = [])
    {actions : List Action} {s : State}
    (ran : Machine.run (step codec config) (State.init config indexer) actions = some s)
    : ∃ own, Machine.run (Run.step codec config) indexer (.poll :: own) = some s.indexer := by
  have preserved (before : State) (action : Action) (after : State)
      (inv
        : ∃ own, Machine.run (Run.step codec config) indexer (.poll :: own)
          = some before.indexer)
      (stepped : step codec config before action = some after)
      : ∃ own, Machine.run (Run.step codec config) indexer (.poll :: own)
          = some after.indexer := by
    obtain ⟨own, ran⟩ := inv
    rcases step_indexer stepped with same | ⟨next, went⟩
    · exact ⟨own, same ▸ ran⟩
    · exact ⟨own ++ [next], Machine.run_concat.mpr ⟨_, ran, went⟩⟩
  have polled : Run.step codec config indexer .poll
      = some { indexer with waiting := config.contracts, phase := .idle } := by
    simp only [Run.step, between]
  exact Machine.invariant preserved ⟨[], Machine.run_cons.mpr ⟨_, polled, rfl⟩⟩ ran

end Attesta.Indexer.Shutdown
