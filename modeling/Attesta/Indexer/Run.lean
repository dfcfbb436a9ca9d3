import Mathlib.Logic.Function.Basic
import Attesta.Indexer.Parts

/-! The poll loop of the indexer over all its contracts. A pass syncs one contract after the
other; each of them sees a run of its own, as if the indexer had no other contract.
-/

namespace Attesta.Indexer.Run

open Sync

structure Config where
  poolContractIds : List String
  registryContractId : Option String

/-- The contracts in the order `run` syncs them. -/
def Config.contracts (config : Config) : List String :=
  config.poolContractIds ++ config.registryContractId.toList

structure State where
  chains : String → Chain
  db : Db
  /-- What the current pass has still to sync; the first contract is being synced. -/
  waiting : List String
  /-- Where `sync_contract` is. -/
  phase : Phase
  /-- Per contract, every statement applied so far; nothing reads it. -/
  logs : String → List (Nat × Statement)
  /-- Per contract, the events `store_event` has returned for; nothing reads it. -/
  handled : String → List Nat

/-- An indexer that starts with an empty database. -/
def State.start (chains : String → Chain) : State where
  chains
  db := Db.empty
  waiting := []
  phase := .idle
  logs _ := []
  handled _ := []

def State.init : State := .start (fun _ => ⟨[], 0⟩)

inductive Action
  /-- New ledgers close and bring further events of a contract. -/
  | grow (contractId : String) (events : List RawEvent) (head : Nat)
  /-- The poll interval is over and a pass begins. -/
  | poll
  /-- `sync_contract` goes on. -/
  | sync (action : Sync.Action)
  /-- The process stops. -/
  | crash
  /-- An operator sets a cursor row. -/
  | resetCursor (contractId : String) (lastLedger : Int) (cursor : Option String)

def isIdle : Phase → Bool
  | .idle => true
  | _ => false

/-- The steps of `sync_contract` itself. -/
def ofCall : Sync.Action → Bool
  | .start _ | .respond _ _ | .rpcError | .statement _ | .nextEvent | .persist _ => true
  | .grow _ _ | .crash | .resetCursor _ _ => false

/-- What there is to see of one contract. -/
def State.view (s : State) (contractId : String) : Sync.State where
  chain := s.chains contractId
  db := s.db
  phase := if s.waiting.head? = some contractId then s.phase else .idle
  log := s.logs contractId
  handled := s.handled contractId

/-- `sync_contract` has gone on to `t`; once it has returned the next contract follows. -/
def State.advance (s : State) (contractId : String) (rest : List String) (t : Sync.State)
    : State where
  chains := s.chains
  db := t.db
  waiting := if isIdle t.phase then rest else contractId :: rest
  phase := t.phase
  logs := Function.update s.logs contractId t.log
  handled := Function.update s.handled contractId t.handled

variable (codec : Codec) (config : Config)

/-- One step; an action that is not enabled has no successor. -/
def step (s : State) : Action → Option State
  | .grow contractId events head =>
      some { s with
        chains :=
          Function.update s.chains contractId ⟨(s.chains contractId).events ++ events, head⟩ }
  | .poll =>
      match s.waiting with
      | [] => some { s with waiting := config.contracts, phase := .idle }
      | _ => none
  | .sync action =>
      match s.waiting with
      | [] => none
      | contractId :: rest =>
          if ofCall action then
            (Sync.step codec contractId (s.view contractId) action).map
              (s.advance contractId rest)
          else none
  | .crash => some { s with waiting := [], phase := .idle }
  | .resetCursor contractId lastLedger cursor =>
      some { s with db := saveCursor s.db contractId lastLedger cursor }

/-- What a step is for one contract, if it is anything for it. -/
def project (contractId : String) (s : State) : Action → Option Sync.Action
  | .grow other events head => if other = contractId then some (.grow events head) else none
  | .poll => none
  | .sync action => if s.waiting.head? = some contractId then some action else none
  | .crash => some .crash
  | .resetCursor other lastLedger cursor =>
      if other = contractId then some (.resetCursor lastLedger cursor) else none

/-- The world around the indexer is as documented, for each of its contracts. The events of each
of them have tokens of their own.
-/
def Documented (rpc : String → Rpc) (s : State) : Action → Prop
  | .grow contractId events head =>
      Sync.Documented (rpc contractId) contractId (s.view contractId) (.grow events head)
  | .sync action =>
      ∀ contractId ∈ s.waiting.head?,
        Sync.Documented (rpc contractId) contractId (s.view contractId) action
  | .resetCursor contractId lastLedger cursor =>
      Sync.Documented (rpc contractId) contractId (s.view contractId)
        (.resetCursor lastLedger cursor)
  | .poll | .crash => True

instance (rpc : String → Rpc) (s : State)
    : (action : Action) → Decidable (Documented rpc s action)
  | .grow contractId events head =>
      inferInstanceAs (Decidable (Sync.Documented (rpc contractId) contractId
        (s.view contractId) (.grow events head)))
  | .sync action =>
      inferInstanceAs (Decidable (∀ contractId ∈ s.waiting.head?,
        Sync.Documented (rpc contractId) contractId (s.view contractId) action))
  | .resetCursor contractId lastLedger cursor =>
      inferInstanceAs (Decidable (Sync.Documented (rpc contractId) contractId
        (s.view contractId) (.resetCursor lastLedger cursor)))
  | .poll | .crash => isTrue trivial

variable {codec config}

theorem isIdle_iff {phase : Phase} : isIdle phase = true ↔ phase = .idle := by
  cases phase <;> simp [isIdle]

/-- A call of `sync_contract` does not make the chain. -/
theorem chain_of_call {contractId : String} {s t : Sync.State} {action : Sync.Action}
    (call : ofCall action = true) (stepped : Sync.step codec contractId s action = some t)
    : t.chain = s.chain := by
  cases step_effect stepped with
  | grow | resetCursor => cases call
  | notStarted | started | responded | overflowed | rpcError | executed | lost | notExecuted
    | undone | nextEvent | persisted | persistLost | notPersisted | crash => rfl

/-- A step of a call comes from the contract at the head of the pass. -/
theorem sync_step {s t : State} {action : Sync.Action}
    (stepped : step codec config s (.sync action) = some t)
    : ∃ contractId rest next,
        s.waiting = contractId :: rest
        ∧ ofCall action = true
        ∧ Sync.step codec contractId (s.view contractId) action = some next
        ∧ t = s.advance contractId rest next := by
  simp only [step] at stepped
  split at stepped
  next => cases stepped
  next contractId rest waiting =>
    split at stepped
    next call =>
      obtain ⟨next, went, rfl⟩ := Option.map_eq_some_iff.mp stepped
      exact ⟨contractId, rest, next, waiting, call, went, rfl⟩
    next => cases stepped

theorem poll_step {s t : State} (stepped : step codec config s .poll = some t)
    : s.waiting = [] ∧ t = { s with waiting := config.contracts, phase := .idle } := by
  simp only [step] at stepped
  split at stepped
  next none => exact ⟨none, (Option.some.inj stepped).symm⟩
  next => cases stepped

/-- The contract that is being synced holds statements of its own events. -/
def State.Owned (codec : Codec) (s : State) : Prop :=
  ∀ contractId, (s.view contractId).phase.Owned codec contractId

theorem State.view_advance {s : State} {contractId : String} {rest : List String}
    {t : Sync.State} (chain : t.chain = s.chains contractId)
    : (s.advance contractId rest t).view contractId = t := by
  have phase
      : (if (s.advance contractId rest t).waiting.head? = some contractId then t.phase else .idle)
        = t.phase := by
    by_cases idle : isIdle t.phase = true
    · rw [isIdle_iff.mp idle, ite_self]
    · simp [State.advance, idle]
  cases t
  simp_all [State.view, State.advance]

theorem State.view_advance_of_ne {s : State} {contractId other : String}
    (apart : contractId ≠ other) (first : s.waiting.head? = some contractId)
    (rest : List String) (t : Sync.State)
    : (s.advance contractId rest t).view other = { s.view other with db := t.db } := by
  have before : (s.view other).phase = .idle := by simp [State.view, first, apart]
  have after : ((s.advance contractId rest t).view other).phase = .idle := by
    by_cases idle : isIdle t.phase = true
    · simp [State.view, State.advance, isIdle_iff.mp idle]
    · simp [State.view, State.advance, idle, apart]
  have logs : (s.advance contractId rest t).logs other = s.logs other :=
    Function.update_of_ne apart.symm _ _
  have handled : (s.advance contractId rest t).handled other = s.handled other :=
    Function.update_of_ne apart.symm _ _
  simp only [State.view] at before after ⊢
  rw [before, after, logs, handled]
  rfl

/-- The step is one of the contract itself. -/
def Acts (codec : Codec) (contractId : String) (s : State) (action : Action) (t : State) : Prop :=
  ∃ own ∈ project contractId s action,
    Sync.step codec contractId (s.view contractId) own = some (t.view contractId)

/-- The step is none of the contract and touches nothing of it. -/
structure Spares (contractId : String) (s : State) (action : Action) (t : State) : Prop where
  silent : project contractId s action = none
  view : t.view contractId = { s.view contractId with db := t.db }
  rows : rowsOf contractId t.db = rowsOf contractId s.db
  cursor : loadCursor t.db contractId = loadCursor s.db contractId

/-- Every step is a step of a contract or spares it. -/
theorem step_acts_or_spares {s t : State} {action : Action} (owned : s.Owned codec)
    (stepped : step codec config s action = some t) (contractId : String)
    : Acts codec contractId s action t ∨ Spares contractId s action t := by
  cases action with
  | grow other events head =>
      obtain rfl := Option.some.inj stepped
      by_cases same : other = contractId
      · subst same
        exact Or.inl ⟨.grow events head, by simp [project], by simp [Sync.step, State.view]⟩
      · refine Or.inr ⟨by simp [project, same], ?_, rfl, rfl⟩
        simp [State.view, Function.update_of_ne (Ne.symm same)]
  | poll =>
      obtain ⟨none, rfl⟩ := poll_step stepped
      exact Or.inr ⟨rfl, by simp [State.view, none], rfl, rfl⟩
  | sync action =>
      obtain ⟨first, rest, next, waiting, call, went, rfl⟩ := sync_step stepped
      have head : s.waiting.head? = some first := by rw [waiting]; rfl
      have chain := chain_of_call call went
      by_cases same : first = contractId
      · subst same
        exact Or.inl ⟨action, by simp [project, head], by rw [went, State.view_advance chain]⟩
      · obtain ⟨rows, cursor⟩ := step_foreign same (owned first) went
        exact Or.inr ⟨by simp [project, head, same],
          State.view_advance_of_ne same head rest next, rows, cursor⟩
  | crash =>
      obtain rfl := Option.some.inj stepped
      refine Or.inl ⟨.crash, by simp [project], ?_⟩
      simp [Sync.step, Sync.State.interrupted, State.view]
  | resetCursor other lastLedger cursor =>
      obtain rfl := Option.some.inj stepped
      by_cases same : other = contractId
      · subst same
        exact Or.inl ⟨.resetCursor lastLedger cursor, by simp [project], rfl⟩
      · exact Or.inr ⟨by simp [project, same], rfl, rfl, loadCursor_saveCursor_of_ne same _ _ _⟩

theorem Spares.alike {contractId : String} {s t : State} {action : Action}
    (h : Spares contractId s action t)
    : Alike contractId (t.view contractId) (s.view contractId) := by
  rw [h.view]
  exact ⟨rfl, rfl, rfl, rfl, partOf_congr h.rows h.cursor⟩

theorem step_owned {s t : State} {action : Action} (h : s.Owned codec)
    (stepped : step codec config s action = some t)
    : t.Owned codec := by
  intro contractId
  rcases step_acts_or_spares h stepped contractId with ⟨own, _, went⟩ | spared
  · exact Sync.step_owned (h contractId) went
  · rw [spared.view]
    exact h contractId

theorem start_owned (codec : Codec) (chains : String → Chain)
    : (State.start chains).Owned codec := by
  intro contractId
  simp [State.view, State.start, Phase.Owned]

/-- Starting with a chain is starting without one that then grows at once. -/
theorem start_view (chains : String → Chain) (contractId : String)
    : Sync.step codec contractId Sync.State.init
        (.grow (chains contractId).events (chains contractId).head)
      = some ((State.start chains).view contractId) := by
  simp [Sync.step, Sync.State.init, State.view, State.start]

theorem start_documented (rpc : Rpc) {chains : String → Chain}
    (closed : ∀ contractId, (chains contractId).Closed) (contractId : String)
    : Sync.Documented rpc contractId Sync.State.init
        (.grow (chains contractId).events (chains contractId).head) :=
  ⟨Nat.zero_le _, closed contractId⟩

/-- What a contract does in a run over all contracts is a run of its own, whose steps meet every
condition the projected steps meet.
-/
theorem run_projects {contractId : String} {allowed : Sync.State → Sync.Action → Prop}
    (stable
      : ∀ u v action, Alike contractId u v → allowed u action → allowed v action)
    {chains : String → Chain} {s : State} {actions : List Action}
    (along
      : Machine.Along (step codec config)
          (fun s action => ∀ own ∈ project contractId s action, allowed (s.view contractId) own)
          (.start chains) actions)
    (ran : Machine.run (step codec config) (.start chains) actions = some s)
    : ∃ own v,
        Machine.Along (Sync.step codec contractId) allowed ((State.start chains).view contractId)
          own
        ∧ Machine.run (Sync.step codec contractId) ((State.start chains).view contractId) own
          = some v
        ∧ Alike contractId (s.view contractId) v := by
  have preserved (before : State) (action : Action) (after : State)
      (permitted
        : ∀ own ∈ project contractId before action, allowed (before.view contractId) own)
      (inv
        : before.Owned codec
          ∧ ∃ own v,
              Machine.Along (Sync.step codec contractId) allowed
                ((State.start chains).view contractId) own
              ∧ Machine.run (Sync.step codec contractId)
                  ((State.start chains).view contractId) own
                = some v
              ∧ Alike contractId (before.view contractId) v)
      (stepped : step codec config before action = some after)
      : after.Owned codec
        ∧ ∃ own v,
            Machine.Along (Sync.step codec contractId) allowed
              ((State.start chains).view contractId) own
            ∧ Machine.run (Sync.step codec contractId) ((State.start chains).view contractId) own
              = some v
            ∧ Alike contractId (after.view contractId) v := by
    obtain ⟨owned, own, v, ownAlong, ownRan, alike⟩ := inv
    refine ⟨step_owned owned stepped, ?_⟩
    rcases step_acts_or_spares owned stepped contractId with ⟨next, projected, went⟩ | spared
    · obtain ⟨w, also, alike'⟩ := alike.step (owned contractId) went
      refine ⟨own ++ [next], w, ?_, Machine.run_concat.mpr ⟨v, ownRan, also⟩, alike'⟩
      refine Machine.along_append.mpr ⟨ownAlong, ?_⟩
      intro middle reached
      obtain rfl := Option.some.inj (ownRan.symm.trans reached)
      exact ⟨stable _ _ _ alike (permitted next projected), fun _ _ => trivial⟩
    · exact ⟨own, v, ownAlong, ownRan, spared.alike.trans alike⟩
  exact (Machine.invariant_along preserved
    ⟨start_owned codec chains, [], _, trivial, rfl, .refl _ _⟩ along ran).2

theorem Documented.project {rpc : String → Rpc} {s : State} {action : Action}
    (h : Documented rpc s action) {contractId : String} {own : Sync.Action}
    (projected : own ∈ project contractId s action)
    : Sync.Documented (rpc contractId) contractId (s.view contractId) own := by
  cases action with
  | grow other events head =>
      obtain ⟨rfl, taken⟩ := Option.ite_none_right_eq_some.mp projected
      exact Option.some.inj taken ▸ h
  | poll => cases projected
  | sync action =>
      obtain ⟨same, taken⟩ := Option.ite_none_right_eq_some.mp projected
      exact Option.some.inj taken ▸ h contractId same
  | crash =>
      obtain rfl := Option.some.inj projected
      trivial
  | resetCursor other lastLedger cursor =>
      obtain ⟨rfl, taken⟩ := Option.ite_none_right_eq_some.mp projected
      exact Option.some.inj taken ▸ h

/-- The same from the empty chain, if the first ledgers may come all at once. -/
theorem run_own {contractId : String} {allowed : Sync.State → Sync.Action → Prop}
    (stable
      : ∀ u v action, Alike contractId u v → allowed u action → allowed v action)
    {chains : String → Chain}
    (first
      : allowed Sync.State.init (.grow (chains contractId).events (chains contractId).head))
    {s : State} {actions : List Action}
    (along
      : Machine.Along (step codec config)
          (fun s action => ∀ own ∈ project contractId s action, allowed (s.view contractId) own)
          (.start chains) actions)
    (ran : Machine.run (step codec config) (.start chains) actions = some s)
    : ∃ own v,
        Machine.Along (Sync.step codec contractId) allowed Sync.State.init own
        ∧ Machine.run (Sync.step codec contractId) Sync.State.init own = some v
        ∧ Alike contractId (s.view contractId) v := by
  obtain ⟨own, v, ownAlong, ownRan, alike⟩ := run_projects stable along ran
  have grown
      : Sync.step codec contractId Sync.State.init
          (.grow (chains contractId).events (chains contractId).head)
        = some ((State.start chains).view contractId) :=
    start_view chains contractId
  refine ⟨.grow (chains contractId).events (chains contractId).head :: own, v,
    ⟨first, ?_⟩, Machine.run_cons.mpr ⟨_, grown, ownRan⟩, alike⟩
  intro next went
  obtain rfl := Option.some.inj (grown.symm.trans went)
  exact ownAlong

/-- In particular it is a documented run of the contract on its own, from the first ledger. -/
theorem run_documented {rpc : String → Rpc} {chains : String → Chain} {s : State}
    {actions : List Action} (closed : ∀ contractId, (chains contractId).Closed)
    (documented : Machine.Along (step codec config) (Documented rpc) (.start chains) actions)
    (ran : Machine.run (step codec config) (.start chains) actions = some s)
    (contractId : String)
    : ∃ own v,
        Machine.Along (Sync.step codec contractId) (Sync.Documented (rpc contractId) contractId)
          Sync.State.init own
        ∧ Machine.run (Sync.step codec contractId) Sync.State.init own = some v
        ∧ Alike contractId (s.view contractId) v := by
  have stable (u v : Sync.State) (action : Sync.Action) (alike : Alike contractId u v)
      (documented : Sync.Documented (rpc contractId) contractId u action)
      : Sync.Documented (rpc contractId) contractId v action :=
    alike.documented documented
  exact run_own stable (start_documented (rpc contractId) closed contractId)
    (documented.mono fun _ _ step _ => step.project) ran

/-- The cursor of every contract stays behind what is stored, also next to the others. -/
theorem step_view_safe {rpc : String → Rpc} {s t : State} {action : Action}
    (documented : Documented rpc s action) (owned : s.Owned codec)
    (safe : ∀ contractId, Safe (rpc contractId) codec contractId (s.view contractId))
    (stepped : step codec config s action = some t) (contractId : String)
    : Safe (rpc contractId) codec contractId (t.view contractId) := by
  rcases step_acts_or_spares owned stepped contractId with ⟨own, projected, went⟩ | spared
  · exact step_safe (documented.project projected) (safe contractId) went
  · exact (safe contractId).of_alike spared.alike

theorem start_view_safe (rpc : String → Rpc) (codec : Codec) {chains : String → Chain}
    (closed : ∀ contractId, (chains contractId).Closed) (contractId : String)
    : Safe (rpc contractId) codec contractId ((State.start chains).view contractId) :=
  step_safe (start_documented (rpc contractId) closed contractId) (init_safe (rpc contractId))
    (start_view chains contractId)

theorem run_view_safe {rpc : String → Rpc} {chains : String → Chain} {s : State}
    {actions : List Action} (closed : ∀ contractId, (chains contractId).Closed)
    (documented : Machine.Along (step codec config) (Documented rpc) (.start chains) actions)
    (ran : Machine.run (step codec config) (.start chains) actions = some s)
    (contractId : String)
    : Safe (rpc contractId) codec contractId (s.view contractId) := by
  have preserved (before : State) (action : Action) (after : State)
      (allowed : Documented rpc before action)
      (inv
        : before.Owned codec
          ∧ ∀ contractId, Safe (rpc contractId) codec contractId (before.view contractId))
      (stepped : step codec config before action = some after)
      : after.Owned codec
        ∧ ∀ contractId, Safe (rpc contractId) codec contractId (after.view contractId) :=
    ⟨step_owned inv.1 stepped, step_view_safe allowed inv.1 inv.2 stepped⟩
  exact (Machine.invariant_along preserved
    ⟨start_owned codec chains, start_view_safe rpc codec closed⟩ documented ran).2 contractId

theorem init_closed (contractId : String) : (State.init.chains contractId).Closed := by
  simp [State.init, State.start, Chain.Closed]

/-- A contract whose first `position` events are stored is synced. A page brings its `events`,
each of them with one statement, and an empty page ends the call.
-/
def sampleSync (position : Nat) (events : List RawEvent) : List Action :=
  let latest := position + events.length
  let page : List Sync.Action :=
    .respond position ⟨events, some (sampleRpc.cursorAt latest), 42⟩
    :: events.flatMap (fun _ => [.statement .ok, .nextEvent]) ++ [.persist .ok]
  let last : Sync.Action :=
    .respond latest ⟨[], if latest = 0 then none else some (sampleRpc.cursorAt latest), 42⟩
  (.start true :: (if events.isEmpty then [] else page) ++ [last, .persist .ok]).map .sync

end Attesta.Indexer.Run
