import Attesta.Core.Config
import Attesta.Indexer.Run

/-! The readiness probe. It asks the database whether some cursor of the indexer has been saved
lately; here it is set against the runs of the indexer, with all their failures.
-/

namespace Attesta.Api.Readiness

open Machine KeyedRows
open Attesta.Indexer (Codec)

/-- The status of a probe and the check it names. -/
structure Answer where
  status : Nat
  failing : Option String
  deriving DecidableEq

def ready : Answer := ⟨200, none⟩

def unavailable (failing : String) : Answer := ⟨503, some failing⟩

/-- A row of `indexer_cursors` as the probe sees it. -/
structure UpdatedRow where
  contractId : String
  updatedAt : Int
  deriving DecidableEq

/-- `make_interval(secs => $1)`, in microseconds. -/
def interval (secs : UInt32) : Int := secs.toNat * 1000000

/-- `SELECT max(updated_at) > now() - make_interval(secs => $1) FROM indexer_cursors`. -/
def selectFresh (rows : List UpdatedRow) (now : Int) (secs : UInt32) : Option Bool :=
  (rows.map UpdatedRow.updatedAt).max?.map (fun newest => decide (now - interval secs < newest))

/-- `health_ready`. The two queries succeed or not. -/
def healthReady (config : Core.Config) (connected answered : Bool) (rows : List UpdatedRow)
    (now : Int) : Answer :=
  if !connected then unavailable "database"
  else
    let maxStaleness := config.readyMaxIndexerStalenessSecs
    if 0 < maxStaleness then
      let fresh := if answered then selectFresh rows now maxStaleness else some false
      if fresh ≠ some true then unavailable "indexer_staleness" else ready
    else ready

-----------------------------------------------------------------------------------------
-- The indexer and the clock of the database
-----------------------------------------------------------------------------------------

structure State where
  indexer : Indexer.Run.State
  /-- The column the indexer's own model leaves out. -/
  rows : List UpdatedRow
  now : Int

def State.init (now : Int) : State := ⟨.init, [], now⟩

inductive Action
  | indexer (action : Indexer.Run.Action)
  | tick (now : Int)

/-- The contract whose cursor row a step of the indexer writes. -/
def saves (s : Indexer.Run.State) : Indexer.Run.Action → Option String
  | .sync (.persist outcome) => if outcome = .failed false then none else s.waiting.head?
  | _ => none

/-- The upsert sets `updated_at = now()`. -/
def touch (rows : List UpdatedRow) (now : Int) : Option String → List UpdatedRow
  | none => rows
  | some contractId =>
      upsert (fun row => row.contractId == contractId) ⟨contractId, now⟩
        (fun _ => ⟨contractId, now⟩) rows

variable (codec : Codec) (config : Indexer.Run.Config)

/-- One step; nobody else writes to the cursor table. -/
def step (s : State) : Action → Option State
  | .indexer (.resetCursor _ _ _) => none
  | .indexer action =>
      (Indexer.Run.step codec config s.indexer action).map (fun t =>
        { s with indexer := t, rows := touch s.rows s.now (saves s.indexer action) })
  | .tick now => if s.now ≤ now then some { s with now } else none

variable {codec config}

/-- A step of the indexer saves the cursor of this contract after `bound`. -/
def SavedAfter (bound : Int) (s : State) (action : Action) : Prop :=
  ∃ inner contractId,
    action = .indexer inner ∧ saves s.indexer inner = some contractId ∧ bound < s.now

theorem mem_touch {rows : List UpdatedRow} {now : Int} {contractId : String} {row : UpdatedRow}
    : row ∈ touch rows now (some contractId)
      ↔ row = ⟨contractId, now⟩ ∨ row ∈ rows ∧ row.contractId ≠ contractId := by
  simp [touch, mem_upsert_replace]

/-- What a step does to the column and the clock. -/
theorem step_cases {s t : State} {action : Action} (stepped : step codec config s action = some t)
    : (t.rows = s.rows ∧ s.now ≤ t.now ∧ ∀ bound, ¬ SavedAfter bound s action)
      ∨ ∃ contractId,
          t.rows = touch s.rows s.now (some contractId)
          ∧ t.now = s.now
          ∧ ∀ bound, SavedAfter bound s action ↔ bound < s.now := by
  cases action with
  | tick now =>
      simp only [step] at stepped
      split at stepped
      next later =>
        cases stepped
        refine Or.inl ⟨rfl, later, fun bound saved => ?_⟩
        obtain ⟨_, _, other, _⟩ := saved
        cases other
      next => cases stepped
  | indexer inner =>
      have indexer
          : ∃ next, t = { s with
              indexer := next, rows := touch s.rows s.now (saves s.indexer inner) } := by
        cases inner with
        | resetCursor => cases stepped
        | grow | poll | sync | crash =>
            simp only [step] at stepped
            obtain ⟨next, _, rfl⟩ := Option.map_eq_some_iff.mp stepped
            exact ⟨next, rfl⟩
      obtain ⟨next, rfl⟩ := indexer
      cases saved : saves s.indexer inner with
      | none =>
          refine Or.inl ⟨rfl, le_rfl, fun bound other => ?_⟩
          obtain ⟨_, _, same, some, _⟩ := other
          cases same
          cases saved.symm.trans some
      | some contractId =>
          refine Or.inr ⟨contractId, rfl, rfl, fun bound => ?_⟩
          exact ⟨fun ⟨_, _, _, _, after⟩ => after, fun after => ⟨_, _, rfl, saved, after⟩⟩

/-- The column remembers when the last cursor was saved. -/
structure Remembers (past : List Action) (start : Int) (codec : Codec)
    (config : Indexer.Run.Config) (s : State) : Prop where
  notLater : ∀ row ∈ s.rows, row.updatedAt ≤ s.now
  saved
    : ∀ bound,
        (∃ row ∈ s.rows, bound < row.updatedAt)
        ↔ Once (step codec config) (SavedAfter bound) (State.init start) past

theorem step_remembers {past : List Action} {start : Int} {s t : State} {action : Action}
    (ran : run (step codec config) (State.init start) past = some s)
    (h : Remembers past start codec config s) (stepped : step codec config s action = some t)
    : Remembers (past ++ [action]) start codec config t := by
  have onwards (bound : Int)
      : Once (step codec config) (SavedAfter bound) (State.init start) (past ++ [action])
        ↔ Once (step codec config) (SavedAfter bound) (State.init start) past
          ∨ SavedAfter bound s action := by
    rw [once_append]
    refine or_congr_right ?_
    simp [ran, Once]
  rcases step_cases stepped with quiet | saves
  · obtain ⟨rows, later, none⟩ := quiet
    refine ⟨fun row member => ?_, fun bound => ?_⟩
    · rw [rows] at member
      exact (h.notLater row member).trans later
    · rw [rows, onwards, or_iff_left (none bound)]
      exact h.saved bound
  · obtain ⟨contractId, rows, now, exactly⟩ := saves
    refine ⟨fun row member => ?_, fun bound => ?_⟩
    · rw [rows] at member
      rw [now]
      rcases mem_touch.mp member with rfl | old
      · exact le_rfl
      · exact h.notLater row old.1
    · rw [rows, onwards, exactly, ← h.saved bound]
      constructor
      · intro found
        obtain ⟨row, member, after⟩ := found
        rcases mem_touch.mp member with rfl | old
        · exact Or.inr after
        · exact Or.inl ⟨row, old.1, after⟩
      · intro found
        -- A row that gives way to the new one is no later than it.
        have recent : bound < s.now := by
          rcases found with ⟨row, member, after⟩ | after
          · exact after.trans_le (h.notLater row member)
          · exact after
        exact ⟨_, mem_touch.mpr (Or.inl rfl), recent⟩

theorem remembers {start : Int} {actions : List Action} {s : State}
    (ran : run (step codec config) (State.init start) actions = some s)
    : Remembers actions start codec config s := by
  refine invariant_of_history (fun past _ _ _ reached kept => step_remembers reached kept) ?_ ran
  exact ⟨fun _ member => (nomatch member), fun bound => by simp [State.init, Once]⟩

theorem selectFresh_eq_some_true {rows : List UpdatedRow} {now : Int} {secs : UInt32}
    : selectFresh rows now secs = some true
      ↔ ∃ row ∈ rows, now - interval secs < row.updatedAt := by
  rw [selectFresh, Option.map_eq_some_iff]
  constructor
  · intro h
    obtain ⟨newest, found, after⟩ := h
    obtain ⟨row, member, rfl⟩ := List.mem_map.mp (List.max?_mem found)
    exact ⟨row, member, by simpa using after⟩
  · intro h
    obtain ⟨row, member, after⟩ := h
    have listed := List.mem_map_of_mem (f := UpdatedRow.updatedAt) member
    cases newest : (rows.map UpdatedRow.updatedAt).max? with
    | none => simp [List.max?_eq_none_iff.mp newest] at listed
    | some time =>
        refine ⟨time, rfl, ?_⟩
        have bound := (List.max?_eq_some_iff.mp newest).2 _ listed
        simpa using after.trans_le bound

/-- The run has saved the cursor of some contract in the last `secs` seconds before `now`. -/
def SavedWithin (codec : Codec) (indexer : Indexer.Run.Config) (start : Int)
    (actions : List Action) (now : Int) (secs : UInt32) : Prop :=
  Once (step codec indexer) (SavedAfter (now - interval secs)) (State.init start) actions

/-- What the second query contributes to the answer. -/
theorem healthReady_connected (config : Core.Config) (answered : Bool) (rows : List UpdatedRow)
    (now : Int)
    : healthReady config true answered rows now = ready
        ∧ (config.readyMaxIndexerStalenessSecs = 0
          ∨ answered = true
            ∧ selectFresh rows now config.readyMaxIndexerStalenessSecs = some true)
      ∨ healthReady config true answered rows now = unavailable "indexer_staleness"
        ∧ ¬ (config.readyMaxIndexerStalenessSecs = 0
          ∨ answered = true
            ∧ selectFresh rows now config.readyMaxIndexerStalenessSecs = some true) := by
  have positive
      : 0 < config.readyMaxIndexerStalenessSecs ↔ ¬ config.readyMaxIndexerStalenessSecs = 0 :=
    UInt32.pos_iff_ne_zero
  cases answered <;> by_cases off : config.readyMaxIndexerStalenessSecs = 0
    <;> by_cases fresh
      : selectFresh rows now config.readyMaxIndexerStalenessSecs = some true
    <;> simp [healthReady, positive, off, fresh]

/-- The answer of a probe, whatever the indexer has been through: it is ready exactly if the
database answers and, unless the check is off, some contract's cursor was saved within the
window; otherwise it names the check that fails, the database first.
-/
theorem probe_exact (codec : Codec) (indexer : Indexer.Run.Config) (config : Core.Config)
    {start : Int} {actions : List Action} {s : State}
    (ran : run (step codec indexer) (State.init start) actions = some s)
    (connected answered : Bool)
    : (healthReady config connected answered s.rows s.now = ready
        ↔ connected = true
          ∧ (config.readyMaxIndexerStalenessSecs = 0
            ∨ answered = true
              ∧ SavedWithin codec indexer start actions s.now
                  config.readyMaxIndexerStalenessSecs))
      ∧ (healthReady config connected answered s.rows s.now = unavailable "database"
        ↔ connected = false)
      ∧ (healthReady config connected answered s.rows s.now = unavailable "indexer_staleness"
        ↔ connected = true
          ∧ ¬ (config.readyMaxIndexerStalenessSecs = 0
            ∨ answered = true
              ∧ SavedWithin codec indexer start actions s.now
                  config.readyMaxIndexerStalenessSecs)) := by
  have saved := (remembers ran).saved (s.now - interval config.readyMaxIndexerStalenessSecs)
  rw [← selectFresh_eq_some_true] at saved
  cases connected with
  | false => simp [healthReady, ready, unavailable]
  | true =>
      simp only [SavedWithin, ← saved, true_and]
      rcases healthReady_connected config answered s.rows s.now with fresh | stale
      · simp [fresh.1, fresh.2, ready, unavailable]
      · simp [stale.1, stale.2, ready, unavailable]

/-- A pass whose save is applied but not confirmed, and another one without an answer of the RPC.
-/
def sampleActions : List Action :=
  [.indexer .poll, .indexer (.sync (.start true)),
    .indexer (.sync (.respond 0 ⟨[], none, 42⟩)), .tick 5000000,
    .indexer (.sync (.persist (.failed true))), .indexer .poll,
    .indexer (.sync (.start true)), .indexer (.sync .rpcError), .tick 64000000]

/-- A minute's window over one pool. -/
def sampleConfig : Core.Config where
  databaseUrl := "postgres://localhost/attesta"
  bindAddr := "0.0.0.0:8080"
  sorobanRpcUrl := "http://localhost:8000"
  networkPassphrase := "Test SDF Network ; September 2015"
  poolContractIds := ["CPOOL"]
  registryContractId := none
  indexerPollSecs := 5
  artifactsDir := "./artifacts"
  credentialRetentionClaimedDays := 30
  credentialRetentionUnclaimedDays := 180
  rateLimits := ⟨50, 200, 2, 20, 10, 1000, 600⟩
  corsAllowedOrigins := []
  readyMaxIndexerStalenessSecs := 60
  statsCacheTtlSecs := 10

theorem probe_exact_unconfirmed_save
    : ∃ s,
        run (step (Indexer.sampleCodec 1) sampleConfig.indexer) (State.init 0) sampleActions
          = some s
        ∧ healthReady sampleConfig true true s.rows s.now = ready
        ∧ (sampleConfig.readyMaxIndexerStalenessSecs = 0
          ∨ true = true
            ∧ SavedWithin (Indexer.sampleCodec 1) sampleConfig.indexer 0 sampleActions s.now
                sampleConfig.readyMaxIndexerStalenessSecs) := by
  have observed
      : (run (step (Indexer.sampleCodec 1) sampleConfig.indexer) (State.init 0)
          sampleActions).map (fun s => healthReady sampleConfig true true s.rows s.now)
        = some ready := by
    decide +kernel
  obtain ⟨s, ran, answer⟩ := Option.map_eq_some_iff.mp observed
  obtain ⟨exactly, _⟩ :=
    probe_exact (Indexer.sampleCodec 1) sampleConfig.indexer sampleConfig ran true true
  exact ⟨s, ran, answer, (exactly.mp answer).2⟩

end Attesta.Api.Readiness
