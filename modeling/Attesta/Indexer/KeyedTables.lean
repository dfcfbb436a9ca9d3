import Attesta.Indexer.Replay

/-! The tables with a key are stable under replay. Leaves and nullifiers keep the first of
conflicting rows; issuers keep the ledger of their first event and take everything else from
the last one. Both only depend on the history, not on how often parts of it were repeated.
-/

namespace Attesta.Indexer

open KeyedRows

structure KeyedTables where
  commitments : List CommitmentRow
  nullifiers : List NullifierRow
  issuers : List IssuerRow
  deriving DecidableEq

def KeyedTables.empty : KeyedTables := ⟨[], [], []⟩

/-- The keyed tables of a database. -/
def keyedTables (db : Db) : KeyedTables := ⟨db.commitments, db.nullifiers, db.issuers⟩

/-- What a statement does to the keyed tables. -/
def KeyedTables.apply (tables : KeyedTables) : Statement → KeyedTables
  | .insertCommitment row =>
      { tables with
        commitments := insertIgnore CommitmentRow.conflict tables.commitments row }
  | .insertNullifier row =>
      { tables with nullifiers := insertIgnore NullifierRow.conflict tables.nullifiers row }
  | .upsertIssuer row => { tables with issuers := upsertIssuerRows row tables.issuers }
  | .insertNote .. | .addPoolTotal .. => tables

/-- The keyed tables after every statement of every event, once and in order. -/
def onePass (codec : Codec) (contractId : String) (events : List RawEvent) : KeyedTables :=
  (events.flatMap (storeRaw codec contractId)).foldl KeyedTables.apply .empty

theorem keyedTables_exec {st : Statement} {db next : Db} (h : st.exec db = .ok next)
    : keyedTables next = (keyedTables db).apply st := by
  cases st <;> simp only [Statement.exec] at h
  case addPoolTotal =>
    split at h
    · rw [← Except.ok.inj h]
      rfl
    · cases h
  all_goals
    rw [← Except.ok.inj h]
    rfl

-----------------------------------------------------------------------------------------
-- Each table from its own rows
-----------------------------------------------------------------------------------------

def Statement.leaf? : Statement → Option CommitmentRow
  | .insertCommitment row => some row
  | _ => none

def Statement.nullifier? : Statement → Option NullifierRow
  | .insertNullifier row => some row
  | _ => none

def Statement.issuer? : Statement → Option IssuerRow
  | .upsertIssuer row => some row
  | _ => none

/-- What the upsert of an issuer keeps of the stored row. -/
def IssuerRow.update (row old : IssuerRow) : IssuerRow :=
  { row with registeredLedger := old.registeredLedger }

theorem issuer_lastWins : LastWins IssuerRow.issuerId IssuerRow.update where
  key _ _ same := same
  self _ := rfl
  absorb _ _ _ := rfl

/-- Every table is the fold of its own rows. -/
theorem foldl_apply (statements : List Statement)
    : statements.foldl KeyedTables.apply .empty
      = { commitments :=
            insertAllIgnore CommitmentRow.conflict [] (statements.filterMap Statement.leaf?)
          nullifiers :=
            insertAllIgnore NullifierRow.conflict [] (statements.filterMap Statement.nullifier?)
          issuers :=
            (statements.filterMap Statement.issuer?).foldl
              (upsertRow IssuerRow.issuerId IssuerRow.update) [] } := by
  induction statements using List.reverseRecOn with
  | nil => rfl
  | append_singleton statements st ih =>
      rw [List.foldl_concat, ih]
      simp only [List.filterMap_append, List.filterMap_cons, List.filterMap_nil]
      cases st <;> simp only [KeyedTables.apply, Statement.leaf?, Statement.nullifier?,
        Statement.issuer?, insertAllIgnore_concat, List.append_nil, List.foldl_concat]
      case upsertIssuer => rfl

/-- Only a deposit issues more than one statement, and the second of them is no leaf. -/
theorem single_leaf (codec : Codec) (contractId : String)
    : Sync.Single codec contractId (Sync.picks Statement.leaf?) := by
  intro raw
  unfold storeRaw
  split
  next event _ =>
    cases event with
    | newCommitment commitment leafIndex depositAmount asset =>
        simp only [storeEvent]
        split <;> exact Nat.le_refl 1
    | nullifierSpent | encryptedNote | withdrawal | issuerUpdated =>
        exact List.length_filter_le _ _
  next => exact Nat.zero_le _

end Attesta.Indexer

namespace Attesta.Indexer.Sync

open KeyedRows Replay

variable {codec : Codec} {contractId : String} {rpc : Rpc}

/-- The keyed tables hold what the applied statements have made of them. -/
theorem run_keyedTables {s : State} {actions : List Action}
    (ran : Machine.run (step codec contractId) State.init actions = some s)
    : keyedTables s.db = (s.log.map Prod.snd).foldl KeyedTables.apply .empty := by
  refine run_db_log
    (fun db log => keyedTables db = (log.map Prod.snd).foldl KeyedTables.apply .empty)
    ?_ (fun _ _ _ _ same => same) (fun _ _ _ same => same) rfl ran
  intro db next log position st same executed
  rw [keyedTables_exec executed, same, List.map_append, List.map_singleton, List.foldl_concat]

/-- The last pass has nothing left to do for any event of the history. -/
def AtEnd (rpc : Rpc) (contractId : String) (s : State) : Prop :=
  frontier rpc contractId (fun _ => true) s s.phase = s.chain.events.length

instance (rpc : Rpc) (contractId : String) (s : State)
    : Decidable (AtEnd rpc contractId s) :=
  inferInstanceAs (Decidable (_ = _))

/-- Whatever is watched, nothing of it is left to do. -/
theorem AtEnd.frontier {s : State} (safe : Safe rpc codec contractId s)
    (h : AtEnd rpc contractId s) (watch : Statement → Bool)
    : frontier rpc contractId watch s s.phase = s.chain.events.length := by
  have memory := safe.memory
  unfold AtEnd at h
  cases phase : s.phase with
  | idle | fetching | persisting =>
      rw [phase] at h
      exact h
  | storing lastLedger page position todo raw rest =>
      rw [phase] at h memory
      have storing : Storing rpc codec contractId s lastLedger page position todo raw rest := memory
      have inside := (List.getElem?_eq_some_iff.mp storing.event).1
      cases todo with
      | nil => exact h
      | cons st todo =>
          have here : position = s.chain.events.length := h
          omega

/-- A run that has come to the end leaves the first of conflicting rows, as one pass does. -/
theorem AtEnd.first_wins {ρ : Type*} {pick : Statement → Option ρ} {conflict : ρ → ρ → Bool}
    (single : Single codec contractId (picks pick))
    (reflexive : ∀ row, conflict row row = true) {s : State} {actions : List Action}
    (documented
      : Machine.Along (step codec contractId) (Documented rpc contractId) State.init actions)
    (ran : Machine.run (step codec contractId) State.init actions = some s)
    (atEnd : AtEnd rpc contractId s)
    : insertAllIgnore conflict [] ((s.log.map Prod.snd).filterMap pick)
      = insertAllIgnore conflict []
          ((s.chain.events.flatMap (storeRaw codec contractId)).filterMap pick) := by
  have whole := (run_moves single documented ran).first_wins_finished reflexive
    (atEnd.frontier (run_safe documented ran) (picks pick))
  rw [filterMap_flatMap single, ← picked_map_snd]
  exact whole

/-- The last row of a key is that of the history, too. -/
theorem AtEnd.last_wins {ρ κ : Type*} [BEq κ] {pick : Statement → Option ρ} (key : ρ → κ)
    (single : Single codec contractId (picks pick)) {s : State} {actions : List Action}
    (documented
      : Machine.Along (step codec contractId) (Documented rpc contractId) State.init actions)
    (ran : Machine.run (step codec contractId) State.init actions = some s)
    (atEnd : AtEnd rpc contractId s)
    : lastOf key ((s.log.map Prod.snd).filterMap pick)
      = lastOf key ((s.chain.events.flatMap (storeRaw codec contractId)).filterMap pick) := by
  funext first
  have whole := (run_moves single documented ran).last_wins_finished
    (fun row => key row == key first) (atEnd.frontier (run_safe documented ran) (picks pick))
  rw [filterMap_flatMap single, ← picked_map_snd]
  exact congrArg (Option.getD · first) whole

/-- However often passes fail, are repeated or start over, once the history has been passed the
keyed tables are those of one pass over it, and so are those of any other run.
-/
theorem keyedTables_replay (rpc : Rpc) (codec : Codec) (contractId : String) {s : State}
    {actions : List Action}
    (documented
      : Machine.Along (step codec contractId) (Documented rpc contractId) State.init actions)
    (ran : Machine.run (step codec contractId) State.init actions = some s)
    (atEnd : AtEnd rpc contractId s)
    : keyedTables s.db = onePass codec contractId s.chain.events := by
  have leaves := single_leaf codec contractId
  have nullifiers : Single codec contractId (picks Statement.nullifier?) :=
    single_of_leaf codec contractId (fun _ => rfl)
  have issuers : Single codec contractId (picks Statement.issuer?) :=
    single_of_leaf codec contractId (fun _ => rfl)
  rw [run_keyedTables ran, onePass, foldl_apply, foldl_apply]
  congr 1
  · exact atEnd.first_wins leaves (fun row => by simp [CommitmentRow.conflict]) documented ran
  · exact atEnd.first_wins nullifiers (fun row => by simp [NullifierRow.conflict]) documented ran
  · rw [foldl_upsertRow issuer_lastWins, foldl_upsertRow issuer_lastWins,
      atEnd.last_wins IssuerRow.issuerId issuers documented ran,
      atEnd.first_wins issuers (fun row => by simp) documented ran]

/-- Runs over one history that have come to its end agree on the keyed tables, however often
they have failed, started over or been set back. The tables are those of one pass.
-/
theorem keyed_tables_idempotent (rpc : Rpc) (codec : Codec) (contractId : String) {s : State}
    {actions : List Action}
    (documented
      : Machine.Along (step codec contractId) (Documented rpc contractId) State.init actions)
    (ran : Machine.run (step codec contractId) State.init actions = some s)
    (atEnd : AtEnd rpc contractId s)
    : keyedTables s.db = onePass codec contractId s.chain.events
      ∧ ∀ pass t,
          Machine.Along (step codec contractId) (Documented rpc contractId) State.init pass
          → Machine.run (step codec contractId) State.init pass = some t
          → AtEnd rpc contractId t
          → t.chain.events = s.chain.events
          → keyedTables s.db = keyedTables t.db := by
  have tables := keyedTables_replay rpc codec contractId documented ran atEnd
  refine ⟨tables, ?_⟩
  intro pass t passDocumented passed passEnd sameHistory
  rw [tables, keyedTables_replay rpc codec contractId passDocumented passed passEnd, sameHistory]

/-- The payload of an issuer event. -/
def sampleUpdate (status : String) : String :=
  "\x7b\"issuer_id\":\"iss\",\"name\":\"Bank\",\"public_key\":\"0x05\",\"claim_types\":[],"
    ++ "\"status\":\"" ++ status ++ "\"\x7d"

/-- The codec as it behaves on these payloads. -/
def registryCodec : Codec where
  fromXdrBase64 _ := none
  display _ := ""
  newCommitmentShim _ := none
  nullifierShim _ := none
  noteShim _ := none
  withdrawalShim _ := none
  issuerShim value :=
    (["active", "revoked"].map (fun status =>
      (sampleUpdate status, (⟨"iss", "Bank", "0x05", [], status⟩ : IssuerShim)))).lookup value

/-- An issuer is registered and revoked. -/
def registryHistory : List RawEvent :=
  [sampleEvent "issuer" (sampleUpdate "active") 42,
    sampleEvent "issuer" (sampleUpdate "revoked") 43]

/-- One page brings both events and all its statements are executed. -/
def registryPage : List Action :=
  [.start true, .respond 0 ⟨registryHistory, some (sampleRpc.cursorAt 2), 43⟩,
    .statement .ok, .nextEvent, .statement .ok, .nextEvent]

def registryFinish : List Action :=
  [.persist .ok, .respond 2 ⟨[], some (sampleRpc.cursorAt 2), 43⟩, .persist .ok]

/-- The page is stored, the process stopped before the cursor upsert, and the page repeated. -/
theorem keyed_tables_idempotent_crash
    : ∃ s t,
        Machine.run (step registryCodec "CREG") State.init
            (.grow registryHistory 43 :: registryPage ++ .crash :: registryPage ++ registryFinish)
          = some s
        ∧ Machine.run (step registryCodec "CREG") State.init
            (.grow registryHistory 43 :: registryPage ++ registryFinish)
          = some t
        ∧ s.db.issuers = [⟨"iss", "Bank", [5], [], "revoked", 42⟩]
        ∧ keyedTables s.db = keyedTables t.db := by
  have observed (actions : List Action)
      (listed
        : actions
          = .grow registryHistory 43 :: registryPage ++ .crash :: registryPage ++ registryFinish
          ∨ actions = .grow registryHistory 43 :: registryPage ++ registryFinish)
      : (Machine.run (step registryCodec "CREG") State.init actions).map
          (fun s => (decide (AtEnd sampleRpc "CREG" s), s.chain.events, s.db.issuers))
        = some (true, registryHistory, [⟨"iss", "Bank", [5], [], "revoked", 42⟩])
      ∧ Machine.Along (step registryCodec "CREG") (Documented sampleRpc "CREG") State.init
          actions := by
    rcases listed with rfl | rfl
    · decide +kernel
    · decide +kernel
  obtain ⟨replayed, documented⟩ := observed _ (Or.inl rfl)
  obtain ⟨single, singleDocumented⟩ := observed _ (Or.inr rfl)
  obtain ⟨s, ran, shape⟩ := Option.map_eq_some_iff.mp replayed
  obtain ⟨t, singleRan, singleShape⟩ := Option.map_eq_some_iff.mp single
  simp only [Prod.mk.injEq, decide_eq_true_eq] at shape singleShape
  obtain ⟨atEnd, events, issuers⟩ := shape
  obtain ⟨singleEnd, singleEvents, _⟩ := singleShape
  obtain ⟨_, agree⟩ := keyed_tables_idempotent sampleRpc registryCodec "CREG" documented ran atEnd
  exact ⟨s, t, ran, singleRan, issuers,
    agree _ t singleDocumented singleRan singleEnd (singleEvents.trans events.symm)⟩

end Attesta.Indexer.Sync
