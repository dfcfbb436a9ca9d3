import Attesta.Api.IssuerMirror
import Attesta.Indexer.Run

/-! How far the contracts of one indexer are kept apart. Their rows never meet. The issuers have
no contract, and `store_event` goes by the name of an event alone, so any contract can write
the mirror of the registry.
-/

namespace Attesta.Indexer.Run

open KeyedRows Sync Attesta.Api.Issuer

/-- The upsert of the row would change what is stored of the issuer. -/
def SaysNew (db : Db) (row : IssuerRow) : Prop :=
  ∀ stored ∈ issuerRow db row.issuerId, issuerValues stored ≠ issuerValues row

/-- The statement a step applies, with its contract and the number of its event. -/
def appliedStep (s : State) : Action → Option (String × Nat × Statement)
  | .sync action =>
      s.waiting.head?.bind (fun contractId =>
        (appliedBy (s.view contractId) action).map (fun entry => (contractId, entry)))
  | _ => none

/-- A contract that is not the registry stores an issuer event with something new. -/
def Meddles (config : Config) (s : State) (action : Action) : Prop :=
  ∃ applied ∈ appliedStep s action,
    config.registryContractId ≠ some applied.1
    ∧ ∃ row ∈ applied.2.2.issuer?, SaysNew s.db row

/-- Every row a step changes belongs to the contract that is being synced. -/
def RowsOwned (codec : Codec) (config : Config) (s : State) (action : Action) : Prop :=
  ∀ t, step codec config s action = some t
    → ∀ other, s.waiting.head? ≠ some other → rowsOf other t.db = rowsOf other s.db

/-- The issuers only change while the registry is being synced. -/
def RegistryOnly (codec : Codec) (config : Config) (s : State) (action : Action) : Prop :=
  ∀ t, step codec config s action = some t → t.db.issuers ≠ s.db.issuers
    → ∃ registry ∈ config.registryContractId, s.waiting.head? = some registry

instance (db : Db) (row : IssuerRow) : Decidable (SaysNew db row) :=
  inferInstanceAs (Decidable (∀ stored ∈ issuerRow db row.issuerId, _))

instance (config : Config) (s : State) (action : Action) : Decidable (Meddles config s action) :=
  inferInstanceAs (Decidable (∃ applied ∈ appliedStep s action, _))

variable {codec : Codec} {config : Config}

/-- An upsert changes the table exactly if it says something new of its issuer. -/
theorem upsert_ne_iff {db : Db} (unique : NoConflict sameIssuer db.issuers) (row : IssuerRow)
    : upsertIssuerRows row db.issuers ≠ db.issuers ↔ SaysNew db row := by
  constructor
  · intro changed stored found values
    refine changed ?_
    have member := List.mem_of_find?_eq_some found
    have own : stored.issuerId = row.issuerId := by simpa using List.find?_some found
    have hit : db.issuers.any (fun old => old.issuerId == row.issuerId) = true :=
      List.any_eq_true.mpr ⟨stored, member, by simp [own]⟩
    rw [upsertIssuerRows, upsert, if_pos hit]
    refine (List.map_congr_left fun old listed => ?_).trans (List.map_id _)
    by_cases mine : old.issuerId = row.issuerId
    · have clash : sameIssuer old stored = true := by simp [sameIssuer, mine, own]
      obtain rfl := unique.eq_of_conflict (fun _ _ => BEq.comm) listed member clash
      simp only [issuerValues, Prod.mk.injEq] at values
      obtain ⟨name, publicKey, claimTypes, status⟩ := values
      cases old
      cases row
      simp_all
    · simp [mine]
  · intro new same
    have executed : (Statement.upsertIssuer row).exec db = .ok db := by
      simp only [Statement.exec, same]
    obtain ⟨stored, found, values⟩ := (issuerRow_exec executed row.issuerId).1 rfl
    exact new stored found values

/-- What a step of a contract adds to its log and does to the issuers. -/
theorem step_applied {contractId : String} {s t : Sync.State} {action : Sync.Action}
    (stepped : Sync.step codec contractId s action = some t)
    : t.log = s.log ++ (appliedBy s action).toList
      ∧ t.db.issuers
        = ((appliedBy s action).bind (fun entry => entry.2.issuer?)).toList.foldl
            (upsertRow IssuerRow.issuerId IssuerRow.update) s.db.issuers := by
  have executed {st : Statement} {next : Db} (result : st.exec s.db = .ok next)
      : next.issuers
        = st.issuer?.toList.foldl (upsertRow IssuerRow.issuerId IssuerRow.update)
            s.db.issuers := by
    have tables := congrArg KeyedTables.issuers (keyedTables_exec result)
    cases st <;> exact tables
  cases step_effect stepped with
  | executed phase result | lost phase result =>
      simp only [appliedBy, phase, result]
      exact ⟨rfl, executed result⟩
  | @notExecuted lastLedger page position st todo raw rest outcome phase failed =>
      have nothing : appliedBy s (.statement outcome) = none := by
        rcases failed with rfl | ⟨e, refused⟩
        · simp [appliedBy, phase]
        · rcases outcome with _ | _ | _ <;> simp [appliedBy, phase, refused]
      rw [nothing]
      exact ⟨(List.append_nil _).symm, rfl⟩
  | undone phase =>
      have nothing : appliedBy s (.statement .undone) = none := by simp [appliedBy, phase]
      rw [nothing]
      exact ⟨(List.append_nil _).symm, rfl⟩
  | persisted | persistLost | resetCursor | grow | notStarted | started | responded
  | overflowed | rpcError | nextEvent | notPersisted | crash =>
      exact ⟨(List.append_nil _).symm, rfl⟩

/-- The same for a step of the poll loop. -/
theorem step_applies {s t : State} {action : Action}
    (stepped : step codec config s action = some t)
    : (∀ contractId,
        t.logs contractId
          = s.logs contractId
            ++ ((appliedStep s action).toList.filter
              (fun applied => applied.1 == contractId)).map Prod.snd)
      ∧ t.db.issuers
        = ((appliedStep s action).bind (fun applied => applied.2.2.issuer?)).toList.foldl
            (upsertRow IssuerRow.issuerId IssuerRow.update) s.db.issuers := by
  cases action with
  | grow | crash | resetCursor =>
      obtain rfl := Option.some.inj stepped
      exact ⟨fun _ => (List.append_nil _).symm, rfl⟩
  | poll =>
      obtain ⟨_, rfl⟩ := poll_step stepped
      exact ⟨fun _ => (List.append_nil _).symm, rfl⟩
  | sync action =>
      obtain ⟨first, rest, next, waiting, _, went, rfl⟩ := sync_step stepped
      obtain ⟨log, issuers⟩ := step_applied went
      have head : s.waiting.head? = some first := by rw [waiting]; rfl
      have applied
          : appliedStep s (.sync action)
            = (appliedBy (s.view first) action).map (fun entry => (first, entry)) := by
        rw [appliedStep, head, Option.bind_some]
      constructor
      · intro contractId
        simp only [State.advance, applied]
        by_cases same : first = contractId
        · subst same
          rw [Function.update_self, log]
          cases appliedBy (s.view first) action <;> simp [State.view]
        · rw [Function.update_of_ne (Ne.symm same)]
          cases appliedBy (s.view first) action <;> simp [same]
      · refine issuers.trans ?_
        rw [applied]
        cases appliedBy (s.view first) action <;> rfl

/-- Only the contract that is being synced has statements applied. -/
theorem waiting_of_applied {s : State} {action : Action} {contractId : String}
    {entry : Nat × Statement} (applied : appliedStep s action = some (contractId, entry))
    : s.waiting.head? = some contractId := by
  cases action with
  | sync action =>
      obtain ⟨first, waiting, mapped⟩ := Option.bind_eq_some_iff.mp applied
      obtain ⟨_, _, same⟩ := Option.map_eq_some_iff.mp mapped
      rw [waiting, (Prod.mk.inj same).1]
  | grow | poll | crash | resetCursor => cases applied

theorem step_rowsOwned {s t : State} {action : Action} (owned : s.Owned codec)
    (stepped : step codec config s action = some t)
    : RowsOwned codec config s action := by
  intro next went other apart
  rcases step_acts_or_spares owned went other with ⟨own, projected, _⟩ | spared
  · cases action with
    | grow | crash | resetCursor =>
        obtain rfl := Option.some.inj went
        rfl
    | poll => cases projected
    | sync action => exact absurd (Option.ite_none_right_eq_some.mp projected).1 apart
  · exact spared.rows

/-- A step of another contract changes the issuers exactly if it meddles. -/
theorem step_registryOnly_iff {s t : State} {action : Action}
    (unique : NoConflict sameIssuer s.db.issuers)
    (stepped : step codec config s action = some t)
    : RegistryOnly codec config s action ↔ ¬ Meddles config s action := by
  have issuers := (step_applies stepped).2
  simp only [RegistryOnly, Meddles, stepped, Option.some.injEq, forall_eq']
  cases applied : appliedStep s action with
  | none =>
      rw [applied] at issuers
      have same : t.db.issuers = s.db.issuers := issuers
      simp [same]
  | some entry =>
      obtain ⟨contractId, position, st⟩ := entry
      have head := waiting_of_applied applied
      rw [applied, Option.bind_some] at issuers
      cases kind : st.issuer? with
      | none =>
          rw [kind] at issuers
          have same : t.db.issuers = s.db.issuers := issuers
          simp [same, kind]
      | some row =>
          rw [kind] at issuers
          have upserted : t.db.issuers = upsertIssuerRows row s.db.issuers := issuers
          rw [upserted, upsert_ne_iff unique]
          simp only [head, Option.some.injEq, Option.mem_def, exists_eq_right', exists_eq_left',
            kind, not_and, ne_eq]
          constructor
          · intro only other new
            exact other (only new)
          · intro meddles new
            by_contra other
            exact meddles other new

theorem step_unique {s t : State} {action : Action} (unique : NoConflict sameIssuer s.db.issuers)
    (stepped : step codec config s action = some t)
    : NoConflict sameIssuer t.db.issuers := by
  rw [(step_applies stepped).2]
  cases (appliedStep s action).bind (fun applied => applied.2.2.issuer?) with
  | none => exact unique
  | some row => exact unique.upsertRow issuer_lastWins.key row

/-- The issuers a log makes. -/
def issuersOf (log : List (Nat × Statement)) : List IssuerRow :=
  (log.filterMap (fun entry => entry.2.issuer?)).foldl
    (upsertRow IssuerRow.issuerId IssuerRow.update) []

theorem issuersOf_concat (log : List (Nat × Statement)) (position : Nat) (st : Statement)
    : issuersOf (log ++ [(position, st)])
      = st.issuer?.toList.foldl (upsertRow IssuerRow.issuerId IssuerRow.update)
          (issuersOf log) := by
  rw [issuersOf, List.filterMap_append, List.foldl_append]
  cases kind : st.issuer? <;> simp [kind, issuersOf]

/-- What has been applied for the registry, nothing if none is configured. -/
def registryLog (config : Config) (s : State) : List (Nat × Statement) :=
  config.registryContractId.elim [] s.logs

/-- As long as nobody meddles, the issuers are what the registry has made of them. -/
theorem step_issuersOf {s t : State} {action : Action}
    (unique : NoConflict sameIssuer s.db.issuers) (apart : ¬ Meddles config s action)
    (stepped : step codec config s action = some t)
    (h : s.db.issuers = issuersOf (registryLog config s))
    : t.db.issuers = issuersOf (registryLog config t) := by
  obtain ⟨logs, issuers⟩ := step_applies stepped
  have only := (step_registryOnly_iff unique stepped).mpr apart t stepped
  cases applied : appliedStep s action with
  | none =>
      simp only [applied, Option.toList_none, List.filter_nil, List.map_nil, List.append_nil]
        at logs
      rw [applied] at issuers
      rw [registryLog, funext logs]
      exact Eq.trans issuers h
  | some entry =>
      obtain ⟨contractId, position, st⟩ := entry
      have head := waiting_of_applied applied
      by_cases registry : config.registryContractId = some contractId
      · have log : t.logs contractId = s.logs contractId ++ [(position, st)] := by
          simpa [applied] using logs contractId
        rw [applied, Option.bind_some] at issuers
        rw [issuers, h]
        simp only [registryLog, registry, Option.elim_some, log, issuersOf_concat]
      · have same : t.db.issuers = s.db.issuers := by
          by_contra changed
          obtain ⟨other, configured, waiting⟩ := only changed
          exact registry (configured.trans (waiting.symm.trans head))
        rw [same, h]
        refine congrArg issuersOf ?_
        cases configured : config.registryContractId with
        | none => simp only [registryLog, configured, Option.elim_none]
        | some other =>
            have apart : contractId ≠ other := fun same => registry (same ▸ configured)
            have log : t.logs other = s.logs other := by simpa [applied, apart] using logs other
            simp only [registryLog, configured, Option.elim_some, log]

/-- The whole run, by induction with the uniqueness of the issuers. -/
theorem run_issuersOf {chains : String → Chain} {s : State} {actions : List Action}
    (apart
      : Machine.Along (step codec config) (fun s action => ¬ Meddles config s action)
          (.start chains) actions)
    (ran : Machine.run (step codec config) (.start chains) actions = some s)
    : s.db.issuers = issuersOf (registryLog config s) := by
  have preserved (before : State) (action : Action) (after : State)
      (quiet : ¬ Meddles config before action)
      (inv
        : NoConflict sameIssuer before.db.issuers
          ∧ before.db.issuers = issuersOf (registryLog config before))
      (stepped : step codec config before action = some after)
      : NoConflict sameIssuer after.db.issuers
        ∧ after.db.issuers = issuersOf (registryLog config after) :=
    ⟨step_unique inv.1 stepped, step_issuersOf inv.1 quiet stepped inv.2⟩
  have first : registryLog config (.start chains) = [] := by
    cases configured : config.registryContractId <;> simp [registryLog, configured, State.start]
  have start : NoConflict sameIssuer (State.start chains).db.issuers := List.Pairwise.nil
  exact (Machine.invariant_along preserved ⟨start, by rw [first]; rfl⟩ apart ran).2


/-- How far a pass has come does not depend on the other contracts. -/
theorem frontier_of_alike {rpc : Rpc} {contractId : String} {s t : Sync.State}
    (h : Alike contractId s t) (watch : Statement → Bool)
    : frontier rpc contractId watch s s.phase = Sync.frontier rpc contractId watch t t.phase := by
  rw [h.phase]
  cases t.phase <;> simp only [Sync.frontier, rowPosition, h.cursor, h.chain]

/-- At the end of the registry's history its log makes the issuers of one pass over it. -/
theorem issuersOf_finished {rpc : String → Rpc} {s : State} {actions : List Action}
    (documented : Machine.Along (step codec config) (Documented rpc) .init actions)
    (ran : Machine.run (step codec config) .init actions = some s) {contractId : String}
    (atEnd : AtEnd (rpc contractId) contractId (s.view contractId))
    : issuersOf (s.logs contractId)
      = (onePass codec contractId (s.chains contractId).events).issuers := by
  obtain ⟨own, v, ownDocumented, ownRan, alike⟩ :=
    run_documented init_closed documented ran contractId
  have finished : AtEnd (rpc contractId) contractId v := by
    rw [AtEnd, ← frontier_of_alike alike, ← alike.chain]
    exact atEnd
  have tables := keyedTables_replay (rpc contractId) codec contractId ownDocumented ownRan finished
  have folded := run_keyedTables ownRan
  rw [tables, foldl_apply] at folded
  have issuers := congrArg KeyedTables.issuers folded
  have chain : v.chain = s.chains contractId := alike.chain.symm
  have log : v.log = s.logs contractId := alike.log.symm
  rw [chain, log] at issuers
  simp only [issuers, issuersOf, List.filterMap_map]
  rfl

/-- In every run of the poll loop a contract changes no row of another one. The issuers change
only with the registry exactly if no other contract stores an issuer event with something new;
then they depend on nothing but the registry's history.
-/
theorem contracts_isolated_iff (codec : Codec) (config : Config) {s : State}
    {actions : List Action} (ran : Machine.run (step codec config) .init actions = some s)
    : Machine.Along (step codec config) (RowsOwned codec config) .init actions
      ∧ (Machine.Along (step codec config) (RegistryOnly codec config) .init actions
        ↔ Machine.Along (step codec config) (fun s action => ¬ Meddles config s action) .init
            actions)
      ∧ (Machine.Along (step codec config) (fun s action => ¬ Meddles config s action) .init
            actions
        → ∀ rpc others t,
            Machine.run (step codec config) .init others = some t
            → Machine.Along (step codec config) (fun s action => ¬ Meddles config s action)
                .init others
            → Machine.Along (step codec config) (Documented rpc) .init actions
            → Machine.Along (step codec config) (Documented rpc) .init others
            → (∀ registry ∈ config.registryContractId,
                AtEnd (rpc registry) registry (s.view registry)
                ∧ AtEnd (rpc registry) registry (t.view registry)
                ∧ s.chains registry = t.chains registry)
            → s.db.issuers = t.db.issuers) := by
  have unique : NoConflict sameIssuer State.init.db.issuers := List.Pairwise.nil
  refine ⟨?_, ?_, ?_⟩
  · refine (Machine.along_congr (fun _ _ _ owned stepped => step_owned owned stepped)
      (fun s action t owned stepped => ?_) (start_owned codec _) ran).mpr
      (Machine.along_of_forall (fun action (_ : action ∈ actions) => trivial) State.init)
    exact iff_of_true (step_rowsOwned owned stepped) trivial
  · exact Machine.along_congr (fun _ _ _ unique stepped => step_unique unique stepped)
      (fun _ _ _ unique stepped => step_registryOnly_iff unique stepped) unique ran
  · intro apart rpc others t ranOthers apartOthers documented documentedOthers finished
    rw [run_issuersOf apart ran, run_issuersOf apartOthers ranOthers]
    cases configured : config.registryContractId with
    | none => simp only [registryLog, configured, Option.elim_none]
    | some registry =>
        obtain ⟨atEnd, othersEnd, chains⟩ := finished registry configured
        simp only [registryLog, configured, Option.elim_some,
          issuersOf_finished documented ran atEnd,
          issuersOf_finished documentedOthers ranOthers othersEnd, chains]

/-- A pool and the registry. -/
def sampleConfig : Config := ⟨["CPOOL"], some "CREG"⟩

/-- A codec that also knows a note. -/
def isolationCodec : Codec := { registryCodec with noteShim := (sampleCodec 1).noteShim }

/-- One pass over what the pool and the registry have published. -/
def samplePass (poolEvents registryEvents : List RawEvent) : List Action :=
  [.grow "CPOOL" poolEvents 42, .grow "CREG" registryEvents 42, .poll]
    ++ sampleSync 0 poolEvents ++ sampleSync 0 registryEvents

/-- The note of a pool leaves the issuers to the registry. -/
theorem contracts_isolated_note
    : ∃ s t,
        Machine.run (step isolationCodec sampleConfig) .init
            (samplePass [sampleEvent "note" (sampleNote 0) 42]
              [sampleEvent "issuer" (sampleUpdate "active") 42])
          = some s
        ∧ Machine.run (step isolationCodec sampleConfig) .init
            (samplePass [] [sampleEvent "issuer" (sampleUpdate "active") 42])
          = some t
        ∧ s.db.encryptedNotes.length = 1
        ∧ s.db.issuers = t.db.issuers := by
  have observed (poolEvents : List RawEvent)
      (listed : poolEvents = [sampleEvent "note" (sampleNote 0) 42] ∨ poolEvents = [])
      : (Machine.run (step isolationCodec sampleConfig) .init
            (samplePass poolEvents [sampleEvent "issuer" (sampleUpdate "active") 42])).map
          (fun s => (s.db.encryptedNotes.length,
            decide (AtEnd sampleRpc "CREG" (s.view "CREG")), (s.chains "CREG").events,
            (s.chains "CREG").head))
        = some (poolEvents.length, true, [sampleEvent "issuer" (sampleUpdate "active") 42], 42)
      ∧ Machine.Along (step isolationCodec sampleConfig)
          (fun s action => ¬ Meddles sampleConfig s action) .init
          (samplePass poolEvents [sampleEvent "issuer" (sampleUpdate "active") 42])
      ∧ Machine.Along (step isolationCodec sampleConfig) (Documented fun _ => sampleRpc) .init
          (samplePass poolEvents [sampleEvent "issuer" (sampleUpdate "active") 42]) := by
    rcases listed with rfl | rfl
    · decide +kernel
    · decide +kernel
  obtain ⟨noted, apart, documented⟩ := observed _ (Or.inl rfl)
  obtain ⟨quiet, quietApart, quietDocumented⟩ := observed _ (Or.inr rfl)
  obtain ⟨s, ran, shape⟩ := Option.map_eq_some_iff.mp noted
  obtain ⟨t, quietRan, quietShape⟩ := Option.map_eq_some_iff.mp quiet
  simp only [Prod.mk.injEq, decide_eq_true_eq] at shape quietShape
  obtain ⟨notes, atEnd, events, head⟩ := shape
  obtain ⟨_, quietEnd, quietEvents, quietHead⟩ := quietShape
  refine ⟨s, t, ran, quietRan, notes, ?_⟩
  refine (contracts_isolated_iff isolationCodec sampleConfig ran).2.2 apart (fun _ => sampleRpc)
    _ t quietRan quietApart documented quietDocumented ?_
  intro registry configured
  obtain rfl := Option.some.inj configured
  refine ⟨atEnd, quietEnd, ?_⟩
  rw [show s.chains "CREG" = ⟨(s.chains "CREG").events, (s.chains "CREG").head⟩ from rfl, events,
    head, ← quietEvents, ← quietHead]

/-- An issuer event of a pool is stored in the mirror of the registry, which has published
nothing, and the gateway accepts deliveries of the issuer.
-/
theorem pool_registers_issuer
    : ∃ s t,
        Machine.run (step isolationCodec sampleConfig) .init
            (samplePass [sampleEvent "issuer" (sampleUpdate "active") 42] [])
          = some s
        ∧ Machine.run (step isolationCodec sampleConfig) .init (samplePass [] []) = some t
        ∧ Machine.Along (step isolationCodec sampleConfig) (Documented fun _ => sampleRpc) .init
            (samplePass [sampleEvent "issuer" (sampleUpdate "active") 42] [])
        ∧ s.chains "CREG" = t.chains "CREG"
        ∧ t.db.issuers = []
        ∧ s.db.issuers = [⟨"iss", "Bank", [5], [], "active", 42⟩]
        ∧ checkIssuer s.db.issuers "iss" = .ok () := by
  have observed
      : (Machine.run (step isolationCodec sampleConfig) .init
            (samplePass [sampleEvent "issuer" (sampleUpdate "active") 42] [])).map
          (fun s => (s.db.issuers, (s.chains "CREG").events, (s.chains "CREG").head))
        = some ([⟨"iss", "Bank", [5], [], "active", 42⟩], [], 42) := by
    decide +kernel
  have without
      : (Machine.run (step isolationCodec sampleConfig) .init (samplePass [] [])).map
          (fun s => (s.db.issuers, (s.chains "CREG").events, (s.chains "CREG").head))
        = some ([], [], 42) := by
    decide +kernel
  have documented
      : Machine.Along (step isolationCodec sampleConfig) (Documented fun _ => sampleRpc) .init
          (samplePass [sampleEvent "issuer" (sampleUpdate "active") 42] []) := by
    decide +kernel
  obtain ⟨s, ran, shape⟩ := Option.map_eq_some_iff.mp observed
  obtain ⟨t, ranWithout, shapeWithout⟩ := Option.map_eq_some_iff.mp without
  simp only [Prod.mk.injEq] at shape shapeWithout
  obtain ⟨issuers, events, head⟩ := shape
  obtain ⟨none, eventsWithout, headWithout⟩ := shapeWithout
  refine ⟨s, t, ran, ranWithout, documented, ?_, none, issuers, by rw [issuers]; rfl⟩
  rw [show s.chains "CREG" = ⟨(s.chains "CREG").events, (s.chains "CREG").head⟩ from rfl, events,
    head, ← eventsWithout, ← headWithout]


end Attesta.Indexer.Run
