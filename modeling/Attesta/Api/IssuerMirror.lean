import Attesta.Api.Issuer
import Attesta.Indexer.KeyedTables

/-! The issuer registry while history is replayed. The upsert of an issuer event overwrites
whatever newer event has been stored before, so a revoked issuer is active again from the
replay of its registration up to the replay of its revocation.
-/

namespace Attesta.Indexer

open KeyedRows

/-- The columns that follow the events. -/
def issuerValues (row : IssuerRow) : String × List UInt8 × List String × String :=
  (row.name, row.publicKey, row.claimTypes, row.status)

/-- The row is that of the newest event of its issuer among the applied statements. -/
def IsNewest (log : List (Nat × Statement)) (position : Nat) (row : IssuerRow) : Prop :=
  (position, .upsertIssuer row) ∈ log
  ∧ ∀ entry ∈ log, ∀ other ∈ entry.2.issuer?,
      other.issuerId = row.issuerId → entry.1 ≤ position

/-- The stored row of an issuer. -/
def issuerRow (db : Db) (issuerId : String) : Option IssuerRow :=
  db.issuers.find? (fun row => row.issuerId == issuerId)

/-- Every issuer has the values of its newest stored event. -/
def IssuersCurrent (db : Db) (log : List (Nat × Statement)) : Prop :=
  ∀ position row, IsNewest log position row
    → ∃ stored, issuerRow db row.issuerId = some stored ∧ issuerValues stored = issuerValues row

/-- The statement takes its issuer back behind a newer event with other values. -/
def Regress (log : List (Nat × Statement)) (position : Nat) (st : Statement) : Prop :=
  ∃ row ∈ st.issuer?, ∃ entry ∈ log, ∃ newest ∈ entry.2.issuer?,
    IsNewest log entry.1 newest ∧ newest.issuerId = row.issuerId ∧ position < entry.1
    ∧ issuerValues newest ≠ issuerValues row

instance (log : List (Nat × Statement)) (position : Nat) (row : IssuerRow)
    : Decidable (IsNewest log position row) :=
  inferInstanceAs (Decidable (_ ∧ _))

instance (log : List (Nat × Statement)) (position : Nat) (st : Statement)
    : Decidable (Regress log position st) :=
  inferInstanceAs (Decidable (∃ row ∈ st.issuer?, _))

theorem issuer?_eq_some {st : Statement} {row : IssuerRow}
    : row ∈ st.issuer? ↔ st = .upsertIssuer row := by
  cases st <;> simp [Statement.issuer?, eq_comm]

/-- The row after an upsert, for its own issuer and for any other. -/
theorem issuerRow_exec {db next : Db} {row : IssuerRow}
    (h : (Statement.upsertIssuer row).exec db = .ok next) (issuerId : String)
    : (issuerId = row.issuerId
        → ∃ stored, issuerRow next issuerId = some stored ∧ issuerValues stored = issuerValues row)
      ∧ (issuerId ≠ row.issuerId → issuerRow next issuerId = issuerRow db issuerId) := by
  obtain rfl := Except.ok.inj h
  simp only [issuerRow, upsertIssuerRows]
  constructor
  · intro own
    subst own
    rw [find?_upsert db.issuers (by simp) (by simp)]
    cases db.issuers.find? (fun old => old.issuerId == row.issuerId) <;> exact ⟨_, rfl, rfl⟩
  · intro apart
    refine find?_upsert_of_disjoint db.issuers (by simpa using apart.symm) ?_
    intro old hit
    have key : old.issuerId = row.issuerId := by simpa using hit
    simpa [key] using apart.symm

/-- A statement that is no upsert of an issuer neither changes nor is an issuer's news. -/
theorem issuersCurrent_other {db next : Db} {log : List (Nat × Statement)} {position : Nat}
    {st : Statement} (other : st.issuer? = none) (h : st.exec db = .ok next)
    : IssuersCurrent next (log ++ [(position, st)]) ↔ IssuersCurrent db log := by
  have sameRows : next.issuers = db.issuers := by
    cases st <;> simp only [Statement.exec] at h
    case upsertIssuer => cases other
    case addPoolTotal =>
      split at h
      · rw [← Except.ok.inj h]
      · cases h
    all_goals rw [← Except.ok.inj h]
  have sameNews (p : Nat) (row : IssuerRow)
      : IsNewest (log ++ [(position, st)]) p row ↔ IsNewest log p row := by
    have fresh : st ≠ .upsertIssuer row := by
      intro same
      rw [same] at other
      cases other
    simp [IsNewest, fresh.symm, other, or_imp, forall_and]
  simp only [IssuersCurrent, sameNews, issuerRow, sameRows]

/-- What is newest after one more update of an issuer. -/
theorem isNewest_concat {log : List (Nat × Statement)} {position p : Nat} {row r : IssuerRow}
    : IsNewest (log ++ [(position, .upsertIssuer row)]) p r
      ↔ ((p, .upsertIssuer r) ∈ log ∨ p = position ∧ r = row)
        ∧ (∀ entry ∈ log, ∀ other ∈ entry.2.issuer?, other.issuerId = r.issuerId → entry.1 ≤ p)
        ∧ (row.issuerId = r.issuerId → position ≤ p) := by
  simp [IsNewest, Statement.issuer?, or_imp, forall_and]

/-- An update keeps all issuers current exactly if it is no regress. Updates of one event are
the same.
-/
theorem issuersCurrent_upsert {db next : Db} {log : List (Nat × Statement)} {position : Nat}
    {row : IssuerRow} (h : (Statement.upsertIssuer row).exec db = .ok next)
    (sameEvent : ∀ other, (position, .upsertIssuer other) ∈ log → other = row)
    (current : IssuersCurrent db log)
    : IssuersCurrent next (log ++ [(position, .upsertIssuer row)])
      ↔ ¬ Regress log position (.upsertIssuer row) := by
  constructor
  · intro after regress
    obtain ⟨_, own, ⟨p, st⟩, _, newest, _, isNewest, sameIssuer, behind, differ⟩ := regress
    obtain rfl := Option.some.inj own
    have still : IsNewest (log ++ [(position, .upsertIssuer row)]) p newest :=
      isNewest_concat.mpr ⟨Or.inl isNewest.1, isNewest.2, fun _ => behind.le⟩
    obtain ⟨stored, found, values⟩ := after p newest still
    obtain ⟨overwritten, now, fresh⟩ := (issuerRow_exec h newest.issuerId).1 sameIssuer
    obtain rfl := Option.some.inj (found.symm.trans now)
    exact differ (values.symm.trans fresh)
  · intro noRegress p r newest
    obtain ⟨known, latest, ahead⟩ := isNewest_concat.mp newest
    by_cases sameIssuer : r.issuerId = row.issuerId
    · obtain ⟨stored, found, values⟩ := (issuerRow_exec h r.issuerId).1 sameIssuer
      refine ⟨stored, found, values.trans ?_⟩
      rcases known with old | ⟨_, rfl⟩
      · rcases Nat.lt_or_eq_of_le (ahead sameIssuer.symm) with behind | rfl
        · by_contra differ
          exact noRegress ⟨row, rfl, (p, .upsertIssuer r), old, r, rfl, ⟨old, latest⟩, sameIssuer,
            behind, fun same => differ same.symm⟩
        · rw [sameEvent r old]
      · rfl
    · rcases known with old | ⟨_, rfl⟩
      · rw [(issuerRow_exec h r.issuerId).2 sameIssuer]
        exact current p r ⟨old, latest⟩
      · exact absurd rfl sameIssuer

end Attesta.Indexer

namespace Attesta.Indexer.Sync

open KeyedRows Attesta.Api.Issuer

variable {codec : Codec} {contractId : String} {rpc : Rpc}

-----------------------------------------------------------------------------------------
-- Steps and runs
-----------------------------------------------------------------------------------------

/-- The statement a step applies, with the number of its event. -/
def appliedBy (s : State) : Action → Option (Nat × Statement)
  | .statement outcome =>
      match s.phase with
      | .storing _ _ position (st :: _) _ _ =>
          match outcome, st.exec s.db with
          | .ok, .ok _ | .failed true, .ok _ => some (position, st)
          | _, _ => none
      | _ => none
  | _ => none

/-- The step stores an older event of an issuer over a newer one that says something else. -/
def Regresses (s : State) (action : Action) : Prop :=
  ∃ applied ∈ appliedBy s action, Regress s.log applied.1 applied.2

instance (s : State) (action : Action) : Decidable (Regresses s action) :=
  inferInstanceAs (Decidable (∃ applied ∈ appliedBy s action, _))

theorem issuersCurrent_applied {s : State} (h : Safe rpc codec contractId s)
    (current : IssuersCurrent s.db s.log) {lastLedger : Int} {page : EventsPage}
    {position : Nat} {st : Statement} {todo : List Statement} {raw : RawEvent}
    {rest : List RawEvent} {db : Db}
    (storing
      : Storing rpc codec contractId s lastLedger page position (st :: todo) raw rest)
    (result : st.exec s.db = .ok db)
    : IssuersCurrent db (s.log ++ [(position, st)]) ↔ ¬ Regress s.log position st := by
  cases kind : st.issuer? with
  | none =>
      rw [issuersCurrent_other kind result]
      simp [current, Regress, kind]
  | some row =>
      obtain rfl := issuer?_eq_some.mp kind
      refine issuersCurrent_upsert result (fun other logged => ?_) current
      obtain ⟨event, found, issued⟩ := h.logged _ logged
      obtain rfl := Option.some.inj (storing.event.symm.trans found)
      have single : Single codec contractId (picks Statement.issuer?) :=
        single_of_leaf codec contractId (fun _ => rfl)
      have otherRow : (Statement.upsertIssuer other).issuer? = some other := rfl
      have first := itemOf_eq single issued otherRow
      have second := itemOf_eq single (storing.suffix.subset (by simp)) kind
      exact Option.some.inj (first.symm.trans second)

/-- A step keeps all issuers current exactly if it does not regress. -/
theorem step_current_iff {s t : State} {action : Action} (h : Safe rpc codec contractId s)
    (current : IssuersCurrent s.db s.log)
    (stepped : step codec contractId s action = some t)
    : IssuersCurrent t.db t.log ↔ ¬ Regresses s action := by
  have quiet (nothing : appliedBy s action = none) (after : IssuersCurrent t.db t.log)
      : IssuersCurrent t.db t.log ↔ ¬ Regresses s action := by
    simp [Regresses, nothing, after]
  have memory := h.memory
  cases step_effect stepped with
  | executed phase result | lost phase result =>
      rw [phase] at memory
      have applied := issuersCurrent_applied h current memory result
      simp only [Regresses, appliedBy, phase, result, Option.mem_some_iff, exists_eq_left']
      exact applied
  | @notExecuted lastLedger page position st todo raw rest outcome phase failed =>
      refine quiet ?_ current
      rcases failed with rfl | ⟨e, refused⟩
      · simp [appliedBy, phase]
      · cases outcome <;> simp [appliedBy, phase, refused]
  | undone phase => exact quiet (by simp [appliedBy, phase]) current
  | persisted | persistLost | resetCursor | grow | notStarted | started | responded
  | overflowed | rpcError | nextEvent | notPersisted | crash => exact quiet rfl current

/-- Two rows of one issuer. -/
def sameIssuer (a b : IssuerRow) : Bool := a.issuerId == b.issuerId

/-- The table of issuers has one row for each of them. -/
theorem issuers_unique {s : State} {actions : List Action}
    (ran : Machine.run (step codec contractId) State.init actions = some s)
    : NoConflict sameIssuer s.db.issuers := by
  have tables := congrArg KeyedTables.issuers (run_keyedTables ran)
  rw [foldl_apply] at tables
  have shape := tables.trans (foldl_upsertRow issuer_lastWins _)
  change s.db.issuers = _ at shape
  rw [shape]
  have firsts
      : NoConflict sameIssuer
          (insertAllIgnore sameIssuer [] ((s.log.map Prod.snd).filterMap Statement.issuer?)) :=
    NoConflict.insertAllIgnore List.Pairwise.nil _
  refine List.pairwise_map.mpr (firsts.imp (fun apart => ?_))
  have keys (first : IssuerRow) :=
    issuer_lastWins.key _ first (key_lastOf IssuerRow.issuerId
      ((s.log.map Prod.snd).filterMap Statement.issuer?) first)
  rw [sameIssuer, keys, keys]
  exact apart

/-- `deliver_credential` goes by the status of the stored row. -/
theorem checkIssuer_iff {db : Db}
    (unique : NoConflict sameIssuer db.issuers) {issuerId : String}
    {stored : IssuerRow} (found : issuerRow db issuerId = some stored)
    : checkIssuer db.issuers issuerId = .ok () ↔ stored.status = "active" := by
  have member := List.mem_of_find?_eq_some found
  have own : stored.issuerId = issuerId := by simpa using List.find?_some found
  unfold checkIssuer
  constructor
  · intro accepted
    split at accepted
    next row selected =>
      have chosen := List.find?_some selected
      simp only [Bool.and_eq_true, beq_iff_eq] at chosen
      have clash : sameIssuer row stored = true := by simp [sameIssuer, chosen.1, own]
      have same := unique.eq_of_conflict (fun _ _ => BEq.comm)
        (List.mem_of_find?_eq_some selected) member clash
      exact same ▸ chosen.2
    next => cases accepted
  · intro active
    cases selected : selectActiveIssuer db.issuers issuerId with
    | some row => rfl
    | none =>
        have refused := List.find?_eq_none.mp selected stored member
        simp [own, active] at refused

/-- The registry as the API sees it: the values of the newest stored event of every issuer, by
which deliveries are accepted or refused.
-/
structure RegistryMirrored (s : State) : Prop where
  values : IssuersCurrent s.db s.log
  deliveries
    : ∀ position row, IsNewest s.log position row
        → (checkIssuer s.db.issuers row.issuerId = .ok () ↔ row.status = "active")

theorem registryMirrored_iff {s : State} {actions : List Action}
    (ran : Machine.run (step codec contractId) State.init actions = some s)
    : RegistryMirrored s ↔ IssuersCurrent s.db s.log := by
  constructor
  · exact RegistryMirrored.values
  · intro current
    refine ⟨current, fun position row newest => ?_⟩
    obtain ⟨stored, found, values⟩ := current position row newest
    have status : stored.status = row.status := congrArg (fun v => v.2.2.2) values
    rw [checkIssuer_iff (issuers_unique ran) found, status]

/-- At every moment of a run the registry is that of the newest stored events exactly if no
step stores an older event of an issuer over a newer one that says something else.
-/
theorem registry_never_back_iff (rpc : Rpc) (codec : Codec) (contractId : String) {s : State}
    {actions : List Action}
    (documented
      : Machine.Along (step codec contractId) (Documented rpc contractId) State.init actions)
    (ran : Machine.run (step codec contractId) State.init actions = some s)
    : Machine.Always (step codec contractId) RegistryMirrored State.init actions
      ↔ Machine.Along (step codec contractId) (fun s action => ¬ Regresses s action) State.init
          actions := by
  have start : IssuersCurrent State.init.db State.init.log := by
    intro position row newest
    cases newest.1
  have whole := Machine.always_iff_along (Documented rpc contractId)
    (fun s => IssuersCurrent s.db s.log) (fun s action => ¬ Regresses s action)
    (fun _ _ _ => step_safe) (fun _ _ _ _ => step_current_iff)
    (init_safe rpc) start documented ran
  rw [← whole, Machine.always_iff_forall, Machine.always_iff_forall]
  constructor
  · intro always earlier later middle split reached
    exact (registryMirrored_iff reached).mp (always earlier later middle split reached)
  · intro always earlier later middle split reached
    exact (registryMirrored_iff reached).mpr (always earlier later middle split reached)

/-- What the revocation of the sample issuer stores. -/
def sampleRevocation : IssuerRow := ⟨"iss", "Bank", [5], [], "revoked", 43⟩

/-- Without a replay the revoked issuer is refused. -/
theorem registry_never_back_page
    : ∃ s,
        Machine.run (step registryCodec "CREG") State.init
            (.grow registryHistory 43 :: registryPage)
          = some s
        ∧ IsNewest s.log 1 sampleRevocation
        ∧ checkIssuer s.db.issuers "iss" ≠ .ok () := by
  have observed
      : (Machine.run (step registryCodec "CREG") State.init
          (.grow registryHistory 43 :: registryPage)).map
          (fun s => decide (IsNewest s.log 1 sampleRevocation))
        = some true := by
    decide +kernel
  have documented
      : Machine.Along (step registryCodec "CREG") (Documented sampleRpc "CREG") State.init
          (.grow registryHistory 43 :: registryPage) := by
    decide +kernel
  have ahead
      : Machine.Along (step registryCodec "CREG") (fun s action => ¬ Regresses s action)
          State.init (.grow registryHistory 43 :: registryPage) := by
    decide +kernel
  obtain ⟨s, ran, newest⟩ := Option.map_eq_some_iff.mp observed
  replace newest : IsNewest s.log 1 sampleRevocation := of_decide_eq_true newest
  have always := (registry_never_back_iff sampleRpc registryCodec "CREG" documented ran).mpr ahead
  have mirrored := always.last ran
  refine ⟨s, ran, newest, fun accepted => ?_⟩
  have active := (mirrored.deliveries 1 sampleRevocation newest).mp accepted
  simp [sampleRevocation] at active

/-- Registration and revocation are stored and the process stops before the cursor upsert. As
soon as the registration has been replayed, the revoked issuer can deliver again.
-/
theorem revoked_issuer_accepted
    : ∃ s,
        Machine.run (step registryCodec "CREG") State.init
            (.grow registryHistory 43 :: registryPage ++ .crash :: registryPage.take 3)
          = some s
        ∧ Machine.Along (step registryCodec "CREG") (Documented sampleRpc "CREG") State.init
            (.grow registryHistory 43 :: registryPage ++ .crash :: registryPage.take 3)
        ∧ IsNewest s.log 1 sampleRevocation
        ∧ checkIssuer s.db.issuers "iss" = .ok ()
        ∧ ¬ Machine.Always (step registryCodec "CREG") RegistryMirrored State.init
            (.grow registryHistory 43 :: registryPage ++ .crash :: registryPage.take 3) := by
  have observed
      : (Machine.run (step registryCodec "CREG") State.init
          (.grow registryHistory 43 :: registryPage ++ .crash :: registryPage.take 3)).map
          (fun s => (decide (IsNewest s.log 1 sampleRevocation),
            (selectActiveIssuer s.db.issuers "iss").isSome))
        = some (true, true) := by
    decide +kernel
  have documented
      : Machine.Along (step registryCodec "CREG") (Documented sampleRpc "CREG") State.init
          (.grow registryHistory 43 :: registryPage ++ .crash :: registryPage.take 3) := by
    decide +kernel
  obtain ⟨s, ran, shape⟩ := Option.map_eq_some_iff.mp observed
  simp only [Prod.mk.injEq, decide_eq_true_eq] at shape
  obtain ⟨newest, selected⟩ := shape
  obtain ⟨row, found⟩ := Option.isSome_iff_exists.mp selected
  have accepted : checkIssuer s.db.issuers "iss" = .ok () := by rw [checkIssuer, found]
  refine ⟨s, ran, documented, newest, accepted, fun always => ?_⟩
  have mirrored := always.last ran
  have active := (mirrored.deliveries 1 sampleRevocation newest).mp accepted
  simp [sampleRevocation] at active

end Attesta.Indexer.Sync
