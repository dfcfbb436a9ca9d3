import Attesta.Api.MailboxDurability
import Attesta.Api.Rebuild
import Attesta.Indexer.Mirror

/-! The indexer and the issuer gateway over one database. The gateway takes a delivery only from
an issuer that an event of a configured contract has made active, whatever the indexer repeats or
loses in between.
-/

namespace Attesta.Api.Issuer

/-- `SELECT ... FROM issuers WHERE status <> 'revoked' ORDER BY issuer_id`, in the collation of
the database.
-/
def listIssuers (collation : String → String → Bool) (issuers : List IssuerRow)
    : List IssuerRow :=
  (issuers.filter (fun row => row.status != "revoked")).insertionSort
    (fun a b => collation a.issuerId b.issuerId = true)

end Attesta.Api.Issuer

namespace Attesta.Api.Licensing

open Attesta.Indexer Attesta.Api.Issuer
open MailboxService (DeliverPhase Advance)

structure State where
  indexer : Run.State
  gateway : MailboxService.State

def State.start (chains : String → Sync.Chain) (hints : Nat → String) (now : Int) : State where
  indexer := .start chains
  gateway := .init hints now

inductive Action
  | index (action : Run.Action)
  | serve (action : MailboxService.Action)

variable (codec : Codec) (config : Run.Config) (env : Env)

/-- One step of either process; the gateway reads the issuers the indexer has stored. -/
def step (s : State) : Action → Option State
  | .index action =>
      (Run.step codec config s.indexer action).map (fun indexer =>
        { indexer, gateway := { s.gateway with issuers := indexer.db.issuers } })
  | .serve (.mirror _) => none
  | .serve action => (MailboxService.step env s.gateway action).map (fun gateway =>
      { s with gateway })

/-- The world around the indexer is as documented. -/
def Documented (rpc : String → Sync.Rpc) (s : State) : Action → Prop
  | .index action => Run.Documented rpc s.indexer action
  | .serve _ => True

instance (rpc : String → Sync.Rpc) (s : State)
    : (action : Action) → Decidable (Documented rpc s action)
  | .index action => inferInstanceAs (Decidable (Run.Documented rpc s.indexer action))
  | .serve _ => isTrue trivial

/-- An event of a configured contract says this of its issuer. -/
def Announced (chains : String → Sync.Chain) (issuer : IssuerRow) : Prop :=
  ∃ contractId ∈ config.contracts, IssuedBy codec chains contractId (.upsertIssuer issuer)

/-- An event of a configured contract has made the issuer active. -/
def Licensed (chains : String → Sync.Chain) (issuerId : String) : Prop :=
  ∃ issuer, Announced codec config chains issuer ∧ issuer.issuerId = issuerId
    ∧ issuer.status = "active"

/-- The request is past the check of its issuer. -/
def Cleared (licensed : String → Prop) : DeliverPhase → Prop
  | .counting delivery | .inserting delivery => licensed delivery.issuerId
  | .committing row => licensed row.issuerId
  | .checkingIssuer _ | .answered _ => True

/-- What holds of the two processes and their database. -/
structure Sound (rpc : String → Sync.Rpc) (s : State) : Prop where
  owned : s.indexer.Owned codec
  safe : ∀ contractId, Sync.Safe (rpc contractId) codec contractId (s.indexer.view contractId)
  waiting : s.indexer.waiting ⊆ config.contracts
  keyed : Keyed s.indexer.db
  shared : s.gateway.issuers = s.indexer.db.issuers
  announced
    : ∀ row ∈ s.indexer.db.issuers, ∃ issuer,
        Announced codec config s.indexer.chains issuer
        ∧ row = { issuer with registeredLedger := row.registeredLedger }
  cleared
    : ∀ i phase,
        s.gateway.deliveries i = some phase
        → Cleared (Licensed codec config s.indexer.chains) phase
  accepted
    : ∀ row ∈ s.gateway.accepted,
        Licensed codec config s.indexer.chains row.issuerId
        ∧ row.issuerId ∈ s.indexer.db.issuers.map IssuerRow.issuerId

variable {codec config env}

theorem Announced.mono {chains later : String → Sync.Chain} {issuer : IssuerRow}
    (h : Announced codec config chains issuer)
    (grows : ∀ contractId, (chains contractId).events ⊆ (later contractId).events)
    : Announced codec config later issuer := by
  obtain ⟨contractId, configured, raw, event, issued⟩ := h
  exact ⟨contractId, configured, raw, grows contractId event, issued⟩

theorem Licensed.mono {chains later : String → Sync.Chain} {issuerId : String}
    (h : Licensed codec config chains issuerId)
    (grows : ∀ contractId, (chains contractId).events ⊆ (later contractId).events)
    : Licensed codec config later issuerId := by
  obtain ⟨issuer, announced, rest⟩ := h
  exact ⟨issuer, announced.mono grows, rest⟩

theorem Cleared.mono {weaker stronger : String → Prop} (implies : ∀ id, stronger id → weaker id)
    {phase : DeliverPhase} (h : Cleared stronger phase)
    : Cleared weaker phase := by
  cases phase with
  | counting | inserting | committing => exact implies _ h
  | checkingIssuer | answered => trivial

-----------------------------------------------------------------------------------------
-- The indexer
-----------------------------------------------------------------------------------------

/-- Chains only grow. -/
theorem step_chains {s t : Run.State} {action : Run.Action}
    (stepped : Run.step codec config s action = some t) (contractId : String)
    : (s.chains contractId).events ⊆ (t.chains contractId).events := by
  cases action with
  | grow other events head =>
      obtain rfl := Option.some.inj stepped
      by_cases same : contractId = other
      · subst same
        simp
      · simp [Function.update_of_ne same]
  | poll =>
      obtain ⟨_, rfl⟩ := Run.poll_step stepped
      exact List.Subset.refl _
  | sync action =>
      obtain ⟨_, _, _, _, _, _, rfl⟩ := Run.sync_step stepped
      exact List.Subset.refl _
  | crash | resetCursor =>
      obtain rfl := Option.some.inj stepped
      exact List.Subset.refl _

/-- A statement on the tables announces what it stores of an issuer. -/
theorem announced_exec {chains : String → Sync.Chain} {contractId : String} {raw : RawEvent}
    {st : Statement} {db next : Db} (configured : contractId ∈ config.contracts)
    (event : raw ∈ (chains contractId).events) (issued : st ∈ storeRaw codec contractId raw)
    (announced
      : ∀ row ∈ db.issuers, ∃ issuer,
          Announced codec config chains issuer
          ∧ row = { issuer with registeredLedger := row.registeredLedger })
    (executed : st.exec db = .ok next)
    : ∀ row ∈ next.issuers, ∃ issuer,
        Announced codec config chains issuer
        ∧ row = { issuer with registeredLedger := row.registeredLedger } := by
  cases st <;> simp only [Statement.exec] at executed
  case upsertIssuer row =>
    intro found member
    rw [← Except.ok.inj executed] at member
    have here : Announced codec config chains row := ⟨contractId, configured, raw, event, issued⟩
    rcases mem_upsertIssuerRows member with old | rfl | ⟨old, _, _, rfl⟩
    · exact announced found old
    · exact ⟨found, here, rfl⟩
    · exact ⟨row, here, rfl⟩
  case addPoolTotal =>
    split at executed
    · exact Except.ok.inj executed ▸ announced
    · cases executed
  all_goals exact Except.ok.inj executed ▸ announced

theorem Sound.index {rpc : String → Sync.Rpc} {s : State} (h : Sound codec config rpc s)
    {action : Run.Action} (documented : Run.Documented rpc s.indexer action)
    {indexer : Run.State} (stepped : Run.step codec config s.indexer action = some indexer)
    : Sound codec config rpc
        { indexer, gateway := { s.gateway with issuers := indexer.db.issuers } } := by
  have grows := step_chains stepped
  have kept : ∀ row ∈ s.indexer.db.issuers, ∃ issuer,
      Announced codec config indexer.chains issuer
      ∧ row = { issuer with registeredLedger := row.registeredLedger } := by
    intro row member
    obtain ⟨issuer, announced, same⟩ := h.announced row member
    exact ⟨issuer, announced.mono grows, same⟩
  obtain ⟨keyed, continues⟩ := Run.step_kept h.keyed stepped
  have ids : s.indexer.db.issuers.map IssuerRow.issuerId
      ⊆ indexer.db.issuers.map IssuerRow.issuerId := by
    have registered := (continues.issuers.map Prod.fst).subset
    rw [List.map_map, List.map_map] at registered
    exact registered
  refine {
    owned := Run.step_owned h.owned stepped
    safe := Run.step_view_safe documented h.owned h.safe stepped
    waiting := Run.step_waiting h.waiting stepped
    keyed
    shared := rfl
    announced := ?_
    cleared := fun i phase at_ => (h.cleared i phase at_).mono fun id licensed =>
      licensed.mono grows
    accepted := fun row member =>
      ⟨(h.accepted row member).1.mono grows, ids (h.accepted row member).2⟩
  }
  cases action with
  | grow =>
      obtain rfl := Option.some.inj stepped
      exact kept
  | poll =>
      obtain ⟨_, rfl⟩ := Run.poll_step stepped
      exact kept
  | crash | resetCursor =>
      obtain rfl := Option.some.inj stepped
      exact kept
  | sync action =>
      obtain ⟨contractId, rest, next, waiting, _, went, rfl⟩ := Run.sync_step stepped
      rcases Sync.step_executes (h.safe contractId) went with same | executed
      · change ∀ row ∈ next.db.issuers, _
        rw [same.issuers]
        exact kept
      · obtain ⟨raw, event, st, issued, result⟩ := executed
        have configured : contractId ∈ config.contracts :=
          h.waiting (waiting ▸ List.mem_cons_self)
        exact announced_exec configured event issued kept result

-----------------------------------------------------------------------------------------
-- The gateway
-----------------------------------------------------------------------------------------

theorem serve_step {s t : State} {action : MailboxService.Action}
    (stepped : step codec config env s (.serve action) = some t)
    : (∀ issuers, action ≠ .mirror issuers)
      ∧ ∃ gateway, MailboxService.step env s.gateway action = some gateway
          ∧ t = { s with gateway } := by
  cases action with
  | mirror => cases stepped
  | _ =>
      refine ⟨fun _ same => (nomatch same), ?_⟩
      simp only [step, Option.map_eq_some_iff] at stepped
      obtain ⟨gateway, went, rfl⟩ := stepped
      exact ⟨gateway, went, rfl⟩

/-- The gateway itself never writes to the issuer table. -/
theorem issuers_of_serve {s t : MailboxService.State} {action : MailboxService.Action}
    (own : ∀ issuers, action ≠ .mirror issuers)
    (stepped : MailboxService.step env s action = some t)
    : t.issuers = s.issuers := by
  cases MailboxService.step_effect stepped with
  | mirrored issuers => exact absurd rfl (own issuers)
  | _ => rfl

/-- An issuer that may deliver is licensed. -/
theorem licensed_of_active {chains : String → Sync.Chain} {issuers : List IssuerRow}
    (announced
      : ∀ row ∈ issuers, ∃ issuer,
          Announced codec config chains issuer
          ∧ row = { issuer with registeredLedger := row.registeredLedger })
    {issuerId : String} (active : (selectActiveIssuer issuers issuerId).isSome)
    : Licensed codec config chains issuerId := by
  obtain ⟨row, found⟩ := Option.isSome_iff_exists.mp active
  have matched := List.find?_some found
  simp only [Bool.and_eq_true, beq_iff_eq] at matched
  obtain ⟨issuer, announcement, same⟩ := announced row (List.mem_of_find?_eq_some found)
  refine ⟨issuer, announcement, ?_, ?_⟩
  · exact (congrArg IssuerRow.issuerId same).symm.trans matched.1
  · exact (congrArg IssuerRow.status same).symm.trans matched.2

theorem Sound.serve {rpc : String → Sync.Rpc} {s : State} (h : Sound codec config rpc s)
    {action : MailboxService.Action} (own : ∀ issuers, action ≠ .mirror issuers)
    {gateway : MailboxService.State}
    (stepped : MailboxService.step env s.gateway action = some gateway)
    : Sound codec config rpc { s with gateway } := by
  refine { h with shared := ?_, cleared := ?_, accepted := ?_ }
  · exact (issuers_of_serve own stepped).trans h.shared
  · intro i phase at_
    rcases MailboxService.step_advances stepped i with same | ⟨next, here, advances⟩
    · exact h.cleared i phase (same ▸ at_)
    · obtain rfl := Option.some.inj (at_.symm.trans here)
      cases advances with
      | refused | validated | committed => trivial
      | vetted _ active onwards =>
          have licensed := licensed_of_active (h.shared ▸ h.announced) active
          rcases onwards with rfl | ⟨_, rfl⟩ <;> exact licensed
      | counted before =>
          have licensed := h.cleared i _ before
          exact licensed
      | inserted deliveryId before =>
          have licensed := h.cleared i _ before
          exact licensed
  · intro row member
    cases MailboxService.step_effect stepped with
    | @committed i new phase admits =>
        rcases List.mem_append.mp member with old | here
        · exact h.accepted row old
        · obtain rfl := List.mem_singleton.mp here
          exact ⟨h.cleared i _ phase, h.shared ▸ admits.1⟩
    | _ => exact h.accepted row member

-----------------------------------------------------------------------------------------
-- Both processes
-----------------------------------------------------------------------------------------

theorem step_sound {rpc : String → Sync.Rpc} {s t : State} {action : Action}
    (documented : Documented rpc s action) (h : Sound codec config rpc s)
    (stepped : step codec config env s action = some t)
    : Sound codec config rpc t := by
  cases action with
  | index action =>
      obtain ⟨indexer, went, rfl⟩ := Option.map_eq_some_iff.mp stepped
      exact h.index documented went
  | serve action =>
      obtain ⟨own, gateway, went, rfl⟩ := serve_step stepped
      exact h.serve own went

theorem start_sound (rpc : String → Sync.Rpc) {chains : String → Sync.Chain}
    (closed : ∀ contractId, (chains contractId).Closed) (hints : Nat → String) (now : Int)
    : Sound codec config rpc (.start chains hints now) where
  owned := Run.start_owned codec chains
  safe := Run.start_view_safe rpc codec closed
  waiting := List.nil_subset _
  keyed := (Run.empty_mirrors codec chains).keyed
  shared := rfl
  announced _ member := nomatch member
  cleared _ _ at_ := nomatch at_
  accepted _ member := nomatch member

/-- For the gateway alone, what the indexer does is a change of the mirror. -/
theorem step_refines {s t : State} {action : Action}
    (stepped : step codec config env s action = some t)
    : t.gateway = s.gateway
      ∨ ∃ served, MailboxService.step env s.gateway served = some t.gateway := by
  cases action with
  | index action =>
      obtain ⟨indexer, _, rfl⟩ := Option.map_eq_some_iff.mp stepped
      exact Or.inr ⟨.mirror indexer.db.issuers, rfl⟩
  | serve action =>
      obtain ⟨_, gateway, went, rfl⟩ := serve_step stepped
      exact Or.inr ⟨action, went⟩

/-- No delivery without a licence. In every run of the indexer and the gateway over one database,
with crashes, repeated pages and failing statements, each stored delivery names an issuer of the
table that an event of a configured contract has made active, and `list_issuers` repeats what
such events say.
-/
theorem stored_licensed (rpc : String → Sync.Rpc) (codec : Codec) (config : Run.Config) (env : Env)
    (collation : String → String → Bool) {chains : String → Sync.Chain}
    (closed : ∀ contractId, (chains contractId).Closed) {hints : Nat → String} {now : Int}
    {actions : List Action} {s : State}
    (documented
      : Machine.Along (step codec config env) (Documented rpc) (.start chains hints now) actions)
    (ran : Machine.run (step codec config env) (.start chains hints now) actions = some s)
    : (∀ row ∈ s.gateway.mailbox.rows,
        Licensed codec config s.indexer.chains row.issuerId
        ∧ row.issuerId ∈ s.indexer.db.issuers.map IssuerRow.issuerId)
      ∧ ∀ row ∈ listIssuers collation s.gateway.issuers, ∃ issuer,
          Announced codec config s.indexer.chains issuer
          ∧ row = { issuer with registeredLedger := row.registeredLedger }
          ∧ issuer.status ≠ "revoked" := by
  have sound : Sound codec config rpc s :=
    Machine.invariant_along (fun _ _ _ => step_sound) (start_sound rpc closed hints now)
      documented ran
  obtain ⟨served, gatewayRan⟩
      : Machine.Reachable (MailboxService.step env) (.init hints now) s.gateway :=
    Machine.reachable_of_refines State.gateway (fun _ _ _ => step_refines) ran
  constructor
  · intro row stored
    obtain ⟨original, accepted, same⟩ :=
      (MailboxService.run_numbered gatewayRan).stored row stored
    rw [same]
    exact sound.accepted original accepted
  · intro row listed
    rw [listIssuers, List.mem_insertionSort, List.mem_filter, sound.shared] at listed
    obtain ⟨issuer, announced, same⟩ := sound.announced row listed.1
    refine ⟨issuer, announced, same, fun revoked => ?_⟩
    have status := (congrArg IssuerRow.status same).trans revoked
    simp [status] at listed

open Sync (registryCodec registryHistory registryPage sampleRpc)

/-- A delivery is accepted between the registration of its issuer and the revocation. -/
def revokedLater : List Action :=
  (.grow "CREG" registryHistory 43 :: .poll
    :: (registryPage.take 4).map Run.Action.sync).map .index
  ++ [.serve (.deliver 0 { MailboxService.sampleRequest with issuerId := "iss" }),
    .serve (.checkIssuer 0 true), .serve (.count 0 true)]
  ++ (registryPage.drop 4).map (fun action => .index (.sync action))
  ++ [.serve (.insert 0 7), .serve (.commit 0 true)]

theorem stored_licensed_revoked_later
    : ∃ s,
        Machine.run
            (step registryCodec ⟨[], some "CREG"⟩ (MailboxService.sampleEnv 10))
            (.start (fun _ => ⟨[], 0⟩) (fun _ => "hint") 0) revokedLater
          = some s
        ∧ s.gateway.mailbox.rows.map CredentialDeliveryRow.issuerId = ["iss"]
        ∧ listIssuers (fun a b => decide (a ≤ b)) s.gateway.issuers = []
        ∧ Licensed registryCodec ⟨[], some "CREG"⟩ s.indexer.chains "iss" := by
  have observed
      : (Machine.run
            (step registryCodec ⟨[], some "CREG"⟩ (MailboxService.sampleEnv 10))
            (.start (fun _ => ⟨[], 0⟩) (fun _ => "hint") 0) revokedLater).map
          (fun s => (s.gateway.mailbox.rows.map CredentialDeliveryRow.issuerId,
            s.gateway.issuers.map IssuerRow.status))
        = some (["iss"], ["revoked"]) := by
    decide +kernel
  have documented
      : Machine.Along
          (step registryCodec ⟨[], some "CREG"⟩ (MailboxService.sampleEnv 10))
          (Documented fun _ => sampleRpc) (.start (fun _ => ⟨[], 0⟩) (fun _ => "hint") 0)
          revokedLater := by
    decide +kernel
  obtain ⟨s, ran, shape⟩ := Option.map_eq_some_iff.mp observed
  obtain ⟨stored, statuses⟩ := Prod.mk.inj shape
  obtain ⟨licensed, listed⟩ := stored_licensed (fun _ => sampleRpc) registryCodec ⟨[], some "CREG"⟩
    (MailboxService.sampleEnv 10) (fun a b => decide (a ≤ b)) Run.init_closed documented ran
  have one : "iss" ∈ s.gateway.mailbox.rows.map CredentialDeliveryRow.issuerId := by
    simp [stored]
  obtain ⟨row, member, same⟩ := List.mem_map.mp one
  refine ⟨s, ran, stored, ?_, same ▸ (licensed row member).1⟩
  refine List.eq_nil_iff_forall_not_mem.mpr fun other found => ?_
  rw [listIssuers, List.mem_insertionSort, List.mem_filter] at found
  have status := List.mem_map_of_mem (f := IssuerRow.status) found.1
  rw [statuses, List.mem_singleton] at status
  simp [status] at found

end Attesta.Api.Licensing
