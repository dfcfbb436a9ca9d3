import Attesta.Api.LostReplies

/-! What a cycle of the sweeper achieves while the gateway goes on. It deletes in batches, and
between two of them rows are added and claimed. The sweeper that `run_cycle` describes shares the
mailbox with the service of all requests, whose replies can get lost, and with the sweepers of
other replicas.
-/

namespace Attesta.Api.Retention

open Attesta.Indexer

variable {config : Config}

instance (config : Config) (now : Int) (row : CredentialDeliveryRow)
    : Decidable (Expired config now row) :=
  match claimed : row.claimedAt with
  | some claimedAt =>
      decidable_of_iff
        (config.days .claimed ≠ 0 ∧ claimedAt < now - (config.days .claimed).toNat * dayMicros)
        (by simp [Expired, claimed])
  | none =>
      decidable_of_iff
        (config.days .unclaimed ≠ 0
          ∧ row.createdAt < now - (config.days .unclaimed).toNat * dayMicros)
        (by simp [Expired, claimed])

/-- A row of this kind may be left over in this phase of the cycle. -/
def Pending (row : CredentialDeliveryRow) : Phase → Prop
  | .sweeping .claimed => True
  | .sweeping .unclaimed => row.claimedAt = none
  | .disabled | .sleeping | .acquiring | .locking | .unlocking => False

/-- The sweeper meets no failure and is not restarted. -/
def Action.Undisturbed : Action → Prop
  | .delete (.executed _ reported) => reported = true
  | .delete .failed | .restart => False
  | .wake | .acquire _ | .lock _ | .unlock _ | .others _ _ => True

instance : DecidablePred Action.Undisturbed
  | .delete (.executed _ reported) => inferInstanceAs (Decidable (reported = true))
  | .delete .failed | .restart => isFalse id
  | .wake | .acquire _ | .lock _ | .unlock _ | .others _ _ => isTrue trivial

/-- A row that has expired stays so. -/
theorem Expired.mono {start now : Int} (later : start ≤ now) {row : CredentialDeliveryRow}
    (expired : Expired config start row)
    : Expired config now row := by
  unfold Expired at expired ⊢
  split at expired
  next => exact ⟨expired.1, by omega⟩
  next => exact ⟨expired.1, by omega⟩

/-- Windows that survive the cast select everything that has expired before. -/
theorem predicate_of_expired {kind : Kind} (small : (config.days kind).toNat < 2 ^ 31)
    {start now cutoff : Int} (later : start ≤ now)
    (found : cutoffAt now (asI32 (config.days kind)) = some cutoff)
    {row : CredentialDeliveryRow} {since : Int} (here : kind.since row = some since)
    (expired : Expired config start row)
    : predicate cutoff kind row = true := by
  have moved := cutoffAt_eq_some found
  rw [asI32_eq, if_pos small] at moved
  obtain ⟨_, past⟩ := (expired_iff here).mp (expired.mono later)
  exact predicate_iff.mpr ⟨since, here, moved ▸ past⟩

/-- Behind the claimed rows only unclaimed ones can be left over. -/
theorem pending_afterClaimed {start : Int} {row : CredentialDeliveryRow}
    (expired : Expired config start row) (unclaimed : row.claimedAt = none)
    : Pending row (afterClaimed config) := by
  unfold afterClaimed
  split
  next off =>
    unfold Expired at expired
    rw [unclaimed] at expired
    exact expired.1 off
  next => exact unclaimed

theorem pending_afterLock {start : Int} {row : CredentialDeliveryRow}
    (expired : Expired config start row)
    : Pending row (afterLock config) := by
  unfold afterLock
  split
  next off =>
    refine pending_afterClaimed expired ?_
    unfold Expired at expired
    cases claimed : row.claimedAt with
    | none => rfl
    | some claimedAt =>
        rw [claimed] at expired
        exact absurd off expired.1
  next => trivial

/-- A batch that is not full ends the sweep of its kind. -/
theorem pending_afterSweep (small : ∀ kind, (config.days kind).toNat < 2 ^ 31)
    {start now cutoff : Int} (later : start ≤ now) {kind : Kind} {mailbox : Mailbox}
    {chosen : List CredentialDeliveryRow}
    (found : cutoffAt now (asI32 (config.days kind)) = some cutoff)
    (batch : Batch (mailbox.matching cutoff kind) chosen) (short : chosen.length < sweepBatch)
    {row : CredentialDeliveryRow} (left : row ∈ (mailbox.delete chosen).rows)
    (expired : Expired config start row) (pending : Pending row (.sweeping kind))
    : Pending row (afterSweep config kind) := by
  have none : (mailbox.delete chosen).selected (predicate cutoff kind) = [] :=
    batch.selected_delete short
  have unmatched : predicate cutoff kind row ≠ true := List.filter_eq_nil_iff.mp none row left
  cases kind with
  | claimed =>
      cases claimed : row.claimedAt with
      | none => exact pending_afterClaimed expired claimed
      | some claimedAt =>
          exact absurd (predicate_of_expired (small .claimed) later found claimed expired) unmatched
  | unclaimed =>
      have created : Kind.since .unclaimed row = some row.createdAt := by
        simp only [Pending] at pending
        simp [Kind.since, pending]
      exact absurd (predicate_of_expired (small .unclaimed) later found created expired) unmatched

/-- A sweeper that meets no failure goes on only when the rows of a kind are gone. -/
theorem step_pending (small : ∀ kind, (config.days kind).toNat < 2 ^ 31) {start : Int}
    {s t : State} {action : Action} (undisturbed : action.Undisturbed)
    (stepped : step config s action = some t) (later : start ≤ s.now)
    {row : CredentialDeliveryRow} (left : row ∈ t.mailbox.rows)
    (expired : Expired config start row) (pending : Pending row s.phase)
    : Pending row t.phase := by
  cases action with
  | wake | acquire | unlock | lock =>
      simp only [step] at stepped
      split at stepped
      next phase => exact (phase ▸ pending).elim
      next => cases stepped
  | restart => cases undisturbed
  | others mailbox now =>
      obtain rfl := Option.some.inj stepped
      exact pending
  | delete outcome =>
      cases outcome with
      | failed => cases undisturbed
      | executed chosen reported =>
          obtain rfl : reported = true := undisturbed
          simp only [step] at stepped
          split at stepped
          next kind sweeping =>
            split at stepped
            next failed => cases failed
            next => cases stepped
            next picked told cutoff same found =>
              obtain ⟨rfl, rfl⟩ := DeleteOutcome.executed.inj same
              split at stepped
              next batch =>
                obtain rfl := Option.some.inj stepped
                rw [sweeping] at pending
                change Pending row (if true = true ∧ sweepBatch ≤ chosen.length
                  then .sweeping kind else afterSweep config kind)
                split
                next => exact pending
                next short =>
                  rw [not_and, Nat.not_le] at short
                  exact pending_afterSweep small later found batch (short rfl) left expired
                    pending
              next => cases stepped
          next => cases stepped

end Attesta.Api.Retention

namespace Attesta.Api.RetentionCycle

open Issuer MailboxService
open Attesta.Api.Retention (Phase Expired Pending)

structure State where
  service : MailboxService.State
  phase : Phase

/-- What the sweeper sees. -/
def State.sweeper (s : State) : Retention.State where
  phase := s.phase
  mailbox := s.service.mailbox
  now := s.service.now
  deleted := []

inductive Action
  /-- A request, the indexer, the sweeper of another replica, or the clock. -/
  | serve (action : LostReplies.Action)
  /-- This replica's sweeper, or a reply to it. -/
  | sweeper (action : Retention.Action) (own : action.IsOwn)

/-- The sweeper of this replica meets no failure; the service may meet any. -/
def Action.Undisturbed : Action → Prop
  | .serve _ => True
  | .sweeper action _ => action.Undisturbed

instance : DecidablePred Action.Undisturbed
  | .serve _ => isTrue trivial
  | .sweeper action _ => inferInstanceAs (Decidable action.Undisturbed)

variable (env : Env)

def State.init (hints : Nat → String) (now : Int) : State where
  service := .init hints now
  phase := Retention.begin env.retention

/-- One step; an action that is not enabled has no successor. -/
def step (s : State) : Action → Option State
  | .serve action => (LostReplies.step env s.service action).map (fun service => { s with service })
  | .sweeper action _ =>
      (Retention.step env.retention s.sweeper action).map (fun after =>
        { service :=
            { s.service with
              mailbox := after.mailbox
              swept := s.service.swept ++ after.deleted.map Prod.fst }
          phase := after.phase })

-----------------------------------------------------------------------------------------
-- The service under the sweeper
-----------------------------------------------------------------------------------------

/-- The service is in order, and the sweeper is at work on enabled kinds only. -/
structure Sound (s : State) : Prop where
  numbered : Numbered s.service
  enabled : ∀ kind, s.phase = .sweeping kind → env.retention.days kind ≠ 0

variable {env} {s t : State}

/-- To the service its own sweeper is like one of another replica. -/
theorem step_refines {action : Action}
    (enabled : ∀ kind, s.phase = .sweeping kind → env.retention.days kind ≠ 0)
    (stepped : step env s action = some t)
    : t.service = s.service
      ∨ ∃ served, LostReplies.step env s.service served = some t.service := by
  cases action with
  | serve action =>
      obtain ⟨service, served, rfl⟩ := Option.map_eq_some_iff.mp stepped
      exact Or.inr ⟨action, served⟩
  | sweeper action own =>
      obtain ⟨after, moved, rfl⟩ := Option.map_eq_some_iff.mp stepped
      rcases sweeper_step own moved enabled rfl rfl with ⟨same, nothing⟩ | swept
      · left
        simp [same, nothing, State.sweeper]
      · obtain ⟨kind, chosen, served, same, gone⟩ := swept
        refine Or.inr ⟨.serve (.sweep kind chosen), served.trans ?_⟩
        simp [same, gone, State.sweeper, MailboxService.State.discard, Function.comp_def]

theorem step_sound {action : Action} (h : Sound env s) (stepped : step env s action = some t)
    : Sound env t where
  numbered := by
    rcases step_refines h.enabled stepped with same | ⟨_, served⟩
    · exact same ▸ h.numbered
    · exact LostReplies.step_numbered h.numbered served
  enabled := by
    cases action with
    | serve action =>
        obtain ⟨service, _, rfl⟩ := Option.map_eq_some_iff.mp stepped
        exact h.enabled
    | sweeper action own =>
        obtain ⟨after, moved, rfl⟩ := Option.map_eq_some_iff.mp stepped
        exact Retention.step_enabled (s := s.sweeper) h.enabled moved

theorem run_sound {hints : Nat → String} {now : Int} {actions : List Action}
    (ran : Machine.run (step env) (State.init env hints now) actions = some s)
    : Sound env s := by
  have initially : Sound env (State.init env hints now) :=
    ⟨init_numbered hints now, fun kind next => absurd next (Retention.begin_enabled kind)⟩
  exact Machine.invariant (fun _ _ _ => step_sound) initially ran

-----------------------------------------------------------------------------------------
-- One row through a cycle
-----------------------------------------------------------------------------------------

/-- What can be left of an expired row in this phase: the row itself, if its sweep is still to
come, or the row as it was claimed since `start`.
-/
inductive Left (start : Int) (phase : Phase) (row : CredentialDeliveryRow)
    : CredentialDeliveryRow → Prop
  | pending (pending : Pending row phase) : Left start phase row row
  | claimed {claimedAt : Int} (unclaimed : row.claimedAt = none) (since : start ≤ claimedAt)
    : Left start phase row { row with claimedAt := some claimedAt }

/-- A row that was stored at `start`, followed by its sequence value. -/
structure Followed (start : Int) (phase : Phase) (row : CredentialDeliveryRow)
    (s : MailboxService.State)
    : Prop where
  later : start ≤ s.now
  known : row.seq ∈ s.accepted.map CredentialDeliveryRow.seq
  left : ∀ other ∈ s.mailbox.rows, other.seq = row.seq → Left start phase row other

variable {start : Int} {phase : Phase} {row : CredentialDeliveryRow}

/-- The service can only claim the row; its sequence value is not given away again. -/
theorem serve_followed {s t : MailboxService.State} {action : MailboxService.Action}
    (numbered : Numbered s) (h : Followed start phase row s)
    (stepped : MailboxService.step env s action = some t)
    : Followed start phase row t := by
  cases step_effect stepped with
  | @committed i new committing admits =>
      refine ⟨h.later, ?_, fun other stored same => ?_⟩
      · change row.seq ∈ (s.accepted ++ [new]).map CredentialDeliveryRow.seq
        rw [List.map_append]
        exact List.mem_append_left _ h.known
      · rcases (mem_insertDelivery admits.2.1).mp stored with old | rfl
        · exact h.left other old same
        · exact absurd (same ▸ h.known) (numbered.seqs.pending i other committing).2
  | @claimed i req presented updating affected =>
      refine ⟨h.later, h.known, fun other stored same => ?_⟩
      rcases mem_claimDelivery.mp stored with ⟨kept, _⟩ | ⟨old, before, hit, rfl⟩
      · exact h.left other kept same
      · have unclaimed := (claimable_iff.mp hit).2
        cases h.left old before same with
        | pending => exact .claimed unclaimed h.later
        | claimed => cases unclaimed
  | swept => exact { h with left := fun other stored => h.left other (mem_of_delete stored) }
  | ticked onwards => exact { h with later := h.later.trans onwards }
  | _ => exact { h with }

theorem told_followed {s t : MailboxService.State} {action : LostReplies.Action}
    (numbered : Numbered s) (h : Followed start phase row s)
    (stepped : LostReplies.step env s action = some t)
    : Followed start phase row t := by
  obtain ⟨served, moved, told⟩ := LostReplies.step_told (.refl s) stepped
  have kept := serve_followed numbered h moved
  rw [told.rest]
  exact { kept with }

/-- For any phase that is held fast, a step of the whole does what one of the service does. -/
theorem step_followed_service {action : Action} (sound : Sound env s)
    (h : Followed start phase row s.service) (stepped : step env s action = some t)
    : Followed start phase row t.service := by
  rcases step_refines sound.enabled stepped with same | ⟨_, served⟩
  · exact same ▸ h
  · exact told_followed sound.numbered h served

/-- The sweeper passes no expired row by. -/
theorem step_followed (small : ∀ kind, (env.retention.days kind).toNat < 2 ^ 31)
    {action : Action} (undisturbed : action.Undisturbed)
    (expired : Expired env.retention start row) (sound : Sound env s)
    (h : Followed start s.phase row s.service) (stepped : step env s action = some t)
    : Followed start t.phase row t.service := by
  have followed := step_followed_service sound h stepped
  cases action with
  | serve action =>
      obtain ⟨service, _, rfl⟩ := Option.map_eq_some_iff.mp stepped
      exact followed
  | sweeper action own =>
      obtain ⟨after, moved, rfl⟩ := Option.map_eq_some_iff.mp stepped
      refine { followed with left := fun other stored same => ?_ }
      cases followed.left other stored same with
      | pending pending =>
          exact .pending
            (Retention.step_pending small undisturbed moved h.later stored expired pending)
      | claimed unclaimed since => exact .claimed unclaimed since

/-- With the lock in hand, each expired row waits for the sweep of its kind. -/
theorem locked_followed (sound : Sound env s)
    (locked : step env s (.sweeper (.lock .granted) trivial) = some t)
    (stored : row ∈ s.service.mailbox.rows)
    (expired : Expired env.retention s.service.now row)
    : Followed s.service.now t.phase row t.service := by
  obtain ⟨after, moved, rfl⟩ := Option.map_eq_some_iff.mp locked
  simp only [Retention.step] at moved
  split at moved
  next =>
    obtain rfl := Option.some.inj moved
    obtain ⟨original, accepted, same⟩ := sound.numbered.stored row stored
    refine ⟨le_rfl, ?_, fun other here seq => ?_⟩
    · exact List.mem_map.mpr ⟨original, accepted, by rw [same]⟩
    · obtain rfl := List.inj_on_of_nodup_map sound.numbered.distinct here stored seq
      exact .pending (Retention.pending_afterLock expired)
  next => cases moved

/-- When no sweep is to come, the row is gone or claimed. -/
theorem Followed.settled {next : Phase} {s : MailboxService.State}
    (h : Followed start phase row s) (finished : ∀ kind, phase ≠ .sweeping kind)
    : Followed start next row s := by
  refine { h with left := fun other stored same => ?_ }
  cases h.left other stored same with
  | pending pending =>
      cases phase with
      | sweeping kind => exact (finished kind rfl).elim
      | disabled | sleeping | acquiring | locking | unlocking => exact pending.elim
  | claimed unclaimed since => exact .claimed unclaimed since

/-- A cycle that meets no failure clears what had expired when it took its lock. Once it is over,
and whatever follows, such a delivery is gone, unless it was unclaimed at the lock and a claim came
before its `DELETE`; no matter what is requested, which replies are lost and which rows each
`LIMIT` chooses.
-/
theorem cycle_clears (env : Env) (small : ∀ kind, (env.retention.days kind).toNat < 2 ^ 31)
    {hints : Nat → String} {now : Int} {past cycle later : List Action} {ended : State}
    (reached : Machine.run (step env) (State.init env hints now) past = some s)
    (undisturbed : ∀ action ∈ cycle, action.Undisturbed)
    (ran
      : Machine.run (step env) s (.sweeper (.lock .granted) trivial :: cycle) = some ended)
    (finished : ∀ kind, ended.phase ≠ .sweeping kind)
    (onwards : Machine.run (step env) ended later = some t) {row : CredentialDeliveryRow}
    (stored : row ∈ s.service.mailbox.rows)
    (expired : Expired env.retention s.service.now row)
    : ∀ other ∈ t.service.mailbox.rows, other.seq = row.seq →
        row.claimedAt = none
        ∧ ∃ claimedAt, s.service.now ≤ claimedAt
            ∧ other = { row with claimedAt := some claimedAt } := by
  obtain ⟨begun, locked, swept⟩ := Machine.run_cons.mp ran
  have sound := run_sound reached
  have during (u : State) (action : Action) (v : State) (allowed : action.Undisturbed)
      (h : Sound env u ∧ Followed s.service.now u.phase row u.service)
      (stepped : step env u action = some v)
      : Sound env v ∧ Followed s.service.now v.phase row v.service :=
    ⟨step_sound h.1 stepped, step_followed small allowed expired h.1 h.2 stepped⟩
  have afterwards (u : State) (action : Action) (v : State)
      (h : Sound env u ∧ Followed s.service.now .sleeping row u.service)
      (stepped : step env u action = some v)
      : Sound env v ∧ Followed s.service.now .sleeping row v.service :=
    ⟨step_sound h.1 stepped, step_followed_service h.1 h.2 stepped⟩
  obtain ⟨soundEnded, followed⟩ := Machine.invariant_of_allowed during
    ⟨step_sound sound locked, locked_followed sound locked stored expired⟩ undisturbed swept
  obtain ⟨_, final⟩ :=
    Machine.invariant afterwards ⟨soundEnded, followed.settled finished⟩ onwards
  intro other here same
  cases final.left other here same with
  | pending pending => exact pending.elim
  | claimed unclaimed since => exact ⟨unclaimed, _, since, rfl⟩

/-- The deliveries 7, 8 and 9 are accepted at time zero, and 7 is claimed. -/
def sampleStored : List Action :=
  List.map (Action.serve ∘ .serve)
    (.mirror [sampleIssuer] :: deliverUpToInsert 0 7 ++ deliverUpToInsert 1 8
      ++ deliverUpToInsert 2 9
      ++ [.commit 0 true, .commit 1 true, .commit 2 true, .claim 0 ⟨7, "AQ=="⟩, .select 0 true,
        .update 0 true])

/-- After 181 days all three have expired, and the sweeper is about to take its lock. -/
def sampleLocking : List Action :=
  sampleStored
    ++ [.serve (.serve (.tick (181 * Retention.dayMicros))), .sweeper (.acquire true) trivial]

def sampleRow (seq : Int) (deliveryId : Nat) (claimedAt : Option Int) : CredentialDeliveryRow :=
  { deliveryRow seq deliveryId 0 ⟨"issuer", "hint", [1], [1], some sampleHash⟩ with claimedAt }

/-- Delivery 8 is claimed between the two sweeps of the cycle, and the reply is lost. -/
def sampleCycle : List Action :=
  [.sweeper (.delete (.executed [sampleRow 1 7 (some 0)] true)) trivial,
    .serve (.serve (.claim 1 ⟨8, "AQ=="⟩)), .serve (.serve (.select 1 true)),
    .serve (.updateLost 1),
    .sweeper (.delete (.executed [sampleRow 3 9 none] true)) trivial]

/-- The unlock fails, and in the next cycle so does every DELETE. -/
def sampleFailures : List Action :=
  [.sweeper (.unlock false) trivial, .sweeper .wake trivial, .sweeper (.acquire true) trivial,
    .sweeper (.lock .granted) trivial, .sweeper (.delete .failed) trivial,
    .sweeper (.delete .failed) trivial]

theorem cycle_clears_claimed_meanwhile
    : ∃ s ended t,
        Machine.run (step (sampleEnv 10)) (State.init (sampleEnv 10) (fun _ => "hint") 0)
            sampleLocking
          = some s
        ∧ Machine.run (step (sampleEnv 10)) s (.sweeper (.lock .granted) trivial :: sampleCycle)
          = some ended
        ∧ Machine.run (step (sampleEnv 10)) ended sampleFailures = some t
        ∧ s.service.mailbox.rows
          = [sampleRow 1 7 (some 0), sampleRow 2 8 none, sampleRow 3 9 none]
        ∧ t.service.mailbox.rows = [sampleRow 2 8 (some (181 * Retention.dayMicros))]
        ∧ ∀ row ∈ s.service.mailbox.rows, ∀ other ∈ t.service.mailbox.rows,
            other.seq = row.seq
            → row.claimedAt = none
              ∧ ∃ claimedAt, s.service.now ≤ claimedAt
                  ∧ other = { row with claimedAt := some claimedAt } := by
  have before
      : (Machine.run (step (sampleEnv 10)) (State.init (sampleEnv 10) (fun _ => "hint") 0)
            sampleLocking).map
          (fun s => (s.service.mailbox.rows, s.service.now))
        = some ([sampleRow 1 7 (some 0), sampleRow 2 8 none, sampleRow 3 9 none],
            181 * Retention.dayMicros) := by
    decide +kernel
  have after
      : ((Machine.run (step (sampleEnv 10)) (State.init (sampleEnv 10) (fun _ => "hint") 0)
            sampleLocking).bind (fun s =>
              (Machine.run (step (sampleEnv 10)) s
                (.sweeper (.lock .granted) trivial :: sampleCycle)).bind (fun ended =>
                  (Machine.run (step (sampleEnv 10)) ended sampleFailures).map (fun t =>
                    (ended.phase, t.service.mailbox.rows)))))
        = some (.unlocking, [sampleRow 2 8 (some (181 * Retention.dayMicros))]) := by
    decide +kernel
  obtain ⟨s, reached, first⟩ := Option.map_eq_some_iff.mp before
  rw [reached, Option.bind_some] at after
  obtain ⟨ended, ran, rest⟩ := Option.bind_eq_some_iff.mp after
  obtain ⟨t, onwards, last⟩ := Option.map_eq_some_iff.mp rest
  obtain ⟨rows, now⟩ := Prod.mk.inj first
  obtain ⟨phase, left⟩ := Prod.mk.inj last
  have small (kind : Retention.Kind)
      : ((sampleEnv 10).retention.days kind).toNat < 2 ^ 31 := by
    cases kind <;> decide
  have expired
      : ∀ row ∈ s.service.mailbox.rows,
          Expired (sampleEnv 10).retention s.service.now row := by
    rw [rows, now]
    decide +kernel
  refine ⟨s, ended, t, reached, ran, onwards, rows, left, fun row stored => ?_⟩
  exact cycle_clears (sampleEnv 10) small reached (by decide) ran (by simp [phase]) onwards stored
    (expired row stored)

end Attesta.Api.RetentionCycle
