import Attesta.Core.Models
import Attesta.Foundation.Machine
import Attesta.Indexer.Events

/-! The mailbox retention sweeper. Its windows travel as `u32` through the configuration and as
`i32` into the SQL interval arithmetic, so from `2 ^ 31` days on the cutoff lies in the future.
-/

namespace Attesta.Api.Retention

open Attesta.Indexer

/-- `str::parse::<u32>`. -/
def parseU32 (s : String) : Option UInt32 :=
  let value :=
    match s.toList with
    | '+' :: digits => parseDigits digits
    | digits => parseDigits digits
  (value.filter (fun n => decide (n < 2 ^ 32))).map UInt32.ofNat

/-- `env_u32`, given the value of the variable if it is set. -/
def envU32 (value : Option String) (fallback : UInt32) : UInt32 :=
  (value.bind parseU32).getD fallback

structure Config where
  credentialRetentionClaimedDays : UInt32
  credentialRetentionUnclaimedDays : UInt32

/-- The part of `Config::from_env` that reads the two windows. -/
def Config.fromEnv (claimedDays unclaimedDays : Option String) : Config where
  credentialRetentionClaimedDays := envU32 claimedDays 30
  credentialRetentionUnclaimedDays := envU32 unclaimedDays 180

inductive Kind
  | claimed
  | unclaimed
  deriving DecidableEq

def Config.days (config : Config) : Kind → UInt32
  | .claimed => config.credentialRetentionClaimedDays
  | .unclaimed => config.credentialRetentionUnclaimedDays

def dayMicros : Int := 86400000000

/-- The range of `timestamptz`, in microseconds since the first day of 2000. -/
def minTimestamp : Int := -211813488000000000
def endTimestamp : Int := 9223371331200000000

/-- `days as i32`. -/
def asI32 (n : UInt32) : Int := (n.toNat : Int).bmod (2 ^ 32)

/-- `now() - make_interval(days => $1)`, none if the result is out of range. -/
def cutoffAt (now days : Int) : Option Int :=
  let cutoff := now - days * dayMicros
  if minTimestamp ≤ cutoff ∧ cutoff < endTimestamp then some cutoff else none

theorem cutoffAt_eq_some {now days cutoff : Int} (h : cutoffAt now days = some cutoff)
    : cutoff = now - days * dayMicros := by
  simp only [cutoffAt] at h
  split at h
  · exact (Option.some.inj h).symm
  · cases h

/-- The cast keeps small windows and makes the others negative. -/
theorem asI32_eq (n : UInt32)
    : asI32 n = if n.toNat < 2 ^ 31 then (n.toNat : Int) else n.toNat - 2 ^ 32 := by
  have bound := n.toNat_lt
  unfold asI32
  rw [Int.bmod_def]
  split <;> split <;> omega

/-- `credential_deliveries` with its primary key. -/
structure Mailbox where
  rows : List CredentialDeliveryRow
  unique : (rows.map CredentialDeliveryRow.deliveryId).Nodup

/-- The two predicates of `run_cycle` for a given cutoff. -/
def predicate (cutoff : Int) : Kind → CredentialDeliveryRow → Bool
  | .claimed, row =>
      match row.claimedAt with
      | some claimedAt => decide (claimedAt < cutoff)
      | none => false
  | .unclaimed, row => row.claimedAt.isNone && decide (row.createdAt < cutoff)

def Mailbox.matching (mailbox : Mailbox) (cutoff : Int) (kind : Kind)
    : List CredentialDeliveryRow :=
  mailbox.rows.filter (predicate cutoff kind)

/-- `SWEEP_BATCH`. -/
def sweepBatch : Nat := 10000

/-- What `LIMIT` without an order can select. -/
def Batch (matching chosen : List CredentialDeliveryRow) : Prop :=
  chosen ⊆ matching ∧ chosen.Nodup ∧ chosen.length = min sweepBatch matching.length

instance (matching chosen : List CredentialDeliveryRow) : Decidable (Batch matching chosen) :=
  inferInstanceAs (Decidable (_ ∧ _))

/-- `DELETE … WHERE delivery_id IN …`. -/
def Mailbox.delete (mailbox : Mailbox) (chosen : List CredentialDeliveryRow) : Mailbox where
  rows := mailbox.rows.filter
    (fun row => !chosen.any (fun other => other.deliveryId == row.deliveryId))
  unique := mailbox.unique.sublist (List.filter_sublist.map _)

theorem Mailbox.nodup (mailbox : Mailbox) : mailbox.rows.Nodup := mailbox.unique.of_map

-----------------------------------------------------------------------------------------
-- The sweeper as a machine
-----------------------------------------------------------------------------------------

inductive Phase
  /-- Both windows are zero; the task has returned. -/
  | disabled
  | sleeping
  | acquiring
  | locking
  /-- Before a `DELETE` of the loop in `sweep`. -/
  | sweeping (kind : Kind)
  | unlocking
  deriving DecidableEq

inductive LockReply
  | granted
  | held
  | failed

inductive DeleteOutcome
  /-- The rows are deleted; the reply may still get lost. -/
  | executed (chosen : List CredentialDeliveryRow) (reported : Bool)
  | failed

inductive Action
  /-- The sleep is over. -/
  | wake
  | acquire (acquired : Bool)
  | lock (reply : LockReply)
  | delete (outcome : DeleteOutcome)
  | unlock (released : Bool)
  /-- The process stops and is started again. -/
  | restart
  /-- Other sessions write to the table, and time passes. -/
  | others (mailbox : Mailbox) (now : Int)

structure State where
  phase : Phase
  mailbox : Mailbox
  now : Int
  /-- Every deleted row with the time of its deletion; nothing reads it. -/
  deleted : List (CredentialDeliveryRow × Int)

variable (config : Config)

/-- The head of `run`. -/
def begin : Phase :=
  if config.days .claimed = 0 ∧ config.days .unclaimed = 0 then .disabled else .acquiring

/-- What `run_cycle` does after the claimed rows. -/
def afterClaimed : Phase := if config.days .unclaimed = 0 then .unlocking else .sweeping .unclaimed

/-- What `run_cycle` does with the lock. -/
def afterLock : Phase :=
  if config.days .claimed = 0 then afterClaimed config else .sweeping .claimed

/-- What `run_cycle` does when `sweep` returns. -/
def afterSweep : Kind → Phase
  | .claimed => afterClaimed config
  | .unclaimed => .unlocking

def State.init (mailbox : Mailbox) (now : Int) : State where
  phase := begin config
  mailbox := mailbox
  now := now
  deleted := []

/-- One step; an action that is not enabled has no successor. -/
def step (s : State) : Action → Option State
  | .wake =>
      match s.phase with
      | .sleeping => some { s with phase := .acquiring }
      | _ => none
  | .acquire acquired =>
      match s.phase with
      | .acquiring => some { s with phase := if acquired then .locking else .sleeping }
      | _ => none
  | .lock reply =>
      match s.phase with
      | .locking =>
          match reply with
          | .granted => some { s with phase := afterLock config }
          | .held | .failed => some { s with phase := .sleeping }
      | _ => none
  | .delete outcome =>
      match s.phase with
      | .sweeping kind =>
          match outcome, cutoffAt s.now (asI32 (config.days kind)) with
          | .failed, _ => some { s with phase := afterSweep config kind }
          -- An interval out of range is an error, so nothing is executed.
          | .executed _ _, none => none
          | .executed chosen reported, some cutoff =>
              if Batch (s.mailbox.matching cutoff kind) chosen then
                some { s with
                  phase :=
                    if reported ∧ sweepBatch ≤ chosen.length then .sweeping kind
                    else afterSweep config kind
                  mailbox := s.mailbox.delete chosen
                  deleted := s.deleted ++ chosen.map (fun row => (row, s.now)) }
              else none
      | _ => none
  | .unlock _ =>
      match s.phase with
      | .unlocking => some { s with phase := .sleeping }
      | _ => none
  | .restart => some { s with phase := begin config }
  | .others mailbox now => some { s with mailbox, now }

-----------------------------------------------------------------------------------------
-- Expired rows and safe windows
-----------------------------------------------------------------------------------------

/-- The row was claimed, or else created, longer ago than its window. -/
def Expired (now : Int) (row : CredentialDeliveryRow) : Prop :=
  match row.claimedAt with
  | some claimedAt =>
      config.days .claimed ≠ 0
      ∧ claimedAt < now - (config.days .claimed).toNat * dayMicros
  | none =>
      config.days .unclaimed ≠ 0
      ∧ row.createdAt < now - (config.days .unclaimed).toNat * dayMicros

/-- The moment from which the window of a kind runs, for the rows of that kind. -/
def Kind.since : Kind → CredentialDeliveryRow → Option Int
  | .claimed, row => row.claimedAt
  | .unclaimed, row => if row.claimedAt.isNone then some row.createdAt else none

/-- The window is off, survives the cast, moves the cutoff out of the range of timestamps, or
no row of its kind lies between the intended cutoff and the moved one.
-/
def WindowSafe (mailbox : Mailbox) (now : Int) (kind : Kind) : Prop :=
  config.days kind = 0
  ∨ (config.days kind).toNat < 2 ^ 31
  ∨ cutoffAt now (asI32 (config.days kind)) = none
  ∨ ∀ row ∈ mailbox.rows, ∀ since, kind.since row = some since
      → since < now - (config.days kind).toNat * dayMicros
        ∨ now + (2 ^ 32 - (config.days kind).toNat) * dayMicros ≤ since

/-- A `DELETE` is issued for a safe window only. -/
def SafeDelete (s : State) : Action → Prop
  | .delete _ => ∀ kind, s.phase = .sweeping kind → WindowSafe config s.mailbox s.now kind
  | _ => True

/-- Anything the sweeper and the database do on their own. -/
def Action.IsOwn : Action → Prop
  | .others _ _ => False
  | _ => True

variable {config}

theorem predicate_iff {cutoff : Int} {kind : Kind} {row : CredentialDeliveryRow}
    : predicate cutoff kind row = true ↔ ∃ since, kind.since row = some since ∧ since < cutoff := by
  cases kind <;> cases claimed : row.claimedAt <;> simp [predicate, Kind.since, claimed]

theorem expired_iff {now : Int} {kind : Kind} {row : CredentialDeliveryRow} {since : Int}
    (h : kind.since row = some since)
    : Expired config now row
      ↔ config.days kind ≠ 0 ∧ since < now - (config.days kind).toNat * dayMicros := by
  cases kind with
  | claimed =>
      have claimed : row.claimedAt = some since := h
      simp [Expired, claimed]
  | unclaimed =>
      cases claimed : row.claimedAt with
      | none =>
          have created : row.createdAt = since := by simpa [Kind.since, claimed] using h
          simp [Expired, claimed, created]
      | some claimedAt => simp [Kind.since, claimed] at h

/-- A safe window selects expired rows only. -/
theorem WindowSafe.expired {mailbox : Mailbox} {now : Int} {kind : Kind}
    (safe : WindowSafe config mailbox now kind) (enabled : config.days kind ≠ 0) {cutoff : Int}
    (found : cutoffAt now (asI32 (config.days kind)) = some cutoff)
    {row : CredentialDeliveryRow} (member : row ∈ mailbox.matching cutoff kind)
    : Expired config now row := by
  obtain ⟨inside, hit⟩ := List.mem_filter.mp member
  obtain ⟨since, here, before⟩ := predicate_iff.mp hit
  have moved := cutoffAt_eq_some found
  rw [expired_iff here]
  refine ⟨enabled, ?_⟩
  rcases safe with off | small | range | apart
  · exact absurd off enabled
  · rw [asI32_eq, if_pos small] at moved
    exact moved ▸ before
  · cases range.symm.trans found
  · rcases apart row inside since here with expired | later
    · exact expired
    · rw [asI32_eq] at moved
      split at moved
      · exact moved ▸ before
      · simp only [dayMicros] at moved later
        omega

/-- An unsafe window selects some row that is not expired. -/
theorem exists_of_not_windowSafe {mailbox : Mailbox} {now : Int} {kind : Kind}
    (unsafeWindow : ¬ WindowSafe config mailbox now kind)
    : config.days kind ≠ 0
      ∧ ∃ cutoff, cutoffAt now (asI32 (config.days kind)) = some cutoff
        ∧ ∃ row ∈ mailbox.matching cutoff kind, ¬ Expired config now row := by
  simp only [WindowSafe, not_or, not_forall] at unsafeWindow
  obtain ⟨enabled, large, range, row, inside, since, here, fresh, before⟩ := unsafeWindow
  obtain ⟨cutoff, found⟩ := Option.ne_none_iff_exists'.mp range
  have moved := cutoffAt_eq_some found
  rw [asI32_eq, if_neg large] at moved
  refine ⟨enabled, cutoff, found, row, ?_, ?_⟩
  · refine List.mem_filter.mpr ⟨inside, predicate_iff.mpr ⟨since, here, ?_⟩⟩
    simp only [dayMicros] at moved before
    omega
  · rw [expired_iff here]
    exact fun expired => fresh expired.2

/-- Every selected row is in some batch. -/
theorem exists_batch {matching : List CredentialDeliveryRow} (distinct : matching.Nodup)
    {row : CredentialDeliveryRow} (member : row ∈ matching)
    : ∃ chosen, Batch matching chosen ∧ row ∈ chosen := by
  have perm := List.perm_cons_erase member
  have part : (row :: matching.erase row).take sweepBatch ⊆ row :: matching.erase row :=
    List.take_subset _ _
  refine ⟨(row :: matching.erase row).take sweepBatch, ⟨?_, ?_, ?_⟩, ?_⟩
  · exact fun other inside => perm.mem_iff.mpr (part inside)
  · exact (perm.nodup_iff.mp distinct).sublist (List.take_sublist _ _)
  · rw [List.length_take, ← perm.length_eq]
  · simp [sweepBatch]

-----------------------------------------------------------------------------------------
-- Whole runs
-----------------------------------------------------------------------------------------

/-- The sweeper is at work on enabled kinds only, and has deleted expired rows only. -/
structure Sound (config : Config) (s : State) : Prop where
  enabled : ∀ kind, s.phase = .sweeping kind → config.days kind ≠ 0
  expired : ∀ entry ∈ s.deleted, Expired config entry.2 entry.1

theorem begin_enabled (kind : Kind) : begin config ≠ .sweeping kind := by
  unfold begin
  split <;> simp

theorem afterClaimed_enabled {kind : Kind} (h : afterClaimed config = .sweeping kind)
    : config.days kind ≠ 0 := by
  unfold afterClaimed at h
  split at h
  · cases h
  next enabled =>
    cases h
    exact enabled

theorem afterLock_enabled {kind : Kind} (h : afterLock config = .sweeping kind)
    : config.days kind ≠ 0 := by
  unfold afterLock at h
  split at h
  · exact afterClaimed_enabled h
  next enabled =>
    cases h
    exact enabled

theorem afterSweep_enabled {kind next : Kind} (h : afterSweep config kind = .sweeping next)
    : config.days next ≠ 0 := by
  cases kind with
  | claimed => exact afterClaimed_enabled h
  | unclaimed => cases h

/-- The steps of the machine as a relation, with what a step knows about its start. -/
inductive Effect (config : Config) (s : State) : Action → State → Prop
  | moved {action : Action} {phase : Phase}
    (enabled : ∀ kind, phase = .sweeping kind → config.days kind ≠ 0)
    : Effect config s action { s with phase }
  | executed {kind : Kind} {cutoff : Int} {chosen : List CredentialDeliveryRow}
    {reported : Bool} {phase : Phase} (sweeping : s.phase = .sweeping kind)
    (found : cutoffAt s.now (asI32 (config.days kind)) = some cutoff)
    (batch : Batch (s.mailbox.matching cutoff kind) chosen)
    (next : phase = .sweeping kind ∨ phase = afterSweep config kind)
    : Effect config s (.delete (.executed chosen reported))
        { s with
          phase
          mailbox := s.mailbox.delete chosen
          deleted := s.deleted ++ chosen.map (fun row => (row, s.now)) }
  | others (mailbox : Mailbox) (now : Int)
    : Effect config s (.others mailbox now) { s with mailbox, now }

theorem step_effect {s t : State} {action : Action} (h : step config s action = some t)
    : Effect config s action t := by
  cases action with
  | others mailbox now => exact Option.some.inj h ▸ .others mailbox now
  | restart =>
      exact Option.some.inj h ▸ .moved fun kind next => absurd next (begin_enabled kind)
  | lock reply =>
      simp only [step] at h
      split at h
      · cases reply with
        | granted => exact Option.some.inj h ▸ .moved fun _ next => afterLock_enabled next
        | held | failed => exact Option.some.inj h ▸ .moved (by simp)
      · cases h
  | wake | unlock =>
      simp only [step] at h
      split at h
      · exact Option.some.inj h ▸ .moved (by simp)
      · cases h
  | acquire acquired =>
      simp only [step] at h
      split at h
      · exact Option.some.inj h ▸ .moved (by cases acquired <;> simp)
      · cases h
  | delete outcome =>
      simp only [step] at h
      split at h
      next kind sweeping =>
        split at h
        next => exact Option.some.inj h ▸ .moved fun _ next => afterSweep_enabled next
        next => cases h
        next chosen reported cutoff found =>
          split at h
          next batch =>
            refine Option.some.inj h ▸ .executed sweeping found batch ?_
            split
            · exact Or.inl rfl
            · exact Or.inr rfl
          next => cases h
      next => cases h

/-- The sweeper only ever goes on to kinds that are enabled. -/
theorem step_enabled {s t : State} {action : Action}
    (enabled : ∀ kind, s.phase = .sweeping kind → config.days kind ≠ 0)
    (stepped : step config s action = some t)
    : ∀ kind, t.phase = .sweeping kind → config.days kind ≠ 0 := by
  cases step_effect stepped with
  | moved next => exact next
  | others mailbox now => exact enabled
  | executed sweeping found batch next =>
      intro other phase
      rcases next with again | after
      · obtain rfl := Phase.sweeping.inj (again.symm.trans phase)
        exact enabled _ sweeping
      · exact afterSweep_enabled (after.symm.trans phase)

/-- Safe deletes delete expired rows only. -/
theorem step_sound {s t : State} {action : Action} (safe : SafeDelete config s action)
    (h : Sound config s) (stepped : step config s action = some t)
    : Sound config t := by
  refine ⟨step_enabled h.enabled stepped, ?_⟩
  cases step_effect stepped with
  | moved enabled => exact h.expired
  | others mailbox now => exact h.expired
  | executed sweeping found batch next =>
      intro entry member
      rcases List.mem_append.mp member with old | new
      · exact h.expired entry old
      · obtain ⟨row, inside, rfl⟩ := List.mem_map.mp new
        exact (safe _ sweeping).expired (h.enabled _ sweeping) found (batch.1 inside)

theorem init_sound (config : Config) (mailbox : Mailbox) (now : Int)
    : Sound config (State.init config mailbox now) where
  enabled kind next := absurd next (begin_enabled kind)
  expired := by simp [State.init]

/-- Whatever other sessions do, safe deletes delete expired rows only. -/
theorem run_sound {mailbox : Mailbox} {now : Int} {actions : List Action} {s : State}
    (safe
      : Machine.Along (step config) (SafeDelete config) (State.init config mailbox now) actions)
    (ran : Machine.run (step config) (State.init config mailbox now) actions = some s)
    : Sound config s :=
  Machine.invariant_along (fun _ _ _ => step_sound) (init_sound config mailbox now) safe ran

/-- The rows of a table and the time of its statements, left to the sweeper alone. -/
def Shrinks (mailbox : Mailbox) (now : Int) (s : State) : Prop :=
  s.mailbox.rows ⊆ mailbox.rows ∧ s.now = now

theorem WindowSafe.shrinks {mailbox : Mailbox} {now : Int} {kind : Kind} {s : State}
    (safe : WindowSafe config mailbox now kind) (h : Shrinks mailbox now s)
    : WindowSafe config s.mailbox s.now kind := by
  obtain ⟨fewer, same⟩ := h
  rw [same]
  rcases safe with off | small | range | apart
  · exact Or.inl off
  · exact Or.inr (Or.inl small)
  · exact Or.inr (Or.inr (Or.inl range))
  · exact Or.inr (Or.inr (Or.inr fun row inside => apart row (fewer inside)))

theorem step_shrinks {mailbox : Mailbox} {now : Int} {s t : State} {action : Action}
    (own : action.IsOwn) (h : Shrinks mailbox now s) (stepped : step config s action = some t)
    : Shrinks mailbox now t := by
  obtain ⟨fewer, same⟩ := h
  cases step_effect stepped with
  | moved => exact ⟨fewer, same⟩
  | executed => exact ⟨fun row inside => fewer (List.mem_of_mem_filter inside), same⟩
  | others => exact absurd own id

/-- Left to itself the sweeper keeps safe windows safe. -/
theorem along_safe {mailbox : Mailbox} {now : Int}
    (safe : ∀ kind, WindowSafe config mailbox now kind) {actions : List Action}
    (own : ∀ action ∈ actions, action.IsOwn) {s : State} (h : Shrinks mailbox now s)
    : Machine.Along (step config) (SafeDelete config) s actions := by
  induction actions generalizing s with
  | nil => trivial
  | cons action rest ih =>
      have first : SafeDelete config s action := by
        cases action with
        | delete => exact fun kind _ => (safe kind).shrinks h
        | _ => trivial
      refine ⟨first, fun t stepped => ?_⟩
      apply ih (fun action member => own action (List.mem_cons_of_mem _ member))
      exact step_shrinks (own action (by simp)) h stepped

theorem begin_eq {kind : Kind} (enabled : config.days kind ≠ 0) : begin config = .acquiring := by
  unfold begin
  rw [if_neg]
  intro off
  cases kind with
  | claimed => exact enabled off.1
  | unclaimed => exact enabled off.2

/-- Every enabled sweep is reached, if need be after a failed one. -/
theorem reach_sweeping {kind : Kind} (enabled : config.days kind ≠ 0) (mailbox : Mailbox)
    (now : Int)
    : ∃ actions, (∀ action ∈ actions, action.IsOwn)
        ∧ Machine.run (step config) (State.init config mailbox now) actions
          = some ⟨.sweeping kind, mailbox, now, []⟩ := by
  have start := begin_eq enabled
  cases kind with
  | claimed =>
      refine ⟨[.acquire true, .lock .granted], by simp [Action.IsOwn], ?_⟩
      simp [Machine.run, State.init, step, start, afterLock, enabled]
  | unclaimed =>
      by_cases only : config.days .claimed = 0
      · refine ⟨[.acquire true, .lock .granted], by simp [Action.IsOwn], ?_⟩
        simp [Machine.run, State.init, step, start, afterLock, afterClaimed, only, enabled]
      · refine ⟨[.acquire true, .lock .granted, .delete .failed], by simp [Action.IsOwn], ?_⟩
        simp [Machine.run, State.init, step, start, afterLock, afterSweep, afterClaimed, only,
          enabled]

/-- An unsafe window has a cycle that deletes a row which is not expired. -/
theorem exists_unexpired {mailbox : Mailbox} {now : Int} {kind : Kind}
    (unsafeWindow : ¬ WindowSafe config mailbox now kind)
    : ∃ actions s, (∀ action ∈ actions, action.IsOwn)
        ∧ Machine.run (step config) (State.init config mailbox now) actions = some s
        ∧ ∃ entry ∈ s.deleted, ¬ Expired config entry.2 entry.1 := by
  obtain ⟨enabled, cutoff, found, row, inside, fresh⟩ := exists_of_not_windowSafe unsafeWindow
  obtain ⟨chosen, batch, picked⟩ := exists_batch (mailbox.nodup.filter _) inside
  obtain ⟨actions, own, reached⟩ := reach_sweeping enabled mailbox now
  have deletes : step config ⟨.sweeping kind, mailbox, now, []⟩ (.delete (.executed chosen false))
      = some ⟨afterSweep config kind, mailbox.delete chosen, now,
          chosen.map (fun row => (row, now))⟩ := by
    have selected : Batch (mailbox.matching cutoff kind) chosen := batch
    simp [step, found, selected]
  refine ⟨actions ++ [.delete (.executed chosen false)], _, ?_,
    Machine.run_concat.mpr ⟨_, reached, deletes⟩, (row, now), ?_, fresh⟩
  · intro action member
    rcases List.mem_append.mp member with before | last
    · exact own action before
    · rw [List.mem_singleton.mp last]
      trivial
  · exact List.mem_map_of_mem picked

/-- Whatever fails and whatever other sessions do, deletes that are issued for safe windows
delete expired rows only. For given windows, rows and time, a cycle can delete no other rows
exactly if both windows are safe.
-/
theorem sweeps_expired_iff (config : Config) (mailbox : Mailbox) (now : Int)
    : (∀ actions s,
          Machine.Along (step config) (SafeDelete config) (State.init config mailbox now) actions
          → Machine.run (step config) (State.init config mailbox now) actions = some s
          → ∀ entry ∈ s.deleted, Expired config entry.2 entry.1)
      ∧ ((∀ actions s, (∀ action ∈ actions, action.IsOwn)
            → Machine.run (step config) (State.init config mailbox now) actions = some s
            → ∀ entry ∈ s.deleted, Expired config entry.2 entry.1)
        ↔ ∀ kind, WindowSafe config mailbox now kind) := by
  refine ⟨fun actions s safe ran => (run_sound safe ran).expired, ?_⟩
  constructor
  · intro always
    by_contra somewhere
    obtain ⟨kind, unsafeWindow⟩ := not_forall.mp somewhere
    obtain ⟨actions, s, own, ran, entry, member, fresh⟩ := exists_unexpired unsafeWindow
    exact fresh (always actions s own ran entry member)
  · intro safe actions s own ran
    have initially : Shrinks mailbox now (State.init config mailbox now) :=
      ⟨List.Subset.refl _, rfl⟩
    exact (run_sound (along_safe safe own initially) ran).expired

def sampleDelivery (createdAt : Int) (claimedAt : Option Int) : CredentialDeliveryRow :=
  ⟨1, 1, "issuer", "hint", [1], [2], createdAt, claimedAt, none⟩

def sampleMailbox (createdAt : Int) (claimedAt : Option Int) : Mailbox :=
  ⟨[sampleDelivery createdAt claimedAt], by simp⟩

/-- With the default windows a delivery claimed 31 days ago is deleted. -/
theorem sweeps_expired_claimed
    : ∃ s,
        Machine.run (step (.fromEnv none none))
            (State.init (.fromEnv none none) (sampleMailbox 0 (some 0)) (31 * dayMicros))
            [.acquire true, .lock .granted,
              .delete (.executed [sampleDelivery 0 (some 0)] true)]
          = some s
        ∧ (sampleDelivery 0 (some 0), 31 * dayMicros) ∈ s.deleted
        ∧ Expired (.fromEnv none none) (31 * dayMicros) (sampleDelivery 0 (some 0)) := by
  have observed
      : (Machine.run (step (.fromEnv none none))
            (State.init (.fromEnv none none) (sampleMailbox 0 (some 0)) (31 * dayMicros))
            [.acquire true, .lock .granted,
              .delete (.executed [sampleDelivery 0 (some 0)] true)]).map State.deleted
        = some [(sampleDelivery 0 (some 0), 31 * dayMicros)] := by
    decide +kernel
  obtain ⟨s, ran, deleted⟩ := Option.map_eq_some_iff.mp observed
  have member : (sampleDelivery 0 (some 0), 31 * dayMicros) ∈ s.deleted := by
    rw [deleted]
    exact List.mem_singleton_self _
  have small (kind : Kind) : ((Config.fromEnv none none).days kind).toNat < 2 ^ 31 := by
    cases kind <;> decide
  obtain ⟨always, _⟩ := sweeps_expired_iff (.fromEnv none none) (sampleMailbox 0 (some 0))
    (31 * dayMicros)
  have safe : ∀ (s : State) (action : Action), SafeDelete (.fromEnv none none) s action := by
    intro s action
    cases action with
    | delete => exact fun kind _ => Or.inr (Or.inl (small kind))
    | _ => trivial
  exact ⟨s, ran, member, always _ s (by simp [Machine.Along, safe]) ran _ member⟩

/-- With a window of `2 ^ 32 - 1` days a delivery created just now is deleted. -/
theorem fresh_delivery_deleted
    : ∃ s,
        Machine.run (step (.fromEnv none (some "4294967295")))
            (State.init (.fromEnv none (some "4294967295")) (sampleMailbox 0 none) 0)
            [.acquire true, .lock .granted, .delete (.executed [] true),
              .delete (.executed [sampleDelivery 0 none] true)]
          = some s
        ∧ (Config.fromEnv none (some "4294967295")).days .unclaimed = 4294967295
        ∧ (sampleDelivery 0 none, 0) ∈ s.deleted
        ∧ ¬ Expired (.fromEnv none (some "4294967295")) 0 (sampleDelivery 0 none) := by
  have observed
      : (Machine.run (step (.fromEnv none (some "4294967295")))
            (State.init (.fromEnv none (some "4294967295")) (sampleMailbox 0 none) 0)
            [.acquire true, .lock .granted, .delete (.executed [] true),
              .delete (.executed [sampleDelivery 0 none] true)]).map State.deleted
        = some [(sampleDelivery 0 none, 0)] := by
    decide +kernel
  obtain ⟨s, ran, deleted⟩ := Option.map_eq_some_iff.mp observed
  have window : (Config.fromEnv none (some "4294967295")).days .unclaimed = 4294967295 := by
    decide +kernel
  refine ⟨s, ran, window, ?_, ?_⟩
  · rw [deleted]
    exact List.mem_singleton_self _
  · intro expired
    have since : Kind.since .unclaimed (sampleDelivery 0 none) = some 0 := rfl
    have early := ((expired_iff since).mp expired).2
    rw [window] at early
    exact absurd early (by decide)

end Attesta.Api.Retention
