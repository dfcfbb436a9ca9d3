import Attesta.Api.MailboxSafety

/-! The hourly quota. It is checked against the rows visible when they are counted, so it holds
exactly as long as every insert would pass the check again when it becomes visible.
-/

namespace Attesta.Api.MailboxService

open Issuer
open Attesta.Api.Retention (Mailbox Kind Batch)

variable {env : Env}

/-- No issuer has more recent rows than its quota. -/
def WithinQuota (env : Env) (s : State) : Prop :=
  ∀ issuerId, delivered s.mailbox issuerId s.now ≤ env.issuerDeliveriesPerHour.toNat

/-- A recent row becomes visible only if its issuer could pass the check of the quota now. -/
def PassesAgain (env : Env) (s : State) (action : Action) : Prop :=
  ∀ row, s.commits action = some row → recent row.issuerId s.now row = true
    → checkQuota env (delivered s.mailbox row.issuerId s.now) = .ok ()

instance (env : Env) (s : State) (action : Action) : Decidable (PassesAgain env s action) :=
  match found : s.commits action with
  | none => isTrue fun row here => by cases found.symm.trans here
  | some row =>
      decidable_of_iff
        (recent row.issuerId s.now row = true
          → checkQuota env (delivered s.mailbox row.issuerId s.now) = .ok ())
        ⟨fun passes other here => by cases found.symm.trans here; exact passes,
          fun passes => passes row found⟩

theorem checkQuota_eq_ok {count : Nat}
    : checkQuota env count = .ok () ↔ count < env.issuerDeliveriesPerHour.toNat := by
  simp [checkQuota]

theorem delivered_insertDelivery {mailbox : Mailbox} {row : CredentialDeliveryRow}
    (fresh : row.deliveryId ∉ mailbox.rows.map CredentialDeliveryRow.deliveryId)
    (issuerId : String) (now : Int)
    : delivered (insertDelivery mailbox row fresh) issuerId now
      = delivered mailbox issuerId now + if recent issuerId now row then 1 else 0 := by
  simp [delivered, insertDelivery, List.countP_append]

theorem delivered_claimDelivery (mailbox : Mailbox) (deliveryId : Nat) (time : Int)
    (issuerId : String) (now : Int)
    : delivered (claimDelivery mailbox deliveryId time) issuerId now
      = delivered mailbox issuerId now := by
  rw [delivered, claimDelivery, List.countP_map]
  refine List.countP_congr fun row _ => ?_
  simp only [Function.comp_apply]
  split <;> rfl

theorem delivered_delete_le (mailbox : Mailbox) (chosen : List CredentialDeliveryRow)
    (issuerId : String) (now : Int)
    : delivered (mailbox.delete chosen) issuerId now ≤ delivered mailbox issuerId now :=
  List.filter_sublist.countP_le

theorem delivered_later_le (mailbox : Mailbox) (issuerId : String) {now later : Int}
    (after : now ≤ later)
    : delivered mailbox issuerId later ≤ delivered mailbox issuerId now := by
  refine List.countP_mono_left fun row _ within => ?_
  simp only [recent, Bool.and_eq_true, beq_iff_eq, decide_eq_true_eq] at within ⊢
  exact ⟨within.1, by omega⟩

/-- Only a commit can exceed the quota, and does exactly if the check would fail by now. -/
theorem step_quota_iff {s t : State} {action : Action} (within : WithinQuota env s)
    (stepped : step env s action = some t)
    : WithinQuota env t ↔ PassesAgain env s action := by
  have quiet (unchanged : t.accepted = s.accepted) : PassesAgain env s action :=
    fun row commits => absurd commits (commits_ne_some stepped unchanged row)
  cases step_effect stepped with
  | @committed i row phase admits =>
      have count (issuerId : String) :=
        delivered_insertDelivery admits.2.1 issuerId s.now
      simp only [WithinQuota, PassesAgain, commits_commit phase admits, Option.some.injEq,
        forall_eq', checkQuota_eq_ok]
      constructor
      · intro still isRecent
        have bound := still row.issuerId
        change delivered (insertDelivery s.mailbox row admits.2.1) row.issuerId s.now ≤ _ at bound
        rw [count, if_pos isRecent] at bound
        exact bound
      · intro passes issuerId
        change delivered (insertDelivery s.mailbox row admits.2.1) issuerId s.now ≤ _
        rw [count]
        split
        next isRecent =>
          have named : row.issuerId = issuerId := by
            simp only [recent, Bool.and_eq_true, beq_iff_eq] at isRecent
            exact isRecent.1
          subst named
          exact passes isRecent
        next => exact within issuerId
  | @claimed i req presented phase affected =>
      refine iff_of_true (fun issuerId => ?_) (quiet rfl)
      exact (delivered_claimDelivery _ _ _ _ _).trans_le (within issuerId)
  | @swept kind cutoff chosen batch =>
      refine iff_of_true (fun issuerId => ?_) (quiet rfl)
      exact (delivered_delete_le _ chosen _ _).trans (within issuerId)
  | ticked later =>
      refine iff_of_true (fun issuerId => ?_) (quiet rfl)
      exact (delivered_later_le _ _ later).trans (within issuerId)
  | delivering | inserted | claimStarted | claimAuthorized | claimRefused | paged | mirrored =>
      exact iff_of_true within (quiet rfl)

theorem run_quota_iff {hints : Nat → String} {start : Int} {actions : List Action} {s : State}
    (ran : Machine.run (step env) (State.init hints start) actions = some s)
    : Machine.Always (step env) (WithinQuota env) (State.init hints start) actions
      ↔ Machine.Along (step env) (PassesAgain env) (State.init hints start) actions := by
  refine Machine.always_iff_along_of_step (WithinQuota env) (PassesAgain env)
    (fun _ _ _ (_ : True) _ => trivial) (fun _ _ _ _ => step_quota_iff) trivial ?_ ran
  exact fun issuerId => Nat.zero_le _

-----------------------------------------------------------------------------------------
-- Requests that do not overlap
-----------------------------------------------------------------------------------------

/-- The request has passed the check of the quota and its insert is not visible yet. -/
def DeliverPhase.Counted (issuerId : String) : DeliverPhase → Prop
  | .inserting delivery => delivery.issuerId = issuerId
  | .committing row => row.issuerId = issuerId
  | _ => False

/-- An insert becomes visible while no other request of its issuer is past its count. -/
def Alone (s : State) (action : Action) : Prop :=
  ∀ i row, action = .commit i true → s.deliveries i = some (.committing row)
    → ∀ j phase, s.deliveries j = some phase → phase.Counted row.issuerId → j = i

/-- There is room for every insert of a request that is past its count. -/
def Roomy (env : Env) (s : State) : Prop :=
  ∀ i phase issuerId, s.deliveries i = some phase → phase.Counted issuerId
    → delivered s.mailbox issuerId s.now < env.issuerDeliveriesPerHour.toNat

theorem setDelivery_cases {s : State} {i j : Nat} {phase other : DeliverPhase}
    (h : (s.setDelivery i phase).deliveries j = some other)
    : j = i ∧ phase = other ∨ j ≠ i ∧ s.deliveries j = some other := by
  simp only [State.setDelivery] at h
  split at h
  next same => exact Or.inl ⟨same, Option.some.inj h⟩
  next apart => exact Or.inr ⟨apart, h⟩

theorem step_roomy (limited : env.issuerDeliveriesPerHour ≠ 0) {s t : State} {action : Action}
    (alone : Alone s action) (roomy : Roomy env s) (stepped : step env s action = some t)
    : Roomy env t := by
  cases step_effect stepped with
  | @delivering _ i phase other passed =>
      intro j phase' issuerId here counted
      rcases setDelivery_cases here with new | old
      · obtain ⟨_, rfl⟩ := new
        cases phase with
        | inserting delivery =>
            obtain rfl : delivery.issuerId = issuerId := counted
            exact checkQuota_eq_ok.mp ((passed delivery rfl).resolve_left limited)
        | committing row => exact absurd rfl (other row)
        | checkingIssuer | counting | answered => cases counted
      · exact roomy j phase' issuerId old.2 counted
  | @inserted i deliveryId delivery phase =>
      intro j phase' issuerId here counted
      rcases setDelivery_cases here with new | old
      · obtain ⟨_, rfl⟩ := new
        exact roomy i _ issuerId phase counted
      · exact roomy j phase' issuerId old.2 counted
  | @committed i row phase admits =>
      intro j phase' issuerId here counted
      rcases setDelivery_cases here with new | old
      · obtain ⟨_, rfl⟩ := new
        cases counted
      · have foreign : recent issuerId s.now row = false := by
          by_contra isRecent
          simp only [Bool.not_eq_false, recent, Bool.and_eq_true, beq_iff_eq] at isRecent
          exact old.1 (alone i row rfl phase j phase' old.2 (isRecent.1 ▸ counted))
        change delivered (insertDelivery s.mailbox row admits.2.1) issuerId s.now < _
        rw [delivered_insertDelivery, foreign]
        exact roomy j phase' issuerId old.2 counted
  | claimed phase affected =>
      intro j phase' issuerId here counted
      exact (delivered_claimDelivery _ _ _ _ _).trans_lt (roomy j phase' issuerId here counted)
  | @swept kind cutoff chosen batch =>
      intro j phase' issuerId here counted
      exact (delivered_delete_le _ chosen _ _).trans_lt (roomy j phase' issuerId here counted)
  | ticked later =>
      intro j phase' issuerId here counted
      exact (delivered_later_le _ _ later).trans_lt (roomy j phase' issuerId here counted)
  | claimStarted | claimAuthorized | claimRefused | paged | mirrored => exact roomy

/-- As long as no two requests of an issuer overlap between count and commit, every insert would
pass the check again.
-/
theorem along_passesAgain (limited : env.issuerDeliveriesPerHour ≠ 0) {s : State}
    {actions : List Action} (roomy : Roomy env s)
    (alone : Machine.Along (step env) Alone s actions)
    : Machine.Along (step env) (PassesAgain env) s actions := by
  induction actions generalizing s with
  | nil => trivial
  | cons action rest ih =>
      refine ⟨?_, fun t stepped => ?_⟩
      · intro row commits _
        obtain ⟨i, _, phase, _⟩ := commits_eq_some.mp commits
        exact checkQuota_eq_ok.mpr (roomy i _ row.issuerId phase rfl)
      · exact ih (step_roomy limited alone.1 roomy stepped) (alone.2 t stepped)

/-- At every moment of a run every issuer is within its quota, exactly if every recent row would
have passed the check of the quota when it became visible. This is so in particular as long as
no two requests of an issuer overlap between count and commit.
-/
theorem quota_holds_iff (env : Env) (hints : Nat → String) (start : Int) {actions : List Action}
    {s : State} (ran : Machine.run (step env) (State.init hints start) actions = some s)
    : (Machine.Always (step env) (WithinQuota env) (State.init hints start) actions
        ↔ Machine.Along (step env) (PassesAgain env) (State.init hints start) actions)
      ∧ (env.issuerDeliveriesPerHour ≠ 0
        → Machine.Along (step env) Alone (State.init hints start) actions
        → Machine.Always (step env) (WithinQuota env) (State.init hints start) actions) := by
  refine ⟨run_quota_iff ran, fun limited alone => ?_⟩
  have roomy : Roomy env (State.init hints start) := by
    intro i phase issuerId here
    cases here
  exact (run_quota_iff ran).mpr (along_passesAgain limited roomy alone)

/-- Two deliveries one after the other, with a quota of one. -/
def sampleSequence : List Action :=
  [.mirror [sampleIssuer]] ++ deliverUpToInsert 0 7
    ++ [.commit 0 true, .deliver 1 sampleRequest, .checkIssuer 1 true, .count 1 true]

theorem quota_holds_in_sequence
    : ∃ s,
        Machine.run (step (sampleEnv 1)) (State.init (fun _ => "hint") 0) sampleSequence = some s
        ∧ s.deliveries 1
          = some (.answered (.error (.tooManyRequests "issuer hourly delivery quota exceeded")))
        ∧ Machine.Always (step (sampleEnv 1)) (WithinQuota (sampleEnv 1))
            (State.init (fun _ => "hint") 0) sampleSequence := by
  have observed
      : (Machine.run (step (sampleEnv 1)) (State.init (fun _ => "hint") 0) sampleSequence).map
          (fun s => s.deliveries 1)
        = some (some
          (.answered (.error (.tooManyRequests "issuer hourly delivery quota exceeded")))) := by
    decide +kernel
  have along
      : Machine.Along (step (sampleEnv 1)) (PassesAgain (sampleEnv 1))
          (State.init (fun _ => "hint") 0) sampleSequence := by
    decide +kernel
  obtain ⟨s, ran, refused⟩ := Option.map_eq_some_iff.mp observed
  exact ⟨s, ran, refused, (quota_holds_iff (sampleEnv 1) (fun _ => "hint") 0 ran).1.mpr along⟩

/-- With a quota of one, two deliveries that are counted before either is visible both get in. -/
theorem quota_exceeded
    : ∃ s,
        Machine.run (step (sampleEnv 1)) (State.init (fun _ => "hint") 0)
          ([.mirror [sampleIssuer]] ++ deliverUpToInsert 0 7 ++ deliverUpToInsert 1 8
            ++ [.commit 0 true, .commit 1 true])
          = some s
        ∧ (sampleEnv 1).issuerDeliveriesPerHour = 1
        ∧ delivered s.mailbox "issuer" s.now = 2 := by
  have observed
      : (Machine.run (step (sampleEnv 1)) (State.init (fun _ => "hint") 0)
          ([.mirror [sampleIssuer]] ++ deliverUpToInsert 0 7 ++ deliverUpToInsert 1 8
            ++ [.commit 0 true, .commit 1 true])).map
          (fun s => delivered s.mailbox "issuer" s.now)
        = some 2 := by
    decide +kernel
  obtain ⟨s, ran, count⟩ := Option.map_eq_some_iff.mp observed
  exact ⟨s, ran, rfl, count⟩

end Attesta.Api.MailboxService
