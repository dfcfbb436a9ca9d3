import Attesta.Api.MailboxSafety
import Attesta.Api.Sweep

/-! What an acknowledgement of the mailbox is worth. Every stored delivery goes back to a
validated request of an active issuer, and every acknowledged one stays until its retention
window is over.
-/

namespace Attesta.Api.Issuer

variable {env : Env}

/-- The bounds `deliver_credential` promises for what it stores. -/
structure Delivery.WithinBounds (delivery : Delivery) : Prop where
  ciphertext : 0 < delivery.ciphertext.length ∧ delivery.ciphertext.length ≤ maxCiphertextBytes
  recipientHint : delivery.recipientHint ≠ "" ∧ delivery.recipientHint.utf8ByteSize ≤ 128
  claimTokenHash : ∀ hash, delivery.claimTokenHash = some hash → hash.length = 32

theorem decodeClaimTokenHash_length {value : Option String} {hash : List UInt8}
    (h : decodeClaimTokenHash env value = .ok (some hash))
    : hash.length = 32 := by
  cases value with
  | none => cases h
  | some value =>
      simp only [decodeClaimTokenHash, bind, Except.bind] at h
      split at h
      · cases h
      · split at h
        · cases h
        next exact =>
          cases h
          exact not_not.mp exact

theorem validateDelivery_withinBounds {req : DeliverCredentialRequest} {delivery : Delivery}
    (h : validateDelivery env req = .ok delivery)
    : delivery.WithinBounds := by
  simp only [validateDelivery, bind, Except.bind] at h
  split at h
  · cases h
  next ciphertext _ =>
    split at h
    · cases h
    next sized =>
      split at h
      · cases h
      next signature _ =>
        split at h
        · cases h
        next hinted =>
          split at h
          · cases h
          next hash decoded =>
            cases h
            rw [not_or, Nat.not_lt] at sized hinted
            refine ⟨⟨List.length_pos_iff.mpr ?_, sized.2⟩, ⟨?_, hinted.2⟩, ?_⟩
            · simpa using sized.1
            · simpa using hinted.1
            · rintro hash rfl
              exact decodeClaimTokenHash_length decoded

end Attesta.Api.Issuer

namespace Attesta.Api.MailboxService

open Issuer
open Attesta.Api.Retention (Mailbox Kind Expired WindowSafe Batch asI32 cutoffAt)

variable {env : Env}

-----------------------------------------------------------------------------------------
-- One request
-----------------------------------------------------------------------------------------

/-- Every way a step can move the delivery request `i` to another phase. -/
inductive Advance (env : Env) (s : State) (i : Nat) : Action → DeliverPhase → Prop
  | refused {action : Action} (pending : ∀ result, s.deliveries i ≠ some (.answered result))
    (e : ApiError)
    : Advance env s i action (.answered (.error e))
  | validated {req : DeliverCredentialRequest} {delivery : Delivery} (new : s.deliveries i = none)
    (valid : validateDelivery env req = .ok delivery)
    : Advance env s i (.deliver i req) (.checkingIssuer delivery)
  | vetted {delivery : Delivery} {next : DeliverPhase}
    (phase : s.deliveries i = some (.checkingIssuer delivery))
    (active : (selectActiveIssuer s.issuers delivery.issuerId).isSome)
    (onwards
      : next = .counting delivery
        ∨ env.issuerDeliveriesPerHour = 0 ∧ next = .inserting delivery)
    : Advance env s i (.checkIssuer i true) next
  | counted {delivery : Delivery} (phase : s.deliveries i = some (.counting delivery))
    (room : checkQuota env (delivered s.mailbox delivery.issuerId s.now) = .ok ())
    : Advance env s i (.count i true) (.inserting delivery)
  | inserted {delivery : Delivery} (deliveryId : Nat)
    (phase : s.deliveries i = some (.inserting delivery))
    : Advance env s i (.insert i deliveryId)
        (.committing (deliveryRow (s.lastSeq + 1) deliveryId s.now delivery))
  | committed {row : CredentialDeliveryRow} (phase : s.deliveries i = some (.committing row))
    (admits : Admits s.issuers s.mailbox row)
    : Advance env s i (.commit i true) (.answered (.ok row.deliveryId))

theorem checkIssuer_eq_ok {issuers : List IssuerRow} {issuerId : String}
    : checkIssuer issuers issuerId = .ok () ↔ (selectActiveIssuer issuers issuerId).isSome := by
  unfold checkIssuer
  split <;> simp_all

theorem setDelivery_eq_or {s u : State} (same : u.deliveries = s.deliveries) {i j : Nat}
    {phase : DeliverPhase}
    : (u.setDelivery i phase).deliveries j = s.deliveries j
      ∨ j = i ∧ (u.setDelivery i phase).deliveries j = some phase := by
  by_cases here : j = i
  · exact Or.inr ⟨here, by simp [State.setDelivery, here]⟩
  · exact Or.inl (by simp [State.setDelivery, here, same])

/-- A step leaves a request as it is or advances it. -/
theorem step_advances {s t : State} {action : Action} (h : step env s action = some t) (j : Nat)
    : t.deliveries j = s.deliveries j
      ∨ ∃ phase, t.deliveries j = some phase ∧ Advance env s j action phase := by
  have moved {u : State} {i : Nat} {phase : DeliverPhase} (same : u.deliveries = s.deliveries)
      (advances : Advance env s i action phase)
      : (u.setDelivery i phase).deliveries j = s.deliveries j
        ∨ ∃ phase', (u.setDelivery i phase).deliveries j = some phase'
            ∧ Advance env s j action phase' := by
    rcases setDelivery_eq_or same (j := j) with kept | here
    · exact Or.inl kept
    · exact Or.inr ⟨phase, here.2, here.1 ▸ advances⟩
  cases action with
  | deliver i req =>
      simp only [step] at h
      split at h
      next new =>
        cases h
        cases valid : validateDelivery env req with
        | ok delivery => exact moved rfl (.validated new valid)
        | error e => exact moved rfl (.refused (by simp [new]) e)
      · cases h
  | checkIssuer i ok =>
      simp only [step] at h
      split at h
      next delivery phase =>
        cases h
        cases ok with
        | false => exact moved rfl (.refused (by simp [phase]) _)
        | true =>
            cases checked : checkIssuer s.issuers delivery.issuerId with
            | error e => exact moved rfl (.refused (by simp [phase]) e)
            | ok =>
                refine moved rfl (.vetted phase (checkIssuer_eq_ok.mp checked) ?_)
                by_cases unlimited : env.issuerDeliveriesPerHour = 0
                · exact Or.inr ⟨unlimited, by simp [proceed, unlimited]⟩
                · exact Or.inl (by simp [proceed, unlimited])
      · cases h
  | count i ok =>
      simp only [step] at h
      split at h
      next delivery phase =>
        cases h
        cases ok with
        | false => exact moved rfl (.refused (by simp [phase]) _)
        | true =>
            rw [if_pos rfl]
            cases room : checkQuota env (delivered s.mailbox delivery.issuerId s.now) with
            | error e => exact moved rfl (.refused (by simp [phase]) e)
            | ok => exact moved rfl (.counted phase room)
      · cases h
  | insert i deliveryId =>
      simp only [step] at h
      split at h
      next delivery phase =>
        split at h
        · cases h
          exact moved rfl (.inserted deliveryId phase)
        · cases h
          exact moved rfl (.refused (by simp [phase]) _)
      · cases h
  | commit i ok =>
      simp only [step] at h
      split at h
      next row phase =>
        split at h
        next both =>
          cases h
          obtain ⟨rfl, admits⟩ := both
          exact moved rfl (.committed phase admits)
        · cases h
          exact moved rfl (.refused (by simp [phase]) _)
      · cases h
  | claim | select =>
      simp only [step] at h
      split at h
      · cases h
        exact Or.inl rfl
      · cases h
  | update i ok =>
      simp only [step] at h
      split at h
      · cases h
        split <;> exact Or.inl rfl
      · cases h
  | sweep kind chosen =>
      simp only [step] at h
      split at h
      · cases h
      · split at h
        · split at h
          · cases h
            exact Or.inl rfl
          · cases h
        · cases h
  | tick now =>
      simp only [step] at h
      split at h
      · cases h
        exact Or.inl rfl
      · cases h
  | page | mirror =>
      cases h
      exact Or.inl rfl

theorem Advance.pending {s : State} {i : Nat} {action : Action} {phase : DeliverPhase}
    (h : Advance env s i action phase) (result : Except ApiError Nat)
    : s.deliveries i ≠ some (.answered result) := by
  cases h with
  | refused pending => exact pending result
  | validated new => simp [new]
  | vetted phase | counted phase | inserted _ phase | committed phase => simp [phase]

/-- An answer is final. -/
theorem step_answered {s t : State} {action : Action} (h : step env s action = some t) {i : Nat}
    {result : Except ApiError Nat} (answered : s.deliveries i = some (.answered result))
    : t.deliveries i = some (.answered result) := by
  rcases step_advances h i with same | advanced
  · rw [same, answered]
  · obtain ⟨phase, _, advances⟩ := advanced
    exact absurd answered (advances.pending result)

/-- A step accepts the row whose insert it makes visible, and answers its request. -/
theorem step_accepts {s t : State} {action : Action} (h : step env s action = some t)
    : t.accepted = s.accepted
      ∨ ∃ i row, action = .commit i true ∧ s.deliveries i = some (.committing row)
          ∧ t.accepted = s.accepted ++ [row]
          ∧ t.deliveries i = some (.answered (.ok row.deliveryId)) := by
  cases step_effect h with
  | @committed i row phase =>
      exact Or.inr ⟨i, row, rfl, phase, rfl, by simp [State.setDelivery]⟩
  | _ => exact Or.inl rfl

theorem mem_accepted_of_commit {s t : State} {i : Nat} {row : CredentialDeliveryRow}
    (h : step env s (.commit i true) = some t) (phase : s.deliveries i = some (.committing row))
    (admits : Admits s.issuers s.mailbox row)
    : row ∈ t.accepted := by
  simp only [step, phase, admits, and_self, dite_true, Option.some.injEq] at h
  rw [← h]
  exact List.mem_append_right _ (List.mem_singleton_self row)

-----------------------------------------------------------------------------------------
-- Where a delivery comes from
-----------------------------------------------------------------------------------------

section Source

variable (env) (start : State) (past : List Action) (i : Nat)

/-- Request `i` asked for this delivery and passed the checks. -/
def Asked (delivery : Delivery) : Prop :=
  ∃ req, Action.deliver i req ∈ past ∧ validateDelivery env req = .ok delivery

/-- When request `i` looked its issuer up, the issuer was active. -/
def Vetted (delivery : Delivery) : Prop :=
  Machine.Once (step env)
    (fun s action =>
      action = .checkIssuer i true ∧ (selectActiveIssuer s.issuers delivery.issuerId).isSome)
    start past

/-- The row has the columns that request `i` asked for. -/
def Requested (row : CredentialDeliveryRow) : Prop :=
  ∃ delivery, Asked env past i delivery ∧ Vetted env start past i delivery
    ∧ row = { deliveryRow row.seq row.deliveryId row.createdAt delivery with
        claimedAt := row.claimedAt }

/-- What a phase of request `i` says about the past. -/
def Backed (accepted : List CredentialDeliveryRow) : DeliverPhase → Prop
  | .checkingIssuer delivery => Asked env past i delivery
  | .counting delivery | .inserting delivery =>
      Asked env past i delivery ∧ Vetted env start past i delivery
  | .committing row => Requested env start past i row
  | .answered (.ok deliveryId) =>
      ∃ row ∈ accepted, row.deliveryId = deliveryId ∧ Requested env start past i row
  | .answered (.error _) => True

/-- Every phase is backed by the past, and every accepted row by an acknowledged request. -/
structure Traced (s : State) : Prop where
  phases : ∀ i phase, s.deliveries i = some phase → Backed env start past i s.accepted phase
  accepted
    : ∀ row ∈ s.accepted, ∃ i,
        s.deliveries i = some (.answered (.ok row.deliveryId)) ∧ Requested env start past i row

end Source

variable {start : State} {past : List Action} {i : Nat}

theorem Asked.concat {delivery : Delivery} (h : Asked env past i delivery) (action : Action)
    : Asked env (past ++ [action]) i delivery := by
  obtain ⟨req, asked, valid⟩ := h
  exact ⟨req, List.mem_append_left _ asked, valid⟩

theorem Requested.concat {row : CredentialDeliveryRow} (h : Requested env start past i row)
    (action : Action)
    : Requested env start (past ++ [action]) i row := by
  obtain ⟨delivery, asked, vetted, same⟩ := h
  exact ⟨delivery, asked.concat action, vetted.concat action, same⟩

theorem Backed.concat {accepted more : List CredentialDeliveryRow} {phase : DeliverPhase}
    (h : Backed env start past i accepted phase) (action : Action) (kept : accepted ⊆ more)
    : Backed env start (past ++ [action]) i more phase := by
  cases phase with
  | checkingIssuer => exact Asked.concat h action
  | counting | inserting => exact ⟨h.1.concat action, h.2.concat action⟩
  | committing => exact Requested.concat h action
  | answered result =>
      cases result with
      | error => trivial
      | ok =>
          obtain ⟨row, member, same, requested⟩ := h
          exact ⟨row, kept member, same, requested.concat action⟩

theorem step_traced {s t : State} {action : Action}
    (ran : Machine.run (step env) start past = some s) (h : Traced env start past s)
    (stepped : step env s action = some t)
    : Traced env start (past ++ [action]) t := by
  have kept : s.accepted ⊆ t.accepted := by
    rcases step_accepts stepped with same | added
    · exact same ▸ List.Subset.refl _
    · obtain ⟨_, row, _, _, grown, _⟩ := added
      exact grown ▸ List.subset_append_left _ _
  constructor
  · intro j phase here
    rcases step_advances stepped j with same | advanced
    · exact (h.phases j phase (same ▸ here)).concat action kept
    · obtain ⟨next, there, advances⟩ := advanced
      cases here.symm.trans there
      cases advances with
      | refused => trivial
      | @validated req delivery _ valid =>
          exact ⟨req, List.mem_append_right _ (List.mem_singleton_self _), valid⟩
      | @vetted delivery _ phase active onwards =>
          have asked : Asked env past j delivery := h.phases j _ phase
          have vetted : Vetted env start (past ++ [.checkIssuer j true]) j delivery :=
            Machine.once_last ran ⟨rfl, active⟩
          rcases onwards with rfl | ⟨_, rfl⟩ <;> exact ⟨asked.concat _, vetted⟩
      | @counted delivery phase =>
          have counted : Backed env start past j s.accepted (.inserting delivery) :=
            h.phases j (.counting delivery) phase
          exact counted.concat _ kept
      | @inserted delivery _ phase =>
          obtain ⟨asked, vetted⟩ := h.phases j _ phase
          exact ⟨delivery, asked.concat _, vetted.concat _, rfl⟩
      | @committed row phase admits =>
          have requested : Requested env start past j row := h.phases j _ phase
          exact ⟨row, mem_accepted_of_commit stepped phase admits, rfl, requested.concat _⟩
  · intro row member
    rcases step_accepts stepped with same | added
    · obtain ⟨j, answered, requested⟩ := h.accepted row (same ▸ member)
      exact ⟨j, step_answered stepped answered, requested.concat action⟩
    · obtain ⟨j, new, rfl, phase, grown, answered⟩ := added
      rcases List.mem_append.mp (grown ▸ member) with old | here
      · obtain ⟨k, before, requested⟩ := h.accepted row old
        exact ⟨k, step_answered stepped before, requested.concat _⟩
      · obtain rfl := List.mem_singleton.mp here
        exact ⟨j, answered, Requested.concat (h.phases j _ phase) _⟩

theorem run_traced {hints : Nat → String} {now : Int} {actions : List Action} {s : State}
    (ran : Machine.run (step env) (State.init hints now) actions = some s)
    : Traced env (State.init hints now) actions s := by
  refine Machine.invariant_of_history (fun _ _ _ _ => step_traced) ⟨?_, ?_⟩ ran
  · intro i phase here
    cases here
  · intro row member
    cases member

-----------------------------------------------------------------------------------------
-- How long a delivery stays
-----------------------------------------------------------------------------------------

/-- The sweeper has deleted the delivery, after its window. -/
def Removed (env : Env) (start : State) (past : List Action) (row : CredentialDeliveryRow)
    : Prop :=
  Machine.Once (step env)
    (fun s action =>
      ∃ kind chosen stored, action = .sweep kind chosen ∧ stored ∈ chosen
        ∧ { stored with claimedAt := none } = row ∧ Expired env.retention s.now stored)
    start past

/-- The delivery is stored, claimed or not, or its window has ended. -/
def Kept (env : Env) (start : State) (past : List Action) (s : State)
    (row : CredentialDeliveryRow)
    : Prop :=
  (∃ stored ∈ s.mailbox.rows, { stored with claimedAt := none } = row)
  ∨ Removed env start past row

theorem step_sweep {s t : State} {kind : Kind} {chosen : List CredentialDeliveryRow}
    (h : step env s (.sweep kind chosen) = some t)
    : env.retention.days kind ≠ 0
      ∧ ∃ cutoff, cutoffAt s.now (asI32 (env.retention.days kind)) = some cutoff
        ∧ Batch (s.mailbox.matching cutoff kind) chosen ∧ t = s.discard chosen := by
  simp only [step] at h
  split at h
  · cases h
  next enabled =>
    split at h
    next cutoff found =>
      split at h
      next batch => exact ⟨enabled, cutoff, found, batch, (Option.some.inj h).symm⟩
      next => cases h
    next => cases h

/-- With windows that survive the cast, a step loses nothing before its time. -/
theorem step_kept {s t : State} {action : Action}
    (small : ∀ kind, (env.retention.days kind).toNat < 2 ^ 31) (numbered : Numbered s)
    (ran : Machine.run (step env) start past = some s)
    (h : ∀ row ∈ s.accepted, Kept env start past s row) (stepped : step env s action = some t)
    : ∀ row ∈ t.accepted, Kept env start (past ++ [action]) t row := by
  have unchanged (accepted : t.accepted = s.accepted)
      (stays
        : ∀ stored ∈ s.mailbox.rows,
            ∃ now ∈ t.mailbox.rows,
              { now with claimedAt := none } = { stored with claimedAt := none })
      : ∀ row ∈ t.accepted, Kept env start (past ++ [action]) t row := by
    intro row member
    rcases h row (accepted ▸ member) with here | gone
    · obtain ⟨stored, inside, same⟩ := here
      obtain ⟨now, there, alike⟩ := stays stored inside
      exact Or.inl ⟨now, there, alike.trans same⟩
    · exact Or.inr (gone.concat action)
  cases step_effect stepped with
  | @committed i new phase admits =>
      intro row member
      rcases List.mem_append.mp member with old | here
      · rcases h row old with kept | gone
        · obtain ⟨stored, inside, same⟩ := kept
          exact Or.inl ⟨stored, (mem_insertDelivery admits.2.1).mpr (Or.inl inside), same⟩
        · exact Or.inr (gone.concat _)
      · obtain rfl := List.mem_singleton.mp here
        have unclaimed := numbered.pending i row phase
        refine Or.inl ⟨row, (mem_insertDelivery admits.2.1).mpr (Or.inr rfl), ?_⟩
        rw [← unclaimed]
  | @claimed i req presented phase affected =>
      refine unchanged rfl fun stored inside => ?_
      cases hit : claimable req.deliveryId stored with
      | false => exact ⟨stored, mem_claimDelivery.mpr (Or.inl ⟨inside, hit⟩), rfl⟩
      | true => exact ⟨_, mem_claimDelivery.mpr (Or.inr ⟨stored, inside, hit, rfl⟩), rfl⟩
  | @swept kind _ chosen =>
      obtain ⟨enabled, cutoff, found, batch, _⟩ := step_sweep stepped
      intro row member
      rcases h row member with kept | gone
      · obtain ⟨stored, inside, same⟩ := kept
        by_cases picked : stored ∈ chosen
        · have safe : WindowSafe env.retention s.mailbox s.now kind := Or.inr (Or.inl (small kind))
          have expired := safe.expired enabled found (batch.1 picked)
          exact Or.inr (Machine.once_last ran ⟨kind, chosen, stored, rfl, picked, same, expired⟩)
        · refine Or.inl ⟨stored, (Retention.mem_delete_iff ?_).mpr ⟨inside, picked⟩, same⟩
          exact fun other chosen => List.mem_of_mem_filter (batch.1 chosen)
      · exact Or.inr (gone.concat _)
  | _ => exact unchanged rfl fun stored inside => ⟨stored, inside, rfl⟩

theorem run_kept {hints : Nat → String} {now : Int} {actions : List Action} {s : State}
    (small : ∀ kind, (env.retention.days kind).toNat < 2 ^ 31)
    (ran : Machine.run (step env) (State.init hints now) actions = some s)
    : ∀ row ∈ s.accepted, Kept env (State.init hints now) actions s row := by
  have preserved (past : List Action) (s : State) (action : Action) (t : State)
      (reached : Machine.run (step env) (State.init hints now) past = some s)
      (kept : ∀ row ∈ s.accepted, Kept env (State.init hints now) past s row)
      (stepped : step env s action = some t)
      : ∀ row ∈ t.accepted, Kept env (State.init hints now) (past ++ [action]) t row :=
    step_kept small (run_numbered reached) reached kept stepped
  exact Machine.invariant_of_history preserved (fun _ member => nomatch member) ran

-----------------------------------------------------------------------------------------
-- The two results
-----------------------------------------------------------------------------------------

/-- An acknowledged delivery has exactly the content its request asked for, and it stays in the
mailbox until its window has ended, if the windows survive the cast.
-/
theorem acknowledged_kept (env : Env)
    (small : ∀ kind, (env.retention.days kind).toNat < 2 ^ 31)
    {hints : Nat → String} {now : Int} {actions : List Action} {s : State}
    (ran : Machine.run (step env) (State.init hints now) actions = some s)
    {i deliveryId : Nat} (acknowledged : s.deliveries i = some (.answered (.ok deliveryId)))
    : ∃ req delivery seq createdAt,
        Action.deliver i req ∈ actions
        ∧ validateDelivery env req = .ok delivery
        ∧ Kept env (State.init hints now) actions s
            (deliveryRow seq deliveryId createdAt delivery) := by
  obtain ⟨row, accepted, rfl, requested⟩ := (run_traced ran).phases i _ acknowledged
  obtain ⟨delivery, ⟨req, asked, valid⟩, _, same⟩ := requested
  have unclaimed := (run_numbered ran).unclaimed row accepted
  have shape : row = deliveryRow row.seq row.deliveryId row.createdAt delivery := by
    rw [unclaimed] at same
    exact same
  refine ⟨req, delivery, row.seq, row.createdAt, asked, valid, ?_⟩
  exact shape ▸ run_kept small ran row accepted

/-- One delivery, accepted at time zero. -/
def sampleAccepted : List Action :=
  .mirror [sampleIssuer] :: deliverUpToInsert 0 7 ++ [.commit 0 true]

/-- The same delivery, swept unclaimed after 181 days. -/
def sampleExpiry : List Action :=
  sampleAccepted ++ [.tick (181 * Retention.dayMicros),
    .sweep .unclaimed [deliveryRow 1 7 0 ⟨"issuer", "hint", [1], [1], some sampleHash⟩]]

theorem acknowledged_kept_until_expiry
    : ∃ s,
        Machine.run (step (sampleEnv 10)) (State.init (fun _ => "hint") 0) sampleExpiry = some s
        ∧ s.mailbox.rows = []
        ∧ ∃ req delivery seq createdAt,
            Action.deliver 0 req ∈ sampleExpiry
            ∧ validateDelivery (sampleEnv 10) req = .ok delivery
            ∧ Kept (sampleEnv 10) (State.init (fun _ => "hint") 0) sampleExpiry s
                (deliveryRow seq 7 createdAt delivery) := by
  have observed
      : (Machine.run (step (sampleEnv 10)) (State.init (fun _ => "hint") 0) sampleExpiry).map
          (fun s => (s.mailbox.rows, s.deliveries 0))
        = some ([], some (.answered (.ok 7))) := by
    decide +kernel
  obtain ⟨s, ran, shape⟩ := Option.map_eq_some_iff.mp observed
  rw [Prod.mk.injEq] at shape
  have small : ∀ kind, ((sampleEnv 10).retention.days kind).toNat < 2 ^ 31 := by
    intro kind
    cases kind <;> decide
  exact ⟨s, ran, shape.1, acknowledged_kept (sampleEnv 10) small ran shape.2⟩

/-- Every stored delivery goes back to a request of its own, which passed the checks and whose
issuer was active when it was looked up.
-/
theorem stored_requested (env : Env) {hints : Nat → String} {now : Int} {actions : List Action}
    {s : State} (ran : Machine.run (step env) (State.init hints now) actions = some s)
    : ∃ source : CredentialDeliveryRow → Nat,
        Set.InjOn source { row | row ∈ s.mailbox.rows }
        ∧ ∀ row ∈ s.mailbox.rows, ∃ delivery,
            Asked env actions (source row) delivery
            ∧ Vetted env (State.init hints now) actions (source row) delivery
            ∧ delivery.WithinBounds
            ∧ row = { deliveryRow row.seq row.deliveryId row.createdAt delivery with
                claimedAt := row.claimedAt } := by
  have traced := run_traced ran
  have backed : ∀ row : CredentialDeliveryRow, ∃ i, row ∈ s.mailbox.rows
      → s.deliveries i = some (.answered (.ok row.deliveryId))
        ∧ Requested env (State.init hints now) actions i row := by
    intro row
    by_cases stored : row ∈ s.mailbox.rows
    · obtain ⟨original, accepted, same⟩ := (run_numbered ran).stored row stored
      obtain ⟨i, answered, delivery, asked, vetted, alike⟩ := traced.accepted original accepted
      rw [same]
      exact ⟨i, fun _ => ⟨answered, delivery, asked, vetted, by rw [alike]; rfl⟩⟩
    · exact ⟨0, fun inside => absurd inside stored⟩
  choose source requested using backed
  refine ⟨source, ?_, ?_⟩
  · intro row stored other alsoStored same
    have first := (requested row stored).1
    have second := (requested other alsoStored).1
    rw [same, second] at first
    simp only [Option.some.injEq, DeliverPhase.answered.injEq, Except.ok.injEq] at first
    exact List.inj_on_of_nodup_map s.mailbox.unique stored alsoStored first.symm
  · intro row stored
    obtain ⟨delivery, asked, vetted, same⟩ := (requested row stored).2
    obtain ⟨_, _, valid⟩ := id asked
    exact ⟨delivery, asked, vetted, validateDelivery_withinBounds valid, same⟩

theorem stored_requested_once
    : ∃ s,
        Machine.run (step (sampleEnv 10)) (State.init (fun _ => "hint") 0) sampleAccepted = some s
        ∧ s.mailbox.rows ≠ []
        ∧ ∃ source : CredentialDeliveryRow → Nat,
            Set.InjOn source { row | row ∈ s.mailbox.rows }
            ∧ ∀ row ∈ s.mailbox.rows, ∃ delivery,
                Asked (sampleEnv 10) sampleAccepted (source row) delivery
                ∧ Vetted (sampleEnv 10) (State.init (fun _ => "hint") 0) sampleAccepted
                    (source row) delivery
                ∧ delivery.WithinBounds
                ∧ row = { deliveryRow row.seq row.deliveryId row.createdAt delivery with
                    claimedAt := row.claimedAt } := by
  have observed
      : (Machine.run (step (sampleEnv 10)) (State.init (fun _ => "hint") 0) sampleAccepted).map
          (fun s => s.mailbox.rows.length)
        = some 1 := by
    decide +kernel
  obtain ⟨s, ran, size⟩ := Option.map_eq_some_iff.mp observed
  refine ⟨s, ran, ?_, stored_requested (sampleEnv 10) ran⟩
  exact List.ne_nil_of_length_eq_add_one size

end Attesta.Api.MailboxService
