import Attesta.Api.ClaimSafety
import Attesta.Api.MailboxDurability

/-! The mailbox over a connection that breaks. An `INSERT` or a guarded `UPDATE` can be applied
although its reply never arrives, and the request is answered with a 500. But for the answers
such a run is one of the mailbox service.
-/

namespace Attesta.Api.LostReplies

open Issuer MailboxService

inductive Action
  | serve (action : MailboxService.Action)
  /-- The insert becomes visible, and its reply is lost. -/
  | commitLost (i : Nat)
  /-- The guarded `UPDATE` of a claim is executed, and its reply is lost. -/
  | updateLost (i : Nat)

/-- The step of the service that does the same to the table. -/
def Action.served : Action → MailboxService.Action
  | .serve action => action
  | .commitLost i => .commit i true
  | .updateLost i => .update i true

variable (env : Env)

def step (s : State) : Action → Option State
  | .serve action => MailboxService.step env s action
  | .commitLost i =>
      match s.deliveries i with
      | some (.committing row) =>
          if h : Admits s.issuers s.mailbox row then
            some ((s.accept row h.2.1).setDelivery i (.answered (.error .internal)))
          else none
      | _ => none
  | .updateLost i =>
      match s.claims i with
      | some ⟨req, .updating _⟩ =>
          some ((s.markClaimed req.deliveryId).setClaim i ⟨req, .answered (.error .internal)⟩)
      | _ => none

/-- The states are the same but for the answers: of what the service has answered, the clients
have been told the same or a 500.
-/
structure Told (s t : State) : Prop where
  rest : s = { t with deliveries := s.deliveries, claims := s.claims }
  deliveries
    : ∀ i,
        s.deliveries i = t.deliveries i
        ∨ s.deliveries i = some (.answered (.error .internal))
          ∧ ∃ result, t.deliveries i = some (.answered result)
  claims
    : ∀ i,
        s.claims i = t.claims i
        ∨ ∃ req result,
            s.claims i = some ⟨req, .answered (.error .internal)⟩
            ∧ t.claims i = some ⟨req, .answered result⟩

variable {env} {s t : State}

theorem Told.refl (s : State) : Told s s :=
  ⟨rfl, fun _ => Or.inl rfl, fun _ => Or.inl rfl⟩

/-- A delivery that is not answered is where the service has it. -/
theorem Told.delivery (h : Told s t) {i : Nat}
    (pending : ∀ result, s.deliveries i ≠ some (.answered result))
    : t.deliveries i = s.deliveries i := by
  rcases h.deliveries i with same | ⟨answered, _⟩
  · exact same.symm
  · exact absurd answered (pending _)

theorem Told.claim (h : Told s t) {i : Nat}
    (pending : ∀ req result, s.claims i ≠ some ⟨req, .answered result⟩)
    : t.claims i = s.claims i := by
  rcases h.claims i with same | ⟨req, _, answered, _⟩
  · exact same.symm
  · exact absurd answered (pending req _)

/-- The client of a delivery is told the same as the service answers, or a 500. -/
theorem Told.setDelivery (h : Told s t) (i : Nat) {told phase : DeliverPhase}
    (answer
      : told = phase
        ∨ told = .answered (.error .internal) ∧ ∃ result, phase = .answered result)
    : Told (s.setDelivery i told) (t.setDelivery i phase) where
  rest := by rw [h.rest]; rfl
  deliveries j := by
    by_cases here : j = i
    · rcases answer with rfl | ⟨rfl, result, rfl⟩
      · exact Or.inl (by simp [State.setDelivery, here])
      · exact Or.inr ⟨by simp [State.setDelivery, here], result, by simp [State.setDelivery, here]⟩
    · simpa [State.setDelivery, here] using h.deliveries j
  claims := h.claims

theorem Told.setClaim (h : Told s t) (i : Nat) (req : ClaimRequest) {told phase : ClaimPhase}
    (answer
      : told = phase
        ∨ told = .answered (.error .internal) ∧ ∃ result, phase = .answered result)
    : Told (s.setClaim i ⟨req, told⟩) (t.setClaim i ⟨req, phase⟩) where
  rest := by rw [h.rest]; rfl
  deliveries := h.deliveries
  claims j := by
    by_cases here : j = i
    · rcases answer with rfl | ⟨rfl, result, rfl⟩
      · exact Or.inl (by simp [State.setClaim, here])
      · refine Or.inr ⟨req, result, ?_, ?_⟩ <;> simp [State.setClaim, here]
    · simpa [State.setClaim, here] using h.claims j

/-- Whatever changes neither the deliveries nor the claims changes both states alike. -/
theorem Told.changed (h : Told s t) {s' : State} (t' : State)
    (rest : s' = { t' with deliveries := s.deliveries, claims := s.claims })
    (deliveries : t'.deliveries = t.deliveries) (claims : t'.claims = t.claims)
    : Told s' t' := by
  subst rest
  exact ⟨rfl, by rw [deliveries]; exact h.deliveries, by rw [claims]; exact h.claims⟩

/-- A step of the service does the same to both states. -/
theorem serve_told {action : MailboxService.Action} (h : Told s t) {s' : State}
    (stepped : MailboxService.step env s action = some s')
    : ∃ t', MailboxService.step env t action = some t' ∧ Told s' t' := by
  have delivering {i : Nat} {phase : Option DeliverPhase} (here : s.deliveries i = phase)
      (pending : ∀ result, phase ≠ some (.answered result))
      : t.deliveries i = phase :=
    (h.delivery (here ▸ pending)).trans here
  have claiming {i : Nat} {claim : Option Claim} (here : s.claims i = claim)
      (pending : ∀ req result, claim ≠ some ⟨req, .answered result⟩)
      : t.claims i = claim :=
    (h.claim (here ▸ pending)).trans here
  obtain ⟨d, c, rfl⟩ : ∃ d c, s = { t with deliveries := d, claims := c } := ⟨_, _, h.rest⟩
  cases action with
  | deliver i req =>
      simp only [MailboxService.step] at stepped
      split at stepped
      next new =>
        cases stepped
        simp only [MailboxService.step, delivering new (by simp)]
        exact ⟨_, rfl, h.setDelivery i (Or.inl rfl)⟩
      next => cases stepped
  | checkIssuer i ok | count i ok =>
      simp only [MailboxService.step] at stepped
      split at stepped
      next delivery phase =>
        cases stepped
        simp only [MailboxService.step, delivering phase (by simp)]
        exact ⟨_, rfl, h.setDelivery i (Or.inl rfl)⟩
      next => cases stepped
  | insert i deliveryId =>
      simp only [MailboxService.step] at stepped
      split at stepped
      next delivery phase =>
        cases stepped
        simp only [MailboxService.step, delivering phase (by simp)]
        refine ⟨_, rfl, ?_⟩
        split
        · exact (h.changed (t.draw deliveryId) rfl rfl rfl).setDelivery i (Or.inl rfl)
        · exact h.setDelivery i (Or.inl rfl)
      next => cases stepped
  | commit i ok =>
      simp only [MailboxService.step] at stepped
      split at stepped
      next row phase =>
        cases stepped
        simp only [MailboxService.step, delivering phase (by simp)]
        refine ⟨_, rfl, ?_⟩
        split
        next admits =>
          exact (h.changed (t.accept row admits.2.2.1) rfl rfl rfl).setDelivery i
            (Or.inl rfl)
        next => exact h.setDelivery i (Or.inl rfl)
      next => cases stepped
  | claim i req =>
      simp only [MailboxService.step] at stepped
      split at stepped
      next new =>
        cases stepped
        simp only [MailboxService.step, claiming new (by simp)]
        exact ⟨_, rfl, h.setClaim i req (Or.inl rfl)⟩
      next => cases stepped
  | select i ok =>
      simp only [MailboxService.step] at stepped
      split at stepped
      next req presented phase =>
        cases stepped
        simp only [MailboxService.step, claiming phase (by simp)]
        exact ⟨_, rfl, h.setClaim i req (Or.inl rfl)⟩
      next => cases stepped
  | update i ok =>
      simp only [MailboxService.step] at stepped
      split at stepped
      next req presented phase =>
        cases stepped
        simp only [MailboxService.step, claiming phase (by simp)]
        refine ⟨_, rfl, ?_⟩
        split
        · exact (h.changed (t.markClaimed req.deliveryId) rfl rfl rfl).setClaim i req
            (Or.inl rfl)
        · exact h.setClaim i req (Or.inl rfl)
      next => cases stepped
  | page i =>
      cases stepped
      exact ⟨_, rfl, h.changed _ rfl rfl rfl⟩
  | sweep kind chosen =>
      obtain ⟨enabled, cutoff, found, batch, rfl⟩ := step_sweep stepped
      refine ⟨t.discard chosen, ?_, h.changed _ rfl rfl rfl⟩
      simp only [MailboxService.step, if_neg enabled, found, if_pos batch]
  | mirror issuers =>
      cases stepped
      exact ⟨_, rfl, h.changed _ rfl rfl rfl⟩
  | tick now =>
      simp only [MailboxService.step] at stepped ⊢
      split at stepped
      next later =>
        cases stepped
        exact ⟨_, if_pos later, h.changed _ rfl rfl rfl⟩
      next => cases stepped

/-- A lost reply changes the table as a served statement does. -/
theorem step_told {action : Action} (h : Told s t) {s' : State}
    (stepped : step env s action = some s')
    : ∃ t', MailboxService.step env t action.served = some t' ∧ Told s' t' := by
  cases action with
  | serve action => exact serve_told h stepped
  | commitLost i =>
      simp only [step] at stepped
      split at stepped
      next row phase =>
        split at stepped
        next admits =>
          cases stepped
          have here : t.deliveries i = some (.committing row) :=
            (h.delivery (by simp [phase])).trans phase
          obtain ⟨d, c, rfl⟩ : ∃ d c, s = { t with deliveries := d, claims := c } :=
            ⟨_, _, h.rest⟩
          simp only [Action.served, MailboxService.step, here]
          refine ⟨_, rfl, ?_⟩
          rw [dif_pos ⟨trivial, admits⟩]
          exact (h.changed (t.accept row admits.2.1) rfl rfl rfl).setDelivery i
            (Or.inr ⟨rfl, _, rfl⟩)
        next => cases stepped
      next => cases stepped
  | updateLost i =>
      simp only [step] at stepped
      split at stepped
      next req presented phase =>
        cases stepped
        have here : t.claims i = some ⟨req, .updating presented⟩ :=
          (h.claim (by simp [phase])).trans phase
        obtain ⟨d, c, rfl⟩ : ∃ d c, s = { t with deliveries := d, claims := c } :=
          ⟨_, _, h.rest⟩
        simp only [Action.served, MailboxService.step, here]
        refine ⟨_, rfl, ?_⟩
        rw [if_pos trivial]
        exact (h.changed (t.markClaimed req.deliveryId) rfl rfl rfl).setClaim i req
          (Or.inr ⟨rfl, _, rfl⟩)
      next => cases stepped

/-- The invariant of the service says nothing about answers. -/
theorem Told.numbered (h : Told s t) (numbered : Numbered t) : Numbered s := by
  have committing {i : Nat} {row : CredentialDeliveryRow}
      (here : s.deliveries i = some (.committing row))
      : t.deliveries i = some (.committing row) :=
    (h.delivery (by simp [here])).trans here
  obtain ⟨d, c, rfl⟩ : ∃ d c, s = { t with deliveries := d, claims := c } := ⟨_, _, h.rest⟩
  refine { numbered with seqs := { numbered.seqs with pending := ?_, apart := ?_ }, pending := ?_ }
  · exact fun i row here => numbered.seqs.pending i row (committing here)
  · exact fun i j row other here there =>
      numbered.seqs.apart i j row other (committing here) (committing there)
  · exact fun i row here => numbered.pending i row (committing here)

theorem step_numbered {action : Action} (numbered : Numbered s)
    (stepped : step env s action = some t)
    : Numbered t := by
  obtain ⟨_, served, told⟩ := step_told (.refl s) stepped
  exact told.numbered (MailboxService.step_numbered numbered served)

theorem freshId_congr (same : s.drawn = t.drawn) {action : MailboxService.Action}
    : FreshId s action ↔ FreshId t action := by
  cases action <;> simp only [FreshId, same]

/-- A run with lost replies is a run of the service, with the same table at its end. -/
theorem run_told {actions : List Action} (h : Told s t)
    (fresh : Machine.Along (step env) (fun s action => FreshId s action.served) s actions)
    {s' : State} (ran : Machine.run (step env) s actions = some s')
    : ∃ t',
        Machine.run (MailboxService.step env) t (actions.map Action.served) = some t'
        ∧ Machine.Along (MailboxService.step env) FreshId t (actions.map Action.served)
        ∧ Told s' t' := by
  induction actions generalizing s t with
  | nil => exact ⟨t, rfl, trivial, Option.some.inj ran ▸ h⟩
  | cons action rest ih =>
      obtain ⟨middle, first, later⟩ := Machine.run_cons.mp ran
      obtain ⟨next, went, told⟩ := step_told h first
      obtain ⟨t', onwards, along, ending⟩ := ih told (fresh.2 middle first) later
      refine ⟨t', Machine.run_cons.mpr ⟨next, went, onwards⟩, ⟨?_, fun u stepped => ?_⟩, ending⟩
      · have drawn : s.drawn = t.drawn := by rw [h.rest]
        exact (freshId_congr drawn).mp fresh.1
      · exact Option.some.inj (went.symm.trans stepped) ▸ along

/-- A 204 comes from the service, which has seen the update. -/
theorem Told.won (h : Told s t) {i : Nat} {req : ClaimRequest} (won : s.Won i req)
    : t.Won i req := by
  rcases h.claims i with same | ⟨_, _, answered, _⟩
  · exact same.symm.trans won
  · cases won.symm.trans answered

/-- Lost replies do no harm. Still at most one claim of a delivery is told 204, with the token whose
hash came with the delivery; a claimed row was claimed with that token, and the claim was told 204
or 500; and a delivery that was told 201 was asked for and stays until its window has ended.
-/
theorem lost_replies (env : Env) (small : ∀ kind, (env.retention.days kind).toNat < 2 ^ 31)
    {hints : Nat → String} {now : Int} {actions : List Action}
    (fresh
      : Machine.Along (step env) (fun s action => FreshId s action.served)
          (State.init hints now) actions)
    (ran : Machine.run (step env) (State.init hints now) actions = some s)
    : (∀ i j req other, s.Won i req → s.Won j other → req.deliveryId = other.deliveryId → i = j)
      ∧ (∀ i req, s.Won i req → s.Matches env req)
      ∧ (∀ row ∈ s.mailbox.rows, row.claimedAt ≠ none → ∃ i req,
          req.deliveryId = row.deliveryId ∧ s.Matches env req
          ∧ (s.Won i req ∨ s.claims i = some ⟨req, .answered (.error .internal)⟩))
      ∧ ∀ i deliveryId, s.deliveries i = some (.answered (.ok deliveryId)) → ∃ row,
          row.deliveryId = deliveryId
          ∧ Requested env (State.init hints now) (actions.map Action.served) i row
          ∧ Kept env (State.init hints now) (actions.map Action.served) s row := by
  obtain ⟨t, served, along, told⟩ := run_told (.refl _) fresh ran
  have sound := run_sound along (init_sound hints now) served
  have mailbox : s.mailbox = t.mailbox := by rw [told.rest]
  have accepted : s.accepted = t.accepted := by rw [told.rest]
  have matching {req : ClaimRequest} (known : t.Matches env req) : s.Matches env req := by
    rw [State.Matches, accepted]
    exact known
  refine ⟨?_, ?_, ?_, ?_⟩
  · exact fun i j req other first second =>
      sound.authorized.once i j req other (told.won first) (told.won second)
  · exact fun i req won => matching (sound.authorized.won i req (told.won won))
  · intro row stored claimed
    obtain ⟨i, req, won, same⟩ := sound.authorized.claimed row (mailbox ▸ stored) claimed
    refine ⟨i, req, same, matching (sound.authorized.won i req won), ?_⟩
    rcases told.claims i with alike | ⟨other, _, answered, here⟩
    · exact Or.inl (alike.trans won)
    · cases won.symm.trans here
      exact Or.inr answered
  · intro i deliveryId acknowledged
    have answered : t.deliveries i = some (.answered (.ok deliveryId)) := by
      rcases told.deliveries i with same | ⟨lost, _⟩
      · exact same.symm.trans acknowledged
      · cases acknowledged.symm.trans lost
    obtain ⟨row, stored, same, requested⟩ := (run_traced served).phases i _ answered
    refine ⟨row, same, requested, ?_⟩
    rw [Kept, mailbox]
    exact run_kept small served row stored

/-- The delivery is accepted; the reply to the first claim's update is lost, and the claim is made
again.
-/
def claimedTwice : List Action :=
  sampleAccepted.map .serve
    ++ [.serve (.claim 0 ⟨7, "AQ=="⟩), .serve (.select 0 true), .updateLost 0,
      .serve (.claim 1 ⟨7, "AQ=="⟩), .serve (.select 1 true)]

/-- A client that tries again is told that the delivery has been claimed. -/
example
    : (Machine.run (step (sampleEnv 10)) (State.init (fun _ => "hint") 0) claimedTwice).map
        (fun s => (s.claims 0, s.claims 1))
      = some (some ⟨⟨7, "AQ=="⟩, .answered (.error .internal)⟩,
          some ⟨⟨7, "AQ=="⟩, .answered (.error (.conflict "delivery already claimed"))⟩) := by
  decide +kernel

end Attesta.Api.LostReplies
