import Attesta.Api.ClaimSafety

/-! What a 409 of `claim_delivery` says. It answers a claim that read a claimed row and a claim
whose `UPDATE` found no unclaimed row; the second kind is also told when the sweeper has
deleted the delivery between the two statements.
-/

namespace Attesta.Api.MailboxService

open Issuer
open Attesta.Api.Retention (Mailbox Kind Batch)

variable {env : Env}

/-- The claim has been answered with the 409 of `claim_delivery`. -/
def State.Conflicted (s : State) (i : Nat) (req : ClaimRequest) : Prop :=
  s.claims i = some ⟨req, .answered (.error (.conflict "delivery already claimed"))⟩

/-- Every 409 is about a delivery that some claim has set `claimed_at` of. -/
def ConflictsJustified (s : State) : Prop :=
  ∀ i req, s.Conflicted i req → ∃ j other, s.Won j other ∧ other.deliveryId = req.deliveryId

/-- The `UPDATE` of a claim is not executed after its delivery has been swept unclaimed. -/
def NotSweptUnclaimed (s : State) (action : Action) : Prop :=
  ∀ i req presented, action = .update i true → s.claims i = some ⟨req, .updating presented⟩
    → ∀ row ∈ s.swept, row.deliveryId = req.deliveryId → row.claimedAt ≠ none

/-- What is known of the deleted rows. -/
structure SweptSound (s : State) : Prop where
  accepted : ∀ row ∈ s.swept, ∃ original ∈ s.accepted, original.deliveryId = row.deliveryId
  gone : ∀ row ∈ s.swept, ∀ other ∈ s.mailbox.rows, other.deliveryId ≠ row.deliveryId
  claimed
    : ∀ row ∈ s.swept, row.claimedAt ≠ none
        → ∃ i req, s.Won i req ∧ req.deliveryId = row.deliveryId
  unclaimed
    : ∀ row ∈ s.swept, row.claimedAt = none
        → ∀ i req, s.Won i req → req.deliveryId ≠ row.deliveryId

/-- A new 204 is about an unclaimed row in the table. -/
theorem won_of_step {s t : State} {action : Action} {i : Nat} {req : ClaimRequest}
    (stepped : step env s action = some t) (won : t.Won i req)
    : s.Won i req
      ∨ ∃ row ∈ s.mailbox.rows, row.deliveryId = req.deliveryId ∧ row.claimedAt = none := by
  cases step_effect stepped with
  | claimStarted | claimAuthorized | claimRefused =>
      rcases setClaim_cases won with new | old
      · cases new.2
      · exact Or.inl old.2
  | @claimed j other presented phase affected =>
      rcases setClaim_cases won with new | old
      · obtain ⟨_, ⟨⟩⟩ := new
        exact Or.inr (rowsAffected_ne_zero.mp affected)
      · exact Or.inl old.2
  | delivering | inserted | committed | paged | swept | mirrored | ticked => exact Or.inl won

theorem step_sweptSound {s t : State} {action : Action} (sound : Sound env s)
    (h : SweptSound s) (stepped : step env s action = some t)
    : SweptSound t := by
  have still {i : Nat} {req : ClaimRequest} (won : s.Won i req) : t.Won i req :=
    step_won won stepped
  have same (rows : t.swept = s.swept)
      (ids : ∀ other ∈ t.mailbox.rows, ∃ old ∈ s.mailbox.rows, old.deliveryId = other.deliveryId)
      : SweptSound t := by
    constructor
    · intro row member
      obtain ⟨original, accepted, named⟩ := h.accepted row (rows ▸ member)
      exact ⟨original, step_accepted stepped accepted, named⟩
    · intro row member other stored
      obtain ⟨old, before, named⟩ := ids other stored
      exact named ▸ h.gone row (rows ▸ member) old before
    · intro row member claimed
      obtain ⟨i, req, won, named⟩ := h.claimed row (rows ▸ member) claimed
      exact ⟨i, req, still won, named⟩
    · intro row member unclaimed i req won
      rcases won_of_step stepped won with old | ⟨other, stored, named, _⟩
      · exact h.unclaimed row (rows ▸ member) unclaimed i req old
      · exact named ▸ h.gone row (rows ▸ member) other stored
  cases step_effect stepped with
  | @committed i row phase admits =>
      refine { h with accepted := ?_, gone := ?_ }
      · intro old member
        obtain ⟨original, accepted, named⟩ := h.accepted old member
        exact ⟨original, List.mem_append_left _ accepted, named⟩
      · intro old member other stored
        rcases (mem_insertDelivery admits.2.1).mp stored with before | rfl
        · exact h.gone old member other before
        · obtain ⟨original, accepted, named⟩ := h.accepted old member
          intro clash
          exact (sound.identified.pending i other phase).2
            (List.mem_map.mpr ⟨original, accepted, named.trans clash.symm⟩)
  | @claimed i req presented phase affected =>
      refine same rfl (fun other stored => ?_)
      rcases mem_claimDelivery.mp stored with kept | ⟨old, before, _, rfl⟩
      · exact ⟨other, kept.1, rfl⟩
      · exact ⟨old, before, rfl⟩
  | @swept kind cutoff chosen batch =>
      have fromTable : ∀ row ∈ chosen, row ∈ s.mailbox.rows :=
        fun row member => List.mem_of_mem_filter (batch.1 member)
      constructor
      · intro row member
        rcases List.mem_append.mp member with old | new
        · exact h.accepted row old
        · obtain ⟨original, accepted, shape⟩ := sound.numbered.stored row (fromTable row new)
          exact ⟨original, accepted, by rw [shape]⟩
      · intro row member other stored
        rcases List.mem_append.mp member with old | new
        · exact h.gone row old other (mem_of_delete stored)
        · intro clash
          have left := (List.mem_filter.mp stored).2
          simp only [Bool.not_eq_true', List.any_eq_false, beq_iff_eq] at left
          exact left row new clash.symm
      · intro row member claimed
        rcases List.mem_append.mp member with old | new
        · exact h.claimed row old claimed
        · exact sound.authorized.claimed row (fromTable row new) claimed
      · intro row member unclaimed i req won
        rcases List.mem_append.mp member with old | new
        · exact h.unclaimed row old unclaimed i req won
        · intro clash
          exact sound.authorized.spent i req won row (fromTable row new) clash.symm unclaimed
  | delivering | inserted | claimStarted | claimAuthorized | claimRefused | paged | mirrored
  | ticked => exact same rfl (fun other stored => ⟨other, stored, rfl⟩)

theorem init_sweptSound (hints : Nat → String) (now : Int)
    : SweptSound (State.init hints now) := by
  refine ⟨?_, ?_, ?_, ?_⟩ <;> simp [State.init]

-----------------------------------------------------------------------------------------
-- The two sources of a 409
-----------------------------------------------------------------------------------------

theorem presentedHash_error {req : ClaimRequest} {e : ApiError}
    (h : presentedHash env req = .error e)
    : e.status = 400 := by
  simp only [presentedHash, decodeField, bind, Except.bind] at h
  split at h
  next failed =>
    split at failed
    · cases failed
    · cases failed
      exact Except.error.inj h ▸ rfl
  next =>
    split at h
    · exact Except.error.inj h ▸ rfl
    · cases h

/-- The `SELECT` of a claim ends it with a 409 only if it has read a claimed row. -/
theorem authorize_conflict {found : Option CredentialDeliveryRow} {presented : List UInt8}
    {message : String} (h : authorize found presented = .error (.conflict message))
    : ∃ row, found = some row ∧ row.claimedAt ≠ none := by
  unfold authorize at h
  split at h
  · have status := congrArg ApiError.status (Except.error.inj h)
    cases status
  next row =>
    split at h
    next claimed => exact ⟨row, rfl, Option.isSome_iff_ne_none.mp claimed⟩
    next =>
      split at h
      · cases h
      · have status := congrArg ApiError.status (Except.error.inj h)
        cases status

/-- Only the steps of a claim change the claims. -/
theorem step_claims {s t : State} {action : Action} (other : action.claimant = none)
    (stepped : step env s action = some t)
    : t.claims = s.claims := by
  cases action with
  | claim | select | update => cases other
  | deliver | checkIssuer | count =>
      simp only [step] at stepped
      split at stepped
      · exact Option.some.inj stepped ▸ rfl
      · cases stepped
  | insert | commit =>
      simp only [step] at stepped
      split at stepped
      · obtain rfl := Option.some.inj stepped
        split <;> rfl
      · cases stepped
  | sweep =>
      simp only [step] at stepped
      split at stepped
      · cases stepped
      · split at stepped
        · split at stepped
          · exact Option.some.inj stepped ▸ rfl
          · cases stepped
        · cases stepped
  | page | mirror => exact Option.some.inj stepped ▸ rfl
  | tick =>
      simp only [step] at stepped
      split at stepped
      · exact Option.some.inj stepped ▸ rfl
      · cases stepped

/-- A new 409 is about a claimed row in the table, or about an `UPDATE` without a match. -/
theorem conflicted_of_step {s t : State} {action : Action} {i : Nat} {req : ClaimRequest}
    (stepped : step env s action = some t) (told : t.Conflicted i req)
    : s.Conflicted i req
      ∨ (∃ row ∈ s.mailbox.rows, row.deliveryId = req.deliveryId ∧ row.claimedAt ≠ none)
      ∨ ∃ presented, action = .update i true
          ∧ s.claims i = some ⟨req, .updating presented⟩
          ∧ rowsAffected s.mailbox req.deliveryId = 0 := by
  cases action with
  | claim j other =>
      simp only [step] at stepped
      split at stepped
      next =>
        obtain rfl := Option.some.inj stepped
        rcases setClaim_cases told with ⟨_, new⟩ | ⟨_, old⟩
        · have phase := congrArg Claim.phase new
          split at phase
          · cases phase
          next e failed =>
            have same := Except.error.inj (ClaimPhase.answered.inj phase)
            have status := presentedHash_error failed
            rw [same] at status
            cases status
        · exact Or.inl old
      next => cases stepped
  | select j ok =>
      simp only [step] at stepped
      split at stepped
      next other presented reading =>
        obtain rfl := Option.some.inj stepped
        rcases setClaim_cases told with ⟨_, new⟩ | ⟨_, old⟩
        · obtain ⟨rfl, phase⟩ := Claim.mk.inj new
          cases ok with
          | false => cases phase
          | true =>
              simp only [if_true] at phase
              split at phase
              · cases phase
              next e refused =>
                have same := Except.error.inj (ClaimPhase.answered.inj phase)
                rw [same] at refused
                obtain ⟨row, found, claimed⟩ := authorize_conflict refused
                exact Or.inr (Or.inl ⟨row, List.mem_of_find?_eq_some found,
                  by simpa using List.find?_some found, claimed⟩)
        · exact Or.inl old
      next => cases stepped
  | update j ok =>
      simp only [step] at stepped
      split at stepped
      next other presented writing =>
        obtain rfl := Option.some.inj stepped
        cases ok with
        | false =>
            rcases setClaim_cases told with ⟨_, new⟩ | ⟨_, old⟩
            · cases new
            · exact Or.inl old
        | true =>
            rcases setClaim_cases told with ⟨rfl, new⟩ | ⟨_, old⟩
            · obtain ⟨rfl, phase⟩ := Claim.mk.inj new
              have result := ClaimPhase.answered.inj phase
              unfold claimResult at result
              split at result
              next none => exact Or.inr (Or.inr ⟨presented, rfl, writing, none⟩)
              next => cases result
            · exact Or.inl old
      next => cases stepped
  | deliver | checkIssuer | count | insert | commit | page | sweep | mirror | tick =>
      exact Or.inl ((congrFun (step_claims rfl stepped) i).symm.trans told)

-----------------------------------------------------------------------------------------
-- Runs
-----------------------------------------------------------------------------------------

/-- An authorized claim of a delivery that was not swept unclaimed finds the row, or somebody
has claimed the delivery.
-/
theorem updating_known {s : State} (sound : Sound env s) (swept : SweptSound s) {i : Nat}
    {req : ClaimRequest} {presented : List UInt8}
    (phase : s.claims i = some ⟨req, .updating presented⟩)
    (unmatched : rowsAffected s.mailbox req.deliveryId = 0)
    (kept : ∀ row ∈ s.swept, row.deliveryId = req.deliveryId → row.claimedAt ≠ none)
    : ∃ j other, s.Won j other ∧ other.deliveryId = req.deliveryId := by
  obtain ⟨original, accepted, named, _⟩ := sound.authorized.updating i req presented phase
  rcases sound.authorized.kept original accepted with stored | won | ⟨row, member, same⟩
  · have unclaimed := sound.numbered.unclaimed original accepted
    exact absurd unmatched (rowsAffected_ne_zero.mpr ⟨original, stored, named, unclaimed⟩)
  · obtain ⟨j, other, won, same⟩ := won
    exact ⟨j, other, won, same.trans named⟩
  · obtain ⟨j, other, won, claimed⟩ :=
      swept.claimed row member (kept row member (same.trans named))
    exact ⟨j, other, won, claimed.trans (same.trans named)⟩

/-- A step keeps every 409 justified exactly if it is no `UPDATE` for a delivery that has been
swept unclaimed.
-/
theorem ConflictsJustified.step_iff {s t : State} {action : Action} (sound : Sound env s)
    (swept : SweptSound s) (h : ConflictsJustified s) (stepped : step env s action = some t)
    : ConflictsJustified t ↔ NotSweptUnclaimed s action := by
  constructor
  · rintro justified i req presented rfl phase row member named unclaimed
    have unmatched : rowsAffected s.mailbox req.deliveryId = 0 := by
      by_contra matched
      obtain ⟨other, stored, same, _⟩ := rowsAffected_ne_zero.mp matched
      exact swept.gone row member other stored (same.trans named.symm)
    have told : t.Conflicted i req := by
      simp only [step, phase] at stepped
      obtain rfl := Option.some.inj stepped
      simp [State.Conflicted, State.setClaim, claimResult, unmatched]
    obtain ⟨j, other, won, same⟩ := justified i req told
    rcases won_of_step stepped won with old | ⟨present, stored, found, _⟩
    · exact swept.unclaimed row member unclaimed j other old (same.trans named.symm)
    · exact swept.gone row member present stored ((found.trans same).trans named.symm)
  · intro kept i req told
    rcases conflicted_of_step stepped told with old | ⟨row, stored, named, claimed⟩ | missed
    · obtain ⟨j, other, won, same⟩ := h i req old
      exact ⟨j, other, step_won won stepped, same⟩
    · obtain ⟨j, other, won, same⟩ := sound.authorized.claimed row stored claimed
      exact ⟨j, other, step_won won stepped, same.trans named⟩
    · obtain ⟨presented, updates, phase, unmatched⟩ := missed
      obtain ⟨j, other, won, same⟩ := updating_known sound swept phase unmatched
        (kept i req presented updates phase)
      exact ⟨j, other, step_won won stepped, same⟩

/-- All that is known of a reachable state, the deleted rows included. -/
structure Known (env : Env) (s : State) : Prop where
  sound : Sound env s
  swept : SweptSound s

theorem step_known {s t : State} {action : Action} (fresh : FreshId s action) (h : Known env s)
    (stepped : step env s action = some t)
    : Known env t :=
  ⟨step_sound fresh h.sound stepped, step_sweptSound h.sound h.swept stepped⟩

theorem init_known (hints : Nat → String) (now : Int) : Known env (State.init hints now) :=
  ⟨init_sound hints now, init_sweptSound hints now⟩

theorem run_known {hints : Nat → String} {start : Int} {actions : List Action} {t : State}
    (fresh : Machine.Along (step env) FreshId (State.init hints start) actions)
    (ran : Machine.run (step env) (State.init hints start) actions = some t)
    : Known env t :=
  Machine.invariant_along (fun _ _ _ => step_known) (init_known hints start) fresh ran

/-- For every interleaving of claims with each other and with the sweeper: a claim answered 409
is about a delivery that was claimed before, exactly if no `UPDATE` of a claim is executed after
the sweeper has deleted its delivery unclaimed.
-/
theorem conflict_means_claimed_iff (env : Env) (hints : Nat → String) (start : Int)
    {actions : List Action} {t : State}
    (fresh : Machine.Along (step env) FreshId (State.init hints start) actions)
    (ran : Machine.run (step env) (State.init hints start) actions = some t)
    : Machine.Always (step env) ConflictsJustified (State.init hints start) actions
      ↔ Machine.Along (step env) NotSweptUnclaimed (State.init hints start) actions := by
  have initially : ConflictsJustified (State.init hints start) := by
    intro i req told
    cases told
  exact Machine.always_iff_along FreshId ConflictsJustified NotSweptUnclaimed
    (fun _ _ _ => step_known)
    (fun _ _ _ _ known good stepped => good.step_iff known.sound known.swept stepped)
    (init_known hints start) initially fresh ran

/-- Of two racing claims one is told 409, after the other one has claimed the delivery. -/
theorem conflict_means_claimed_iff_race
    : ∃ t,
        Machine.run (step (sampleEnv 10)) (State.init (fun _ => "hint") 0)
            (sampleClaims ++ [.update 1 true])
          = some t
        ∧ t.Conflicted 1 ⟨7, "AQ=="⟩
        ∧ Machine.Always (step (sampleEnv 10)) ConflictsJustified (State.init (fun _ => "hint") 0)
          (sampleClaims ++ [.update 1 true]) := by
  have observed
      : (Machine.run (step (sampleEnv 10)) (State.init (fun _ => "hint") 0)
            (sampleClaims ++ [.update 1 true])).map
          (fun t => t.claims 1)
        = some (some ⟨⟨7, "AQ=="⟩,
            .answered (.error (.conflict "delivery already claimed"))⟩) := by
    decide +kernel
  have fresh
      : Machine.Along (step (sampleEnv 10)) FreshId (State.init (fun _ => "hint") 0)
          (sampleClaims ++ [.update 1 true]) := by
    decide +kernel
  have unswept
      : Machine.Along (step (sampleEnv 10)) (fun s _ => s.swept = [])
          (State.init (fun _ => "hint") 0) (sampleClaims ++ [.update 1 true]) := by
    decide +kernel
  obtain ⟨t, ran, told⟩ := Option.map_eq_some_iff.mp observed
  refine ⟨t, ran, told,
    (conflict_means_claimed_iff (sampleEnv 10) (fun _ => "hint") 0 fresh ran).mpr ?_⟩
  refine unswept.mono (fun s action none i req presented _ _ row member => ?_)
  rw [none] at member
  cases member

/-- A claim comes late and has read its delivery when the sweeper deletes it. -/
def sweptClaim : List Action :=
  [.mirror [sampleIssuer]] ++ deliverUpToInsert 0 7
    ++ [.commit 0 true, .tick (181 * 86400000000), .claim 0 ⟨7, "AQ=="⟩, .select 0 true,
      .sweep .unclaimed [⟨1, 7, "issuer", "hint", [1], [1], 0, none, some sampleHash⟩],
      .update 0 true]

/-- The claim is told that the delivery is already claimed, although nobody ever claims it. -/
theorem swept_claim_told_claimed
    : ∃ t,
        Machine.run (step (sampleEnv 10)) (State.init (fun _ => "hint") 0) sweptClaim = some t
        ∧ Machine.Along (step (sampleEnv 10)) FreshId (State.init (fun _ => "hint") 0) sweptClaim
        ∧ t.Conflicted 0 ⟨7, "AQ=="⟩
        ∧ ∀ j other, t.Won j other → other.deliveryId ≠ 7 := by
  have observed
      : (Machine.run (step (sampleEnv 10)) (State.init (fun _ => "hint") 0) sweptClaim).map
          (fun t => (t.claims 0, t.swept))
        = some (some ⟨⟨7, "AQ=="⟩, .answered (.error (.conflict "delivery already claimed"))⟩,
            [⟨1, 7, "issuer", "hint", [1], [1], 0, none, some sampleHash⟩]) := by
    decide +kernel
  have fresh
      : Machine.Along (step (sampleEnv 10)) FreshId (State.init (fun _ => "hint") 0)
          sweptClaim := by
    decide +kernel
  obtain ⟨t, ran, shape⟩ := Option.map_eq_some_iff.mp observed
  obtain ⟨told, swept⟩ := Prod.mk.inj shape
  refine ⟨t, ran, fresh, told, fun j other won => ?_⟩
  exact (run_known fresh ran).swept.unclaimed _ (swept ▸ List.mem_singleton_self _) rfl j other
    won

end Attesta.Api.MailboxService
