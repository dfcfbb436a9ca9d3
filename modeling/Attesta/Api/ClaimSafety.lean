import Attesta.Api.MailboxSafety

/-! Claims. Whatever falls between the `SELECT` of a claim and its guarded `UPDATE`, a delivery
is claimed once, by a request that knows its token, and never shows up again.
-/

namespace Attesta.Api.MailboxService

open Issuer
open Attesta.Api.Retention (Mailbox Kind Batch)

variable {env : Env}

/-- `Uuid::new_v4` never generates an id twice. -/
def FreshId (s : State) : Action → Prop
  | .insert _ deliveryId => deliveryId ∉ s.drawn
  | _ => True

instance (s : State) : (action : Action) → Decidable (FreshId s action)
  | .insert _ deliveryId => inferInstanceAs (Decidable (deliveryId ∉ s.drawn))
  | .deliver .. | .checkIssuer .. | .count .. | .commit .. | .claim .. | .select ..
  | .update .. | .page .. | .sweep .. | .mirror .. | .tick .. => isTrue trivial

/-- No two deliveries share an id. -/
def Identified (s : State) : Prop :=
  Unrepeated CredentialDeliveryRow.deliveryId (fun deliveryId => deliveryId ∈ s.drawn) s

theorem step_identified {s t : State} {action : Action} (fresh : FreshId s action)
    (h : Identified s) (stepped : step env s action = some t)
    : Identified t := by
  cases step_effect stepped with
  | delivering other => exact h.delivering other
  | @inserted i deliveryId delivery phase =>
      have unused
          : (deliveryRow (s.lastSeq + 1) deliveryId s.now delivery).deliveryId ∉ s.drawn :=
        fresh
      refine Unrepeated.draw h ?_ unused ?_ i deliveryId
      · exact fun id drawn => List.mem_append_left _ drawn
      · exact List.mem_append_right _ (List.mem_singleton_self deliveryId)
  | committed phase admits => exact Unrepeated.accept h phase admits.2.1
  | claimStarted | claimAuthorized | claimRefused | claimed | paged | swept | mirrored | ticked =>
      exact { h with }

-----------------------------------------------------------------------------------------
-- Authorized claims
-----------------------------------------------------------------------------------------

/-- The claim has been answered with a 204. -/
def State.Won (s : State) (i : Nat) (req : ClaimRequest) : Prop :=
  s.claims i = some ⟨req, .answered (.ok ())⟩

/-- The token of the claim has the hash that came with the delivery. -/
def State.Matches (env : Env) (s : State) (req : ClaimRequest) : Prop :=
  ∃ row ∈ s.accepted, row.deliveryId = req.deliveryId
    ∧ ∃ token, env.base64Decode req.claimToken = some token
        ∧ row.claimTokenHash = some (env.sha256 token)

/-- What the claims under way and the answered ones say about the table. -/
structure Authorized (env : Env) (s : State) : Prop where
  selecting
    : ∀ i req presented, s.claims i = some ⟨req, .selecting presented⟩
        → presentedHash env req = .ok presented
  updating
    : ∀ i req presented, s.claims i = some ⟨req, .updating presented⟩ → s.Matches env req
  won : ∀ i req, s.Won i req → s.Matches env req
  spent
    : ∀ i req, s.Won i req → ∀ row ∈ s.mailbox.rows, row.deliveryId = req.deliveryId
        → row.claimedAt ≠ none
  once
    : ∀ i j req other, s.Won i req → s.Won j other → req.deliveryId = other.deliveryId → i = j
  claimed
    : ∀ row ∈ s.mailbox.rows, row.claimedAt ≠ none
        → ∃ i req, s.Won i req ∧ req.deliveryId = row.deliveryId
  kept
    : ∀ row ∈ s.accepted,
        row ∈ s.mailbox.rows ∨ (∃ i req, s.Won i req ∧ req.deliveryId = row.deliveryId)
          ∨ ∃ other ∈ s.swept, other.deliveryId = row.deliveryId

theorem setClaim_cases {s : State} {i j : Nat} {claim other : Claim}
    (h : (s.setClaim i claim).claims j = some other)
    : j = i ∧ claim = other ∨ j ≠ i ∧ s.claims j = some other := by
  simp only [State.setClaim] at h
  split at h
  next same => exact Or.inl ⟨same, Option.some.inj h⟩
  next apart => exact Or.inr ⟨apart, h⟩

/-- The claim may still be answered. -/
def State.Pending (s : State) (i : Nat) : Prop :=
  ∀ claim result, s.claims i = some claim → claim.phase ≠ .answered result

theorem State.Won.setClaim {s : State} {i j : Nat} {req : ClaimRequest} (h : s.Won j req)
    (pending : s.Pending i) (claim : Claim)
    : (s.setClaim i claim).Won j req := by
  have apart : j ≠ i := fun same => pending _ _ (same ▸ h) rfl
  simp only [State.Won, State.setClaim, if_neg apart]
  exact h

/-- A claim that is not answered with a 204 moves on. -/
theorem Authorized.setClaim {s : State} (h : Authorized env s) {i : Nat}
    (pending : s.Pending i) {claim : Claim}
    (selecting
      : ∀ presented, claim.phase = .selecting presented
          → presentedHash env claim.request = .ok presented)
    (updating : ∀ presented, claim.phase = .updating presented → s.Matches env claim.request)
    (refused : claim.phase ≠ .answered (.ok ()))
    : Authorized env (s.setClaim i claim) := by
  have before {j : Nat} {req : ClaimRequest} (won : (s.setClaim i claim).Won j req)
      : s.Won j req := by
    rcases setClaim_cases won with new | old
    · exact absurd (congrArg Claim.phase new.2) refused
    · exact old.2
  refine {
    selecting := ?_
    updating := ?_
    won := fun j req won => h.won j req (before won)
    spent := fun j req won => h.spent j req (before won)
    once := fun j k req other first second => h.once j k req other (before first) (before second)
    claimed := ?_
    kept := ?_
  }
  · intro j req presented here
    rcases setClaim_cases here with new | old
    · obtain ⟨_, rfl⟩ := new
      exact selecting presented rfl
    · exact h.selecting j req presented old.2
  · intro j req presented here
    rcases setClaim_cases here with new | old
    · obtain ⟨_, rfl⟩ := new
      exact updating presented rfl
    · exact h.updating j req presented old.2
  · intro row member claimed
    obtain ⟨j, req, won, same⟩ := h.claimed row member claimed
    exact ⟨j, req, won.setClaim pending claim, same⟩
  · intro row member
    rcases h.kept row member with stored | claimed | swept
    · exact Or.inl stored
    · obtain ⟨j, req, won, same⟩ := claimed
      exact Or.inr (Or.inl ⟨j, req, won.setClaim pending claim, same⟩)
    · exact Or.inr (Or.inr swept)

/-- The guarded `UPDATE` lets a claim win that no other claim has won before. -/
theorem Authorized.markClaimed {s : State} (h : Authorized env s) {i : Nat}
    {req : ClaimRequest} {presented : List UInt8}
    (phase : s.claims i = some ⟨req, .updating presented⟩)
    (affected : rowsAffected s.mailbox req.deliveryId ≠ 0)
    : Authorized env ((s.markClaimed req.deliveryId).setClaim i ⟨req, .answered (.ok ())⟩) := by
  obtain ⟨target, inside, named, unclaimed⟩ := rowsAffected_ne_zero.mp affected
  have pending : s.Pending i := by
    intro claim result here
    cases phase.symm.trans here
    simp
  have now : ((s.markClaimed req.deliveryId).setClaim i ⟨req, .answered (.ok ())⟩).Won i req := by
    simp [State.Won, State.setClaim]
  have still {j : Nat} {other : ClaimRequest} (won : s.Won j other)
      : ((s.markClaimed req.deliveryId).setClaim i ⟨req, .answered (.ok ())⟩).Won j other :=
    State.Won.setClaim (s := s.markClaimed req.deliveryId) won pending _
  have cases {j : Nat} {other : ClaimRequest}
      (won
        : ((s.markClaimed req.deliveryId).setClaim i ⟨req, .answered (.ok ())⟩).Won j other)
      : j = i ∧ req = other ∨ s.Won j other := by
    rcases setClaim_cases won with new | old
    · exact Or.inl ⟨new.1, congrArg Claim.request new.2⟩
    · exact Or.inr old.2
  have unspent {j : Nat} {other : ClaimRequest} (won : s.Won j other)
      : req.deliveryId ≠ other.deliveryId := by
    intro same
    exact h.spent j other won target inside (named.trans same) unclaimed
  refine {
    selecting := ?_
    updating := ?_
    won := ?_
    spent := ?_
    once := ?_
    claimed := ?_
    kept := ?_
  }
  · intro j other hash here
    rcases setClaim_cases here with new | old
    · cases new.2
    · exact h.selecting j other hash old.2
  · intro j other hash here
    rcases setClaim_cases here with new | old
    · cases new.2
    · exact h.updating j other hash old.2
  · intro j other won
    rcases cases won with new | old
    · exact new.2 ▸ h.updating i req presented phase
    · exact h.won j other old
  · intro j other won row member same
    rcases mem_claimDelivery.mp member with kept | changed
    · rcases cases won with new | old
      · intro open'
        have hit := claimable_iff.mpr ⟨same.trans (congrArg _ new.2.symm), open'⟩
        rw [kept.2] at hit
        cases hit
      · exact h.spent j other old row kept.1 same
    · obtain ⟨before, _, _, rfl⟩ := changed
      simp
  · intro j k first second won wonToo same
    rcases cases won with new | old
    · rcases cases wonToo with also | older
      · exact new.1.trans also.1.symm
      · exact absurd ((congrArg _ new.2).trans same) (unspent older)
    · rcases cases wonToo with also | older
      · exact absurd ((congrArg _ also.2).trans same.symm) (unspent old)
      · exact h.once j k first second old older same
  · intro row member claimed
    rcases mem_claimDelivery.mp member with kept | changed
    · obtain ⟨j, other, won, same⟩ := h.claimed row kept.1 claimed
      exact ⟨j, other, still won, same⟩
    · obtain ⟨before, _, hit, rfl⟩ := changed
      exact ⟨i, req, now, (claimable_iff.mp hit).1.symm⟩
  · intro row member
    rcases h.kept row member with stored | claimed | swept
    · cases hit : claimable req.deliveryId row with
      | true => exact Or.inr (Or.inl ⟨i, req, now, (claimable_iff.mp hit).1.symm⟩)
      | false => exact Or.inl (mem_claimDelivery.mpr (Or.inl ⟨stored, hit⟩))
    · obtain ⟨j, other, won, same⟩ := claimed
      exact Or.inr (Or.inl ⟨j, other, still won, same⟩)
    · exact Or.inr (Or.inr swept)

theorem step_authorized {s t : State} {action : Action} (numbered : Numbered s)
    (ids : Identified s) (h : Authorized env s) (stepped : step env s action = some t)
    : Authorized env t := by
  cases step_effect stepped with
  | @committed i row phase admits =>
      have foreign {req : ClaimRequest} (known : s.Matches env req)
          : row.deliveryId ≠ req.deliveryId := by
        obtain ⟨original, accepted, named, _⟩ := known
        intro same
        exact (ids.pending i row phase).2
          (List.mem_map.mpr ⟨original, accepted, named.trans same.symm⟩)
      have more {req : ClaimRequest} (known : s.Matches env req)
          : ((s.accept row admits.2.1).setDelivery i
              (.answered (.ok row.deliveryId))).Matches env req := by
        obtain ⟨original, accepted, rest⟩ := known
        exact ⟨original, List.mem_append_left _ accepted, rest⟩
      refine {
        selecting := h.selecting
        updating := fun j req presented here => more (h.updating j req presented here)
        won := fun j req won => more (h.won j req won)
        spent := ?_
        once := h.once
        claimed := ?_
        kept := ?_
      }
      · intro j req won other member same
        rcases (mem_insertDelivery admits.2.1).mp member with old | rfl
        · exact h.spent j req won other old same
        · exact absurd same (foreign (h.won j req won))
      · intro other member claimed
        rcases (mem_insertDelivery admits.2.1).mp member with old | rfl
        · exact h.claimed other old claimed
        · exact absurd (numbered.pending i other phase) claimed
      · intro other member
        rcases List.mem_append.mp member with old | new
        · rcases h.kept other old with stored | later
          · exact Or.inl ((mem_insertDelivery admits.2.1).mpr (Or.inl stored))
          · exact Or.inr later
        · exact Or.inl ((mem_insertDelivery admits.2.1).mpr (Or.inr (List.mem_singleton.mp new)))
  | @claimStarted i req presented new hash =>
      refine h.setClaim ?_ ?_ (by simp) (by simp)
      · intro claim result here
        rw [new] at here
        cases here
      · intro other same
        cases same
        exact hash
  | @claimAuthorized i req presented phase authorized =>
      refine h.setClaim ?_ (by simp) ?_ (by simp)
      · intro claim result here
        cases phase.symm.trans here
        simp
      · intro other same
        obtain ⟨row, found, _, hash⟩ := authorize_eq_ok.mp authorized
        have named : row.deliveryId = req.deliveryId := by simpa using List.find?_some found
        obtain ⟨token, decoded, rfl⟩ := presentedHash_eq_ok (h.selecting i req presented phase)
        obtain ⟨original, accepted, shape⟩ :=
          numbered.stored row (List.mem_of_find?_eq_some found)
        rw [shape] at named hash
        exact ⟨original, accepted, named, token, decoded, hash⟩
  | claimRefused pending => exact h.setClaim pending (by simp) (by simp) (by simp)
  | claimed phase affected => exact h.markClaimed phase affected
  | @swept kind cutoff chosen batch =>
      refine {
        h with
        spent := fun i req won row member => h.spent i req won row (mem_of_delete member)
        claimed := fun row member => h.claimed row (mem_of_delete member)
        kept := ?_
      }
      intro row member
      rcases h.kept row member with stored | claimed | swept
      · by_cases picked : ∃ other ∈ chosen, other.deliveryId = row.deliveryId
        · obtain ⟨other, inside, same⟩ := picked
          exact Or.inr (Or.inr ⟨other, List.mem_append_right _ inside, same⟩)
        · refine Or.inl (List.mem_filter.mpr ⟨stored, ?_⟩)
          simpa using picked
      · exact Or.inr (Or.inl claimed)
      · obtain ⟨other, inside, same⟩ := swept
        exact Or.inr (Or.inr ⟨other, List.mem_append_left _ inside, same⟩)
  | delivering | inserted | paged | mirrored | ticked => exact { h with }

/-- All that is known of a reachable state. -/
structure Sound (env : Env) (s : State) : Prop where
  numbered : Numbered s
  identified : Identified s
  authorized : Authorized env s

theorem step_sound {s t : State} {action : Action} (fresh : FreshId s action)
    (h : Sound env s) (stepped : step env s action = some t)
    : Sound env t where
  numbered := step_numbered h.numbered stepped
  identified := step_identified fresh h.identified stepped
  authorized := step_authorized h.numbered h.identified h.authorized stepped

theorem init_sound (hints : Nat → String) (now : Int) : Sound env (State.init hints now) where
  numbered := init_numbered hints now
  identified := init_unrepeated _ _ hints now
  authorized := by refine ⟨?_, ?_, ?_, ?_, ?_, ?_, ?_⟩ <;> simp [State.init, State.Won]

theorem run_sound {s t : State} {actions : List Action}
    (fresh : Machine.Along (step env) FreshId s actions) (h : Sound env s)
    (ran : Machine.run (step env) s actions = some t)
    : Sound env t :=
  Machine.invariant_along (fun _ _ _ => step_sound) h fresh ran

/-- A 204 is final. -/
theorem step_won {s t : State} {action : Action} {i : Nat} {req : ClaimRequest}
    (won : s.Won i req) (stepped : step env s action = some t)
    : t.Won i req := by
  cases step_effect stepped with
  | claimStarted new hash =>
      refine won.setClaim ?_ _
      intro claim result here
      rw [new] at here
      cases here
  | claimAuthorized phase authorized =>
      refine won.setClaim ?_ _
      intro claim result here
      cases phase.symm.trans here
      simp
  | claimRefused pending => exact won.setClaim pending _
  | @claimed j other presented phase affected =>
      refine State.Won.setClaim (s := s.markClaimed other.deliveryId) won ?_ _
      intro claim result here
      cases phase.symm.trans here
      simp
  | delivering | inserted | committed | paged | swept | mirrored | ticked => exact won

/-- The claim request whose step an action is. -/
def Action.claimant : Action → Option Nat
  | .claim i _ | .select i _ | .update i _ => some i
  | _ => none

/-- A step of a claim that does not answer with a 204 leaves the table as it is. -/
theorem step_claim_unchanged {s t : State} {action : Action} {i : Nat}
    (claimant : action.claimant = some i) (refused : ∀ req, ¬ t.Won i req)
    (stepped : step env s action = some t)
    : t.mailbox = s.mailbox := by
  cases step_effect stepped with
  | @claimed j req presented phase affected =>
      cases claimant
      exact absurd (by simp [State.Won, State.setClaim]) (refused req)
  | committed | swept => cases claimant
  | delivering | inserted | claimStarted | claimAuthorized | claimRefused | paged | mirrored
  | ticked => rfl

/-- The delivery has been claimed at a given time, as far as the table still tells. -/
def ClaimedAt (deliveryId : Nat) (time : Option Int) (s : State) : Prop :=
  deliveryId ∈ s.accepted.map CredentialDeliveryRow.deliveryId
  ∧ time ≠ none
  ∧ ∀ row ∈ s.mailbox.rows, row.deliveryId = deliveryId → row.claimedAt = time

/-- `claimed_at` is never changed once it is set. -/
theorem step_claimedAt {s t : State} {action : Action} {deliveryId : Nat} {time : Option Int}
    (ids : Identified s) (h : ClaimedAt deliveryId time s) (stepped : step env s action = some t)
    : ClaimedAt deliveryId time t := by
  obtain ⟨accepted, set, all⟩ := h
  cases step_effect stepped with
  | @committed i row phase admits =>
      refine ⟨?_, set, ?_⟩
      · change deliveryId ∈ (s.accepted ++ [row]).map CredentialDeliveryRow.deliveryId
        rw [List.map_append]
        exact List.mem_append_left _ accepted
      · intro other member same
        rcases (mem_insertDelivery admits.2.1).mp member with old | rfl
        · exact all other old same
        · exact absurd (same ▸ accepted) (ids.pending i other phase).2
  | claimed phase affected =>
      refine ⟨accepted, set, ?_⟩
      intro row member same
      rcases mem_claimDelivery.mp member with kept | changed
      · exact all row kept.1 same
      · obtain ⟨old, before, hit, rfl⟩ := changed
        have claimed := all old before same
        rw [(claimable_iff.mp hit).2] at claimed
        exact absurd claimed.symm set
  | swept => exact ⟨accepted, set, fun row member => all row (mem_of_delete member)⟩
  | delivering | inserted | claimStarted | claimAuthorized | claimRefused | paged | mirrored
  | ticked => exact ⟨accepted, set, all⟩

theorem step_accepted {s t : State} {action : Action} (stepped : step env s action = some t)
    : s.accepted ⊆ t.accepted := by
  cases step_effect stepped with
  | committed => exact List.subset_append_left _ _
  | delivering | inserted | claimStarted | claimAuthorized | claimRefused | claimed | paged
  | swept | mirrored | ticked => exact List.Subset.refl _

/-- The recipient of the hint has the row, or has not come to it yet. -/
def Collecting (row : CredentialDeliveryRow) (i : Nat) (s : State) : Prop :=
  row ∈ s.accepted
  ∧ (s.recipients i).recipientHint = row.recipientHint
  ∧ (listed row ∈ (s.recipients i).received
    ∨ (s.recipients i).Before row ∧ (s.recipients i).complete = false)

theorem step_collecting {s t : State} {action : Action} {row : CredentialDeliveryRow} {i : Nat}
    (numbered : Numbered s) (present : row ∈ s.accepted → row ∈ s.mailbox.rows)
    (h : Collecting row i s) (stepped : step env s action = some t)
    : Collecting row i t := by
  obtain ⟨accepted, hint, progress⟩ := h
  cases step_effect stepped with
  | committed => exact ⟨List.mem_append_left _ accepted, hint, progress⟩
  | paged j =>
      by_cases same : i = j
      · subst same
        refine ⟨accepted, by rw [receive_self]; exact hint, ?_⟩
        rcases progress with here | coming
        · rw [receive_self]
          exact Or.inl (List.mem_append_left _ here)
        · exact receive_reaches numbered (present accepted) (numbered.unclaimed row accepted)
            hint.symm coming.1
      · rw [Collecting, receive_other same]
        exact ⟨accepted, hint, progress⟩
  | delivering | inserted | claimStarted | claimAuthorized | claimRefused | claimed | swept
  | mirrored | ticked => exact ⟨accepted, hint, progress⟩

/-- A delivery that stays in the table during a whole pickup is picked up. -/
theorem run_collects {s t : State} {actions : List Action} {row : CredentialDeliveryRow}
    {i : Nat} (numbered : Numbered s) (ran : Machine.run (step env) s actions = some t)
    (accepted : row ∈ s.accepted) (stored : row ∈ t.mailbox.rows)
    (start : s.recipients i = ⟨row.recipientHint, [], false⟩)
    (complete : (t.recipients i).complete = true)
    : listed row ∈ (t.recipients i).received := by
  have kept : ∀ u action v,
      (row ∈ u.accepted → row ∈ u.mailbox.rows) → Numbered u ∧ Collecting row i u
      → step env u action = some v → Numbered v ∧ Collecting row i v := by
    intro u action v present inv stepped
    exact ⟨step_numbered inv.1 stepped, step_collecting inv.1 present inv.2 stepped⟩
  have initially : Collecting row i s := by
    refine ⟨accepted, by rw [start], Or.inr ⟨?_, by rw [start]⟩⟩
    simp [Recipient.Before, start]
  obtain ⟨_, _, _, progress⟩ := Machine.invariant_along kept ⟨numbered, initially⟩
    (run_present numbered ran stored) ran
  rcases progress with here | coming
  · exact here
  · cases complete.symm.trans coming.2

-----------------------------------------------------------------------------------------
-- The life of a delivery
-----------------------------------------------------------------------------------------

/-- For every interleaving: at most one claim of a delivery gets a 204, and only with the token
whose hash came with the delivery; no other step of a claim changes the table; `claimed_at`
stays as it was set; a claimed delivery is on no later page; and a delivery that is neither
claimed nor swept is in every finished pickup of its hint.
-/
theorem claim_lifecycle (env : Env) (hints : Nat → String) (start : Int)
    {before after : List Action} {s t : State}
    (fresh : Machine.Along (step env) FreshId (State.init hints start) (before ++ after))
    (ran : Machine.run (step env) (State.init hints start) before = some s)
    (later : Machine.run (step env) s after = some t)
    : (∀ i j req other, s.Won i req → s.Won j other → req.deliveryId = other.deliveryId → i = j)
      ∧ (∀ i req, s.Won i req → s.Matches env req)
      ∧ (∀ row ∈ s.accepted, row.claimTokenHash = none
        → ∀ i req, s.Won i req → req.deliveryId ≠ row.deliveryId)
      ∧ (∀ action u i, step env s action = some u → action.claimant = some i
        → (∀ req, ¬ u.Won i req) → u.mailbox = s.mailbox)
      ∧ (∀ row ∈ s.mailbox.rows, row.claimedAt ≠ none
        → ∀ next ∈ t.mailbox.rows, next.deliveryId = row.deliveryId
          → next.claimedAt = row.claimedAt)
      ∧ (∀ i req, s.Won i req
        → ∀ hint since, ∀ item ∈ (listDeliveries t.mailbox hint since).deliveries,
            item.deliveryId ≠ req.deliveryId)
      ∧ (∀ row ∈ s.accepted,
        (∀ i req, t.Won i req → req.deliveryId ≠ row.deliveryId)
        → (∀ other ∈ t.swept, other.deliveryId ≠ row.deliveryId)
        → ∀ i, s.recipients i = ⟨row.recipientHint, [], false⟩
          → (t.recipients i).complete = true → listed row ∈ (t.recipients i).received) := by
  obtain ⟨early, rest⟩ := Machine.along_append.mp fresh
  have sound := run_sound early (init_sound hints start) ran
  have ending := run_sound (rest s ran) sound later
  refine ⟨sound.authorized.once, sound.authorized.won, ?_, ?_, ?_, ?_, ?_⟩
  · intro row accepted unhashed i req won same
    obtain ⟨original, known, named, token, _, hash⟩ := sound.authorized.won i req won
    have one := List.inj_on_of_nodup_map sound.identified.distinct known accepted
      (named.trans same)
    rw [one, unhashed] at hash
    cases hash
  · exact fun action u i stepped claimant refused =>
      step_claim_unchanged claimant refused stepped
  · intro row stored claimed next there same
    have initially : ClaimedAt row.deliveryId row.claimedAt s := by
      obtain ⟨original, accepted, shape⟩ := sound.numbered.stored row stored
      refine ⟨List.mem_map.mpr ⟨original, accepted, by rw [shape]⟩, claimed, ?_⟩
      intro other inside named
      rw [List.inj_on_of_nodup_map s.mailbox.unique inside stored named]
    have kept : ∀ u action v,
        FreshId u action → Sound env u ∧ ClaimedAt row.deliveryId row.claimedAt u
        → step env u action = some v
        → Sound env v ∧ ClaimedAt row.deliveryId row.claimedAt v := by
      intro u action v drawn inv stepped
      exact ⟨step_sound drawn inv.1 stepped, step_claimedAt inv.1.identified inv.2 stepped⟩
    obtain ⟨_, _, _, all⟩ :=
      Machine.invariant_along kept ⟨sound, initially⟩ (rest s ran) later
    exact all next there same
  · intro i req won hint since item member same
    have final : t.Won i req := Machine.invariant (fun _ _ _ => step_won) won later
    obtain ⟨row, stored, waits, rfl⟩ := exists_of_mem_listDeliveries member
    exact ending.authorized.spent i req final row stored same (waiting_iff.mp waits).2.1
  · intro row accepted unclaimed unswept i first complete
    have still : row ∈ t.accepted :=
      Machine.invariant (fun _ _ _ inside stepped => step_accepted stepped inside) accepted later
    refine run_collects sound.numbered later accepted ?_ first complete
    rcases ending.authorized.kept row still with stored | claimed | swept
    · exact stored
    · obtain ⟨j, req, won, same⟩ := claimed
      exact absurd same (unclaimed j req won)
    · obtain ⟨other, inside, same⟩ := swept
      exact absurd same (unswept other inside)

/-- Two claims of one delivery have read its row before one of them updates it. -/
def sampleClaims : List Action :=
  [.mirror [sampleIssuer]] ++ deliverUpToInsert 0 7
    ++ [.commit 0 true, .claim 0 ⟨7, "AQ=="⟩, .claim 1 ⟨7, "AQ=="⟩, .select 0 true,
      .select 1 true, .update 0 true]

theorem claim_lifecycle_race
    : ∃ s t,
        Machine.run (step (sampleEnv 10)) (State.init (fun _ => "hint") 0) sampleClaims = some s
        ∧ Machine.run (step (sampleEnv 10)) s [.update 1 true, .page 0] = some t
        ∧ s.Won 0 ⟨7, "AQ=="⟩
        ∧ t.claims 1 = some ⟨⟨7, "AQ=="⟩, .answered (.error (.conflict "delivery already claimed"))⟩
        ∧ ∀ item ∈ (listDeliveries t.mailbox "hint" none).deliveries, item.deliveryId ≠ 7 := by
  have observed
      : (Machine.run (step (sampleEnv 10)) (State.init (fun _ => "hint") 0) sampleClaims).map
          (fun s => s.claims 0)
        = some (some ⟨⟨7, "AQ=="⟩, .answered (.ok ())⟩) := by
    decide +kernel
  have observedLater
      : (Machine.run (step (sampleEnv 10)) (State.init (fun _ => "hint") 0)
          (sampleClaims ++ [.update 1 true, .page 0])).map (fun s => s.claims 1)
        = some (some ⟨⟨7, "AQ=="⟩,
            .answered (.error (.conflict "delivery already claimed"))⟩) := by
    decide +kernel
  obtain ⟨s, ran, won⟩ := Option.map_eq_some_iff.mp observed
  obtain ⟨t, whole, lost⟩ := Option.map_eq_some_iff.mp observedLater
  obtain ⟨middle, first, later⟩ := Machine.run_append.mp whole
  obtain rfl := Option.some.inj (ran.symm.trans first)
  have fresh
      : Machine.Along (step (sampleEnv 10)) FreshId (State.init (fun _ => "hint") 0)
          (sampleClaims ++ [.update 1 true, .page 0]) := by
    decide +kernel
  obtain ⟨_, _, _, _, _, hidden, _⟩ := claim_lifecycle (sampleEnv 10) (fun _ => "hint") 0 fresh
    ran later
  exact ⟨s, t, ran, later, won, lost, hidden 0 ⟨7, "AQ=="⟩ won "hint" none⟩

end Attesta.Api.MailboxService
