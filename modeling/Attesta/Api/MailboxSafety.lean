import Attesta.Api.MailboxService

/-! The life of a delivery, over every interleaving. The sequence values tell deliveries apart
from those still in flight, and the delivery ids tie claims to them.
-/

namespace Attesta.Api.MailboxService

open Issuer
open Attesta.Api.Retention (Mailbox Kind Batch)

variable {env : Env}

-----------------------------------------------------------------------------------------
-- Keys that never repeat
-----------------------------------------------------------------------------------------

/-- A key of accepted rows and of rows in flight, whose values are used up one by one. -/
structure Unrepeated {κ : Type} (key : CredentialDeliveryRow → κ) (used : κ → Prop) (s : State)
    : Prop where
  accepted : ∀ row ∈ s.accepted, used (key row)
  distinct : (s.accepted.map key).Nodup
  pending
    : ∀ i row, s.deliveries i = some (.committing row)
        → used (key row) ∧ key row ∉ s.accepted.map key
  apart
    : ∀ i j row other, s.deliveries i = some (.committing row)
        → s.deliveries j = some (.committing other) → key row = key other → i = j

theorem setDelivery_committing {s : State} {i j : Nat} {phase : DeliverPhase}
    {row : CredentialDeliveryRow}
    (h : (s.setDelivery i phase).deliveries j = some (.committing row))
    : j = i ∧ phase = .committing row ∨ j ≠ i ∧ s.deliveries j = some (.committing row) := by
  simp only [State.setDelivery] at h
  split at h
  next same => exact Or.inl ⟨same, Option.some.inj h⟩
  next other => exact Or.inr ⟨other, h⟩

/-- A request that is not waiting for its commit puts nothing into flight. -/
theorem setDelivery_other {s : State} {i j : Nat} {phase : DeliverPhase}
    (other : ∀ row, phase ≠ .committing row) {row : CredentialDeliveryRow}
    (h : (s.setDelivery i phase).deliveries j = some (.committing row))
    : j ≠ i ∧ s.deliveries j = some (.committing row) := by
  rcases setDelivery_committing h with new | old
  · exact absurd new.2 (other row)
  · exact old

section Keys

variable {κ : Type} {key : CredentialDeliveryRow → κ} {used : κ → Prop} {s : State}

theorem Unrepeated.delivering (h : Unrepeated key used s) {i : Nat} {phase : DeliverPhase}
    (other : ∀ row, phase ≠ .committing row)
    : Unrepeated key used (s.setDelivery i phase) where
  accepted := h.accepted
  distinct := h.distinct
  pending j row here := h.pending j row (setDelivery_other other here).2
  apart j k row later first second :=
    h.apart j k row later (setDelivery_other other first).2 (setDelivery_other other second).2

/-- A row goes into flight with an unused value. -/
theorem Unrepeated.draw (h : Unrepeated key used s) {later : κ → Prop}
    (more : ∀ value, used value → later value) {row : CredentialDeliveryRow}
    (fresh : ¬ used (key row)) (now : later (key row)) (i deliveryId : Nat)
    : Unrepeated key later ((s.draw deliveryId).setDelivery i (.committing row)) := by
  have other {j : Nat} {old : CredentialDeliveryRow}
      (here : s.deliveries j = some (.committing old))
      : key old ≠ key row := by
    intro same
    exact fresh (same ▸ (h.pending j old here).1)
  refine {
    accepted := fun old member => more _ (h.accepted old member)
    distinct := h.distinct
    pending := ?_
    apart := ?_
  }
  · intro j old here
    rcases setDelivery_committing here with new | before
    · obtain ⟨rfl, same⟩ := new
      cases same
      refine ⟨now, fun member => ?_⟩
      obtain ⟨accepted, inside, same⟩ := List.mem_map.mp member
      exact fresh (same ▸ h.accepted accepted inside)
    · obtain ⟨was, unseen⟩ := h.pending j old before.2
      exact ⟨more _ was, unseen⟩
  · intro j k first second here there same
    rcases setDelivery_committing here with new | before
    · rcases setDelivery_committing there with also | earlier
      · exact new.1.trans also.1.symm
      · cases new.2
        exact absurd same.symm (other earlier.2)
    · rcases setDelivery_committing there with also | earlier
      · cases also.2
        exact absurd same (other before.2)
      · exact h.apart j k first second before.2 earlier.2 same

/-- A row in flight is accepted. -/
theorem Unrepeated.accept (h : Unrepeated key used s) {i : Nat} {row : CredentialDeliveryRow}
    (phase : s.deliveries i = some (.committing row))
    (fresh : row.deliveryId ∉ s.mailbox.rows.map CredentialDeliveryRow.deliveryId)
    : Unrepeated key used
        ((s.accept row fresh).setDelivery i (.answered (.ok row.deliveryId))) := by
  obtain ⟨was, unseen⟩ := h.pending i row phase
  have old {j : Nat} {other : CredentialDeliveryRow}
      (here
        : ((s.accept row fresh).setDelivery i (.answered (.ok row.deliveryId))).deliveries j
          = some (.committing other))
      : j ≠ i ∧ s.deliveries j = some (.committing other) :=
    setDelivery_other (by simp) here
  refine {
    accepted := ?_
    distinct := ?_
    pending := ?_
    apart := fun j k first second here there =>
      h.apart j k first second (old here).2 (old there).2
  }
  · intro other member
    rcases List.mem_append.mp member with earlier | new
    · exact h.accepted other earlier
    · exact List.mem_singleton.mp new ▸ was
  · change ((s.accepted ++ [row]).map key).Nodup
    rw [List.map_append, List.map_singleton]
    exact h.distinct.append (List.nodup_singleton _) (by simpa using unseen)
  · intro j other here
    obtain ⟨apart, before⟩ := old here
    obtain ⟨known, unaccepted⟩ := h.pending j other before
    refine ⟨known, fun member => ?_⟩
    change key other ∈ (s.accepted ++ [row]).map key at member
    rw [List.map_append, List.map_singleton] at member
    rcases List.mem_append.mp member with earlier | new
    · exact unaccepted earlier
    · exact apart (h.apart j i other row before phase (List.mem_singleton.mp new))

end Keys

-----------------------------------------------------------------------------------------
-- Sequence values
-----------------------------------------------------------------------------------------

/-- The table holds accepted rows, changed in `claimed_at` at most, and no two rows have had
one sequence value.
-/
structure Numbered (s : State) : Prop where
  seqs : Unrepeated CredentialDeliveryRow.seq (fun seq => 0 < seq ∧ seq ≤ s.lastSeq) s
  nonneg : 0 ≤ s.lastSeq
  distinct : (s.mailbox.rows.map CredentialDeliveryRow.seq).Nodup
  stored
    : ∀ row ∈ s.mailbox.rows, ∃ original ∈ s.accepted,
        row = { original with claimedAt := row.claimedAt }
  unclaimed : ∀ row ∈ s.accepted, row.claimedAt = none
  pending : ∀ i row, s.deliveries i = some (.committing row) → row.claimedAt = none
  received : ∀ i, ∀ item ∈ (s.recipients i).received, ∃ row ∈ s.accepted, listed row = item

/-- An unclaimed row is stored as it was accepted. -/
theorem Numbered.accepted {s : State} (h : Numbered s) {row : CredentialDeliveryRow}
    (stored : row ∈ s.mailbox.rows) (unclaimed : row.claimedAt = none)
    : row ∈ s.accepted := by
  obtain ⟨original, accepted, same⟩ := h.stored row stored
  have before := h.unclaimed original accepted
  rw [unclaimed, ← before] at same
  exact same ▸ accepted

theorem mem_receive {s : State} {i j : Nat} {item : ListedDelivery}
    (h : item ∈ ((s.receive i).recipients j).received)
    : item ∈ (s.recipients j).received ∨ j = i ∧ item ∈ (s.nextPage i).deliveries := by
  simp only [State.receive] at h
  split at h
  next same =>
    subst same
    rcases List.mem_append.mp h with old | new
    · exact Or.inl old
    · exact Or.inr ⟨rfl, new⟩
  · exact Or.inl h

theorem step_numbered {s t : State} {action : Action} (h : Numbered s)
    (stepped : step env s action = some t)
    : Numbered t := by
  cases step_effect stepped with
  | delivering other =>
      refine { h with seqs := h.seqs.delivering other, pending := ?_ }
      exact fun j row here => h.pending j row (setDelivery_other other here).2
  | @inserted i deliveryId delivery phase =>
      have nonneg := h.nonneg
      refine { h with seqs := ?_, nonneg := ?_, pending := ?_ }
      · refine h.seqs.draw ?_ ?_ ?_ i deliveryId
        · intro seq within
          exact ⟨within.1, within.2.trans (Int.le_add_one le_rfl)⟩
        · intro within
          exact absurd within.2 (Int.not_le.mpr (Int.lt_succ s.lastSeq))
        · exact ⟨Int.lt_add_one_of_le nonneg, le_rfl⟩
      · exact Int.le_add_one nonneg
      · intro j row here
        rcases setDelivery_committing here with new | old
        · cases new.2
          rfl
        · exact h.pending j row old.2
  | @committed i row phase admits =>
      refine {
        seqs := h.seqs.accept phase admits.2.1
        nonneg := h.nonneg
        distinct := ?_
        stored := ?_
        unclaimed := ?_
        pending := ?_
        received := ?_
      }
      · change ((s.mailbox.rows ++ [row]).map CredentialDeliveryRow.seq).Nodup
        rw [List.map_append, List.map_singleton]
        exact h.distinct.append (List.nodup_singleton _) (by simpa using admits.2.2)
      · intro other member
        rcases (mem_insertDelivery admits.2.1).mp member with older | rfl
        · obtain ⟨original, accepted, same⟩ := h.stored other older
          exact ⟨original, List.mem_append_left _ accepted, same⟩
        · exact ⟨other, List.mem_append_right _ (List.mem_singleton_self other), rfl⟩
      · intro other member
        rcases List.mem_append.mp member with older | new
        · exact h.unclaimed other older
        · exact List.mem_singleton.mp new ▸ h.pending i row phase
      · intro j other here
        exact h.pending j other (setDelivery_other (by simp) here).2
      · intro j item member
        obtain ⟨original, accepted, same⟩ := h.received j item member
        exact ⟨original, List.mem_append_left _ accepted, same⟩
  | @claimed i req presented phase affected =>
      refine { h with seqs := { h.seqs with }, distinct := ?_, stored := ?_ }
      · have same : (claimDelivery s.mailbox req.deliveryId s.now).rows.map
              CredentialDeliveryRow.seq
            = s.mailbox.rows.map CredentialDeliveryRow.seq := by
          rw [claimDelivery, List.map_map]
          refine List.map_congr_left ?_
          intro row _
          simp only [Function.comp_apply]
          split <;> rfl
        exact (congrArg List.Nodup same).mpr h.distinct
      · intro row member
        rcases mem_claimDelivery.mp member with kept | changed
        · exact h.stored row kept.1
        · obtain ⟨old, before, _, rfl⟩ := changed
          obtain ⟨original, accepted, same⟩ := h.stored old before
          exact ⟨original, accepted, by rw [same]⟩
  | @paged i =>
      refine { h with seqs := { h.seqs with }, received := ?_ }
      intro j item member
      rcases mem_receive member with old | new
      · exact h.received j item old
      · obtain ⟨row, stored, waits, same⟩ := exists_of_mem_listDeliveries new.2
        exact ⟨row, h.accepted stored (waiting_iff.mp waits).2.1, same⟩
  | @swept kind cutoff chosen batch =>
      have kept : ∀ row ∈ (s.mailbox.delete chosen).rows, row ∈ s.mailbox.rows := fun _ =>
        mem_of_delete
      refine {
        h with
        seqs := { h.seqs with }
        distinct := h.distinct.sublist (List.filter_sublist.map _)
        stored := fun row member => h.stored row (kept row member)
      }
  | claimStarted | claimAuthorized | claimRefused | mirrored | ticked =>
      exact { h with seqs := { h.seqs with } }

theorem init_unrepeated {κ : Type} (key : CredentialDeliveryRow → κ) (used : κ → Prop)
    (hints : Nat → String) (now : Int)
    : Unrepeated key used (State.init hints now) := by
  refine ⟨?_, List.nodup_nil, ?_, ?_⟩ <;> simp [State.init]

theorem init_numbered (hints : Nat → String) (now : Int) : Numbered (State.init hints now) := by
  refine ⟨init_unrepeated _ _ hints now, le_rfl, List.nodup_nil, ?_, ?_, ?_, ?_⟩ <;>
    simp [State.init]

theorem run_numbered {hints : Nat → String} {now : Int} {actions : List Action} {s : State}
    (ran : Machine.run (step env) (State.init hints now) actions = some s)
    : Numbered s :=
  Machine.invariant (fun _ _ _ => step_numbered) (init_numbered hints now) ran

/-- A row that has left the table does not come back. -/
theorem step_gone {s t : State} {action : Action} {row : CredentialDeliveryRow} (h : Numbered s)
    (gone : row ∈ s.accepted ∧ row ∉ s.mailbox.rows) (stepped : step env s action = some t)
    : row ∈ t.accepted ∧ row ∉ t.mailbox.rows := by
  obtain ⟨accepted, absent⟩ := gone
  cases step_effect stepped with
  | @committed i new phase admits =>
      refine ⟨List.mem_append_left _ accepted, fun member => ?_⟩
      rcases (mem_insertDelivery admits.2.1).mp member with old | rfl
      · exact absent old
      · exact (h.seqs.pending i row phase).2 (List.mem_map_of_mem accepted)
  | @claimed i req presented phase affected =>
      refine ⟨accepted, fun member => ?_⟩
      rcases mem_claimDelivery.mp member with kept | changed
      · exact absent kept.1
      · obtain ⟨old, _, _, same⟩ := changed
        have unclaimed := h.unclaimed row accepted
        rw [same] at unclaimed
        cases unclaimed
  | swept => exact ⟨accepted, fun member => absent (mem_of_delete member)⟩
  | delivering | inserted | claimStarted | claimAuthorized | claimRefused | paged | mirrored
  | ticked => exact ⟨accepted, absent⟩

/-- A row that is stored at the end of a run was stored at every moment since its insert. -/
theorem run_present {row : CredentialDeliveryRow} {s t : State} {actions : List Action}
    (h : Numbered s) (ran : Machine.run (step env) s actions = some t)
    (stored : row ∈ t.mailbox.rows)
    : Machine.Along (step env) (fun u _ => row ∈ u.accepted → row ∈ u.mailbox.rows) s
        actions := by
  induction actions generalizing s with
  | nil => trivial
  | cons action rest ih =>
      obtain ⟨middle, first, later⟩ := Machine.run_cons.mp ran
      constructor
      · intro accepted
        by_contra absent
        have kept : ∀ u action v,
            Numbered u ∧ row ∈ u.accepted ∧ row ∉ u.mailbox.rows
            → step env u action = some v
            → Numbered v ∧ row ∈ v.accepted ∧ row ∉ v.mailbox.rows := by
          intro u action v inv moved
          exact ⟨step_numbered inv.1 moved, step_gone inv.1 inv.2 moved⟩
        exact (Machine.invariant kept ⟨h, accepted, absent⟩ ran).2.2 stored
      · intro next moved
        cases first.symm.trans moved
        exact ih (step_numbered h first) later

/-- The row whose insert a step makes visible. -/
def State.commits (s : State) : Action → Option CredentialDeliveryRow
  | .commit i true =>
      match s.deliveries i with
      | some (.committing row) => if Admits s.issuers s.mailbox row then some row else none
      | _ => none
  | _ => none

theorem commits_eq_some {s : State} {action : Action} {row : CredentialDeliveryRow}
    : s.commits action = some row
      ↔ ∃ i, action = .commit i true ∧ s.deliveries i = some (.committing row)
          ∧ Admits s.issuers s.mailbox row := by
  constructor
  · intro commits
    unfold State.commits at commits
    split at commits
    next i =>
      split at commits
      next phase =>
        split at commits
        next admits =>
          cases commits
          exact ⟨i, rfl, phase, admits⟩
        · cases commits
      · cases commits
    · cases commits
  · intro h
    obtain ⟨i, rfl, phase, admits⟩ := h
    simp [State.commits, phase, admits]

theorem commits_commit {s : State} {i : Nat} {row : CredentialDeliveryRow}
    (phase : s.deliveries i = some (.committing row)) (admits : Admits s.issuers s.mailbox row)
    : s.commits (.commit i true) = some row :=
  commits_eq_some.mpr ⟨i, rfl, phase, admits⟩

/-- A step that accepts nothing commits nothing. -/
theorem commits_ne_some {s t : State} {action : Action} (stepped : step env s action = some t)
    (same : t.accepted = s.accepted) (row : CredentialDeliveryRow)
    : s.commits action ≠ some row := by
  intro commits
  obtain ⟨i, rfl, phase, admits⟩ := commits_eq_some.mp commits
  simp only [step, phase, admits, and_self, dite_true, Option.some.injEq] at stepped
  rw [← stepped] at same
  simpa [State.accept, State.setDelivery] using congrArg List.length same

/-- The recipient has received nothing at or past the row. -/
def Recipient.Before (recipient : Recipient) (row : CredentialDeliveryRow) : Prop :=
  ∀ item ∈ recipient.received, item.seq < row.seq

theorem Recipient.before_of_cursor {recipient : Recipient} {row : CredentialDeliveryRow}
    (behind : recipient.cursor.getD 0 < row.seq)
    : recipient.Before row := by
  intro item member
  have seq := List.mem_map_of_mem (f := ListedDelivery.seq) member
  cases highest : recipient.cursor with
  | none =>
      rw [List.max?_eq_none_iff.mp highest] at seq
      cases seq
  | some top =>
      rw [highest] at behind
      exact lt_of_le_of_lt ((List.max?_eq_some_iff.mp highest).2 _ seq) behind

theorem Recipient.cursor_lt_iff {recipient : Recipient} {row : CredentialDeliveryRow}
    (positive : 0 < row.seq)
    : recipient.cursor.getD 0 < row.seq ↔ recipient.Before row := by
  refine ⟨before_of_cursor, fun before => ?_⟩
  cases highest : recipient.cursor with
  | none => exact positive
  | some top =>
      obtain ⟨item, member, same⟩ := List.mem_map.mp (List.max?_eq_some_iff.mp highest).1
      exact same ▸ before item member

theorem receive_self (s : State) (i : Nat)
    : (s.receive i).recipients i
      = { s.recipients i with
          received := (s.recipients i).received ++ (s.nextPage i).deliveries
          complete := (s.nextPage i).nextCursor.isNone } := by
  simp [State.receive]

theorem receive_other {i j : Nat} (apart : j ≠ i) (s : State)
    : (s.receive i).recipients j = s.recipients j := by
  simp [State.receive, apart]

/-- The next page shows a waiting row, or it is full and the row is still to come. -/
theorem receive_reaches {s : State} (h : Numbered s) {i : Nat} {row : CredentialDeliveryRow}
    (stored : row ∈ s.mailbox.rows) (unclaimed : row.claimedAt = none)
    (hint : row.recipientHint = (s.recipients i).recipientHint)
    (before : (s.recipients i).Before row)
    : listed row ∈ ((s.receive i).recipients i).received
      ∨ ((s.receive i).recipients i).Before row
        ∧ ((s.receive i).recipients i).complete = false := by
  have positive := (h.seqs.accepted row (h.accepted stored unclaimed)).1
  have behind := (Recipient.cursor_lt_iff positive).mpr before
  have waits := waiting_iff.mpr ⟨hint, unclaimed, behind⟩
  rw [receive_self]
  rcases listDeliveries_covers h.distinct stored waits with here | later
  · exact Or.inl (List.mem_append_right _ here)
  · obtain ⟨past, more⟩ := later
    refine Or.inr ⟨?_, Option.isNone_eq_false_iff.mpr (Option.isSome_iff_ne_none.mpr more)⟩
    intro item member
    rcases List.mem_append.mp member with old | new
    · exact before item old
    · exact past item new

/-- A page shows nothing that the recipient has already passed. -/
theorem before_of_receive {s : State} {i : Nat} {row : CredentialDeliveryRow}
    (member : listed row ∈ (s.nextPage i).deliveries)
    : (s.recipients i).Before row := by
  obtain ⟨other, _, waits, same⟩ := exists_of_mem_listDeliveries member
  have seq : other.seq = row.seq := congrArg ListedDelivery.seq same
  exact Recipient.before_of_cursor (seq ▸ (waiting_iff.mp waits).2.2)

end Attesta.Api.MailboxService
