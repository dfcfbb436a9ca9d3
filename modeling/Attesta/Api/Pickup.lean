import Attesta.Api.MailboxSafety

/-! Pickup by cursor. A page only shows what is visible, and the cursor moves on to the highest
sequence value shown; an insert that has drawn a lower value and is still in flight is then
never shown.
-/

namespace Attesta.Api.MailboxService

open Issuer
open Attesta.Api.Retention (Mailbox Kind Batch)

variable {env : Env}

/-- What a recipient has received is in order, so nothing is received twice. -/
def Ordered (s : State) : Prop :=
  ∀ i, Feed.Increasing ListedDelivery.seq (s.recipients i).received

theorem Ordered.receive {s : State} (h : Ordered s) (numbered : Numbered s) (i : Nat)
    : Ordered (s.receive i) := by
  intro j
  by_cases same : j = i
  · subst same
    rw [receive_self]
    refine List.pairwise_append.mpr ⟨h j, increasing_listDeliveries numbered.distinct, ?_⟩
    intro old earlier new member
    obtain ⟨row, _, waits, rfl⟩ := exists_of_mem_listDeliveries member
    exact Recipient.before_of_cursor (waiting_iff.mp waits).2.2 old earlier
  · rw [receive_other same]
    exact h j

theorem step_ordered {s t : State} {action : Action} (numbered : Numbered s) (h : Ordered s)
    (stepped : step env s action = some t)
    : Ordered t := by
  cases step_effect stepped with
  | paged i => exact h.receive numbered i
  | delivering | inserted | committed | claimStarted | claimAuthorized | claimRefused | claimed
  | swept | mirrored | ticked => exact h

theorem step_hint {s t : State} {action : Action} (i : Nat)
    (stepped : step env s action = some t)
    : (t.recipients i).recipientHint = (s.recipients i).recipientHint := by
  cases step_effect stepped with
  | paged j =>
      by_cases same : i = j
      · subst same
        rw [receive_self]
      · rw [receive_other same]
  | delivering | inserted | committed | claimStarted | claimAuthorized | claimRefused | claimed
  | swept | mirrored | ticked => rfl

/-- What is known of a reachable state and one of its recipients. -/
structure Paging (i : Nat) (hint : String) (s : State) : Prop where
  numbered : Numbered s
  ordered : Ordered s
  hint : (s.recipients i).recipientHint = hint

theorem step_paging {i : Nat} {hint : String} {s t : State} {action : Action}
    (h : Paging i hint s) (stepped : step env s action = some t)
    : Paging i hint t where
  numbered := step_numbered h.numbered stepped
  ordered := step_ordered h.numbered h.ordered stepped
  hint := (step_hint i stepped).trans h.hint

theorem init_paging (hints : Nat → String) (start : Int) (i : Nat)
    : Paging i (hints i) (State.init hints start) where
  numbered := init_numbered hints start
  ordered _ := List.Pairwise.nil
  hint := rfl

-----------------------------------------------------------------------------------------
-- Overtaken inserts
-----------------------------------------------------------------------------------------

/-- The recipient has the row or can still come to it, if the row has become visible. -/
def Attainable (i : Nat) (row : CredentialDeliveryRow) (s : State) : Prop :=
  row ∈ s.accepted → listed row ∈ (s.recipients i).received ∨ (s.recipients i).Before row

/-- The row becomes visible before the recipient has passed it. -/
def InTime (i : Nat) (row : CredentialDeliveryRow) (s : State) (action : Action) : Prop :=
  s.commits action = some row → (s.recipients i).cursor.getD 0 < row.seq

/-- A page neither loses a stored row nor brings back one that was passed. -/
theorem attainable_receive_iff {s : State} {i : Nat} {hint : String} (h : Paging i hint s)
    {row : CredentialDeliveryRow} (same : row.recipientHint = hint) (accepted : row ∈ s.accepted)
    (stored : row ∈ s.mailbox.rows)
    : listed row ∈ ((s.receive i).recipients i).received
        ∨ ((s.receive i).recipients i).Before row
      ↔ listed row ∈ (s.recipients i).received ∨ (s.recipients i).Before row := by
  constructor
  · intro after
    rw [receive_self] at after
    rcases after with here | coming
    · rcases List.mem_append.mp here with old | new
      · exact Or.inl old
      · exact Or.inr (before_of_receive new)
    · exact Or.inr fun item member => coming item (List.mem_append_left _ member)
  · intro before
    rcases before with here | coming
    · rw [receive_self]
      exact Or.inl (List.mem_append_left _ here)
    · have hint := same.trans h.hint.symm
      rcases receive_reaches h.numbered stored (h.numbered.unclaimed row accepted) hint coming
        with now | later
      · exact Or.inl now
      · exact Or.inr later.1

/-- While the row is stored, only a late commit can put it out of reach. -/
theorem step_attainable_iff {i : Nat} {hint : String} {row : CredentialDeliveryRow}
    (same : row.recipientHint = hint) {s t : State} {action : Action}
    (present : row ∈ s.accepted → row ∈ s.mailbox.rows) (h : Paging i hint s)
    (stepped : step env s action = some t)
    : Attainable i row t ↔ Attainable i row s ∧ InTime i row s action := by
  have quiet (unchanged : t.accepted = s.accepted) : InTime i row s action :=
    fun commits => absurd commits (commits_ne_some stepped unchanged row)
  cases step_effect stepped with
  | @committed j new phase admits =>
      obtain ⟨⟨positive, _⟩, unseen⟩ := h.numbered.seqs.pending j new phase
      by_cases this : new = row
      · subst this
        have absent : new ∉ s.accepted := fun member => unseen (List.mem_map_of_mem member)
        have unread : listed new ∉ (s.recipients i).received := by
          intro member
          obtain ⟨original, accepted, copy⟩ := h.numbered.received i _ member
          exact unseen (List.mem_map.mpr ⟨original, accepted, congrArg ListedDelivery.seq copy⟩)
        have commits : s.commits (.commit j true) = some new := commits_commit phase admits
        have visible
            : new ∈ ((s.accept new admits.2.1).setDelivery j
                (.answered (.ok new.deliveryId))).accepted :=
          List.mem_append_right _ (List.mem_singleton_self new)
        simp only [Attainable, absent, false_imp_iff, true_and, InTime, commits, true_imp_iff,
          visible, Recipient.cursor_lt_iff positive]
        exact or_iff_right unread
      · have other : s.commits (.commit j true) ≠ some row := by
          rw [commits_commit phase admits]
          exact fun same => this (Option.some.inj same)
        have still
            : row ∈ ((s.accept new admits.2.1).setDelivery j
                (.answered (.ok new.deliveryId))).accepted ↔ row ∈ s.accepted := by
          change row ∈ s.accepted ++ [new] ↔ _
          simp [Ne.symm this]
        rw [and_iff_left (show InTime i row s (.commit j true) from fun c => absurd c other),
          Attainable, still]
        rfl
  | paged j =>
      rw [and_iff_left (quiet rfl)]
      by_cases mine : i = j
      · subst mine
        refine imp_congr_right fun accepted => ?_
        exact attainable_receive_iff h same accepted (present accepted)
      · rw [Attainable, Attainable, receive_other mine]
        rfl
  | delivering | inserted | claimStarted | claimAuthorized | claimRefused | claimed | swept
  | mirrored | ticked =>
      rw [and_iff_left (quiet rfl)]
      rfl

/-- A row stored at the end of a run is within reach exactly if its commit was in time. -/
theorem run_attainable_iff {hints : Nat → String} {start : Int} {i : Nat} {actions : List Action}
    {s : State}
    (ran : Machine.run (step env) (State.init hints start) actions = some s)
    {row : CredentialDeliveryRow} (same : row.recipientHint = hints i)
    (stored : row ∈ s.mailbox.rows)
    : Attainable i row s
      ↔ Machine.Along (step env) (InTime i row) (State.init hints start) actions := by
  have present := run_present (init_numbered hints start) ran stored
  have whole := Machine.along_iff (fun u _ => row ∈ u.accepted → row ∈ u.mailbox.rows)
    (Attainable i row) (InTime i row) (fun _ _ _ _ => step_paging)
    (fun _ _ _ => step_attainable_iff same) (init_paging hints start i) present ran
  rw [whole, and_iff_right]
  intro accepted
  cases accepted

/-- The last page of a pickup completes what is within reach, and shows nothing twice. -/
theorem received_once_iff {i : Nat} {hint : String} {s : State} (h : Paging i hint s)
    (finished : (s.nextPage i).nextCursor = none) {row : CredentialDeliveryRow}
    (same : row.recipientHint = hint) (stored : row ∈ s.mailbox.rows)
    (unclaimed : row.claimedAt = none)
    : ((s.receive i).recipients i).received.count (listed row) = 1 ↔ Attainable i row s := by
  have accepted := h.numbered.accepted stored unclaimed
  have distinct : ((s.receive i).recipients i).received.Nodup := by
    refine (h.ordered.receive h.numbered i i).imp ?_
    intro a b before equal
    exact absurd (equal ▸ before) (lt_irrefl _)
  constructor
  · intro once _
    have member := List.one_le_count_iff.mp (le_of_eq once.symm)
    rw [← attainable_receive_iff h same accepted stored]
    exact Or.inl member
  · intro attainable
    refine List.count_eq_one_of_mem distinct ?_
    rcases attainable accepted with here | coming
    · rw [receive_self]
      exact List.mem_append_left _ here
    · rcases receive_reaches h.numbered stored unclaimed (same.trans h.hint.symm) coming
        with now | later
      · exact now
      · have complete : ((s.receive i).recipients i).complete = true := by
          rw [receive_self, finished]
          rfl
        cases complete.symm.trans later.2

/-- A recipient that pages by the highest sequence value it has received ends up with every
unclaimed delivery of its hint exactly once, exactly if each of these became visible while that
value was still below its own.
-/
theorem pickup_complete_iff (env : Env) (hints : Nat → String) (start : Int) (i : Nat)
    {actions : List Action} {s t : State}
    (ran : Machine.run (step env) (State.init hints start) actions = some s)
    (last : step env s (.page i) = some t) (finished : (s.nextPage i).nextCursor = none)
    : (∀ row ∈ t.mailbox.rows, row.recipientHint = hints i → row.claimedAt = none
        → (t.recipients i).received.count (listed row) = 1)
      ↔ Machine.Along (step env)
          (fun u action => ∀ row ∈ t.mailbox.rows, row.recipientHint = hints i
            → row.claimedAt = none → InTime i row u action)
          (State.init hints start) actions := by
  obtain rfl := Option.some.inj last
  have paging := Machine.invariant (fun _ _ _ => step_paging) (init_paging hints start i) ran
  simp only [Machine.along_forall]
  refine forall_congr' fun row => imp_congr_right fun stored => ?_
  refine imp_congr_right fun same => imp_congr_right fun unclaimed => ?_
  rw [received_once_iff paging finished same stored unclaimed]
  exact run_attainable_iff ran same stored

/-- Two deliveries are under way; the recipient fetches a page between their commits. -/
def samplePickup (first second : Nat) : List Action :=
  [.mirror [sampleIssuer]] ++ deliverUpToInsert 0 7 ++ deliverUpToInsert 1 8
    ++ [.commit first true, .page 0, .commit second true]

theorem pickup_complete_in_order
    : ∃ s t,
        Machine.run (step (sampleEnv 10)) (State.init (fun _ => "hint") 0) (samplePickup 0 1)
          = some s
        ∧ step (sampleEnv 10) s (.page 0) = some t
        ∧ (∀ row ∈ t.mailbox.rows, (t.recipients 0).received.count (listed row) = 1)
        ∧ Machine.Along (step (sampleEnv 10))
            (fun u action => ∀ row ∈ t.mailbox.rows, row.recipientHint = "hint"
              → row.claimedAt = none → InTime 0 row u action)
            (State.init (fun _ => "hint") 0) (samplePickup 0 1) := by
  have observed
      : (Machine.run (step (sampleEnv 10)) (State.init (fun _ => "hint") 0)
          (samplePickup 0 1)).map (fun s => (s.nextPage 0).nextCursor)
        = some none := by
    decide +kernel
  have observedLater
      : (Machine.run (step (sampleEnv 10)) (State.init (fun _ => "hint") 0)
          (samplePickup 0 1 ++ [.page 0])).map (fun t =>
            decide (∀ row ∈ t.mailbox.rows, (t.recipients 0).received.count (listed row) = 1))
        = some true := by
    decide +kernel
  obtain ⟨s, ran, finished⟩ := Option.map_eq_some_iff.mp observed
  obtain ⟨t, whole, complete⟩ := Option.map_eq_some_iff.mp observedLater
  obtain ⟨middle, first, last⟩ := Machine.run_concat.mp whole
  obtain rfl := Option.some.inj (ran.symm.trans first)
  have once := of_decide_eq_true complete
  have inTime := pickup_complete_iff (sampleEnv 10) (fun _ => "hint") 0 0 ran last finished
  exact ⟨s, t, ran, last, once, inTime.mp fun row stored _ _ => once row stored⟩

/-- The delivery with the lower value commits after the page that shows the higher one, and is
on no page although every insert has been committed and the last page has no cursor.
-/
theorem delivery_overtaken
    : ∃ s t,
        Machine.run (step (sampleEnv 10)) (State.init (fun _ => "hint") 0) (samplePickup 1 0)
          = some s
        ∧ s.lastSeq = 2 ∧ s.accepted.map CredentialDeliveryRow.seq = [2, 1]
        ∧ step (sampleEnv 10) s (.page 0) = some t
        ∧ (s.nextPage 0).nextCursor = none
        ∧ ∃ row ∈ t.mailbox.rows, row.recipientHint = "hint" ∧ row.claimedAt = none
          ∧ (t.recipients 0).received.count (listed row) ≠ 1 := by
  have observed
      : (Machine.run (step (sampleEnv 10)) (State.init (fun _ => "hint") 0)
          (samplePickup 1 0)).map (fun s =>
            (s.lastSeq, s.accepted.map CredentialDeliveryRow.seq, (s.nextPage 0).nextCursor))
        = some (2, [2, 1], none) := by
    decide +kernel
  have observedLater
      : (Machine.run (step (sampleEnv 10)) (State.init (fun _ => "hint") 0)
          (samplePickup 1 0 ++ [.page 0])).map (fun t =>
            decide (∃ row ∈ t.mailbox.rows, row.recipientHint = "hint" ∧ row.claimedAt = none
              ∧ (t.recipients 0).received.count (listed row) ≠ 1))
        = some true := by
    decide +kernel
  obtain ⟨s, ran, shape⟩ := Option.map_eq_some_iff.mp observed
  obtain ⟨t, whole, missing⟩ := Option.map_eq_some_iff.mp observedLater
  obtain ⟨middle, first, last⟩ := Machine.run_concat.mp whole
  obtain rfl := Option.some.inj (ran.symm.trans first)
  simp only [Prod.mk.injEq] at shape
  exact ⟨s, t, ran, shape.1, shape.2.1, last, shape.2.2, of_decide_eq_true missing⟩

end Attesta.Api.MailboxService
