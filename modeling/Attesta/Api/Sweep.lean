import Attesta.Api.Retention

/-! The loop of `sweep` on a table that nobody else writes to. It deletes batch after batch,
whichever rows each `LIMIT` picks, and ends with the first batch that is not full.
-/

namespace Attesta.Api.Retention

open Attesta.Indexer

/-- The rows that `WHERE` selects, for any predicate. -/
def Mailbox.selected (mailbox : Mailbox) (condition : CredentialDeliveryRow → Bool)
    : List CredentialDeliveryRow :=
  mailbox.rows.filter condition

theorem Mailbox.matching_eq (mailbox : Mailbox) (cutoff : Int) (kind : Kind)
    : mailbox.matching cutoff kind = mailbox.selected (predicate cutoff kind) := rfl

/-- How a limited `DELETE` can end. If it is executed, its reply may still get lost. -/
inductive DeleteReply (selected : List CredentialDeliveryRow)
  | executed (chosen : List CredentialDeliveryRow) (batch : Batch selected chosen)
      (reported : Bool)
  | failed

/-- No error is reported. -/
def DeleteReply.Succeeds {selected : List CredentialDeliveryRow} : DeleteReply selected → Prop
  | .executed _ _ reported => reported = true
  | .failed => False

/-- What the database does with each `DELETE` of the loop, by its number and the table. -/
abbrev Database (condition : CredentialDeliveryRow → Bool) :=
  Nat → (mailbox : Mailbox) → DeleteReply (mailbox.selected condition)

/-- What a call of `sweep` comes to. -/
structure Swept where
  mailbox : Mailbox
  /-- How many times `DELETE` was sent. -/
  statements : Nat
  /-- The loop ended with a batch that was not full, not with an error. -/
  drained : Bool

-----------------------------------------------------------------------------------------
-- One batch
-----------------------------------------------------------------------------------------

variable {condition : CredentialDeliveryRow → Bool} {mailbox : Mailbox}
  {chosen : List CredentialDeliveryRow}

/-- The ids of chosen rows are the ids of no others. -/
theorem mem_delete_iff (known : chosen ⊆ mailbox.rows) {row : CredentialDeliveryRow}
    : row ∈ (mailbox.delete chosen).rows ↔ row ∈ mailbox.rows ∧ row ∉ chosen := by
  simp only [Mailbox.delete, List.mem_filter, Bool.not_eq_true', List.any_eq_false, beq_iff_eq]
  refine and_congr_right fun inside => ?_
  constructor
  · exact fun apart picked => apart row picked rfl
  · intro unpicked other picked same
    have one := List.inj_on_of_nodup_map mailbox.unique (known picked) inside same
    exact unpicked (one ▸ picked)

theorem Batch.known (batch : Batch (mailbox.selected condition) chosen)
    : chosen ⊆ mailbox.rows :=
  fun _ picked => List.mem_of_mem_filter (batch.1 picked)

/-- A batch is taken off the selected rows. -/
theorem Batch.length_delete (batch : Batch (mailbox.selected condition) chosen)
    : ((mailbox.delete chosen).selected condition).length + chosen.length
      = (mailbox.selected condition).length := by
  have distinct : (mailbox.selected condition).Nodup := mailbox.nodup.filter _
  have left : ((mailbox.delete chosen).selected condition).Perm
      ((mailbox.selected condition).filter (fun row => decide (row ∉ chosen))) := by
    refine (List.perm_ext_iff_of_nodup ((mailbox.delete chosen).nodup.filter _)
      (distinct.filter _)).mpr ?_
    intro row
    simp only [Mailbox.selected, List.mem_filter, mem_delete_iff batch.known, decide_eq_true_eq]
    exact and_right_comm
  have taken : chosen.Perm
      ((mailbox.selected condition).filter (fun row => decide (row ∈ chosen))) := by
    refine (List.perm_ext_iff_of_nodup batch.2.1 (distinct.filter _)).mpr ?_
    intro row
    simp only [List.mem_filter, decide_eq_true_eq]
    exact ⟨fun picked => ⟨batch.1 picked, picked⟩, And.right⟩
  have parts := List.length_eq_length_filter_add (l := mailbox.selected condition)
    (fun row => decide (row ∈ chosen))
  rw [left.length_eq, taken.length_eq, parts]
  simp [Nat.add_comm]

/-- A batch that is not full has all selected rows. -/
theorem Batch.selected_delete (batch : Batch (mailbox.selected condition) chosen)
    (short : chosen.length < sweepBatch)
    : (mailbox.delete chosen).selected condition = [] := by
  have taken := batch.length_delete
  have size := batch.2.2
  rw [← List.length_eq_zero_iff]
  omega

-----------------------------------------------------------------------------------------
-- The loop
-----------------------------------------------------------------------------------------

/-- `sweep`, from the DELETE with the given number on. -/
def sweep (condition : CredentialDeliveryRow → Bool) (database : Database condition)
    (number : Nat) (mailbox : Mailbox)
    : Swept :=
  match database number mailbox with
  | .failed => ⟨mailbox, number + 1, false⟩
  | .executed chosen _ false => ⟨mailbox.delete chosen, number + 1, false⟩
  | .executed chosen _ true =>
      if chosen.length < sweepBatch then ⟨mailbox.delete chosen, number + 1, true⟩
      else sweep condition database (number + 1) (mailbox.delete chosen)
termination_by (mailbox.selected condition).length
decreasing_by
  -- A full batch is not empty, and its rows are selected no more.
  next batch full =>
    have taken := batch.length_delete
    simp only [sweepBatch] at full
    omega

/-- Whatever fails, only selected rows are gone. -/
theorem sweep_keeps (database : Database condition) (number : Nat) (mailbox : Mailbox)
    : (sweep condition database number mailbox).mailbox.rows.Sublist mailbox.rows
      ∧ ∀ row ∈ mailbox.rows, condition row = false
        → row ∈ (sweep condition database number mailbox).mailbox.rows := by
  have one {table : Mailbox} {chosen : List CredentialDeliveryRow}
      (batch : Batch (table.selected condition) chosen)
      : (table.delete chosen).rows.Sublist table.rows
        ∧ ∀ row ∈ table.rows, condition row = false
          → row ∈ (table.delete chosen).rows := by
    refine ⟨List.filter_sublist, fun row inside fresh => (mem_delete_iff batch.known).mpr ?_⟩
    refine ⟨inside, fun picked => ?_⟩
    exact absurd (List.of_mem_filter (batch.1 picked)) (by simp [fresh])
  fun_induction sweep condition database number mailbox with
  | case1 => exact ⟨List.Sublist.refl _, fun _ inside _ => inside⟩
  | case2 number table chosen batch => exact one batch
  | case3 number table chosen batch => exact one batch
  | case4 number table chosen batch _ _ ih =>
      have first := one batch
      refine ⟨ih.1.trans first.1, fun row inside fresh => ?_⟩
      exact ih.2 row (first.2 row inside fresh) fresh

/-- A loop that ends with a batch that is not full leaves no selected row. -/
theorem sweep_drained (database : Database condition) (number : Nat) (mailbox : Mailbox)
    (drained : (sweep condition database number mailbox).drained = true)
    : (sweep condition database number mailbox).mailbox.selected condition = [] := by
  fun_induction sweep condition database number mailbox with
  | case1 => cases drained
  | case2 => cases drained
  | case3 number table chosen batch _ short => exact batch.selected_delete short
  | case4 number table chosen batch _ _ ih => exact ih drained

/-- Without errors every full batch takes one DELETE, and one more finds out that it was the
last, also where the selected rows are a multiple of the batch.
-/
theorem sweep_succeeds (database : Database condition)
    (fine : ∀ number table, (database number table).Succeeds) (number : Nat) (mailbox : Mailbox)
    : (sweep condition database number mailbox).drained = true
      ∧ (sweep condition database number mailbox).statements
        = number + (mailbox.selected condition).length / sweepBatch + 1 := by
  fun_induction sweep condition database number mailbox with
  | case1 number table failed =>
      have reply := fine number table
      rw [failed] at reply
      exact reply.elim
  | case2 number table chosen batch lost =>
      have reply := fine number table
      rw [lost] at reply
      cases reply
  | case3 number table chosen batch _ short =>
      have size := batch.2.2
      have few : (table.selected condition).length < sweepBatch := by omega
      exact ⟨rfl, by rw [Nat.div_eq_of_lt few]⟩
  | case4 number table chosen batch _ full ih =>
      refine ⟨ih.1, ih.2.trans ?_⟩
      have size := batch.2.2
      have taken := batch.length_delete
      simp only [sweepBatch] at full size ⊢
      omega

/-- A DELETE that is executed, in a cycle that is at it. -/
theorem step_executed {config : Config} {kind : Kind} {cutoff : Int} {s : State}
    (sweeping : s.phase = .sweeping kind)
    (found : cutoffAt s.now (asI32 (config.days kind)) = some cutoff)
    (batch : Batch (s.mailbox.selected (predicate cutoff kind)) chosen) (reported : Bool)
    : step config s (.delete (.executed chosen reported))
      = some { s with
          phase :=
            if reported = true ∧ sweepBatch ≤ chosen.length then .sweeping kind
            else afterSweep config kind
          mailbox := s.mailbox.delete chosen
          deleted := s.deleted ++ chosen.map (fun row => (row, s.now)) } := by
  have taken : Batch (s.mailbox.matching cutoff kind) chosen := by
    rw [Mailbox.matching_eq]
    exact batch
  simp only [step, sweeping, found, if_pos taken]

/-- The loop is what the sweeper does in a cycle while nobody else writes and `now()` stands. -/
theorem sweep_run {config : Config} {kind : Kind} {cutoff : Int}
    (database : Database (predicate cutoff kind)) (number : Nat) {s : State}
    (sweeping : s.phase = .sweeping kind)
    (found : cutoffAt s.now (asI32 (config.days kind)) = some cutoff)
    : ∃ (outcomes : List DeleteOutcome) (t : State),
        Machine.run (step config) s (outcomes.map Action.delete) = some t
        ∧ t.phase = afterSweep config kind
        ∧ t.mailbox = (sweep (predicate cutoff kind) database number s.mailbox).mailbox
        ∧ number + outcomes.length
          = (sweep (predicate cutoff kind) database number s.mailbox).statements := by
  generalize table : s.mailbox = mailbox
  fun_induction sweep (predicate cutoff kind) database number mailbox generalizing s with
  | case1 number mailbox =>
      refine ⟨[.failed], { s with phase := afterSweep config kind }, ?_, rfl, table, rfl⟩
      simp [Machine.run, step, sweeping]
  | case2 number mailbox chosen batch =>
      subst table
      refine ⟨[.executed chosen false], _,
        Machine.run_cons.mpr ⟨_, step_executed sweeping found batch false, rfl⟩, ?_⟩
      simp
  | case3 number mailbox chosen batch _ short =>
      subst table
      refine ⟨[.executed chosen true], _,
        Machine.run_cons.mpr ⟨_, step_executed sweeping found batch true, rfl⟩, ?_⟩
      simp [Nat.not_le.mpr short]
  | case4 number mailbox chosen batch _ full ih =>
      subst table
      have again := step_executed sweeping found batch true
      rw [if_pos ⟨rfl, Nat.not_lt.mp full⟩] at again
      let next : State :=
        { s with
          phase := .sweeping kind
          mailbox := s.mailbox.delete chosen
          deleted := s.deleted ++ chosen.map (fun row => (row, s.now)) }
      obtain ⟨outcomes, t, ran, ended, rows, count⟩ := @ih next rfl found rfl
      refine ⟨.executed chosen true :: outcomes, t, Machine.run_cons.mpr ⟨_, again, ran⟩,
        ended, rows, ?_⟩
      rw [← count, List.length_cons]
      omega

/-- With no other writer and a fixed predicate the loop ends, whichever rows each `LIMIT`
picks. Without errors it leaves exactly the rows that one unlimited DELETE would leave, and an
error leaves at least those.
-/
theorem sweep_eq_delete (condition : CredentialDeliveryRow → Bool)
    (database : Database condition) (mailbox : Mailbox)
    : let swept := sweep condition database 0 mailbox
      ((∀ number table, (database number table).Succeeds)
          → swept.mailbox.rows = mailbox.rows.filter (fun row => !condition row)
            ∧ swept.statements = (mailbox.selected condition).length / sweepBatch + 1)
        ∧ (swept.drained = true
          → swept.mailbox.rows = mailbox.rows.filter (fun row => !condition row))
        ∧ swept.mailbox.rows.Sublist mailbox.rows
        ∧ ∀ row ∈ mailbox.rows, condition row = false → row ∈ swept.mailbox.rows := by
  intro swept
  obtain ⟨fewer, kept⟩ := sweep_keeps database 0 mailbox
  have complete (drained : swept.drained = true)
      : swept.mailbox.rows = mailbox.rows.filter (fun row => !condition row) := by
    have none := List.filter_eq_nil_iff.mp (sweep_drained database 0 mailbox drained)
    have same : swept.mailbox.rows.filter (fun row => !condition row) = swept.mailbox.rows :=
      List.filter_eq_self.mpr (fun row inside => by simpa using none row inside)
    have within := fewer.filter (fun row => !condition row)
    rw [same] at within
    refine within.eq_of_length_le ((mailbox.nodup.filter _).length_le_of_subset ?_)
    intro row left
    obtain ⟨inside, fresh⟩ := List.mem_filter.mp left
    exact kept row inside (by simpa using fresh)
  refine ⟨?_, complete, fewer, kept⟩
  intro fine
  obtain ⟨drained, statements⟩ := sweep_succeeds database fine 0 mailbox
  exact ⟨complete drained, by rw [statements, Nat.zero_add]⟩

/-- A database whose `LIMIT` takes the first rows. -/
def firstRows (condition : CredentialDeliveryRow → Bool) : Database condition :=
  fun _ mailbox =>
    .executed ((mailbox.selected condition).take sweepBatch)
      ⟨List.take_subset _ _, (mailbox.nodup.filter _).sublist (List.take_sublist _ _),
        List.length_take⟩ true

/-- Two unclaimed deliveries, of which the first is old. -/
def twoDeliveries : Mailbox :=
  ⟨[sampleDelivery 0 none, { sampleDelivery 10 none with deliveryId := 2 }], by decide⟩

theorem sweep_eq_delete_unclaimed
    : (sweep (predicate 5 .unclaimed) (firstRows _) 0 twoDeliveries).mailbox.rows
        = [{ sampleDelivery 10 none with deliveryId := 2 }]
      ∧ (sweep (predicate 5 .unclaimed) (firstRows _) 0 twoDeliveries).statements = 1 := by
  have fine : ∀ number table, (firstRows (predicate 5 .unclaimed) number table).Succeeds :=
    fun _ _ => rfl
  exact (sweep_eq_delete (predicate 5 .unclaimed) (firstRows _) twoDeliveries).1 fine

end Attesta.Api.Retention
