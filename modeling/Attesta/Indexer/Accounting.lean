import Attesta.Indexer.Recount

/-! What ingestion counts more than once. Leaves and nullifiers have keys, so repeating their
inserts is harmless; notes and totals have none. A pass that goes back over an event whose
note or amount has already been stored stores it again, and nothing undoes that later.
-/

namespace Attesta.Indexer.Sync

open Checkpoint KeyedRows

variable {codec : Codec} {contractId : String}

/-- The pass after a stored page: there is nothing left to fetch. -/
def finishPass : List Action :=
  [.persist .ok, .respond 2 ⟨[], some (sampleRpc.cursorAt 2), 42⟩, .persist .ok]

/-- Before the cursor of its page is saved the process is stopped and started again. -/
def replayPage : List Action :=
  storePage
  ++ [.crash, .start true, .respond 0 ⟨sampleHistory 0, some (sampleRpc.cursorAt 2), 42⟩,
    .statement .ok, .statement .ok, .nextEvent, .statement .ok, .nextEvent]

theorem finishPass_finished
    : ∃ s,
        Machine.run (step (sampleCodec 1) "CPOOL") State.init (storePage ++ finishPass) = some s
        ∧ Machine.Along (step (sampleCodec 1) "CPOOL") (Documented sampleRpc "CPOOL") State.init
            (storePage ++ finishPass)
        ∧ rowPosition sampleRpc "CPOOL" s = s.chain.events.length
        ∧ s.chain.events = sampleHistory 0 := by
  have observed
      : (Machine.run (step (sampleCodec 1) "CPOOL") State.init
          (storePage ++ finishPass)).map
            (fun s => (rowPosition sampleRpc "CPOOL" s, s.chain.events))
        = some (2, sampleHistory 0) := by
    decide +kernel
  have documented
      : Machine.Along (step (sampleCodec 1) "CPOOL") (Documented sampleRpc "CPOOL") State.init
          (storePage ++ finishPass) := by
    decide +kernel
  obtain ⟨s, ran, shape⟩ := Option.map_eq_some_iff.mp observed
  obtain ⟨position, events⟩ := Prod.mk.inj shape
  exact ⟨s, ran, documented, by rw [position, events]; rfl, events⟩

theorem replayPage_finished
    : ∃ s,
        Machine.run (step (sampleCodec 1) "CPOOL") State.init (replayPage ++ finishPass)
          = some s
        ∧ Machine.Along (step (sampleCodec 1) "CPOOL") (Documented sampleRpc "CPOOL") State.init
            (replayPage ++ finishPass)
        ∧ rowPosition sampleRpc "CPOOL" s = s.chain.events.length
        ∧ s.chain.events = sampleHistory 0
        ∧ s.db.encryptedNotes.map EncryptedNoteRow.id = [1, 2]
        ∧ poolTotals s.db "CPOOL" = (200, 0) := by
  have observed
      : (Machine.run (step (sampleCodec 1) "CPOOL") State.init
          (replayPage ++ finishPass)).map
            (fun s => (rowPosition sampleRpc "CPOOL" s, s.chain.events,
              s.db.encryptedNotes.map EncryptedNoteRow.id, poolTotals s.db "CPOOL"))
        = some (2, sampleHistory 0, [1, 2], (200, 0)) := by
    decide +kernel
  have documented
      : Machine.Along (step (sampleCodec 1) "CPOOL") (Documented sampleRpc "CPOOL") State.init
          (replayPage ++ finishPass) := by
    decide +kernel
  obtain ⟨s, ran, shape⟩ := Option.map_eq_some_iff.mp observed
  simp only [Prod.mk.injEq] at shape
  obtain ⟨position, events, ids, stored⟩ := shape
  exact ⟨s, ran, documented, by rw [position, events]; rfl, events, ids, stored⟩

-----------------------------------------------------------------------------------------
-- Notes
-----------------------------------------------------------------------------------------

/-- The insert a `note` event of the history asks for. -/
def noteOf (codec : Codec) (contractId : String) (raw : RawEvent) : Option Statement :=
  match codec.decode raw with
  | some (.encryptedNote commitment ephemeralPubkey ciphertext) =>
      some (.insertNote contractId commitment.bytes ephemeralPubkey ciphertext
        (asI64 raw.ledger) raw.txHash)
  | _ => none

theorem watchedOf_isNote (codec : Codec) (contractId : String)
    : watchedOf codec contractId Statement.isNote = noteOf codec contractId := by
  funext raw
  simp only [watchedOf, storeRaw, noteOf]
  cases codec.decode raw with
  | none => rfl
  | some event =>
      cases event with
      | newCommitment commitment leafIndex depositAmount asset =>
          simp only [storeEvent]
          split <;> simp [Statement.isNote]
      | nullifierSpent | encryptedNote | withdrawal | issuerUpdated =>
          simp [storeEvent, Statement.isNote]

/-- Every applied insert of a note is a row of its own. -/
theorem run_notes {s : State} {actions : List Action}
    (ran : Machine.run (step codec contractId) State.init actions = some s)
    : s.db.encryptedNotes.map insertionOf
      = (watched Statement.isNote s.log).map Prod.snd := by
  refine run_db_log
    (fun db log =>
      db.encryptedNotes.map insertionOf
        = (watched Statement.isNote log).map Prod.snd)
    ?_ (fun _ _ _ _ same => same) (fun _ _ _ same => same) rfl ran
  intro db next log position st same result
  rw [Statement.exec_encryptedNotes result, same]
  by_cases hit : st.isNote = true
  · simp [watched, hit]
  · simp [watched, hit]

/-- At the end of the history there is one row for each `note` event exactly if no step of the
run has sent the indexer back over a stored note.
-/
theorem notes_relayed_once_iff (rpc : Rpc) (codec : Codec) (contractId : String)
    {actions : List Action} {s : State}
    (documented
      : Machine.Along (step codec contractId) (Documented rpc contractId) State.init actions)
    (ran : Machine.run (step codec contractId) State.init actions = some s)
    (finished : rowPosition rpc contractId s = s.chain.events.length)
    : (s.db.encryptedNotes.map insertionOf).Perm
        (s.chain.events.filterMap (noteOf codec contractId))
      ↔ Machine.Along (step codec contractId)
          (fun s action => ¬ Recounts rpc contractId Statement.isNote s action)
          State.init actions := by
  have safe := run_safe documented ran
  have single : Single codec contractId Statement.isNote :=
    single_of_leaf codec contractId fun _ => rfl
  rw [run_notes ran, ← watchedOf_isNote, ← finished_iff single documented ran finished]
  exact (nodup_iff_perm (watched_complete _ safe finished) (watched_sound single safe)).symm

theorem notes_relayed_once_page
    : ∃ s,
        Machine.run (step (sampleCodec 1) "CPOOL") State.init (storePage ++ finishPass) = some s
        ∧ (s.db.encryptedNotes.map insertionOf).Perm
            ((sampleHistory 0).filterMap (noteOf (sampleCodec 1) "CPOOL")) := by
  obtain ⟨s, ran, documented, finished, events⟩ := finishPass_finished
  have quiet
      : Machine.Along (step (sampleCodec 1) "CPOOL")
          (fun s action => ¬ Recounts sampleRpc "CPOOL" Statement.isNote s action) State.init
          (storePage ++ finishPass) := by
    decide +kernel
  have equivalence :=
    notes_relayed_once_iff sampleRpc (sampleCodec 1) "CPOOL" documented ran finished
  exact ⟨s, ran, events ▸ equivalence.mpr quiet⟩

/-- One `note` event ends up under two ids. -/
theorem note_twice_after_crash
    : ∃ s,
        Machine.Along (step (sampleCodec 1) "CPOOL") (Documented sampleRpc "CPOOL") State.init
          (replayPage ++ finishPass)
        ∧ Machine.run (step (sampleCodec 1) "CPOOL") State.init (replayPage ++ finishPass)
          = some s
        ∧ rowPosition sampleRpc "CPOOL" s = s.chain.events.length
        ∧ (s.chain.events.filterMap (noteOf (sampleCodec 1) "CPOOL")).length = 1
        ∧ s.db.encryptedNotes.map EncryptedNoteRow.id = [1, 2]
        ∧ ¬ (s.db.encryptedNotes.map insertionOf).Perm
            (s.chain.events.filterMap (noteOf (sampleCodec 1) "CPOOL")) := by
  obtain ⟨s, ran, documented, finished, events, ids, _⟩ := replayPage_finished
  have one : ((sampleHistory 0).filterMap (noteOf (sampleCodec 1) "CPOOL")).length = 1 := by
    decide +kernel
  refine ⟨s, documented, ran, finished, events ▸ one, ids, ?_⟩
  intro perm
  have rows : s.db.encryptedNotes.length = 2 := by
    simpa using congrArg List.length ids
  have lengths := perm.length_eq
  rw [List.length_map, events, one, rows] at lengths
  cases lengths

-----------------------------------------------------------------------------------------
-- Totals
-----------------------------------------------------------------------------------------

/-- The public amount an event brings into the pool. -/
def deposited (codec : Codec) (raw : RawEvent) : Int :=
  match codec.decode raw with
  | some (.newCommitment _ _ (some amount) _) => amount
  | _ => 0

/-- The public amount an event takes out of the pool. -/
def withdrawn (codec : Codec) (raw : RawEvent) : Int :=
  match codec.decode raw with
  | some (.withdrawal amount _) => amount
  | _ => 0

/-- Every event counted once. -/
def historyTotals (codec : Codec) (events : List RawEvent) : Int × Int :=
  ((events.map (deposited codec)).sum, (events.map (withdrawn codec)).sum)

/-- The amount of the event, if it has one, is in the given asset. -/
def PaidIn (codec : Codec) (asset : String) (raw : RawEvent) : Prop :=
  match codec.decode raw with
  | some (.newCommitment _ _ (some _) paid) => paid = some asset
  | some (.withdrawal _ paid) => paid = asset
  | _ => True

def SingleAsset (codec : Codec) (asset : String) (events : List RawEvent) : Prop :=
  ∀ raw ∈ events, PaidIn codec asset raw

instance (codec : Codec) (asset : String) (raw : RawEvent)
    : Decidable (PaidIn codec asset raw) := by
  unfold PaidIn
  split <;> infer_instance

instance (codec : Codec) (asset : String) (events : List RawEvent)
    : Decidable (SingleAsset codec asset events) :=
  inferInstanceAs (Decidable (∀ raw ∈ events, PaidIn codec asset raw))

theorem run_totals {s : State} {actions : List Action}
    (ran : Machine.run (step codec contractId) State.init actions = some s)
    : poolTotals s.db contractId
      = (s.log.map (fun entry => entry.2.movement contractId)).sum := by
  refine run_db_log
    (fun db log =>
      poolTotals db contractId = (log.map (fun entry => entry.2.movement contractId)).sum)
    ?_ (fun _ _ _ _ same => same) (fun _ _ _ same => same) rfl ran
  intro db next log position st same result
  rw [Statement.exec_poolTotals contractId result, same]
  simp

/-- Statements that move nothing do not count. -/
theorem sum_watched (pool : String) (log : List (Nat × Statement))
    : (((watched Statement.isMovement log).map Prod.snd).map (Statement.movement pool)).sum
      = (log.map (fun entry => entry.2.movement pool)).sum := by
  induction log with
  | nil => rfl
  | cons entry rest ih =>
      simp only [watched, List.map_map] at ih ⊢
      cases moves : entry.2.isMovement with
      | true => simpa [moves] using ih
      | false => simpa [moves, Statement.movement_eq_zero moves] using ih

theorem movement_find (pool asset : String) (inflow outflow : Int)
    : ([Statement.addPoolTotal pool asset inflow outflow].find? Statement.isMovement).elim 0
        (Statement.movement pool)
      = (inflow, outflow) := by
  cases moves : (Statement.addPoolTotal pool asset inflow outflow).isMovement with
  | true => simp [moves, Statement.movement]
  | false =>
      have still := Statement.movement_eq_zero moves pool
      simpa [moves, Statement.movement, eq_comm] using still

/-- What the one movement of an event adds is what the event pays. -/
theorem movement_watchedOf (contractId : String) {asset : String} {raw : RawEvent}
    (paid : PaidIn codec asset raw)
    : ((watchedOf codec contractId Statement.isMovement raw).elim 0
        (Statement.movement contractId))
      = (deposited codec raw, withdrawn codec raw) := by
  simp only [watchedOf, storeRaw, deposited, withdrawn]
  unfold PaidIn at paid
  cases decoded : codec.decode raw with
  | none => rfl
  | some event =>
      rw [decoded] at paid
      cases event with
      | newCommitment commitment leafIndex depositAmount asset =>
          cases depositAmount with
          | none => rfl
          | some amount =>
              obtain rfl := paid
              exact movement_find contractId _ amount 0
      | withdrawal amount asset => exact movement_find contractId asset 0 amount
      | nullifierSpent | encryptedNote | issuerUpdated => rfl

/-- The sum of both totals, for sums of movements. -/
theorem sum_weight (pool : String) (statements : List Statement)
    : (statements.map (fun st => (st.movement pool).1 + (st.movement pool).2)).sum
      = (statements.map (Statement.movement pool)).sum.1
        + (statements.map (Statement.movement pool)).sum.2 := by
  induction statements with
  | nil => rfl
  | cons st rest ih =>
      simp only [List.map_cons, List.sum_cons, Prod.fst_add, Prod.snd_add, ih]
      omega

/-- With nonnegative amounts every movement of the history weighs something. -/
theorem weight_pos {asset : String} {raw : RawEvent} {st : Statement}
    (paid : PaidIn codec asset raw)
    (nonneg : 0 ≤ deposited codec raw ∧ 0 ≤ withdrawn codec raw)
    (asked : watchedOf codec contractId Statement.isMovement raw = some st)
    : 0 < (st.movement contractId).1 + (st.movement contractId).2 := by
  have amounts := movement_watchedOf contractId paid
  rw [asked, Option.elim_some] at amounts
  have issued := List.mem_of_find?_eq_some asked
  have moves := List.find?_some asked
  cases st with
  | addPoolTotal pool paid inflow outflow =>
      obtain rfl := addPoolTotal_mem_storeRaw issued
      simp only [Statement.movement, if_true, Prod.mk.injEq] at amounts ⊢
      simp only [Statement.isMovement, decide_eq_true_eq] at moves
      omega
  | insertCommitment | insertNullifier | insertNote | upsertIssuer => cases moves

theorem historyTotals_eq (contractId : String) {asset : String} {events : List RawEvent}
    (single : SingleAsset codec asset events)
    : ((events.filterMap (watchedOf codec contractId Statement.isMovement)).map
        (Statement.movement contractId)).sum
      = historyTotals codec events := by
  induction events with
  | nil => rfl
  | cons raw rest ih =>
      have later := ih (fun raw member => single raw (List.mem_cons_of_mem _ member))
      have here := movement_watchedOf contractId (single raw (by simp))
      have total : historyTotals codec (raw :: rest)
          = (deposited codec raw, withdrawn codec raw) + historyTotals codec rest := by
        simp [historyTotals]
      rw [total, ← here, ← later, List.filterMap_cons]
      cases watchedOf codec contractId Statement.isMovement raw <;> simp

/-- At the end of the history the totals are exact if no step of the run has sent the indexer
back over an amount. Unless negative amounts hide it, the converse holds as well.
-/
theorem totals_exact (rpc : Rpc) (codec : Codec) (contractId asset : String)
    {actions : List Action} {s : State}
    (documented
      : Machine.Along (step codec contractId) (Documented rpc contractId) State.init actions)
    (ran : Machine.run (step codec contractId) State.init actions = some s)
    (single : SingleAsset codec asset s.chain.events)
    (finished : rowPosition rpc contractId s = s.chain.events.length)
    : (Machine.Along (step codec contractId)
          (fun s action => ¬ Recounts rpc contractId Statement.isMovement s action)
          State.init actions
        → poolTotals s.db contractId = historyTotals codec s.chain.events)
      ∧ ((∀ raw ∈ s.chain.events, 0 ≤ deposited codec raw ∧ 0 ≤ withdrawn codec raw)
        → poolTotals s.db contractId = historyTotals codec s.chain.events
        → Machine.Along (step codec contractId)
            (fun s action => ¬ Recounts rpc contractId Statement.isMovement s action)
            State.init actions) := by
  have safe := run_safe documented ran
  have once : Single codec contractId Statement.isMovement :=
    single_of_leaf codec contractId fun _ => rfl
  have complete := watched_complete Statement.isMovement safe finished
  have sound := watched_sound once safe
  have stored := (run_totals ran).trans (sum_watched contractId s.log).symm
  rw [stored, ← historyTotals_eq contractId single,
    ← finished_iff once documented ran finished]
  constructor
  · intro distinct
    have perm := (nodup_iff_perm complete sound).mp distinct
    exact (perm.map (Statement.movement contractId)).sum_eq
  · intro nonneg same
    refine nodup_of_sum_eq
      (fun st => (st.movement contractId).1 + (st.movement contractId).2) complete ?_ ?_
    · intro entry member
      obtain ⟨raw, found, asked⟩ := mem_due.mp (sound member)
      have inside := List.mem_of_getElem? found
      exact weight_pos (single raw inside) (nonneg raw inside) asked
    · rw [sum_weight, sum_weight, same]

theorem sampleHistory_single : SingleAsset (sampleCodec 1) "USDC" (sampleHistory 0) := by
  decide +kernel

theorem totals_exact_page
    : ∃ s,
        Machine.run (step (sampleCodec 1) "CPOOL") State.init (storePage ++ finishPass) = some s
        ∧ poolTotals s.db "CPOOL" = historyTotals (sampleCodec 1) (sampleHistory 0) := by
  obtain ⟨s, ran, documented, finished, events⟩ := finishPass_finished
  have quiet
      : Machine.Along (step (sampleCodec 1) "CPOOL")
          (fun s action => ¬ Recounts sampleRpc "CPOOL" Statement.isMovement s action)
          State.init (storePage ++ finishPass) := by
    decide +kernel
  obtain ⟨forward, _⟩ := totals_exact sampleRpc (sampleCodec 1) "CPOOL" "USDC" documented ran
    (events ▸ sampleHistory_single) finished
  exact ⟨s, ran, events ▸ forward quiet⟩

/-- One deposit of 100 is counted as 200. -/
theorem totals_double_after_crash
    : ∃ s,
        Machine.Along (step (sampleCodec 1) "CPOOL") (Documented sampleRpc "CPOOL") State.init
          (replayPage ++ finishPass)
        ∧ Machine.run (step (sampleCodec 1) "CPOOL") State.init (replayPage ++ finishPass)
          = some s
        ∧ SingleAsset (sampleCodec 1) "USDC" s.chain.events
        ∧ rowPosition sampleRpc "CPOOL" s = s.chain.events.length
        ∧ historyTotals (sampleCodec 1) s.chain.events = (100, 0)
        ∧ poolTotals s.db "CPOOL" = (200, 0) := by
  obtain ⟨s, ran, documented, finished, events, _, stored⟩ := replayPage_finished
  have once : historyTotals (sampleCodec 1) (sampleHistory 0) = (100, 0) := by
    decide +kernel
  exact ⟨s, documented, ran, events ▸ sampleHistory_single, finished, events ▸ once, stored⟩

end Attesta.Indexer.Sync
