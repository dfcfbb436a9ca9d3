import Attesta.Foundation.Checkpoint
import Attesta.Indexer.SyncSafety

/-! When ingestion repeats a statement. A pass starts over at the stored position, whatever its
predecessor has stored after it. For any choice of statements to watch, of which an event
issues at most one, this says exactly which steps make the indexer repeat one of them.
-/

namespace Attesta.Indexer.Sync

open Checkpoint

variable {codec : Codec} {contractId : String}

/-- The first watched statement `store_event` issues for an event. -/
def watchedOf (codec : Codec) (contractId : String) (watch : Statement → Bool) (raw : RawEvent)
    : Option Statement :=
  (storeRaw codec contractId raw).find? watch

/-- Every event issues at most one watched statement. -/
def Single (codec : Codec) (contractId : String) (watch : Statement → Bool) : Prop :=
  ∀ raw, ((storeRaw codec contractId raw).filter watch).length ≤ 1

/-- The watched statements applied so far. -/
def watched (watch : Statement → Bool) (log : List (Nat × Statement))
    : List (Nat × Statement) :=
  log.filter (fun entry => watch entry.2)

/-- A watched statement of an event at or after the position has been applied. -/
def Exposed (watch : Statement → Bool) (log : List (Nat × Statement)) (position : Nat) : Prop :=
  ∃ entry ∈ log, watch entry.2 = true ∧ position ≤ entry.1

/-- For a step that ends the pass, or moves the stored position of an idle indexer: the log it
leaves behind and the position the next pass starts from.
-/
def cutOff (rpc : Rpc) (contractId : String) (s : State)
    : Action → Option (List (Nat × Statement) × Nat)
  | .rpcError | .crash | .persist (.failed false) =>
      some (s.log, rowPosition rpc contractId s)
  | .statement outcome =>
      match s.phase with
      | .storing _ _ position (st :: _) _ _ =>
          match outcome, st.exec s.db with
          | .ok, .ok _ => none
          | .failed true, .ok _ =>
              some (s.log ++ [(position, st)], rowPosition rpc contractId s)
          | _, _ => some (s.log, rowPosition rpc contractId s)
      | _ => none
  | .resetCursor lastLedger cursor =>
      match s.phase with
      | .idle => some (s.log, rpc.resume s.chain lastLedger cursor)
      | _ => none
  | _ => none

/-- The step makes the next pass go over a watched statement once more. -/
def Recounts (rpc : Rpc) (contractId : String) (watch : Statement → Bool) (s : State)
    (action : Action)
    : Prop :=
  ∃ cut ∈ cutOff rpc contractId s action, Exposed watch cut.1 cut.2

instance (watch : Statement → Bool) (log : List (Nat × Statement)) (position : Nat)
    : Decidable (Exposed watch log position) :=
  inferInstanceAs (Decidable (∃ entry ∈ log, _))

instance (rpc : Rpc) (contractId : String) (watch : Statement → Bool) (s : State)
    (action : Action)
    : Decidable (Recounts rpc contractId watch s action) :=
  inferInstanceAs (Decidable (∃ cut ∈ cutOff rpc contractId s action, _))

-----------------------------------------------------------------------------------------
-- Ingestion as a consumer with a checkpoint
-----------------------------------------------------------------------------------------

/-- The first event whose watched statement the running pass has yet to issue. -/
def frontier (rpc : Rpc) (contractId : String) (watch : Statement → Bool) (s : State)
    : Phase → Nat
  | .idle => rowPosition rpc contractId s
  | .fetching lastLedger cursor | .persisting lastLedger cursor _ =>
      rpc.resume s.chain lastLedger cursor
  | .storing _ _ position todo _ _ => if todo.any watch then position else position + 1

def consumer (rpc : Rpc) (contractId : String) (watch : Statement → Bool) (s : State)
    : Consumer :=
  ⟨(watched watch s.log).map Prod.fst, frontier rpc contractId watch s s.phase⟩

variable {rpc : Rpc} {watch : Statement → Bool}

theorem mem_positions {log : List (Nat × Statement)} {i : Nat}
    : i ∈ (watched watch log).map Prod.fst ↔ ∃ st, (i, st) ∈ log ∧ watch st = true := by
  simp [watched]

theorem exposed_iff {log : List (Nat × Statement)} {position : Nat}
    : Exposed watch log position
      ↔ ∃ i ∈ (watched watch log).map Prod.fst, position ≤ i := by
  simp only [Exposed, mem_positions]
  constructor
  · intro h
    obtain ⟨⟨i, st⟩, member, hit, after⟩ := h
    exact ⟨i, ⟨st, member, hit⟩, after⟩
  · intro h
    obtain ⟨i, ⟨st, member, hit⟩, after⟩ := h
    exact ⟨(i, st), member, hit, after⟩

theorem Single.item (single : Single codec contractId watch) {raw : RawEvent} {st : Statement}
    (issued : st ∈ storeRaw codec contractId raw) (hit : watch st = true)
    : watchedOf codec contractId watch raw = some st := by
  have member : st ∈ (storeRaw codec contractId raw).filter watch :=
    List.mem_filter.mpr ⟨issued, hit⟩
  have bound := single raw
  unfold watchedOf
  rw [← List.head?_filter]
  match found : (storeRaw codec contractId raw).filter watch with
  | [] => rw [found] at member; cases member
  | [only] => rw [found] at member; rw [List.mem_singleton.mp member]; rfl
  | _ :: _ :: _ => rw [found] at bound; simp at bound

/-- Only a deposit issues two statements, and the first of them inserts the leaf. -/
theorem single_of_leaf (codec : Codec) (contractId : String)
    (leaf : ∀ row, watch (.insertCommitment row) = false)
    : Single codec contractId watch := by
  intro raw
  unfold storeRaw
  split
  next event _ =>
    cases event with
    | newCommitment commitment leafIndex depositAmount asset =>
        simp only [storeEvent, List.filter_cons, leaf, Bool.false_eq_true, if_false]
        split
        · exact List.length_filter_le _ _
        · exact Nat.zero_le _
    | nullifierSpent | encryptedNote | withdrawal | issuerUpdated =>
        exact List.length_filter_le _ _
  next => exact Nat.zero_le _

/-- After the watched statement of an event nothing watched is left to do for it. -/
theorem Single.last (single : Single codec contractId watch) {raw : RawEvent} {st : Statement}
    {todo : List Statement} (suffix : st :: todo <:+ storeRaw codec contractId raw)
    (hit : watch st = true)
    : todo.any watch = false := by
  have bound := (suffix.sublist.filter watch).length_le.trans (single raw)
  rw [List.filter_cons_of_pos hit, List.length_cons] at bound
  have none : todo.filter watch = [] := List.eq_nil_of_length_eq_zero (by omega)
  rw [List.any_eq_false]
  exact List.filter_eq_nil_iff.mp none

/-- The pass never works on anything before the stored position. -/
theorem Safe.behind {s : State} (h : Safe rpc codec contractId s)
    : rowPosition rpc contractId s ≤ frontier rpc contractId watch s s.phase := by
  have memory := h.memory
  match phase : s.phase with
  | .idle => exact le_rfl
  | .fetching _ _ => rw [phase] at memory; exact memory.2
  | .persisting _ _ _ => rw [phase] at memory; exact memory.2
  | .storing _ _ position todo _ _ =>
      rw [phase] at memory
      have ahead : rowPosition rpc contractId s ≤ position := memory.ahead
      simp only [frontier]
      split
      · exact ahead
      · exact ahead.trans (Nat.le_succ _)

theorem rowPosition_applied {s : State} {st : Statement} {db : Db} (result : st.exec s.db = .ok db)
    {position : Nat} {phase : Phase}
    : rowPosition rpc contractId { s.applied db position st with phase }
      = rowPosition rpc contractId s := by
  simp only [rowPosition, State.applied, loadCursor_exec contractId result]

/-- The end of a pass is a restart from the stored position. -/
theorem once_interrupted_iff (watch : Statement → Bool) {s : State}
    (h : Safe rpc codec contractId s)
    : (consumer rpc contractId watch s.interrupted).Once
      ↔ (consumer rpc contractId watch s).Once
        ∧ ¬ Exposed watch s.log (rowPosition rpc contractId s) := by
  rw [exposed_iff]
  exact once_restart_iff h.behind

/-- The head of the event loop: an event without a watched statement is passed at once. -/
theorem once_forEvents_iff {s : State} (h : Safe rpc codec contractId s) {lastLedger : Int}
    {page : EventsPage} {position : Nat} {raws : List RawEvent}
    (events : raws <+: s.chain.events.drop position)
    (after
      : raws = []
        → frontier rpc contractId watch s (afterEvents lastLedger page) = position)
    : Consumer.Once ⟨(watched watch s.log).map Prod.fst,
          frontier rpc contractId watch s
            (forEvents codec contractId lastLedger page position raws)⟩
      ↔ Consumer.Once ⟨(watched watch s.log).map Prod.fst, position⟩ := by
  cases raws with
  | nil => rw [forEvents, after rfl]
  | cons raw rest =>
      simp only [forEvents, frontier]
      split
      next => rfl
      next quiet =>
        refine once_skip_iff (Nat.le_succ position) ?_
        intro i member
        obtain ⟨st, logged, hit⟩ := mem_positions.mp member
        rcases Nat.lt_trichotomy i position with before | rfl | later
        · exact Or.inl before
        · obtain ⟨other, found, issued⟩ := h.logged _ logged
          obtain rfl := Option.some.inj ((event_of_block events).symm.trans found)
          exact absurd (List.any_eq_true.mpr ⟨st, issued, hit⟩) quiet
        · exact Or.inr later

/-- Applying a statement moves the frontier past its event if the statement is watched. -/
theorem once_applied_iff (rpc : Rpc) (single : Single codec contractId watch) {s : State}
    (db : Db) {lastLedger : Int} {page : EventsPage} {position : Nat} {st : Statement}
    {todo : List Statement} {raw : RawEvent} {rest : List RawEvent}
    (phase : s.phase = .storing lastLedger page position (st :: todo) raw rest)
    (suffix : st :: todo <:+ storeRaw codec contractId raw)
    : (consumer rpc contractId watch
          { s.applied db position st with
            phase := .storing lastLedger page position todo raw rest }).Once
      ↔ (consumer rpc contractId watch s).Once := by
  simp only [consumer, State.applied, phase, frontier, watched, List.filter_append,
    List.map_append, List.any_cons]
  by_cases hit : watch st = true
  · have last := single.last suffix hit
    simpa [hit, last] using once_apply_iff
  · simp [hit]

/-- A step keeps the consumer from doing anything twice exactly if it does not recount. -/
theorem step_once_iff (single : Single codec contractId watch) {s t : State} {action : Action}
    (documented : Documented rpc contractId s action) (h : Safe rpc codec contractId s)
    (stepped : step codec contractId s action = some t)
    : (consumer rpc contractId watch t).Once
      ↔ (consumer rpc contractId watch s).Once ∧ ¬ Recounts rpc contractId watch s action := by
  have memory := h.memory
  cases step_effect stepped with
  | grow events head =>
      obtain ⟨above, later⟩ := documented
      have chain : s.chain.Continues ⟨s.chain.events ++ events, head⟩ :=
        ⟨events, rfl, above, fun raw member => (later raw member).1⟩
      have same : frontier rpc contractId watch
            { s with chain := ⟨s.chain.events ++ events, head⟩ } s.phase
          = frontier rpc contractId watch s s.phase := by
        cases phase : s.phase with
        | idle => exact chain.resume rpc h.row.closed _
        | fetching | persisting =>
            rw [phase] at memory
            exact chain.resume rpc memory.1.closed _
        | storing => rfl
      simp [consumer, same, Recounts, cutOff]
  | notStarted => simp [Recounts, cutOff]
  | started idle row => simp [consumer, frontier, idle, rowPosition, row, Recounts, cutOff]
  | @responded lastLedger cursor start position page phase asked =>
      rw [phase] at memory
      obtain ⟨reached, ahead⟩ := memory
      have answers := reached.answers phase documented
      have exhausted := reached.exhausted answers
      obtain ⟨rfl, block, _⟩ := answers
      rw [and_iff_left (by simp [Recounts, cutOff])]
      rw [consumer, consumer, phase]
      refine once_forEvents_iff h block ?_
      intro empty
      obtain ⟨done, raised⟩ := exhausted empty
      simp only [afterEvents, frontier, empty, List.isEmpty_nil, if_true]
      exact raised.trans done.symm
  | @overflowed lastLedger cursor position page phase overflow =>
      rw [phase] at memory
      rw [startLedger_eq memory.1.nonneg memory.1.fits] at overflow
      cases overflow
  | rpcError | crash | notPersisted =>
      simpa [Recounts, cutOff] using once_interrupted_iff watch h
  | @executed lastLedger page position st todo raw rest db phase result =>
      rw [phase] at memory
      have same := once_applied_iff rpc single db phase memory.suffix
      simpa [Recounts, cutOff, phase, result] using same
  | @lost lastLedger page position st todo raw rest db phase result =>
      rw [phase] at memory
      have same := once_applied_iff rpc single db phase memory.suffix
      have cut := once_interrupted_iff watch (h.applied memory result)
      rw [same, rowPosition_applied result] at cut
      simp only [Recounts, cutOff, phase, result, Option.mem_some_iff, exists_eq_left']
      exact cut
  | @notExecuted lastLedger page position st todo raw rest outcome phase failed =>
      have cut := once_interrupted_iff watch h
      rcases failed with rfl | ⟨e, refused⟩
      · simpa [Recounts, cutOff, phase] using cut
      · simpa [Recounts, cutOff, phase, refused] using cut
  | undone phase result =>
      change (consumer rpc contractId watch s.interrupted).Once ↔ _
      simpa [Recounts, cutOff, phase, result] using once_interrupted_iff watch h
  | @nextEvent lastLedger page position raw rest phase =>
      rw [phase] at memory
      have storing : Storing rpc codec contractId s lastLedger page position [] raw rest := memory
      rw [and_iff_left (by simp [Recounts, cutOff])]
      rw [consumer, consumer, phase]
      refine once_forEvents_iff h storing.following ?_
      intro last
      have more : page.events.isEmpty = false := by simpa using storing.nonempty
      have token := storing.cursor
      rw [last, List.length_nil, Nat.add_zero] at token
      simp only [afterEvents, frontier, more, token, Bool.false_eq_true, if_false,
        resume_cursorAt]
  | @persisted lastLedger cursor done phase =>
      cases done <;> simp [consumer, frontier, phase, rowPosition, Recounts, cutOff]
  | @persistLost lastLedger cursor done phase =>
      simp [consumer, frontier, phase, State.interrupted, rowPosition, Recounts, cutOff]
  | @resetCursor lastLedger cursor =>
      obtain ⟨_, _, _, back⟩ := documented
      cases phase : s.phase with
      | idle =>
          simp only [Recounts, cutOff, phase, Option.mem_some_iff, exists_eq_left', exposed_iff,
            consumer, frontier, rowPosition, loadCursor_saveCursor]
          exact once_restart_iff back
      | fetching | storing | persisting =>
          simp [Recounts, cutOff, phase, consumer, frontier]

/-- Over a whole run nothing watched is done twice exactly if no step recounts. -/
theorem run_once_iff (single : Single codec contractId watch) {s : State}
    {actions : List Action}
    (documented
      : Machine.Along (step codec contractId) (Documented rpc contractId) State.init actions)
    (ran : Machine.run (step codec contractId) State.init actions = some s)
    : (consumer rpc contractId watch s).Once
      ↔ Machine.Along (step codec contractId)
          (fun s action => ¬ Recounts rpc contractId watch s action) State.init actions := by
  have initially : (consumer rpc contractId watch State.init).Once := by
    simp [Consumer.Once, consumer, watched, State.init]
  have whole := Machine.along_iff (Documented rpc contractId)
    (fun s => (consumer rpc contractId watch s).Once) _
    (fun _ _ _ => step_safe) (fun _ _ _ => step_once_iff single) (init_safe rpc) documented ran
  rw [whole, and_iff_right initially]

theorem watched_complete (watch : Statement → Bool) {s : State} (h : Safe rpc codec contractId s)
    (finished : rowPosition rpc contractId s = s.chain.events.length)
    : due (watchedOf codec contractId watch) s.chain.events ⊆ watched watch s.log := by
  intro entry member
  obtain ⟨raw, found, asked⟩ := mem_due.mp member
  have inside := (List.getElem?_eq_some_iff.mp found).1
  have handled := h.row.handled entry.1 (inside.trans_eq finished.symm)
  have issued := List.mem_of_find?_eq_some asked
  exact List.mem_filter.mpr
    ⟨h.executed entry.1 handled raw found entry.2 issued, List.find?_some asked⟩

theorem watched_sound (single : Single codec contractId watch) {s : State}
    (h : Safe rpc codec contractId s)
    : watched watch s.log ⊆ due (watchedOf codec contractId watch) s.chain.events := by
  intro entry member
  obtain ⟨logged, hit⟩ := List.mem_filter.mp member
  obtain ⟨raw, found, issued⟩ := h.logged entry logged
  exact mem_due.mpr ⟨raw, found, single.item issued hit⟩

/-- Once the stored position is the end of the history, only repetitions can be wrong. -/
theorem finished_iff (single : Single codec contractId watch) {s : State}
    {actions : List Action}
    (documented
      : Machine.Along (step codec contractId) (Documented rpc contractId) State.init actions)
    (ran : Machine.run (step codec contractId) State.init actions = some s)
    (finished : rowPosition rpc contractId s = s.chain.events.length)
    : ((watched watch s.log).map Prod.fst).Nodup
      ↔ Machine.Along (step codec contractId)
          (fun s action => ¬ Recounts rpc contractId watch s action) State.init actions := by
  have safe := run_safe documented ran
  rw [← run_once_iff single documented ran]
  constructor
  · intro distinct
    refine ⟨distinct, fun i member => ?_⟩
    obtain ⟨st, logged, _⟩ := mem_positions.mp member
    obtain ⟨raw, found, _⟩ := safe.logged _ logged
    have inside := (List.getElem?_eq_some_iff.mp found).1
    exact inside.trans_le (finished ▸ safe.behind)
  · exact And.left

/-- As long as nothing is done twice, what is done next comes last in the history. -/
theorem step_increasing {s t : State} {action : Action}
    (once : (consumer rpc contractId watch s).Once)
    (increasing : (watched watch s.log).Pairwise (fun left right => left.1 < right.1))
    (stepped : step codec contractId s action = some t)
    : (watched watch t.log).Pairwise (fun left right => left.1 < right.1) := by
  have applied {lastLedger : Int} {page : EventsPage} {position : Nat} {st : Statement}
      {todo : List Statement} {raw : RawEvent} {rest : List RawEvent}
      (phase : s.phase = .storing lastLedger page position (st :: todo) raw rest)
      : (watched watch (s.log ++ [(position, st)])).Pairwise
          (fun left right => left.1 < right.1) := by
    rw [watched, List.filter_append]
    by_cases hit : watch st = true
    · rw [List.filter_cons_of_pos (by simpa using hit), List.filter_nil]
      refine List.pairwise_append.mpr ⟨increasing, List.pairwise_singleton _ _, ?_⟩
      intro entry member last listed
      obtain rfl := List.mem_singleton.mp listed
      have before := once.2 entry.1 (List.mem_map_of_mem member)
      simpa [consumer, phase, frontier, hit] using before
    · rw [List.filter_cons_of_neg (by simpa using hit), List.filter_nil, List.append_nil]
      exact increasing
  cases step_effect stepped with
  | executed phase result | lost phase result => exact applied phase
  | grow | notStarted | started | responded | overflowed | rpcError | notExecuted | undone
    | nextEvent | persisted | persistLost | notPersisted | crash | resetCursor => exact increasing

/-- Without repetitions a run has done what it was asked for, in the order of the history. -/
theorem watched_eq_due (single : Single codec contractId watch) {s : State}
    {actions : List Action}
    (documented
      : Machine.Along (step codec contractId) (Documented rpc contractId) State.init actions)
    (ran : Machine.run (step codec contractId) State.init actions = some s)
    (finished : rowPosition rpc contractId s = s.chain.events.length)
    (quiet
      : Machine.Along (step codec contractId)
          (fun s action => ¬ Recounts rpc contractId watch s action) State.init actions)
    : watched watch s.log = due (watchedOf codec contractId watch) s.chain.events := by
  have preserved (before : State) (action : Action) (after : State)
      (allowed
        : Documented rpc contractId before action
          ∧ ¬ Recounts rpc contractId watch before action)
      (inv
        : Safe rpc codec contractId before
          ∧ (consumer rpc contractId watch before).Once
          ∧ (watched watch before.log).Pairwise (fun left right => left.1 < right.1))
      (stepped : step codec contractId before action = some after)
      : Safe rpc codec contractId after
        ∧ (consumer rpc contractId watch after).Once
        ∧ (watched watch after.log).Pairwise (fun left right => left.1 < right.1) := by
    obtain ⟨safe, once, increasing⟩ := inv
    exact ⟨step_safe allowed.1 safe stepped,
      (step_once_iff single allowed.1 safe stepped).mpr ⟨once, allowed.2⟩,
      step_increasing once increasing stepped⟩
  have initially : (consumer rpc contractId watch State.init).Once := by
    simp [Consumer.Once, consumer, watched, State.init]
  obtain ⟨safe, _, increasing⟩ := Machine.invariant_along preserved
    ⟨init_safe rpc, initially, List.Pairwise.nil⟩ (Machine.along_and.mpr ⟨documented, quiet⟩) ran
  exact eq_due (watched_complete watch safe finished) (watched_sound single safe) increasing

/-- What a run has applied is what is in the log, as long as both grow together. -/
theorem run_db_log (inv : Db → List (Nat × Statement) → Prop)
    (applied
      : ∀ db next log position st, inv db log → st.exec db = .ok next
          → inv next (log ++ [(position, st)]))
    (saved
      : ∀ db log lastLedger cursor, inv db log
          → inv (saveCursor db contractId lastLedger cursor) log)
    (drawn : ∀ db log lastNoteId, inv db log → inv { db with lastNoteId := lastNoteId } log)
    {s t : State} {actions : List Action} (initially : inv s.db s.log)
    (ran : Machine.run (step codec contractId) s actions = some t)
    : inv t.db t.log := by
  have kept : ∀ s action t,
      inv s.db s.log → step codec contractId s action = some t → inv t.db t.log := by
    intro s action t h stepped
    cases step_effect stepped with
    | executed phase result | lost phase result => exact applied _ _ _ _ _ h result
    | persisted phase | persistLost phase => exact saved _ _ _ _ h
    | resetCursor lastLedger cursor => exact saved _ _ _ _ h
    | undone => exact drawn _ _ _ h
    | grow | notStarted | started | responded | overflowed | rpcError | notExecuted
    | nextEvent | notPersisted | crash => exact h
  exact Machine.invariant kept initially ran

end Attesta.Indexer.Sync
