import Attesta.Api.NoteStream
import Attesta.Indexer.Accounting
import Attesta.Indexer.Wedge

/-! What a rebuild of an emptied database does to the ids of the notes. They come from one
sequence for all contracts, so they depend on how the passes of the indexer have cut the
histories of the contracts; a rebuild ingests the whole history of one contract after the other.
-/

namespace Attesta.Indexer

/-- The ids are those the sequence gives to a table from which nothing is ever deleted. -/
structure Numbered (db : Db) : Prop where
  ids : ∀ (i : Nat) (row : EncryptedNoteRow), db.encryptedNotes[i]? = some row → row.id = i + 1
  last : db.lastNoteId = db.encryptedNotes.length

theorem Numbered.insert {db next : Db} {row : EncryptedNoteRow} (h : Numbered db)
    (id : row.id = db.lastNoteId + 1) (notes : next.encryptedNotes = db.encryptedNotes ++ [row])
    (last : next.lastNoteId = row.id)
    : Numbered next where
  ids i found member := by
    rw [notes] at member
    rcases Nat.lt_trichotomy i db.encryptedNotes.length with before | rfl | after
    · exact h.ids i found (by rwa [List.getElem?_append_left before] at member)
    · obtain rfl : row = found := by simpa using member
      rw [id, h.last]
    · rw [List.getElem?_eq_none (by simpa using Nat.succ_le_of_lt after)] at member
      cases member
  last := by
    rw [last, id, h.last, notes, List.length_append]
    rfl

/-- Two such tables are equal if they hold the same notes in the same order. -/
theorem Numbered.eq {left right : Db} (hl : Numbered left) (hr : Numbered right)
    (same : left.encryptedNotes.map insertionOf = right.encryptedNotes.map insertionOf)
    : left.encryptedNotes = right.encryptedNotes := by
  refine List.ext_getElem? fun i => ?_
  have here := congrArg (fun rows => rows[i]?) same
  simp only [List.getElem?_map] at here
  cases atLeft : left.encryptedNotes[i]? with
  | none => simpa [atLeft] using here.symm
  | some row =>
      cases atRight : right.encryptedNotes[i]? with
      | none => simp [atLeft, atRight] at here
      | some other =>
          have id : row.id = other.id := (hl.ids i row atLeft).trans (hr.ids i other atRight).symm
          simp only [atLeft, atRight, Option.map_some, Option.some.injEq, insertionOf,
            Statement.insertNote.injEq] at here
          cases row
          cases other
          simp_all

theorem Numbered.id_le_of_mem_take {db : Db} (h : Numbered db) {k : Nat} {row : EncryptedNoteRow}
    (member : row ∈ db.encryptedNotes.take k)
    : row.id ≤ (k : Int) := by
  obtain ⟨i, inside, rfl⟩ := List.mem_take_iff_getElem.mp member
  have id := h.ids i _ (List.getElem?_eq_getElem (by omega))
  omega

theorem Numbered.lt_id_of_mem_drop {db : Db} (h : Numbered db) {k : Nat} {row : EncryptedNoteRow}
    (member : row ∈ db.encryptedNotes.drop k)
    : (k : Int) < row.id := by
  obtain ⟨i, found⟩ := List.mem_iff_getElem?.mp member
  rw [List.getElem?_drop] at found
  have id := h.ids (k + i) row found
  omega

/-- As a cursor an id is a number of notes. -/
theorem Numbered.filter_le {db : Db} (h : Numbered db) (k : Nat)
    : db.encryptedNotes.filter (fun row => decide (row.id ≤ (k : Int)))
      = db.encryptedNotes.take k := by
  conv_lhs => rw [← List.take_append_drop k db.encryptedNotes]
  rw [List.filter_append, List.filter_eq_self.mpr, List.filter_eq_nil_iff.mpr, List.append_nil]
  · intro row member
    simpa using h.lt_id_of_mem_drop member
  · intro row member
    simpa using h.id_le_of_mem_take member

theorem Numbered.filter_lt {db : Db} (h : Numbered db) (k : Nat)
    : db.encryptedNotes.filter (fun row => decide ((k : Int) < row.id))
      = db.encryptedNotes.drop k := by
  conv_lhs => rw [← List.take_append_drop k db.encryptedNotes]
  rw [List.filter_append, List.filter_eq_nil_iff.mpr, List.filter_eq_self.mpr, List.nil_append]
  · intro row member
    simpa using h.lt_id_of_mem_drop member
  · intro row member
    simpa using h.id_le_of_mem_take member

/-- A note of the contract has been inserted, and nothing else happened to the table. -/
def Inserts (contractId : String) (db next : Db) : Prop :=
  ∃ row : EncryptedNoteRow,
    row.pool = contractId
    ∧ row.id = db.lastNoteId + 1
    ∧ next.encryptedNotes = db.encryptedNotes ++ [row]
    ∧ next.lastNoteId = row.id

/-- The table and its sequence are as they were. -/
def Keeps (db next : Db) : Prop :=
  next.encryptedNotes = db.encryptedNotes ∧ next.lastNoteId = db.lastNoteId

theorem exec_notes {contractId : String} {st : Statement} {db next : Db}
    (own : st.Of contractId) (h : st.exec db = .ok next)
    : if st.isNote then Inserts contractId db next else Keeps db next := by
  cases st <;> simp only [Statement.exec] at h
  case insertNote pool commitment ephemeralPubkey ciphertext ledger txHash =>
    obtain rfl := Except.ok.inj h
    exact ⟨⟨db.lastNoteId + 1, pool, commitment, ephemeralPubkey, ciphertext, ledger, txHash⟩, own,
      rfl, rfl, rfl⟩
  case addPoolTotal =>
    split at h
    · obtain rfl := Except.ok.inj h
      exact ⟨rfl, rfl⟩
    · cases h
  all_goals
    obtain rfl := Except.ok.inj h
    exact ⟨rfl, rfl⟩

end Attesta.Indexer

namespace Attesta.Indexer.Sync

variable {codec : Codec} {contractId : String} {rpc : Rpc}

/-- The step is none of the failures that end a pass, and nobody moves the cursor. -/
def Unfailing (s : State) : Action → Prop
  | .grow _ _ | .start true | .respond _ _ | .nextEvent | .persist .ok => True
  | .statement .ok => ∀ st ∈ s.phase.todo.head?, (st.exec s.db).isOk = true
  | .start false | .rpcError | .statement (.failed _) | .statement .undone | .persist (.failed _)
  | .persist .undone | .crash | .resetCursor _ _ => False

instance (s : State) : (action : Action) → Decidable (Unfailing s action)
  | .grow _ _ | .start true | .respond _ _ | .nextEvent | .persist .ok => isTrue trivial
  | .statement .ok =>
      inferInstanceAs (Decidable (∀ st ∈ s.phase.todo.head?, (st.exec s.db).isOk = true))
  | .start false | .rpcError | .statement (.failed _) | .statement .undone | .persist (.failed _)
  | .persist .undone | .crash | .resetCursor _ _ => isFalse id

theorem exec_of_isOk {st : Statement} {db : Db} (h : (st.exec db).isOk = true)
    : ∃ next, st.exec db = .ok next := by
  cases result : st.exec db with
  | ok next => exact ⟨next, rfl⟩
  | error e => simp [result, Except.isOk, Except.toBool] at h

/-- Without failures nothing is repeated. -/
theorem Unfailing.not_recounts {s : State} {action : Action} (h : Unfailing s action)
    (watch : Statement → Bool)
    : ¬ Recounts rpc contractId watch s action := by
  rintro ⟨cut, ends, _⟩
  cases action with
  | grow | respond | nextEvent => cases ends
  | start selected => cases ends
  | rpcError | crash | resetCursor => cases h
  | persist outcome =>
      cases outcome with
      | ok => cases ends
      | failed | undone => cases h
  | statement outcome =>
      cases outcome with
      | failed | undone => cases h
      | ok =>
          cases phase : s.phase with
          | idle | fetching | persisting => simp [cutOff, phase] at ends
          | storing lastLedger page position todo raw rest =>
              cases todo with
              | nil => simp [cutOff, phase] at ends
              | cons st todo =>
                  obtain ⟨next, result⟩ := exec_of_isOk (h st (by simp [phase, Phase.todo]))
                  simp [cutOff, phase, result] at ends

theorem Unfailing.of_alike {s t : State} {action : Action} (h : Unfailing s action)
    (owned : s.phase.Owned codec contractId) (alike : Alike contractId s t)
    : Unfailing t action := by
  cases action with
  | statement outcome =>
      cases outcome with
      | failed | undone => cases h
      | ok =>
          intro st next
          rw [← alike.phase] at next
          obtain ⟨db, result⟩ := exec_of_isOk (h st next)
          have own : st.Of contractId := by
            cases phase : s.phase with
            | idle | fetching | persisting => simp [phase, Phase.todo] at next
            | storing lastLedger page position todo raw rest =>
                rw [phase] at owned next
                exact storeRaw_of (owned.subset (List.mem_of_mem_head? next))
          obtain ⟨other, executed, _⟩ := (exec_of_part own alike.part).1 db result
          rw [executed]
          rfl
  | start selected => cases selected <;> exact h
  | persist outcome => cases outcome <;> exact h
  | grow | respond | rpcError | nextEvent | crash | resetCursor => exact h

/-- The whole history is behind the stored position. -/
def Drained (rpc : Rpc) (contractId : String) (s : State) : Prop :=
  rowPosition rpc contractId s = s.chain.events.length

/-- The last upsert of a call saves the end of the history. -/
def Exhausted (rpc : Rpc) (s : State) : Prop :=
  ∀ lastLedger cursor, s.phase = .persisting lastLedger cursor true
    → rpc.resume s.chain lastLedger cursor = s.chain.events.length

/-- The stored position never goes back. -/
theorem step_drained {s t : State} {action : Action} (safe : Safe rpc codec contractId s)
    (unfailing : Unfailing s action) (call : Run.ofCall action = true)
    (stepped : step codec contractId s action = some t) (drained : Drained rpc contractId s)
    : Drained rpc contractId t := by
  have memory := safe.memory
  cases step_effect stepped with
  | grow => cases call
  | rpcError | lost | undone | persistLost | notPersisted | crash | resetCursor => cases unfailing
  | notStarted | started | responded | overflowed | notExecuted | nextEvent => exact drained
  | executed phase result => exact (rowPosition_applied result).trans drained
  | @persisted lastLedger cursor done phase =>
      rw [phase] at memory
      obtain ⟨reached, ahead⟩ := memory
      refine (rowPosition_saved rpc s lastLedger cursor).trans ?_
      exact Nat.le_antisymm reached.within (drained.symm.le.trans ahead)

theorem step_exhausted {s t : State} {action : Action} (safe : Safe rpc codec contractId s)
    (documented : Documented rpc contractId s action) (call : Run.ofCall action = true)
    (stepped : step codec contractId s action = some t)
    : Exhausted rpc t := by
  have memory := safe.memory
  intro last token saving
  cases step_effect stepped with
  | grow | crash | resetCursor => cases call
  | notStarted idle => cases idle.symm.trans saving
  | started | overflowed | rpcError | executed | lost | notExecuted | undone | persistLost
    | notPersisted => cases saving
  | @responded lastLedger cursor start position page phase asked =>
      rw [phase] at memory
      obtain ⟨reached, _⟩ := memory
      have answers := reached.answers phase documented
      cases shape : page.events with
      | cons raw rest => simp [shape, forEvents] at saving
      | nil =>
          simp only [shape, forEvents, afterEvents, List.isEmpty_nil, if_true,
            Phase.persisting.injEq, and_true] at saving
          obtain ⟨rfl, rfl⟩ := saving
          exact (reached.exhausted answers shape).2
  | @nextEvent lastLedger page position raw rest phase =>
      rw [phase] at memory
      have storing : Storing rpc codec contractId s lastLedger page position [] raw rest := memory
      have more : page.events.isEmpty = false := by simpa using storing.nonempty
      cases rest <;> simp [forEvents, afterEvents, more] at saving
  | @persisted lastLedger cursor done phase =>
      cases done <;> cases saving

/-- A call that has returned without a failure has drained the history. -/
theorem step_returned {s t : State} {action : Action} (safe : Safe rpc codec contractId s)
    (exhausted : Exhausted rpc s) (unfailing : Unfailing s action)
    (call : Run.ofCall action = true) (stepped : step codec contractId s action = some t)
    (returned : t.phase = .idle)
    : Drained rpc contractId t := by
  have memory := safe.memory
  cases step_effect stepped with
  | grow => cases call
  | notStarted | rpcError | lost | undone | persistLost | notPersisted | crash | resetCursor =>
      cases unfailing
  | started | executed => cases returned
  | @responded lastLedger cursor start position page phase asked =>
      cases shape : page.events <;> simp [shape, forEvents, afterEvents] at returned
  | @nextEvent lastLedger page position raw rest phase =>
      cases rest <;> simp [forEvents, afterEvents] at returned
  | @overflowed lastLedger cursor position page phase overflow =>
      rw [phase] at memory
      rw [startLedger_eq memory.1.nonneg memory.1.fits] at overflow
      cases overflow
  | @notExecuted lastLedger page position st todo raw rest outcome phase failed =>
      rcases failed with rfl | ⟨e, refused⟩
      · cases unfailing
      · cases outcome with
        | failed | undone => cases unfailing
        | ok =>
            obtain ⟨next, result⟩ := exec_of_isOk (unfailing st (by simp [phase, Phase.todo]))
            cases refused.symm.trans result
  | @persisted lastLedger cursor done phase =>
      cases done with
      | false => cases returned
      | true =>
          exact (rowPosition_saved rpc s lastLedger cursor).trans (exhausted _ _ phase)

/-- The statement to be executed is the insert of a note. -/
def storesNote (s : State) : Action → Bool
  | .statement _ => s.phase.todo.head?.any Statement.isNote
  | _ => false

/-- What a step that succeeds does to the notes. -/
theorem step_notes {s t : State} {action : Action} (owned : s.phase.Owned codec contractId)
    (unfailing : Unfailing s action) (stepped : step codec contractId s action = some t)
    : if storesNote s action then Inserts contractId s.db t.db else Keeps s.db t.db := by
  cases step_effect stepped with
  | notStarted | rpcError | lost | undone | persistLost | notPersisted | crash | resetCursor =>
      cases unfailing
  | grow | started | responded | overflowed | nextEvent | persisted => exact ⟨rfl, rfl⟩
  | @executed lastLedger page position st todo raw rest db phase result =>
      rw [phase] at owned
      simp only [storesNote, phase, Phase.todo, List.head?_cons, Option.any_some]
      exact exec_notes (storeRaw_of (owned.subset (by simp))) result
  | @notExecuted lastLedger page position st todo raw rest outcome phase failed =>
      rcases failed with rfl | ⟨e, refused⟩
      · cases unfailing
      · cases outcome with
        | failed | undone => cases unfailing
        | ok =>
            obtain ⟨next, result⟩ := exec_of_isOk (unfailing st (by simp [phase, Phase.todo]))
            cases refused.symm.trans result

/-- An indexer that is storing a note has not drained the history. -/
theorem not_drained_of_storesNote {s : State} {action : Action}
    (safe : Safe rpc codec contractId s) (stores : storesNote s action = true)
    : ¬ Drained rpc contractId s := by
  have memory := safe.memory
  cases action with
  | statement outcome =>
      cases phase : s.phase with
      | idle | fetching | persisting => simp [storesNote, phase, Phase.todo] at stores
      | storing lastLedger page position todo raw rest =>
          rw [phase] at memory
          have storing : Storing rpc codec contractId s lastLedger page position todo raw rest :=
            memory
          have inside := (List.getElem?_eq_some_iff.mp storing.event).1
          have ahead := storing.ahead
          unfold Drained
          omega
  | grow | start | respond | rpcError | nextEvent | persist | crash | resetCursor => cases stores

end Attesta.Indexer.Sync

namespace Attesta.Indexer.Run

open Checkpoint Feed KeyedRows Sync Attesta.Api.NoteStream

variable {codec : Codec} {config : Config} {rpc : String → Rpc}

/-- Nothing fails, and nobody intervenes. -/
def Smooth (s : State) : Action → Prop
  | .grow _ _ _ | .poll => True
  | .sync action => ∀ contractId ∈ s.waiting.head?, Unfailing (s.view contractId) action
  | .crash | .resetCursor _ _ _ => False

def Action.IsGrow : Action → Prop
  | .grow _ _ _ => True
  | _ => False

/-- The step inserts a note of the contract that is being synced. -/
def storesNote (s : State) : Action → Bool
  | .sync action =>
      s.waiting.head?.any (fun contractId => Sync.storesNote (s.view contractId) action)
  | _ => false

/-- The place of a contract in a pass; what comes twice counts from its first place. -/
def Config.rank (config : Config) (contractId : String) : Nat :=
  config.contracts.idxOf contractId

/-- A note is inserted after a note of a contract that follows later in the pass. -/
def Late (config : Config) (s : State) (action : Action) : Prop :=
  storesNote s action = true
  ∧ ∃ contractId ∈ s.waiting.head?, ∃ row ∈ s.db.encryptedNotes,
      config.rank contractId < config.rank row.pool

/-- The notes are listed contract by contract. -/
def Grouped (config : Config) (notes : List EncryptedNoteRow) : Prop :=
  notes.Pairwise (fun a b => config.rank a.pool ≤ config.rank b.pool)

instance (s : State) : (action : Action) → Decidable (Smooth s action)
  | .grow _ _ _ | .poll => isTrue trivial
  | .sync action =>
      inferInstanceAs
        (Decidable (∀ contractId ∈ s.waiting.head?, Unfailing (s.view contractId) action))
  | .crash | .resetCursor _ _ _ => isFalse id

instance (config : Config) (s : State) (action : Action) : Decidable (Late config s action) :=
  inferInstanceAs (Decidable (_ ∧ ∃ contractId ∈ s.waiting.head?, _))

theorem Smooth.project {s : State} {action : Action} (h : Smooth s action) {contractId : String}
    {own : Sync.Action} (projected : own ∈ project contractId s action)
    : Unfailing (s.view contractId) own := by
  cases action with
  | grow other events head =>
      obtain ⟨_, taken⟩ := Option.ite_none_right_eq_some.mp projected
      exact Option.some.inj taken ▸ trivial
  | poll => cases projected
  | sync action =>
      obtain ⟨same, taken⟩ := Option.ite_none_right_eq_some.mp projected
      exact Option.some.inj taken ▸ h contractId same
  | crash | resetCursor => cases h

/-- What a smooth step does to the notes. -/
theorem step_notes {s t : State} {action : Action} (owned : s.Owned codec)
    (smooth : Smooth s action) (stepped : step codec config s action = some t)
    : if storesNote s action then
        ∃ contractId ∈ s.waiting.head?, Inserts contractId s.db t.db
      else Keeps s.db t.db := by
  cases action with
  | grow =>
      obtain rfl := Option.some.inj stepped
      exact ⟨rfl, rfl⟩
  | poll =>
      obtain ⟨_, rfl⟩ := poll_step stepped
      exact ⟨rfl, rfl⟩
  | sync action =>
      obtain ⟨contractId, rest, next, waiting, _, went, rfl⟩ := sync_step stepped
      have head : s.waiting.head? = some contractId := by rw [waiting]; rfl
      have notes := Sync.step_notes (owned contractId) (smooth contractId head) went
      simp only [storesNote, head, Option.any_some, Option.mem_def, Option.some.injEq,
        exists_eq_left']
      exact notes
  | crash | resetCursor => cases smooth

/-- What holds in every state of a smooth run. -/
structure Regular (codec : Codec) (config : Config) (s : State) : Prop where
  owned : s.Owned codec
  numbered : Numbered s.db
  waiting : s.waiting ⊆ config.contracts
  pools : ∀ row ∈ s.db.encryptedNotes, row.pool ∈ config.contracts

theorem waiting_of_head {s : State} {contractId : String}
    (head : s.waiting.head? = some contractId)
    : contractId ∈ s.waiting :=
  List.mem_of_mem_head? head

theorem step_waiting {s t : State} {action : Action} (waiting : s.waiting ⊆ config.contracts)
    (stepped : step codec config s action = some t)
    : t.waiting ⊆ config.contracts := by
  cases action with
  | grow | resetCursor =>
      obtain rfl := Option.some.inj stepped
      exact waiting
  | crash =>
      obtain rfl := Option.some.inj stepped
      exact List.nil_subset _
  | poll =>
      obtain ⟨_, rfl⟩ := poll_step stepped
      exact List.Subset.refl _
  | sync action =>
      obtain ⟨contractId, rest, next, shape, _, _, rfl⟩ := sync_step stepped
      rw [shape] at waiting
      simp only [State.advance]
      split
      · exact (List.cons_subset.mp waiting).2
      · exact waiting

theorem step_regular {s t : State} {action : Action} (h : Regular codec config s)
    (smooth : Smooth s action) (stepped : step codec config s action = some t)
    : Regular codec config t := by
  have notes := step_notes h.owned smooth stepped
  refine ⟨step_owned h.owned stepped, ?_, step_waiting h.waiting stepped, ?_⟩
  · split at notes
    · obtain ⟨contractId, _, row, _, id, inserted, last⟩ := notes
      exact h.numbered.insert id inserted last
    · exact ⟨fun i row found => h.numbered.ids i row (notes.1 ▸ found),
        by rw [notes.1, notes.2, h.numbered.last]⟩
  · split at notes
    · obtain ⟨contractId, head, row, rfl, _, inserted, _⟩ := notes
      intro found member
      rw [inserted] at member
      rcases List.mem_append.mp member with old | new
      · exact h.pools found old
      · obtain rfl := List.mem_singleton.mp new
        exact h.waiting (waiting_of_head head)
    · rw [notes.1]
      exact h.pools

theorem start_regular (codec : Codec) (config : Config) (chains : String → Chain)
    : Regular codec config (.start chains) where
  owned := start_owned codec chains
  numbered := ⟨fun _ _ found => (nomatch found), rfl⟩
  waiting := List.nil_subset _
  pools _ member := nomatch member

/-- The order of the contracts is kept exactly by the steps that are not late. -/
theorem step_grouped_iff {s t : State} {action : Action} (h : Regular codec config s)
    (smooth : Smooth s action) (stepped : step codec config s action = some t)
    : Grouped config t.db.encryptedNotes
      ↔ Grouped config s.db.encryptedNotes ∧ ¬ Late config s action := by
  have notes := step_notes h.owned smooth stepped
  split at notes
  next stores =>
    obtain ⟨contractId, head, row, rfl, _, inserted, _⟩ := notes
    rw [inserted]
    simp only [Grouped, List.pairwise_append, List.pairwise_singleton, List.mem_singleton,
      forall_eq, true_and, Late, stores, Option.mem_def.mp head, Option.mem_def,
      Option.some.injEq, exists_eq_left', not_exists, not_and, Nat.not_lt]
  next quiet =>
    rw [notes.1]
    simp [Late, quiet]

theorem run_grouped_iff {chains : String → Chain} {s : State} {actions : List Action}
    (smooth : Machine.Along (step codec config) Smooth (.start chains) actions)
    (ran : Machine.run (step codec config) (.start chains) actions = some s)
    : Grouped config s.db.encryptedNotes
      ↔ Machine.Along (step codec config) (fun s action => ¬ Late config s action)
          (.start chains) actions := by
  have whole := Machine.along_iff Smooth (fun s => Grouped config s.db.encryptedNotes) _
    (fun _ _ _ smooth h => step_regular h smooth) (fun _ _ _ smooth h => step_grouped_iff h smooth)
    (start_regular codec config chains) smooth ran
  have initially : Grouped config (State.start chains).db.encryptedNotes := List.Pairwise.nil
  rw [whole, and_iff_right initially]

theorem run_regular {chains : String → Chain} {s : State} {actions : List Action}
    (smooth : Machine.Along (step codec config) Smooth (.start chains) actions)
    (ran : Machine.run (step codec config) (.start chains) actions = some s)
    : Regular codec config s :=
  Machine.invariant_along (fun _ _ _ smooth h => step_regular h smooth)
    (start_regular codec config chains) smooth ran

theorem pool_of_noteOf {contractId : String} {raw : RawEvent} {row : EncryptedNoteRow}
    (asked : noteOf codec contractId raw = some (insertionOf row))
    : row.pool = contractId := by
  unfold noteOf at asked
  split at asked
  · exact (Statement.insertNote.inj (Option.some.inj asked)).1.symm
  · cases asked

/-- Once a contract is drained in a smooth run, its notes are those of its history, in order. -/
theorem notes_in_order {chains : String → Chain} {s : State} {actions : List Action}
    (closed : ∀ contractId, (chains contractId).Closed)
    (documented : Machine.Along (step codec config) (Documented rpc) (.start chains) actions)
    (smooth : Machine.Along (step codec config) Smooth (.start chains) actions)
    (ran : Machine.run (step codec config) (.start chains) actions = some s)
    {contractId : String} (drained : Drained (rpc contractId) contractId (s.view contractId))
    : (s.db.encryptedNotes.filter (fun row => row.pool == contractId)).map insertionOf
      = (s.chains contractId).events.filterMap (noteOf codec contractId) := by
  have stable (u v : Sync.State) (action : Sync.Action) (alike : Alike contractId u v)
      (allowed
        : u.phase.Owned codec contractId
          ∧ Sync.Documented (rpc contractId) contractId u action ∧ Unfailing u action)
      : v.phase.Owned codec contractId
        ∧ Sync.Documented (rpc contractId) contractId v action ∧ Unfailing v action :=
    ⟨alike.phase ▸ allowed.1, alike.documented allowed.2.1,
      allowed.2.2.of_alike allowed.1 alike⟩
  have along
      : Machine.Along (step codec config)
          (fun s action => s.Owned codec ∧ Documented rpc s action ∧ Smooth s action)
          (.start chains) actions :=
    (Machine.along_congr (fun _ _ _ owned stepped => step_owned owned stepped)
      (fun s action _ owned _ => (and_iff_right owned).symm) (start_owned codec chains) ran).mp
      (Machine.along_and.mpr ⟨documented, smooth⟩)
  have first
      : Sync.State.init.phase.Owned codec contractId
        ∧ Sync.Documented (rpc contractId) contractId Sync.State.init
            (.grow (chains contractId).events (chains contractId).head)
        ∧ Unfailing Sync.State.init (.grow (chains contractId).events (chains contractId).head) :=
    ⟨trivial, start_documented (rpc contractId) closed contractId, trivial⟩
  obtain ⟨own, v, ownAlong, ownRan, alike⟩ :=
    run_own stable first
      (along.mono fun _ _ step own projected =>
        ⟨step.1 contractId, step.2.1.project projected, step.2.2.project projected⟩)
      ran
  have single : Single codec contractId Statement.isNote :=
    single_of_leaf codec contractId fun _ => rfl
  have finished : rowPosition (rpc contractId) contractId v = v.chain.events.length := by
    rw [rowPosition, ← alike.cursor, ← alike.chain]
    exact drained
  have notes
      : v.db.encryptedNotes.map insertionOf
        = v.chain.events.filterMap (noteOf codec contractId) := by
    rw [run_notes ownRan, watched_eq_due single (ownAlong.mono fun _ _ step => step.2.1) ownRan
      finished (ownAlong.mono fun _ _ step => step.2.2.not_recounts Statement.isNote),
      due_map_snd, watchedOf_isNote]
  have all : ∀ row ∈ v.db.encryptedNotes, (row.pool == contractId) = true := by
    intro row member
    have listed : insertionOf row ∈ v.chain.events.filterMap (noteOf codec contractId) :=
      notes ▸ List.mem_map_of_mem member
    obtain ⟨raw, _, asked⟩ := List.mem_filterMap.mp listed
    exact beq_iff_eq.mpr (pool_of_noteOf asked)
  have part := congrArg Part.notes alike.part
  simp only [partOf, rowsOf, List.filter_eq_self.mpr all] at part
  have chain : v.chain = s.chains contractId := alike.chain.symm
  exact part.trans (chain ▸ notes)

-----------------------------------------------------------------------------------------
-- A rebuild
-----------------------------------------------------------------------------------------

/-- If nothing fails, nobody intervenes and the chains stand still, a contract only moves in its
own calls.
-/
theorem call_of_project {s t : State} {action : Action} (smooth : Smooth s action)
    (frozen : ¬ action.IsGrow) (stepped : step codec config s action = some t)
    {contractId : String} {own : Sync.Action} (projected : own ∈ project contractId s action)
    : ofCall own = true := by
  cases action with
  | grow => exact absurd trivial frozen
  | poll => cases projected
  | sync action =>
      obtain ⟨_, _, _, _, call, _, _⟩ := sync_step stepped
      exact Option.some.inj (Option.ite_none_right_eq_some.mp projected).2 ▸ call
  | crash | resetCursor => cases smooth

theorem drained_of_alike {rpc : Rpc} {contractId : String} {s t : Sync.State}
    (h : Drained rpc contractId t) (alike : Alike contractId s t)
    : Drained rpc contractId s := by
  rw [Drained, rowPosition, alike.cursor, alike.chain]
  exact h

theorem step_view_drained {s t : State} {action : Action} (owned : s.Owned codec)
    (smooth : Smooth s action) (frozen : ¬ action.IsGrow)
    (stepped : step codec config s action = some t) {contractId : String}
    (safe : Safe (rpc contractId) codec contractId (s.view contractId))
    (drained : Drained (rpc contractId) contractId (s.view contractId))
    : Drained (rpc contractId) contractId (t.view contractId) := by
  rcases step_acts_or_spares owned stepped contractId with ⟨own, projected, went⟩ | spared
  · exact step_drained safe (smooth.project projected)
      (call_of_project smooth frozen stepped projected) went drained
  · exact drained_of_alike drained spared.alike

theorem step_view_exhausted {s t : State} {action : Action} (owned : s.Owned codec)
    (documented : Documented rpc s action) (smooth : Smooth s action)
    (frozen : ¬ action.IsGrow) (stepped : step codec config s action = some t)
    {contractId : String} (safe : Safe (rpc contractId) codec contractId (s.view contractId))
    (exhausted : Exhausted (rpc contractId) (s.view contractId))
    : Exhausted (rpc contractId) (t.view contractId) := by
  rcases step_acts_or_spares owned stepped contractId with ⟨own, projected, went⟩ | spared
  · exact step_exhausted safe (documented.project projected)
      (call_of_project smooth frozen stepped projected) went
  · rw [Exhausted, spared.alike.phase, spared.alike.chain]
    exact exhausted

/-- A rebuild: in each pass the contracts before the current one are drained, and no contract
has a note as long as one before it is not drained.
-/
structure Rebuilding (rpc : String → Rpc) (codec : Codec) (config : Config) (s : State) : Prop where
  regular : Regular codec config s
  safe : ∀ contractId, Safe (rpc contractId) codec contractId (s.view contractId)
  exhausted : ∀ contractId, Exhausted (rpc contractId) (s.view contractId)
  pass
    : s.waiting = []
      ∨ ∃ done,
          done ++ s.waiting = config.contracts
          ∧ ∀ contractId ∈ done, Drained (rpc contractId) contractId (s.view contractId)
  order
    : ∀ contractId ∈ config.contracts, ¬ Drained (rpc contractId) contractId (s.view contractId)
      → ∀ row ∈ s.db.encryptedNotes, config.rank row.pool ≤ config.rank contractId

theorem idxOf_le_of_append {done rest : List String} {first other : String}
    (member : other ∉ done)
    : (done ++ first :: rest).idxOf first ≤ (done ++ first :: rest).idxOf other := by
  rw [List.idxOf_append_of_notMem member]
  by_cases before : first ∈ done
  · rw [List.idxOf_append_of_mem before]
    exact (List.idxOf_lt_length_of_mem before).le.trans (Nat.le_add_right _ _)
  · rw [List.idxOf_append_of_notMem before, List.idxOf_cons_self]
    exact Nat.le_add_right _ _

/-- A contract that is not drained comes no earlier than the one that is being synced. -/
theorem Rebuilding.rank_le {s : State} (h : Rebuilding rpc codec config s) {first other : String}
    (head : s.waiting.head? = some first) (undrained : ¬ Drained (rpc other) other (s.view other))
    : config.rank first ≤ config.rank other := by
  rcases h.pass with none | ⟨done, split, drained⟩
  · rw [none] at head
    cases head
  · obtain ⟨rest, shape⟩ := List.head?_eq_some_iff.mp head
    rw [Config.rank, Config.rank, ← split, shape]
    exact idxOf_le_of_append fun member => undrained (drained other member)

theorem step_rebuilding {s t : State} {action : Action} (documented : Documented rpc s action)
    (smooth : Smooth s action) (frozen : ¬ action.IsGrow) (h : Rebuilding rpc codec config s)
    (stepped : step codec config s action = some t)
    : Rebuilding rpc codec config t := by
  have owned := h.regular.owned
  have drained {contractId : String}
      (before : Drained (rpc contractId) contractId (s.view contractId))
      : Drained (rpc contractId) contractId (t.view contractId) :=
    step_view_drained owned smooth frozen stepped (h.safe contractId) before
  refine ⟨step_regular h.regular smooth stepped,
    step_view_safe documented owned h.safe stepped,
    fun contractId => step_view_exhausted owned documented smooth frozen stepped
      (h.safe contractId) (h.exhausted contractId), ?_, ?_⟩
  · cases action with
    | grow => exact absurd trivial frozen
    | crash | resetCursor => cases smooth
    | poll =>
        obtain ⟨_, rfl⟩ := poll_step stepped
        exact Or.inr ⟨[], rfl, fun _ member => nomatch member⟩
    | sync action =>
        obtain ⟨first, rest, next, waiting, call, went, rfl⟩ := sync_step stepped
        have head : s.waiting.head? = some first := by rw [waiting]; rfl
        rcases h.pass with none | ⟨done, split, before⟩
        · cases none.symm.trans waiting
        · right
          rw [waiting] at split
          by_cases returned : isIdle next.phase = true
          · refine ⟨done ++ [first], by simp [State.advance, returned, split], ?_⟩
            intro contractId member
            rcases List.mem_append.mp member with earlier | last
            · exact drained (before contractId earlier)
            · obtain rfl := List.mem_singleton.mp last
              have after :=
                step_returned (h.safe contractId) (h.exhausted contractId)
                  (smooth contractId head) call went (isIdle_iff.mp returned)
              rwa [← State.view_advance (chain_of_call call went)] at after
          · exact ⟨done, by simp [State.advance, returned, split],
              fun contractId member => drained (before contractId member)⟩
  · intro contractId listed undrained row member
    have before : ¬ Drained (rpc contractId) contractId (s.view contractId) := fun done =>
      undrained (drained done)
    have notes := step_notes owned smooth stepped
    split at notes
    · obtain ⟨first, head, new, rfl, _, inserted, _⟩ := notes
      rw [inserted] at member
      rcases List.mem_append.mp member with old | last
      · exact h.order contractId listed before row old
      · obtain rfl := List.mem_singleton.mp last
        exact h.rank_le head before
    · exact h.order contractId listed before row (notes.1 ▸ member)

/-- No note comes late in a rebuild. -/
theorem Rebuilding.not_late {s : State} (h : Rebuilding rpc codec config s) (action : Action)
    : ¬ Late config s action := by
  rintro ⟨stores, contractId, head, row, member, later⟩
  cases action with
  | sync action =>
      rw [storesNote, Option.mem_def.mp head, Option.any_some] at stores
      have undrained := not_drained_of_storesNote (h.safe contractId) stores
      have listed := h.regular.waiting (waiting_of_head head)
      exact absurd (h.order contractId listed undrained row member) (Nat.not_le.mpr later)
  | grow | poll | crash | resetCursor => cases stores

theorem start_rebuilding (rpc : String → Rpc) (codec : Codec) (config : Config)
    {chains : String → Chain} (closed : ∀ contractId, (chains contractId).Closed)
    : Rebuilding rpc codec config (.start chains) where
  regular := start_regular codec config chains
  safe := start_view_safe rpc codec closed
  exhausted contractId lastLedger cursor phase := by
    simp [State.view, State.start] at phase
  pass := Or.inl rfl
  order _ _ _ _ member := nomatch member

theorem rebuild_grouped {chains : String → Chain} {s : State} {actions : List Action}
    (closed : ∀ contractId, (chains contractId).Closed)
    (documented : Machine.Along (step codec config) (Documented rpc) (.start chains) actions)
    (smooth : Machine.Along (step codec config) Smooth (.start chains) actions)
    (frozen : ∀ action ∈ actions, ¬ action.IsGrow)
    (ran : Machine.run (step codec config) (.start chains) actions = some s)
    : Grouped config s.db.encryptedNotes := by
  have along
      : Machine.Along (step codec config)
          (fun s action => Documented rpc s action ∧ Smooth s action ∧ ¬ action.IsGrow)
          (.start chains) actions :=
    Machine.along_and.mpr
      ⟨documented, Machine.along_and.mpr ⟨smooth, Machine.along_of_forall frozen _⟩⟩
  have preserved (before : State) (action : Action) (after : State)
      (allowed : Documented rpc before action ∧ Smooth before action ∧ ¬ action.IsGrow)
      (inv
        : Rebuilding rpc codec config before ∧ Grouped config before.db.encryptedNotes)
      (stepped : step codec config before action = some after)
      : Rebuilding rpc codec config after ∧ Grouped config after.db.encryptedNotes :=
    ⟨step_rebuilding allowed.1 allowed.2.1 allowed.2.2 inv.1 stepped,
      (step_grouped_iff inv.1.regular allowed.2.1 stepped).mpr
        ⟨inv.2, inv.1.not_late action⟩⟩
  exact (Machine.invariant_along preserved
    ⟨start_rebuilding rpc codec config closed, List.Pairwise.nil⟩ along ran).2

/-- With the chains as they are a rebuild changes no chain. -/
theorem run_chains {s t : State} {actions : List Action}
    (frozen : ∀ action ∈ actions, ¬ action.IsGrow)
    (ran : Machine.run (step codec config) s actions = some t)
    : t.chains = s.chains := by
  have preserved (before : State) (action : Action) (after : State)
      (allowed : ¬ action.IsGrow) (inv : before.chains = s.chains)
      (stepped : step codec config before action = some after)
      : after.chains = s.chains := by
    cases action with
    | grow => exact absurd trivial allowed
    | poll =>
        obtain ⟨_, rfl⟩ := poll_step stepped
        exact inv
    | sync action =>
        obtain ⟨_, _, _, _, _, _, rfl⟩ := sync_step stepped
        exact inv
    | crash | resetCursor =>
        obtain rfl := Option.some.inj stepped
        exact inv
  exact Machine.invariant_of_allowed preserved rfl frozen ran

/-- Everything the contracts have published is stored. -/
def Complete (rpc : String → Rpc) (config : Config) (s : State) : Prop :=
  ∀ contractId ∈ config.contracts, Drained (rpc contractId) contractId (s.view contractId)

/-- A live run without failures and a rebuild of the emptied database after it; both have come to
the end of all histories.
-/
structure Rebuilt (rpc : String → Rpc) (codec : Codec) (config : Config)
    (actions rebuild : List Action) (live rebuilt : State)
    : Prop where
  documented : Machine.Along (step codec config) (Documented rpc) .init actions
  smooth : Machine.Along (step codec config) Smooth .init actions
  ran : Machine.run (step codec config) .init actions = some live
  complete : Complete rpc config live
  rebuildDocumented
    : Machine.Along (step codec config) (Documented rpc) (.start live.chains) rebuild
  rebuildSmooth : Machine.Along (step codec config) Smooth (.start live.chains) rebuild
  frozen : ∀ action ∈ rebuild, ¬ action.IsGrow
  rebuildRan : Machine.run (step codec config) (.start live.chains) rebuild = some rebuilt
  rebuildComplete : Complete rpc config rebuilt

instance (rpc : Rpc) (contractId : String) (s : Sync.State)
    : Decidable (Drained rpc contractId s) :=
  inferInstanceAs (Decidable (_ = _))

instance (s : State) : Decidable (Complete rpc config s) :=
  inferInstanceAs (Decidable (∀ contractId ∈ config.contracts, _))

instance : (action : Action) → Decidable action.IsGrow
  | .grow _ _ _ => isTrue trivial
  | .poll | .sync _ | .crash | .resetCursor _ _ _ => isFalse id

/-- Two complete tables of the same histories differ at most in the order of the contracts. -/
theorem notes_eq_iff {live rebuilt : State} (liveRegular : Regular codec config live)
    (rebuiltRegular : Regular codec config rebuilt)
    (same
      : ∀ contractId ∈ config.contracts,
          (rebuilt.db.encryptedNotes.filter (fun row => row.pool == contractId)).map insertionOf
          = (live.db.encryptedNotes.filter (fun row => row.pool == contractId)).map insertionOf)
    (grouped : Grouped config rebuilt.db.encryptedNotes)
    : rebuilt.db.encryptedNotes = live.db.encryptedNotes
      ↔ Grouped config live.db.encryptedNotes := by
  constructor
  · exact fun equal => equal ▸ grouped
  · intro liveGrouped
    refine rebuiltRegular.numbered.eq liveRegular.numbered ?_
    refine map_eq_of_groups EncryptedNoteRow.pool config.rank insertionOf grouped liveGrouped ?_ ?_
    · intro row member other listed equal
      exact (List.idxOf_inj (rebuiltRegular.pools row member)).mp equal
    · intro pool
      have rows (notes : List EncryptedNoteRow)
          : notes.filter (fun row => decide (row.pool = pool))
            = notes.filter (fun row => row.pool == pool) :=
        rfl
      rw [rows, rows]
      by_cases listed : pool ∈ config.contracts
      · exact same pool listed
      · have none {s : State} (regular : Regular codec config s)
            : s.db.encryptedNotes.filter (fun row => row.pool == pool) = [] := by
          rw [List.filter_eq_nil_iff]
          intro row member mine
          exact listed (beq_iff_eq.mp mine ▸ regular.pools row member)
        rw [none rebuiltRegular, none liveRegular]

/-- A client that has received the selected notes up to some id before the rebuild, and resumes
from that id after it, has then received every selected note once.
-/
def ResumesExactly (live rebuilt : Db) : Prop :=
  ∀ (query : StreamQuery) (cursor : Int),
    ((live.encryptedNotes.filter (fun row => query.selects row && decide (row.id ≤ cursor))).map
        insertionOf
      ++ (since EncryptedNoteRow.id query.selects cursor rebuilt.encryptedNotes).map
        insertionOf).Perm
      ((live.encryptedNotes.filter query.selects).map insertionOf)

theorem resumesExactly_of_eq {live rebuilt : Db}
    (same : rebuilt.encryptedNotes = live.encryptedNotes)
    : ResumesExactly live rebuilt := by
  intro query cursor
  rw [same, ← List.map_append]
  exact (perm_since query.selects cursor live.encryptedNotes).map insertionOf

/-- Conversely a client without a filter notices every note that has changed its place. -/
theorem eq_of_resumesExactly {live rebuilt : Db} (hl : Numbered live) (hr : Numbered rebuilt)
    (h : ResumesExactly live rebuilt)
    : rebuilt.encryptedNotes = live.encryptedNotes := by
  refine hr.eq hl (eq_of_drop_perm fun k => ?_)
  have resumed := h ⟨none, none⟩ k
  have whole
      : (live.encryptedNotes.filter (StreamQuery.selects ⟨none, none⟩)).map insertionOf
        = (live.encryptedNotes.take k).map insertionOf
          ++ (live.encryptedNotes.drop k).map insertionOf := by
    rw [← List.map_append, List.take_append_drop]
    exact congrArg (List.map insertionOf) (List.filter_eq_self.mpr fun _ _ => rfl)
  rw [whole] at resumed
  simp only [StreamQuery.selects, since, Bool.true_and, hl.filter_le, hr.filter_lt] at resumed
  rw [← List.map_drop, ← List.map_drop]
  exact (List.perm_append_left_iff _).mp resumed

/-- Live ingestion without failures and a later rebuild give the notes the same ids, and clients
can resume over the rebuild, exactly if no note was ever stored after a note of a contract that
comes later in a pass.
-/
theorem rebuild_identical_iff (rpc : String → Rpc) (codec : Codec) (config : Config)
    {actions rebuild : List Action} {live rebuilt : State}
    (h : Rebuilt rpc codec config actions rebuild live rebuilt)
    : (rebuilt.db.encryptedNotes = live.db.encryptedNotes
        ↔ Machine.Along (step codec config) (fun s action => ¬ Late config s action) .init
            actions)
      ∧ (ResumesExactly live.db rebuilt.db
        ↔ Machine.Along (step codec config) (fun s action => ¬ Late config s action) .init
            actions) := by
  have closed : ∀ contractId, (live.chains contractId).Closed := fun contractId =>
    (run_view_safe init_closed h.documented h.ran contractId).closed
  have regular := run_regular h.smooth h.ran
  have rebuiltRegular := run_regular h.rebuildSmooth h.rebuildRan
  have chains : rebuilt.chains = (State.start live.chains).chains :=
    run_chains h.frozen h.rebuildRan
  have identical
      : rebuilt.db.encryptedNotes = live.db.encryptedNotes
        ↔ Machine.Along (step codec config) (fun s action => ¬ Late config s action) .init
            actions := by
    refine (notes_eq_iff regular rebuiltRegular ?_
      (rebuild_grouped closed h.rebuildDocumented h.rebuildSmooth h.frozen h.rebuildRan)).trans
      (run_grouped_iff h.smooth h.ran)
    intro contractId listed
    rw [notes_in_order closed h.rebuildDocumented h.rebuildSmooth h.rebuildRan
      (h.rebuildComplete contractId listed), chains]
    exact (notes_in_order init_closed h.documented h.smooth h.ran
      (h.complete contractId listed)).symm
  have resumes
      : ResumesExactly live.db rebuilt.db
        ↔ rebuilt.db.encryptedNotes = live.db.encryptedNotes :=
    ⟨eq_of_resumesExactly regular.numbered rebuiltRegular.numbered, resumesExactly_of_eq⟩
  exact ⟨identical, resumes.trans identical⟩

/-- Two pools; `CA` comes first in each pass. -/
def twoPools : Config := ⟨["CA", "CB"], none⟩

/-- The note of a pool in the ledger. -/
def poolNote (i : Nat) (ledger : UInt64) : RawEvent := sampleEvent "note" (sampleNote i) ledger

/-- Both pools publish a note before the pass. -/
def onePass : List Action :=
  [.grow "CA" [poolNote 0 42] 42, .grow "CB" [poolNote 1 42] 42, .poll]
    ++ sampleSync 0 [poolNote 0 42] ++ sampleSync 0 [poolNote 1 42]

/-- The note of `CA` comes between two passes, that of `CB` before the first. -/
def twoPasses : List Action :=
  [.grow "CA" [] 42, .grow "CB" [poolNote 1 42] 42, .poll]
    ++ sampleSync 0 [] ++ sampleSync 0 [poolNote 1 42]
    ++ [.grow "CA" [poolNote 0 43] 43, .poll]
    ++ sampleSync 0 [poolNote 0 43] ++ sampleSync 1 []

/-- The pass of a rebuild. -/
def rebuildPass (ledger : UInt64) : List Action :=
  .poll :: (sampleSync 0 [poolNote 0 ledger] ++ sampleSync 0 [poolNote 1 42])

/-- Both runs of two sample pools, carried out. -/
theorem rebuilt_of_observed {γ : Type*} {actions rebuild : List Action}
    (observe : State → State → γ) {value : γ}
    (documented
      : Machine.Along (step (sampleCodec 2) twoPools) (Documented fun _ => sampleRpc) .init actions)
    (smooth : Machine.Along (step (sampleCodec 2) twoPools) Smooth .init actions)
    (frozen : ∀ action ∈ rebuild, ¬ action.IsGrow)
    (observed
      : (Machine.run (step (sampleCodec 2) twoPools) .init actions).bind (fun live =>
          if Complete (fun _ => sampleRpc) twoPools live
              ∧ Machine.Along (step (sampleCodec 2) twoPools) (Documented fun _ => sampleRpc)
                  (.start live.chains) rebuild
              ∧ Machine.Along (step (sampleCodec 2) twoPools) Smooth (.start live.chains)
                  rebuild then
            (Machine.run (step (sampleCodec 2) twoPools) (.start live.chains) rebuild).bind
              (fun rebuilt =>
                if Complete (fun _ => sampleRpc) twoPools rebuilt then
                  some (observe live rebuilt)
                else none)
          else none)
        = some value)
    : ∃ live rebuilt,
        Rebuilt (fun _ => sampleRpc) (sampleCodec 2) twoPools actions rebuild live rebuilt
        ∧ observe live rebuilt = value := by
  obtain ⟨live, ran, observed⟩ := Option.bind_eq_some_iff.mp observed
  obtain ⟨checks, observed⟩ := Option.ite_none_right_eq_some.mp observed
  obtain ⟨complete, rebuildDocumented, rebuildSmooth⟩ := checks
  obtain ⟨rebuilt, rebuildRan, observed⟩ := Option.bind_eq_some_iff.mp observed
  obtain ⟨rebuildComplete, observed⟩ := Option.ite_none_right_eq_some.mp observed
  exact ⟨live, rebuilt,
    ⟨documented, smooth, ran, complete, rebuildDocumented, rebuildSmooth, frozen, rebuildRan,
      rebuildComplete⟩,
    Option.some.inj observed⟩

theorem rebuild_identical_one_pass
    : ∃ live rebuilt,
        Rebuilt (fun _ => sampleRpc) (sampleCodec 2) twoPools onePass (rebuildPass 42) live rebuilt
        ∧ live.db.encryptedNotes.map EncryptedNoteRow.pool = ["CA", "CB"]
        ∧ rebuilt.db.encryptedNotes = live.db.encryptedNotes
        ∧ ResumesExactly live.db rebuilt.db := by
  obtain ⟨live, rebuilt, h, pools⟩
      : ∃ live rebuilt,
          Rebuilt (fun _ => sampleRpc) (sampleCodec 2) twoPools onePass (rebuildPass 42) live
            rebuilt
          ∧ live.db.encryptedNotes.map EncryptedNoteRow.pool = ["CA", "CB"] :=
    rebuilt_of_observed (fun live _ => live.db.encryptedNotes.map EncryptedNoteRow.pool)
      (by decide +kernel) (by decide +kernel) (by decide +kernel) (by decide +kernel)
  have punctual
      : Machine.Along (step (sampleCodec 2) twoPools)
          (fun s action => ¬ Late twoPools s action) .init onePass := by
    decide +kernel
  obtain ⟨identical, resumes⟩ :=
    rebuild_identical_iff (fun _ => sampleRpc) (sampleCodec 2) twoPools h
  exact ⟨live, rebuilt, h, pools, identical.mpr punctual, resumes.mpr punctual⟩

/-- The notes of the two pools swap their ids. A client that has received the first one is sent
it again, and never the other.
-/
theorem rebuild_swaps_ids
    : ∃ live rebuilt,
        Rebuilt (fun _ => sampleRpc) (sampleCodec 2) twoPools twoPasses (rebuildPass 43) live
          rebuilt
        ∧ live.db.encryptedNotes.map (fun row => (row.id, row.pool)) = [(1, "CB"), (2, "CA")]
        ∧ rebuilt.db.encryptedNotes.map (fun row => (row.id, row.pool))
          = [(1, "CA"), (2, "CB")]
        ∧ rebuilt.db.encryptedNotes ≠ live.db.encryptedNotes
        ∧ ¬ ResumesExactly live.db rebuilt.db := by
  obtain ⟨live, rebuilt, h, pools⟩
      : ∃ live rebuilt,
          Rebuilt (fun _ => sampleRpc) (sampleCodec 2) twoPools twoPasses (rebuildPass 43) live
            rebuilt
          ∧ (live.db.encryptedNotes.map (fun row => (row.id, row.pool)),
              rebuilt.db.encryptedNotes.map (fun row => (row.id, row.pool)))
            = ([(1, "CB"), (2, "CA")], [(1, "CA"), (2, "CB")]) :=
    rebuilt_of_observed
      (fun live rebuilt =>
        (live.db.encryptedNotes.map (fun row => (row.id, row.pool)),
          rebuilt.db.encryptedNotes.map (fun row => (row.id, row.pool))))
      (by decide +kernel) (by decide +kernel) (by decide +kernel) (by decide +kernel)
  obtain ⟨first, second⟩ := Prod.mk.inj pools
  have swapped : rebuilt.db.encryptedNotes ≠ live.db.encryptedNotes := by
    intro same
    rw [same, first] at second
    simp at second
  refine ⟨live, rebuilt, h, first, second, swapped, fun resumes => swapped ?_⟩
  exact eq_of_resumesExactly (run_regular h.smooth h.ran).numbered
    (run_regular h.rebuildSmooth h.rebuildRan).numbered resumes

end Attesta.Indexer.Run
