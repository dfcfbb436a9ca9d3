import Mathlib.Data.List.TakeWhile
import Attesta.Indexer.Sync

/-! The cursor of the indexer never runs ahead of what has been stored. A pass keeps its
position twice, as a ledger and as a pagination token; both only mean something together with
the events the RPC server has answered with.
-/

namespace Attesta.Indexer.Sync

open KeyedRows

variable {codec : Codec} {contractId : String}

/-- `last_ledger` of the running pass. -/
def Phase.lastLedger? : Phase → Option Int
  | .idle => none
  | .fetching lastLedger _ => some lastLedger
  | .storing lastLedger _ _ _ _ _ => some lastLedger
  | .persisting lastLedger _ _ => some lastLedger

/-- The stored ledger is a nonnegative `i64`, and the running pass is never behind it. -/
structure LedgersBounded (contractId : String) (s : State) : Prop where
  nonneg : 0 ≤ (loadCursor s.db contractId).1
  bound : (loadCursor s.db contractId).1 < 2 ^ 63
  memory
    : ∀ lastLedger, s.phase.lastLedger? = some lastLedger
        → (loadCursor s.db contractId).1 ≤ lastLedger ∧ lastLedger < 2 ^ 63

def Action.IsReset : Action → Prop
  | .resetCursor _ _ => True
  | _ => False

theorem loadCursor_exec (contractId : String) {st : Statement} {db next : Db}
    (h : st.exec db = .ok next)
    : loadCursor next contractId = loadCursor db contractId := by
  simp only [loadCursor, Statement.exec_indexerCursors h]

/-- The event loop and the code after it only raise the ledger, and only to `i64` values. -/
theorem forEvents_lastLedger {lastLedger next : Int} {page : EventsPage} {position : Nat}
    {raws : List RawEvent} (bound : lastLedger < 2 ^ 63)
    (h : (forEvents codec contractId lastLedger page position raws).lastLedger? = some next)
    : lastLedger ≤ next ∧ next < 2 ^ 63 := by
  cases raws with
  | nil =>
      obtain rfl := Option.some.inj h
      have latest := asI64_lt page.latestLedger
      split
      · exact ⟨le_max_left _ _, max_lt bound latest⟩
      · exact ⟨le_rfl, bound⟩
  | cons raw rest =>
      obtain rfl := Option.some.inj h
      exact ⟨le_rfl, bound⟩

/-- A state whose row and memory are no lower than the row before is bounded again. -/
theorem LedgersBounded.next {s t : State} (h : LedgersBounded contractId s)
    (above : (loadCursor s.db contractId).1 ≤ (loadCursor t.db contractId).1)
    (bound : (loadCursor t.db contractId).1 < 2 ^ 63)
    (memory
      : ∀ lastLedger, t.phase.lastLedger? = some lastLedger
          → (loadCursor t.db contractId).1 ≤ lastLedger ∧ lastLedger < 2 ^ 63)
    : LedgersBounded contractId t
      ∧ (loadCursor s.db contractId).1 ≤ (loadCursor t.db contractId).1 :=
  ⟨⟨h.nonneg.trans above, bound, memory⟩, above⟩

/-- No step but a reset lowers the stored ledger. -/
theorem step_ledger {s t : State} {action : Action} (noReset : ¬ action.IsReset)
    (h : LedgersBounded contractId s) (stepped : step codec contractId s action = some t)
    : LedgersBounded contractId t
      ∧ (loadCursor s.db contractId).1 ≤ (loadCursor t.db contractId).1 := by
  have stopped : LedgersBounded contractId s.interrupted :=
    ⟨h.nonneg, h.bound, by simp [State.interrupted, Phase.lastLedger?]⟩
  cases step_effect stepped with
  | grow => exact ⟨⟨h.nonneg, h.bound, h.memory⟩, le_rfl⟩
  | notStarted => exact ⟨h, le_rfl⟩
  | started idle row =>
      refine h.next le_rfl h.bound ?_
      intro lastLedger same
      obtain rfl := Option.some.inj same
      have bound := h.bound
      rw [row] at bound ⊢
      exact ⟨le_rfl, bound⟩
  | responded phase asked =>
      refine h.next le_rfl h.bound ?_
      intro next same
      obtain ⟨above, bound⟩ := h.memory _ (by rw [phase]; rfl)
      obtain ⟨later, fits⟩ := forEvents_lastLedger bound same
      exact ⟨above.trans later, fits⟩
  | executed phase result =>
      have row := loadCursor_exec contractId result
      have memory := h.memory _ (by rw [phase]; rfl)
      rw [← row] at memory
      refine h.next (le_of_eq (congrArg Prod.fst row.symm)) (row ▸ h.bound) ?_
      intro next same
      obtain rfl := Option.some.inj same
      exact memory
  | lost phase result =>
      have row := loadCursor_exec contractId result
      refine h.next (le_of_eq (congrArg Prod.fst row.symm)) (row ▸ h.bound) ?_
      intro next same
      cases same
  | nextEvent phase =>
      refine h.next le_rfl h.bound ?_
      intro next same
      obtain ⟨above, bound⟩ := h.memory _ (by rw [phase]; rfl)
      obtain ⟨later, fits⟩ := forEvents_lastLedger (max_lt bound (asI64_lt _)) same
      exact ⟨above.trans ((le_max_left _ _).trans later), fits⟩
  | @persisted lastLedger cursor done phase =>
      obtain ⟨above, bound⟩ := h.memory lastLedger (by rw [phase]; rfl)
      refine h.next (by simpa using above) (by simpa using bound) ?_
      intro next same
      cases done with
      | true => cases same
      | false =>
          obtain rfl := Option.some.inj same
          simpa using bound
  | @persistLost lastLedger cursor done phase =>
      obtain ⟨above, bound⟩ := h.memory lastLedger (by rw [phase]; rfl)
      refine h.next (by simpa [State.interrupted] using above)
        (by simpa [State.interrupted] using bound) ?_
      intro next same
      cases same
  | overflowed | rpcError | notExecuted | notPersisted | crash => exact ⟨stopped, le_rfl⟩
  | undone => exact ⟨{ stopped with }, le_rfl⟩
  | resetCursor => exact absurd trivial noReset

/-- The ledger invariant and the growth of the stored ledger, over a whole run. -/
theorem run_ledger {s t : State} {actions : List Action}
    (noReset : ∀ action ∈ actions, ¬ action.IsReset) (h : LedgersBounded contractId s)
    (ran : Machine.run (step codec contractId) s actions = some t)
    : LedgersBounded contractId t
      ∧ (loadCursor s.db contractId).1 ≤ (loadCursor t.db contractId).1 := by
  refine Machine.invariant_of_allowed
    (fun middle action next allowed
      (kept
        : LedgersBounded contractId middle
          ∧ (loadCursor s.db contractId).1 ≤ (loadCursor middle.db contractId).1)
      stepped => ?_)
    ⟨h, le_rfl⟩ noReset ran
  obtain ⟨bounded, above⟩ := kept
  obtain ⟨next, further⟩ := step_ledger allowed bounded stepped
  exact ⟨next, above.trans further⟩

theorem init_ledgersBounded : LedgersBounded contractId State.init :=
  ⟨le_rfl, show (0 : Int) < 2 ^ 63 by decide, fun _ same => by cases same⟩

-----------------------------------------------------------------------------------------
-- Positions, if the server behaves as documented
-----------------------------------------------------------------------------------------

/-- Where the next request of a pass that holds these two values starts. -/
def Rpc.resume (rpc : Rpc) (chain : Chain) (lastLedger : Int) (cursor : Option String) : Nat :=
  rpc.position chain (getEvents (lastLedger.toNat + 1) cursor)

/-- Where a pass would start if it started now. -/
def rowPosition (rpc : Rpc) (contractId : String) (s : State) : Nat :=
  rpc.resume s.chain (loadCursor s.db contractId).1 (loadCursor s.db contractId).2

/-- The page is the documented answer to the request the pass has sent. -/
def State.Answered (rpc : Rpc) (s : State) (position : Nat) (page : EventsPage) : Prop :=
  match s.phase with
  | .fetching lastLedger cursor =>
      match startLedger lastLedger with
      | some start => rpc.Answers s.chain start cursor position page
      | none => True
  | _ => True

/-- What is assumed of the world around the indexer. Ledgers close in order and bring their
events with them, the RPC server answers as documented, and an operator only sets the cursor
back to an earlier position.
-/
def Documented (rpc : Rpc) (contractId : String) (s : State) : Action → Prop
  | .grow events head =>
      s.chain.head ≤ head
      ∧ ∀ raw ∈ events, s.chain.head < raw.ledger.toNat ∧ raw.ledger.toNat ≤ head
  | .respond position page => s.Answered rpc position page
  | .resetCursor lastLedger cursor =>
      0 ≤ lastLedger ∧ lastLedger < 2 ^ 63 ∧ lastLedger ≤ s.chain.head
      ∧ rpc.resume s.chain lastLedger cursor ≤ rowPosition rpc contractId s
  | _ => True

instance (rpc : Rpc) (chain : Chain) (startLedger : Nat) (cursor : Option String)
    (position : Nat) (page : EventsPage)
    : Decidable (rpc.Answers chain startLedger cursor position page) :=
  inferInstanceAs (Decidable (_ ∧ _))

instance (rpc : Rpc) (s : State) (position : Nat) (page : EventsPage)
    : Decidable (s.Answered rpc position page) := by
  unfold State.Answered
  split
  · split
    · infer_instance
    · exact isTrue trivial
  · exact isTrue trivial

instance (rpc : Rpc) (contractId : String) (s : State)
    : (action : Action) → Decidable (Documented rpc contractId s action)
  | .grow _ _ => inferInstanceAs (Decidable (_ ∧ _))
  | .respond position page => inferInstanceAs (Decidable (s.Answered rpc position page))
  | .resetCursor _ _ => inferInstanceAs (Decidable (_ ∧ _))
  | .start _ | .rpcError | .statement _ | .nextEvent | .persist _ | .crash => isTrue trivial

/-- Ledgers are numbered from one and the events of every closed ledger are known. -/
def Chain.Closed (chain : Chain) : Prop :=
  ∀ raw ∈ chain.events, 1 ≤ raw.ledger.toNat ∧ raw.ledger.toNat ≤ chain.head

/-- A position of a pass: everything before it has been handled. -/
structure Reached (rpc : Rpc) (s : State) (lastLedger : Int) (cursor : Option String) : Prop where
  nonneg : 0 ≤ lastLedger
  fits : lastLedger < 2 ^ 63
  closed : lastLedger ≤ s.chain.head
  within : rpc.resume s.chain lastLedger cursor ≤ s.chain.events.length
  handled : ∀ i < rpc.resume s.chain lastLedger cursor, i ∈ s.handled

/-- The middle of a page: `raw` is the event at `position` and `rest` follows it, up to the
token of the page.
-/
structure Storing (rpc : Rpc) (codec : Codec) (contractId : String) (s : State)
    (lastLedger : Int) (page : EventsPage) (position : Nat) (todo : List Statement)
    (raw : RawEvent) (rest : List RawEvent)
    : Prop where
  nonneg : 0 ≤ lastLedger
  fits : lastLedger < 2 ^ 63
  closed : lastLedger ≤ s.chain.head
  ahead : rowPosition rpc contractId s ≤ position
  events : raw :: rest <+: s.chain.events.drop position
  nonempty : page.events ≠ []
  cursor : page.cursor = some (rpc.cursorAt (position + 1 + rest.length))
  suffix : todo <:+ storeRaw codec contractId raw
  progress
    : ∀ st ∈ storeRaw codec contractId raw, st ∈ todo ∨ (position, st) ∈ s.log
  handled : ∀ i < position, i ∈ s.handled

/-- What the memory of the running pass is worth. -/
def PhaseSafe (rpc : Rpc) (codec : Codec) (contractId : String) (s : State) : Phase → Prop
  | .idle => True
  | .fetching lastLedger cursor | .persisting lastLedger cursor _ =>
      Reached rpc s lastLedger cursor
      ∧ rowPosition rpc contractId s ≤ rpc.resume s.chain lastLedger cursor
  | .storing lastLedger page position todo raw rest =>
      Storing rpc codec contractId s lastLedger page position todo raw rest

/-- The invariant of ingestion. -/
structure Safe (rpc : Rpc) (codec : Codec) (contractId : String) (s : State) : Prop where
  closed : s.chain.Closed
  row : Reached rpc s (loadCursor s.db contractId).1 (loadCursor s.db contractId).2
  inside : ∀ i ∈ s.handled, i < s.chain.events.length
  executed
    : ∀ i ∈ s.handled, ∀ raw, s.chain.events[i]? = some raw
        → ∀ st ∈ storeRaw codec contractId raw, (i, st) ∈ s.log
  logged
    : ∀ entry ∈ s.log, ∃ raw, s.chain.events[entry.1]? = some raw
        ∧ entry.2 ∈ storeRaw codec contractId raw
  memory : PhaseSafe rpc codec contractId s s.phase

@[simp]
theorem resume_cursorAt (rpc : Rpc) (chain : Chain) (lastLedger : Int) (n : Nat)
    : rpc.resume chain lastLedger (some (rpc.cursorAt n)) = n :=
  rpc.positionOf_cursorAt n

/-- Without a token the position is the number of events up to the ledger. -/
theorem resume_none (rpc : Rpc) (chain : Chain) (lastLedger : Int)
    : rpc.resume chain lastLedger none
      = (chain.events.takeWhile
          (fun raw => decide (raw.ledger.toNat < lastLedger.toNat + 1))).length := by
  simp [Rpc.resume, getEvents, Rpc.position]

theorem resume_none_le (rpc : Rpc) (chain : Chain) (lastLedger : Int)
    : rpc.resume chain lastLedger none ≤ chain.events.length := by
  rw [resume_none]
  exact (List.takeWhile_prefix _).length_le

/-- Events of later ledgers do not move a position. -/
theorem resume_grow (rpc : Rpc) {chain : Chain} {events : List RawEvent} {head : Nat}
    (later : ∀ raw ∈ events, chain.head < raw.ledger.toNat) {lastLedger : Int}
    (closed : lastLedger ≤ chain.head) (cursor : Option String)
    : rpc.resume ⟨chain.events ++ events, head⟩ lastLedger cursor
      = rpc.resume chain lastLedger cursor := by
  cases cursor with
  | some token => rfl
  | none =>
      rw [resume_none, resume_none]
      have stop : events.takeWhile
          (fun raw => decide (raw.ledger.toNat < lastLedger.toNat + 1)) = [] := by
        cases events with
        | nil => rfl
        | cons raw rest =>
            have above := later raw (by simp)
            refine List.takeWhile_cons_of_neg ?_
            simp only [decide_eq_true_eq]
            omega
      rw [List.takeWhile_append, stop, List.append_nil]
      split
      next whole => rw [whole]
      next => rfl

/-- Once all events are passed, raising the ledger does not move the position either. -/
theorem resume_raise (rpc : Rpc) {chain : Chain} {lastLedger next : Int}
    {cursor : Option String} (raised : lastLedger ≤ next)
    (done : rpc.resume chain lastLedger cursor = chain.events.length)
    : rpc.resume chain next cursor = chain.events.length := by
  cases cursor with
  | some token => exact done
  | none =>
      rw [resume_none] at done ⊢
      have all := List.takeWhile_eq_self_iff.mp
        ((List.takeWhile_prefix _).eq_of_length done)
      refine congrArg List.length (List.takeWhile_eq_self_iff.mpr ?_)
      intro raw member
      have early := all raw member
      simp only [decide_eq_true_eq] at early ⊢
      omega

-----------------------------------------------------------------------------------------
-- Every documented step is safe
-----------------------------------------------------------------------------------------

/-- The chain of one state continues that of another. -/
def Chain.Continues (chain next : Chain) : Prop :=
  ∃ events,
    next.events = chain.events ++ events
    ∧ chain.head ≤ next.head
    ∧ ∀ raw ∈ events, chain.head < raw.ledger.toNat

theorem Chain.Continues.refl (chain : Chain) : chain.Continues chain :=
  ⟨[], by simp, le_rfl, by simp⟩

theorem Chain.Continues.resume {chain next : Chain} (h : chain.Continues next) (rpc : Rpc)
    {lastLedger : Int} (closed : lastLedger ≤ chain.head) (cursor : Option String)
    : rpc.resume next lastLedger cursor = rpc.resume chain lastLedger cursor := by
  obtain ⟨events, same, _, later⟩ := h
  have shape : next = ⟨chain.events ++ events, next.head⟩ := by rw [← same]
  rw [shape]
  exact resume_grow rpc later closed cursor

theorem Reached.mono {rpc : Rpc} {s t : State} {lastLedger : Int} {cursor : Option String}
    (h : Reached rpc s lastLedger cursor) (chain : s.chain.Continues t.chain)
    (handled : s.handled ⊆ t.handled)
    : Reached rpc t lastLedger cursor := by
  have same := chain.resume rpc h.closed cursor
  obtain ⟨events, extended, above, _⟩ := chain
  refine ⟨h.nonneg, h.fits, h.closed.trans (Int.ofNat_le.mpr above), ?_, ?_⟩
  · rw [same, extended, List.length_append]
    exact h.within.trans (Nat.le_add_right _ _)
  · rw [same]
    exact fun i before => handled (h.handled i before)

/-- The memory of a pass stays good while the world moves on behind it. -/
theorem PhaseSafe.mono {rpc : Rpc} {s t : State} {phase : Phase}
    (h : PhaseSafe rpc codec contractId s phase) (chain : s.chain.Continues t.chain)
    (row : rowPosition rpc contractId t ≤ rowPosition rpc contractId s)
    (handled : s.handled ⊆ t.handled) (log : s.log ⊆ t.log)
    : PhaseSafe rpc codec contractId t phase := by
  have reached {lastLedger : Int} {cursor : Option String}
      (h : Reached rpc s lastLedger cursor
        ∧ rowPosition rpc contractId s ≤ rpc.resume s.chain lastLedger cursor)
      : Reached rpc t lastLedger cursor
        ∧ rowPosition rpc contractId t ≤ rpc.resume t.chain lastLedger cursor := by
    refine ⟨h.1.mono chain handled, ?_⟩
    rw [chain.resume rpc h.1.closed cursor]
    exact row.trans h.2
  cases phase with
  | idle => trivial
  | fetching => exact reached h
  | persisting => exact reached h
  | storing lastLedger page position todo raw rest =>
      obtain ⟨events, extended, above, _⟩ := chain
      refine {
        nonneg := h.nonneg
        fits := h.fits
        closed := h.closed.trans (Int.ofNat_le.mpr above)
        ahead := row.trans h.ahead
        events := ?_
        nonempty := h.nonempty
        cursor := h.cursor
        suffix := h.suffix
        progress := fun st member => (h.progress st member).imp_right (fun logged => log logged)
        handled := fun i before => handled (h.handled i before)
      }
      rw [extended, List.drop_append]
      exact h.events.trans (List.prefix_append _ _)

/-- The loop over the rest of a nonempty page keeps its position in the history. -/
theorem forEvents_safe {rpc : Rpc} {s : State} {lastLedger : Int} {page : EventsPage}
    {position : Nat} {raws : List RawEvent} (nonneg : 0 ≤ lastLedger)
    (fits : lastLedger < 2 ^ 63) (closed : lastLedger ≤ s.chain.head)
    (ahead : rowPosition rpc contractId s ≤ position)
    (events : raws <+: s.chain.events.drop position)
    (within : position ≤ s.chain.events.length) (nonempty : page.events ≠ [])
    (cursor : page.cursor = some (rpc.cursorAt (position + raws.length)))
    (handled : ∀ i < position, i ∈ s.handled)
    : PhaseSafe rpc codec contractId s
        (forEvents codec contractId lastLedger page position raws) := by
  cases raws with
  | nil =>
      have more : page.events.isEmpty = false := by simpa using nonempty
      rw [List.length_nil, Nat.add_zero] at cursor
      simp only [forEvents, afterEvents, more, PhaseSafe, cursor, Bool.false_eq_true, if_false]
      refine ⟨⟨nonneg, fits, closed, ?_, ?_⟩, ?_⟩
      · rwa [resume_cursorAt]
      · rwa [resume_cursorAt]
      · rwa [resume_cursorAt]
  | cons raw rest =>
      exact {
        nonneg
        fits
        closed
        ahead
        events
        nonempty
        cursor := by rw [cursor, List.length_cons, Nat.add_right_comm, Nat.add_assoc]
        suffix := List.suffix_rfl
        progress := fun st member => Or.inl member
        handled
      }

/-- The page the pass gets is the answer to its request. -/
theorem Reached.answers {rpc : Rpc} {s : State} {lastLedger : Int} {cursor : Option String}
    (h : Reached rpc s lastLedger cursor) (phase : s.phase = .fetching lastLedger cursor)
    {position : Nat} {page : EventsPage}
    (documented : Documented rpc contractId s (.respond position page))
    : rpc.Answers s.chain (lastLedger.toNat + 1) cursor position page := by
  simp only [Documented, State.Answered, phase, startLedger_eq h.nonneg h.fits] at documented
  exact documented

/-- An empty page stands at the end of the history, and so does the position it is followed by. -/
theorem Reached.exhausted {rpc : Rpc} {s : State} {lastLedger : Int} {cursor : Option String}
    (h : Reached rpc s lastLedger cursor) {position : Nat} {page : EventsPage}
    (answers : rpc.Answers s.chain (lastLedger.toNat + 1) cursor position page)
    (empty : page.events = [])
    : rpc.resume s.chain lastLedger cursor = s.chain.events.length
      ∧ rpc.resume s.chain (max lastLedger (asI64 page.latestLedger)) page.cursor
        = s.chain.events.length := by
  obtain ⟨rfl, _, _, exhausted, token, _⟩ := answers
  have done : rpc.resume s.chain lastLedger cursor = s.chain.events.length :=
    Nat.le_antisymm h.within (exhausted empty)
  have kept : page.cursor = cursor := token.trans (if_pos (by simp [empty]))
  rw [kept]
  exact ⟨done, resume_raise rpc (le_max_left _ _) done⟩

/-- An answered page puts the pass in the middle of the page, or at the end of the history. -/
theorem respond_safe {rpc : Rpc} {s : State} {lastLedger : Int} {cursor : Option String}
    {position : Nat} {page : EventsPage} (h : Reached rpc s lastLedger cursor)
    (ahead : rowPosition rpc contractId s ≤ rpc.resume s.chain lastLedger cursor)
    (answers : rpc.Answers s.chain (lastLedger.toNat + 1) cursor position page)
    : PhaseSafe rpc codec contractId s
        (forEvents codec contractId lastLedger page position page.events) := by
  have exhausted := h.exhausted answers
  obtain ⟨rfl, block, _, _, token, latest⟩ := answers
  by_cases empty : page.events = []
  · obtain ⟨done, raised⟩ := exhausted empty
    have upper := asI64_le page.latestLedger
    rw [empty]
    simp only [forEvents, afterEvents, empty, List.isEmpty_nil, if_true, PhaseSafe]
    refine ⟨⟨h.nonneg.trans (le_max_left _ _), max_lt h.fits (asI64_lt _), ?_, ?_, ?_⟩, ?_⟩
    · exact max_le h.closed (upper.trans (Int.ofNat_le.mpr latest))
    · rw [raised]
    · rw [raised, ← done]
      exact h.handled
    · rw [raised, ← done]
      exact ahead
  · have full : page.events.isEmpty = false := by simpa using empty
    simp only [full, Bool.false_eq_true, if_false] at token
    exact forEvents_safe h.nonneg h.fits h.closed ahead block h.within empty token h.handled

/-- The head of a block that starts at a position is the event of that number. -/
theorem event_of_block {events : List RawEvent} {position : Nat} {raw : RawEvent}
    {rest : List RawEvent} (h : raw :: rest <+: events.drop position)
    : events[position]? = some raw := by
  obtain ⟨more, shape⟩ := h
  have first := congrArg (fun events => events[0]?) shape
  simpa using first.symm

theorem Storing.event {rpc : Rpc} {s : State} {lastLedger : Int} {page : EventsPage}
    {position : Nat} {todo : List Statement} {raw : RawEvent} {rest : List RawEvent}
    (h : Storing rpc codec contractId s lastLedger page position todo raw rest)
    : s.chain.events[position]? = some raw :=
  event_of_block h.events

/-- The rest of the page starts at the next position. -/
theorem Storing.following {rpc : Rpc} {s : State} {lastLedger : Int} {page : EventsPage}
    {position : Nat} {todo : List Statement} {raw : RawEvent} {rest : List RawEvent}
    (h : Storing rpc codec contractId s lastLedger page position todo raw rest)
    : rest <+: s.chain.events.drop (position + 1) := by
  obtain ⟨more, shape⟩ := h.events
  refine ⟨more, ?_⟩
  rw [← List.drop_drop, ← shape]
  rfl

/-- A pass that stops early leaves the invariant with the stored row. -/
theorem Safe.interrupted {rpc : Rpc} {s : State} (h : Safe rpc codec contractId s)
    : Safe rpc codec contractId s.interrupted :=
  { h with row := ⟨h.row.nonneg, h.row.fits, h.row.closed, h.row.within, h.row.handled⟩
           memory := trivial }

/-- An applied statement of the current event is logged and touches no cursor. -/
theorem Safe.applied {rpc : Rpc} {s : State} (h : Safe rpc codec contractId s)
    {lastLedger : Int} {page : EventsPage} {position : Nat} {st : Statement}
    {todo : List Statement} {raw : RawEvent} {rest : List RawEvent} {db : Db}
    (storing
      : Storing rpc codec contractId s lastLedger page position (st :: todo) raw rest)
    (result : st.exec s.db = .ok db)
    : Safe rpc codec contractId
        { s.applied db position st with
          phase := .storing lastLedger page position todo raw rest } := by
  have row := loadCursor_exec contractId result
  refine {
    closed := h.closed
    row := ?_
    inside := h.inside
    executed := fun i handled raw found st member =>
      List.mem_append_left _ (h.executed i handled raw found st member)
    logged := ?_
    memory := ?_
  }
  · change Reached rpc _ (loadCursor db contractId).1 (loadCursor db contractId).2
    rw [row]
    exact h.row.mono (.refl _) (List.Subset.refl _)
  · intro entry member
    rcases List.mem_append.mp member with old | new
    · exact h.logged entry old
    · obtain rfl := List.mem_singleton.mp new
      exact ⟨raw, storing.event, storing.suffix.subset (by simp)⟩
  · exact {
      storing with
      ahead := by
        change rpc.resume s.chain (loadCursor db contractId).1 (loadCursor db contractId).2
          ≤ position
        rw [row]
        exact storing.ahead
      suffix := (List.suffix_cons st todo).trans storing.suffix
      progress := by
        intro other member
        rcases storing.progress other member with waiting | logged
        · rcases List.mem_cons.mp waiting with rfl | later
          · exact Or.inr (List.mem_append_right _ (List.mem_singleton_self _))
          · exact Or.inl later
        · exact Or.inr (List.mem_append_left _ logged)
    }

/-- Saving a reached position makes it the stored one. -/
theorem Safe.saved {rpc : Rpc} {s : State} (h : Safe rpc codec contractId s)
    {lastLedger : Int} {cursor : Option String} {phase : Phase}
    (reached : Reached rpc s lastLedger cursor)
    (memory
      : PhaseSafe rpc codec contractId
          { s with db := saveCursor s.db contractId lastLedger cursor } phase)
    : Safe rpc codec contractId
        { s with db := saveCursor s.db contractId lastLedger cursor, phase } :=
  { h with
    row := by
      rw [loadCursor_saveCursor]
      exact reached.mono (.refl _) (List.Subset.refl _)
    memory := memory.mono (.refl _) le_rfl (List.Subset.refl _) (List.Subset.refl _) }

theorem rowPosition_saved (rpc : Rpc) (s : State) (lastLedger : Int) (cursor : Option String)
    : rowPosition rpc contractId { s with db := saveCursor s.db contractId lastLedger cursor }
      = rpc.resume s.chain lastLedger cursor := by
  simp [rowPosition]

/-- Every documented step keeps the invariant, whether or not a call fails in it. -/
theorem step_safe {rpc : Rpc} {s t : State} {action : Action}
    (documented : Documented rpc contractId s action) (h : Safe rpc codec contractId s)
    (stepped : step codec contractId s action = some t)
    : Safe rpc codec contractId t := by
  cases step_effect stepped with
  | grow events head =>
      obtain ⟨above, later⟩ := documented
      have chain : s.chain.Continues ⟨s.chain.events ++ events, head⟩ :=
        ⟨events, rfl, above, fun raw member => (later raw member).1⟩
      have row : rowPosition rpc contractId { s with chain := ⟨s.chain.events ++ events, head⟩ }
          = rowPosition rpc contractId s :=
        chain.resume rpc h.row.closed _
      refine {
        closed := ?_
        row := h.row.mono chain (List.Subset.refl _)
        inside := fun i handled => by
          rw [List.length_append]
          exact Nat.lt_add_right _ (h.inside i handled)
        executed := ?_
        logged := ?_
        memory := h.memory.mono chain (le_of_eq row) (List.Subset.refl _) (List.Subset.refl _)
      }
      · intro raw member
        rcases List.mem_append.mp member with old | new
        · exact ⟨(h.closed raw old).1, (h.closed raw old).2.trans above⟩
        · have bounds := later raw new
          exact ⟨by omega, bounds.2⟩
      · intro i handled raw found
        refine h.executed i handled raw ?_
        rwa [List.getElem?_append_left (h.inside i handled)] at found
      · intro entry member
        obtain ⟨raw, found, issued⟩ := h.logged entry member
        have inside := (List.getElem?_eq_some_iff.mp found).1
        exact ⟨raw, by rwa [List.getElem?_append_left inside], issued⟩
  | notStarted => exact h
  | started idle row =>
      have reached := h.row
      simp only [row] at reached
      refine { h with row := h.row.mono (.refl _) (List.Subset.refl _), memory := ?_ }
      refine ⟨reached.mono (.refl _) (List.Subset.refl _), le_of_eq ?_⟩
      simp [rowPosition, row]
  | @responded lastLedger cursor start position page phase asked =>
      have memory := h.memory
      rw [phase] at memory
      obtain ⟨reached, ahead⟩ := memory
      have answers := reached.answers phase documented
      refine { h with row := h.row.mono (.refl _) (List.Subset.refl _), memory := ?_ }
      exact (respond_safe reached ahead answers).mono (.refl _) le_rfl (List.Subset.refl _)
        (List.Subset.refl _)
  | executed phase result =>
      have memory := h.memory
      rw [phase] at memory
      exact h.applied memory result
  | lost phase result =>
      have memory := h.memory
      rw [phase] at memory
      exact (h.applied memory result).interrupted
  | @nextEvent lastLedger page position raw rest phase =>
      have memory := h.memory
      rw [phase] at memory
      have storing : Storing rpc codec contractId s lastLedger page position [] raw rest := memory
      have inside := (List.getElem?_eq_some_iff.mp storing.event).1
      have ledger := (h.closed raw (List.mem_of_getElem? storing.event)).2
      have upper := asI64_le raw.ledger
      have passed : ∀ i < position + 1, i ∈ s.handled ++ [position] := by
        intro i before
        rcases Nat.lt_succ_iff_lt_or_eq.mp before with earlier | rfl
        · exact List.mem_append_left _ (storing.handled i earlier)
        · exact List.mem_append_right _ (List.mem_singleton_self _)
      refine {
        closed := h.closed
        row := h.row.mono (.refl _) (List.subset_append_left _ _)
        inside := ?_
        executed := ?_
        logged := h.logged
        memory := ?_
      }
      · intro i member
        rcases List.mem_append.mp member with old | new
        · exact h.inside i old
        · exact List.mem_singleton.mp new ▸ inside
      · intro i member other found st issued
        rcases List.mem_append.mp member with old | new
        · exact h.executed i old other found st issued
        · obtain rfl := List.mem_singleton.mp new
          obtain rfl := Option.some.inj (storing.event.symm.trans found)
          rcases storing.progress st issued with waiting | logged
          · cases waiting
          · exact logged
      · have safe : PhaseSafe rpc codec contractId { s with handled := s.handled ++ [position] }
            (forEvents codec contractId (max lastLedger (asI64 raw.ledger)) page (position + 1)
              rest) :=
          forEvents_safe (storing.nonneg.trans (le_max_left _ _))
            (max_lt storing.fits (asI64_lt _))
            (max_le storing.closed (upper.trans (Int.ofNat_le.mpr ledger)))
            (storing.ahead.trans (Nat.le_succ _)) storing.following inside storing.nonempty
            storing.cursor passed
        exact safe.mono (.refl _) le_rfl (List.Subset.refl _) (List.Subset.refl _)
  | @persisted lastLedger cursor done phase =>
      have memory := h.memory
      rw [phase] at memory
      obtain ⟨reached, ahead⟩ := memory
      refine h.saved reached ?_
      cases done with
      | true => trivial
      | false =>
          refine ⟨reached.mono (.refl _) (List.Subset.refl _), ?_⟩
          rw [rowPosition_saved]
  | @persistLost lastLedger cursor done phase =>
      have memory := h.memory
      rw [phase] at memory
      exact h.saved memory.1 trivial
  | @resetCursor lastLedger cursor =>
      obtain ⟨nonneg, fits, closed, back⟩ := documented
      refine h.saved ⟨nonneg, fits, closed, back.trans h.row.within, ?_⟩ ?_
      · exact fun i before => h.row.handled i (Nat.lt_of_lt_of_le before back)
      · refine h.memory.mono (.refl _) ?_ (List.Subset.refl _) (List.Subset.refl _)
        rw [rowPosition_saved]
        exact back
  | overflowed | rpcError | notExecuted | notPersisted | crash => exact h.interrupted
  | undone => exact { h.interrupted with row := { h.interrupted.row with } }

theorem init_safe (rpc : Rpc) : Safe rpc codec contractId State.init where
  closed := by simp [Chain.Closed, State.init]
  row := by
    have start : rpc.resume State.init.chain 0 none = 0 :=
      Nat.le_zero.mp (resume_none_le rpc State.init.chain 0)
    refine ⟨le_rfl, show (0 : Int) < 2 ^ 63 by decide, le_rfl, ?_, ?_⟩
    · exact resume_none_le rpc State.init.chain 0
    · intro i before
      exact absurd (start ▸ before) (Nat.not_lt_zero i)
  inside := by simp [State.init]
  executed := by simp [State.init]
  logged := by simp [State.init]
  memory := trivial

theorem run_safe {rpc : Rpc} {s : State} {actions : List Action}
    (documented
      : Machine.Along (step codec contractId) (Documented rpc contractId) State.init actions)
    (ran : Machine.run (step codec contractId) State.init actions = some s)
    : Safe rpc codec contractId s :=
  Machine.invariant_along (fun _ _ _ => step_safe) (init_safe rpc) documented ran

/-- Whatever fails and wherever passes stop: the next start ledger can always be computed, the
stored ledger never decreases, and every decodable event before the stored position has been
stored. Only the last part relies on the server.
-/
theorem cursor_behind_stored (rpc : Rpc) (codec : Codec) (contractId : String)
    {actions : List Action} {s : State} (noReset : ∀ action ∈ actions, ¬ action.IsReset)
    (ran : Machine.run (step codec contractId) State.init actions = some s)
    : (∀ lastLedger cursor, s.phase = .fetching lastLedger cursor
        → ∃ start, startLedger lastLedger = some start)
      ∧ (∀ earlier later middle, actions = earlier ++ later
        → Machine.run (step codec contractId) State.init earlier = some middle
        → (loadCursor middle.db contractId).1 ≤ (loadCursor s.db contractId).1)
      ∧ (Machine.Along (step codec contractId) (Documented rpc contractId) State.init actions
        → rowPosition rpc contractId s ≤ s.chain.events.length
          ∧ ∀ i raw,
              i < rowPosition rpc contractId s → s.chain.events[i]? = some raw
              → (codec.decode raw).isSome = true
              → i ∈ s.handled ∧ ∀ st ∈ storeRaw codec contractId raw, (i, st) ∈ s.log) := by
  have bounded := (run_ledger noReset init_ledgersBounded ran).1
  refine ⟨?_, ?_, ?_⟩
  · intro lastLedger cursor phase
    obtain ⟨above, fits⟩ := bounded.memory lastLedger (by rw [phase]; rfl)
    exact ⟨_, startLedger_eq (bounded.nonneg.trans above) fits⟩
  · intro earlier later middle split first
    subst split
    obtain ⟨_, same, second⟩ := Machine.run_append.mp ran
    obtain rfl := Option.some.inj (first.symm.trans same)
    have start := (run_ledger (fun action member => noReset action (List.mem_append_left _ member))
      init_ledgersBounded first).1
    exact (run_ledger (fun action member => noReset action (List.mem_append_right _ member)) start
      second).2
  · intro documented
    have safe := run_safe documented ran
    refine ⟨safe.row.within, ?_⟩
    intro i raw before found _
    have handled := safe.row.handled i before
    exact ⟨handled, safe.executed i handled raw found⟩

/-- A server for concrete runs, with unary tokens. -/
def sampleRpc : Rpc where
  cursorAt n := String.ofList (List.replicate n '1')
  positionOf token := token.toList.length
  positionOf_cursorAt n := by simp

def sampleHistory (i : Nat) : List RawEvent :=
  [sampleEvent "new_commitment" (sampleDeposit i) 42, sampleEvent "note" (sampleNote i) 42]

/-- A deposit and its note are fetched and stored in one page. -/
def storePage : List Action :=
  [.grow (sampleHistory 0) 42, .start true,
    .respond 0 ⟨sampleHistory 0, some (sampleRpc.cursorAt 2), 42⟩,
    .statement .ok, .statement .ok, .nextEvent, .statement .ok, .nextEvent]

theorem cursor_behind_stored_page
    : ∃ s,
        Machine.run (step (sampleCodec 1) "CPOOL") State.init (storePage ++ [.persist .ok])
          = some s
        ∧ rowPosition sampleRpc "CPOOL" s = 2
        ∧ 0 ∈ s.handled := by
  have observed
      : (Machine.run (step (sampleCodec 1) "CPOOL") State.init
          (storePage ++ [.persist .ok])).map
            (fun s => (rowPosition sampleRpc "CPOOL" s, s.chain.events))
        = some (2, sampleHistory 0) := by
    decide +kernel
  obtain ⟨s, ran, shape⟩ := Option.map_eq_some_iff.mp observed
  obtain ⟨position, events⟩ := Prod.mk.inj shape
  have documented
      : Machine.Along (step (sampleCodec 1) "CPOOL") (Documented sampleRpc "CPOOL") State.init
          (storePage ++ [.persist .ok]) := by
    decide +kernel
  have noReset : ∀ action ∈ storePage ++ [.persist .ok], ¬ action.IsReset := by
    simp [storePage, Action.IsReset]
  obtain ⟨_, _, stored⟩ :=
    cursor_behind_stored sampleRpc (sampleCodec 1) "CPOOL" noReset ran
  obtain ⟨_, before⟩ := stored documented
  obtain ⟨handled, _⟩ := before 0 (sampleEvent "new_commitment" (sampleDeposit 0) 42)
    (by omega) (by rw [events]; rfl) (by decide +kernel)
  exact ⟨s, ran, position, handled⟩

end Attesta.Indexer.Sync
