import Mathlib.Data.List.TakeWhile
import Attesta.Indexer.SyncSafety

/-! A server that leaves the pagination token out. The pass then goes on with the ledger after
the last one it has seen, which says nothing about where in a ledger the page has ended.
-/

namespace Attesta.Indexer.Sync

variable {codec : Codec} {contractId : String}

/-- The documented answer, save that any page may come without its token. -/
def Rpc.AnswersOmitting (rpc : Rpc) (chain : Chain) (startLedger : Nat) (cursor : Option String)
    (position : Nat) (page : EventsPage)
    : Prop :=
  let token :=
    if page.events.isEmpty then cursor
    else some (rpc.cursorAt (position + page.events.length))
  (page.cursor = none ∨ page.cursor = token)
  ∧ rpc.Answers chain startLedger cursor position { page with cursor := token }

/-- The ledger and the token the pass is about to ask with. -/
def Phase.request? : Phase → Option (Int × Option String)
  | .fetching lastLedger cursor => some (lastLedger, cursor)
  | _ => none

/-- The page is an answer to the request the pass has sent. -/
def State.AnsweredOmitting (rpc : Rpc) (s : State) (position : Nat) (page : EventsPage) : Prop :=
  ∀ request ∈ s.phase.request?, ∀ start ∈ startLedger request.1,
    rpc.AnswersOmitting s.chain start request.2 position page

/-- The world around a pass that nobody resets: the history grows ledger by ledger and in the
order of its ledgers.
-/
def DocumentedOmitting (rpc : Rpc) (s : State) : Action → Prop
  | .grow events head =>
      s.chain.head ≤ head
      ∧ (∀ raw ∈ events, s.chain.head < raw.ledger.toNat ∧ raw.ledger.toNat ≤ head)
      ∧ events.Pairwise (fun earlier later => earlier.ledger.toNat ≤ later.ledger.toNat)
  | .respond position page => s.AnsweredOmitting rpc position page
  | .resetCursor _ _ => False
  | _ => True

/-- A page without a token leaves no event of its last ledger behind that is still to be
handled. A ledger from 2^63 on is negative as an `i64`, and `last_ledger` never gets there.
-/
def FinishesLedger (s : State) : Action → Prop
  | .respond position page =>
      page.cursor = none
      → ∀ last ∈ page.events.getLast?,
          last.ledger.toNat < 2 ^ 63
          → ∀ i < s.chain.events.length,
              position + page.events.length ≤ i
              → (s.chain.events[i]?).map RawEvent.ledger = some last.ledger
              → i ∈ s.handled
  | _ => True

/-- Every call of the step succeeds. -/
def Succeeds (s : State) : Action → Prop
  | .statement .ok =>
      match s.phase with
      | .storing _ _ _ (st :: _) _ _ => (st.exec s.db).toBool = true
      | _ => True
  | .rpcError | .statement (.failed _) | .statement .undone | .persist (.failed _)
  | .persist .undone | .crash | .resetCursor _ _ => False
  | .grow _ _ | .start _ | .respond _ _ | .nextEvent | .persist .ok => True

def Action.IsGrowth : Action → Prop
  | .grow _ _ => True
  | _ => False

/-- `store_event` has returned for the event, and all it had to issue has been applied. -/
def State.Processed (codec : Codec) (contractId : String) (s : State) (i : Nat) : Prop :=
  ∃ raw, s.chain.events[i]? = some raw
    ∧ i ∈ s.handled
    ∧ ∀ st ∈ storeRaw codec contractId raw, (i, st) ∈ s.log

instance (rpc : Rpc) (chain : Chain) (startLedger : Nat) (cursor : Option String)
    (position : Nat) (page : EventsPage)
    : Decidable (rpc.AnswersOmitting chain startLedger cursor position page) :=
  inferInstanceAs (Decidable (_ ∧ _))

instance (rpc : Rpc) (s : State) (position : Nat) (page : EventsPage)
    : Decidable (s.AnsweredOmitting rpc position page) :=
  inferInstanceAs (Decidable (∀ request ∈ s.phase.request?, ∀ start ∈ startLedger request.1, _))

instance (rpc : Rpc) (s : State) : (action : Action) → Decidable (DocumentedOmitting rpc s action)
  | .grow _ _ => inferInstanceAs (Decidable (_ ∧ _))
  | .respond position page => inferInstanceAs (Decidable (s.AnsweredOmitting rpc position page))
  | .resetCursor _ _ => isFalse id
  | .start _ | .rpcError | .statement _ | .nextEvent | .persist _ | .crash => isTrue trivial

instance (s : State) : (action : Action) → Decidable (FinishesLedger s action)
  | .respond _ _ => inferInstanceAs (Decidable (_ → _))
  | .grow _ _ | .start _ | .rpcError | .statement _ | .nextEvent | .persist _ | .crash
  | .resetCursor _ _ => isTrue trivial

-----------------------------------------------------------------------------------------
-- Positions in an ordered history
-----------------------------------------------------------------------------------------

/-- Of a list ordered along a predicate, the items that meet it come first. -/
theorem lt_length_takeWhile {α : Type*} {p : α → Bool} {items : List α}
    (ordered : items.Pairwise (fun earlier later => p later = true → p earlier = true)) {i : Nat}
    : i < (items.takeWhile p).length ↔ ∃ a, items[i]? = some a ∧ p a = true := by
  induction items generalizing i with
  | nil => simp
  | cons first rest ih =>
      obtain ⟨before, inOrder⟩ := List.pairwise_cons.mp ordered
      by_cases holds : p first = true
      · rw [List.takeWhile_cons_of_pos holds]
        cases i with
        | zero => simp [holds]
        | succ i => simpa using ih inOrder
      · rw [List.takeWhile_cons_of_neg holds]
        constructor
        · exact fun impossible => absurd impossible (Nat.not_lt_zero i)
        · intro found
          obtain ⟨a, at_i, meets⟩ := found
          cases i with
          | zero => exact absurd (Option.some.inj at_i ▸ meets) holds
          | succ i => exact absurd (before a (List.mem_of_getElem? at_i) meets) holds

/-- The history in the order of its ledgers. -/
def Chain.Ordered (chain : Chain) : Prop :=
  chain.events.Pairwise (fun earlier later => earlier.ledger.toNat ≤ later.ledger.toNat)

/-- Without a token the pass skips exactly the events up to its ledger. -/
theorem lt_resume_none (rpc : Rpc) {chain : Chain} (ordered : chain.Ordered) {lastLedger : Int}
    (nonneg : 0 ≤ lastLedger) {i : Nat}
    : i < rpc.resume chain lastLedger none
      ↔ ∃ raw, chain.events[i]? = some raw ∧ (raw.ledger.toNat : Int) ≤ lastLedger := by
  rw [resume_none, lt_length_takeWhile]
  · refine exists_congr fun raw => and_congr_right fun _ => ?_
    rw [decide_eq_true_eq]
    omega
  · refine ordered.imp ?_
    intro earlier later order
    simp only [decide_eq_true_eq]
    omega

/-- `last_ledger` after the loop over some events. -/
def reachedLedger (lastLedger : Int) (raws : List RawEvent) : Int :=
  raws.foldl (fun ledger raw => max ledger (asI64 raw.ledger)) lastLedger

@[simp]
theorem reachedLedger_nil (lastLedger : Int) : reachedLedger lastLedger [] = lastLedger := rfl

@[simp]
theorem reachedLedger_cons (lastLedger : Int) (raw : RawEvent) (rest : List RawEvent)
    : reachedLedger lastLedger (raw :: rest)
      = reachedLedger (max lastLedger (asI64 raw.ledger)) rest := by
  rw [reachedLedger, List.foldl_cons, ← reachedLedger]

theorem le_reachedLedger (lastLedger : Int) (raws : List RawEvent)
    : lastLedger ≤ reachedLedger lastLedger raws := by
  induction raws generalizing lastLedger with
  | nil => exact le_rfl
  | cons raw rest ih =>
      rw [reachedLedger_cons]
      exact (le_max_left _ _).trans (ih _)

theorem asI64_le_reachedLedger (lastLedger : Int) {raws : List RawEvent} {raw : RawEvent}
    (member : raw ∈ raws)
    : asI64 raw.ledger ≤ reachedLedger lastLedger raws := by
  induction raws generalizing lastLedger with
  | nil => cases member
  | cons first rest ih =>
      rw [reachedLedger_cons]
      rcases List.mem_cons.mp member with rfl | later
      · exact (le_max_right _ _).trans (le_reachedLedger _ rest)
      · exact ih _ later

theorem reachedLedger_le {lastLedger bound : Int} {raws : List RawEvent}
    (first : lastLedger ≤ bound) (all : ∀ raw ∈ raws, asI64 raw.ledger ≤ bound)
    : reachedLedger lastLedger raws ≤ bound := by
  induction raws generalizing lastLedger with
  | nil => exact first
  | cons raw rest ih =>
      rw [reachedLedger_cons]
      refine ih (max_le first (all raw (by simp))) ?_
      exact fun later member => all later (List.mem_cons_of_mem raw member)

theorem reachedLedger_lt {lastLedger : Int} (fits : lastLedger < 2 ^ 63) (raws : List RawEvent)
    : reachedLedger lastLedger raws < 2 ^ 63 :=
  Int.lt_of_le_sub_one (reachedLedger_le (Int.le_sub_one_of_lt fits)
    (fun raw _ => Int.le_sub_one_of_lt (asI64_lt raw.ledger)))

/-- Two values a pass can go on with: nothing from their position on is of an earlier ledger. -/
structure Bookmark (rpc : Rpc) (chain : Chain) (lastLedger : Int) (cursor : Option String)
    : Prop where
  nonneg : 0 ≤ lastLedger
  fits : lastLedger < 2 ^ 63
  closed : lastLedger ≤ chain.head
  within : rpc.resume chain lastLedger cursor ≤ chain.events.length
  behind
    : ∀ raw ∈ chain.events.drop (rpc.resume chain lastLedger cursor),
        lastLedger ≤ raw.ledger.toNat

theorem Bookmark.mono {rpc : Rpc} {chain next : Chain} {lastLedger : Int}
    {cursor : Option String} (h : Bookmark rpc chain lastLedger cursor)
    (continues : chain.Continues next)
    : Bookmark rpc next lastLedger cursor := by
  have same := continues.resume rpc h.closed cursor
  obtain ⟨events, extended, above, later⟩ := continues
  refine ⟨h.nonneg, h.fits, h.closed.trans (Int.ofNat_le.mpr above), ?_, ?_⟩
  · rw [same, extended, List.length_append]
    exact h.within.trans (Nat.le_add_right _ _)
  · intro raw member
    rw [same, extended, List.drop_append_of_le_length h.within] at member
    rcases List.mem_append.mp member with old | new
    · exact h.behind raw old
    · exact h.closed.trans (Int.ofNat_le.mpr (later raw new).le)

/-- Without a token the ledger alone is the bookmark. -/
theorem Bookmark.without_token (rpc : Rpc) {chain : Chain} (ordered : chain.Ordered)
    {lastLedger : Int} (nonneg : 0 ≤ lastLedger) (fits : lastLedger < 2 ^ 63)
    (closed : lastLedger ≤ chain.head)
    : Bookmark rpc chain lastLedger none := by
  refine ⟨nonneg, fits, closed, resume_none_le rpc chain lastLedger, ?_⟩
  intro raw member
  obtain ⟨i, found⟩ := List.mem_iff_getElem?.mp member
  rw [List.getElem?_drop] at found
  by_contra earlier
  have passed := (lt_resume_none rpc ordered nonneg).mpr ⟨raw, found, by omega⟩
  omega

/-- A block of the history and what comes after it. -/
theorem drop_eq_block_append {events block : List RawEvent} {position : Nat}
    (h : block <+: events.drop position)
    : events.drop position = block ++ events.drop (position + block.length) := by
  rw [← List.drop_drop]
  exact (List.prefix_iff_eq_append.mp h).symm

section Page

/-- What the answer to a pass with these two values brings. -/
structure Fetched (rpc : Rpc) (chain : Chain) (lastLedger : Int) (cursor : Option String)
    (page : EventsPage)
    : Prop where
  block : page.events <+: chain.events.drop (rpc.resume chain lastLedger cursor)
  exhausted : page.events = [] → chain.events.length ≤ rpc.resume chain lastLedger cursor
  latest : page.latestLedger.toNat ≤ chain.head
  given : page.events = [] → page.cursor = none ∨ page.cursor = cursor
  token
    : page.events ≠ []
      → page.cursor = none
        ∨ page.cursor
          = some (rpc.cursorAt (rpc.resume chain lastLedger cursor + page.events.length))

variable {rpc : Rpc} {chain : Chain} {lastLedger : Int} {cursor : Option String} {position : Nat}
  {page : EventsPage}

theorem Rpc.AnswersOmitting.fetched
    (h : rpc.AnswersOmitting chain (lastLedger.toNat + 1) cursor position page)
    : position = rpc.resume chain lastLedger cursor
      ∧ Fetched rpc chain lastLedger cursor page := by
  obtain ⟨token, rfl, block, _, exhausted, _, latest⟩ := h
  refine ⟨rfl, block, exhausted, latest, ?_, ?_⟩
  · intro empty
    simpa [empty] using token
  · intro nonempty
    have more : page.events.isEmpty = false := by simpa using nonempty
    simp only [more, Bool.false_eq_true, if_false] at token
    exact token

/-- The empty page keeps the bookmark at the end of the history. -/
theorem Bookmark.at_end (h : Bookmark rpc chain lastLedger cursor) (ordered : chain.Ordered)
    (fetched : Fetched rpc chain lastLedger cursor page) (empty : page.events = [])
    : Bookmark rpc chain (max lastLedger (asI64 page.latestLedger)) page.cursor := by
  have done : rpc.resume chain lastLedger cursor = chain.events.length :=
    Nat.le_antisymm h.within (fetched.exhausted empty)
  have raised := resume_raise rpc (le_max_left lastLedger (asI64 page.latestLedger)) done
  have nonneg := h.nonneg.trans (le_max_left lastLedger (asI64 page.latestLedger))
  have fits := max_lt h.fits (asI64_lt page.latestLedger)
  have closed := max_le h.closed
    ((asI64_le page.latestLedger).trans (Int.ofNat_le.mpr fetched.latest))
  rcases fetched.given empty with none | same
  · rw [none]
    exact .without_token rpc ordered nonneg fits closed
  · rw [same]
    refine ⟨nonneg, fits, closed, le_of_eq raised, ?_⟩
    rw [raised, List.drop_length]
    exact fun raw member => by cases member

/-- No event after a page is of an earlier ledger than one of the page. -/
theorem Fetched.le_later (fetched : Fetched rpc chain lastLedger cursor page)
    (ordered : chain.Ordered) {raw later : RawEvent} (member : raw ∈ page.events)
    (after
      : later ∈ chain.events.drop (rpc.resume chain lastLedger cursor + page.events.length))
    : raw.ledger.toNat ≤ later.ledger.toNat := by
  have inOrder := ordered.drop (i := rpc.resume chain lastLedger cursor)
  rw [drop_eq_block_append fetched.block] at inOrder
  exact (List.pairwise_append.mp inOrder).2.2 raw member later after

/-- The pass never gets past the last ledger of a page. -/
theorem Fetched.reachedLedger_le_last (fetched : Fetched rpc chain lastLedger cursor page)
    (h : Bookmark rpc chain lastLedger cursor) (ordered : chain.Ordered) {last : RawEvent}
    (ends : page.events.getLast? = some last)
    : reachedLedger lastLedger page.events ≤ last.ledger.toNat := by
  obtain ⟨front, shape⟩ := List.getLast?_eq_some_iff.mp ends
  have member : last ∈ page.events := List.mem_of_getLast? ends
  have inOrder := ordered.sublist (fetched.block.sublist.trans (List.drop_sublist _ _))
  rw [shape] at inOrder
  have before := (List.pairwise_append.mp inOrder).2.2
  refine reachedLedger_le (h.behind last (fetched.block.subset member)) ?_
  intro raw inPage
  refine (asI64_le raw.ledger).trans (Int.ofNat_le.mpr ?_)
  rw [shape] at inPage
  rcases List.mem_append.mp inPage with earlier | here
  · exact before raw earlier last (List.mem_singleton_self _)
  · rw [List.mem_singleton.mp here]

/-- A page that brings events moves the bookmark, with a token and without one. -/
theorem Bookmark.after_page (h : Bookmark rpc chain lastLedger cursor)
    (ordered : chain.Ordered) (allClosed : chain.Closed)
    (fetched : Fetched rpc chain lastLedger cursor page) (nonempty : page.events ≠ [])
    : Bookmark rpc chain (reachedLedger lastLedger page.events) page.cursor := by
  have nonneg := h.nonneg.trans (le_reachedLedger lastLedger page.events)
  have fits := reachedLedger_lt h.fits page.events
  have ends := List.getLast?_eq_some_getLast nonempty
  have upper := fetched.reachedLedger_le_last h ordered ends
  have inHistory := List.mem_of_mem_drop (fetched.block.subset (List.mem_of_getLast? ends))
  have closed := upper.trans (Int.ofNat_le.mpr (allClosed _ inHistory).2)
  rcases fetched.token nonempty with none | same
  · rw [none]
    exact .without_token rpc ordered nonneg fits closed
  · rw [same]
    refine ⟨nonneg, fits, closed, ?_, ?_⟩
    · have length := fetched.block.length_le
      have within := h.within
      rw [List.length_drop] at length
      rw [resume_cursorAt]
      omega
    · rw [resume_cursorAt]
      intro raw later
      have order := fetched.le_later ordered (List.mem_of_getLast? ends) later
      exact upper.trans (Int.ofNat_le.mpr order)

end Page

/-- The ledger and the token of the next request, if nothing fails before. -/
def Phase.goesOn (contractId : String) (db : Db) : Phase → Int × Option String
  | .idle => loadCursor db contractId
  | .fetching lastLedger cursor | .persisting lastLedger cursor _ => (lastLedger, cursor)
  | .storing lastLedger page _ _ raw rest => (reachedLedger lastLedger (raw :: rest), page.cursor)

@[simp]
theorem goesOn_idle (db : Db) : Phase.idle.goesOn contractId db = loadCursor db contractId := rfl

@[simp]
theorem goesOn_fetching (db : Db) (lastLedger : Int) (cursor : Option String)
    : (Phase.fetching lastLedger cursor).goesOn contractId db = (lastLedger, cursor) := rfl

@[simp]
theorem goesOn_persisting (db : Db) (lastLedger : Int) (cursor : Option String) (done : Bool)
    : (Phase.persisting lastLedger cursor done).goesOn contractId db = (lastLedger, cursor) := rfl

@[simp]
theorem goesOn_storing (db : Db) (lastLedger : Int) (page : EventsPage) (position : Nat)
    (todo : List Statement) (raw : RawEvent) (rest : List RawEvent)
    : (Phase.storing lastLedger page position todo raw rest).goesOn contractId db
      = (reachedLedger (max lastLedger (asI64 raw.ledger)) rest, page.cursor) := by
  simp only [Phase.goesOn, reachedLedger_cons]

/-- The events of the current page that are still to be handled. -/
def Phase.Pending : Phase → Nat → Prop
  | .storing _ _ position _ _ rest, i => position ≤ i ∧ i < position + (rest.length + 1)
  | _, _ => False

/-- The position of the next request, if nothing fails before. -/
def State.upcoming (rpc : Rpc) (contractId : String) (s : State) : Nat :=
  rpc.resume s.chain (s.phase.goesOn contractId s.db).1 (s.phase.goesOn contractId s.db).2

/-- The event in hand with those that follow it in the page. -/
structure InPage (codec : Codec) (contractId : String) (s : State) (page : EventsPage)
    (position : Nat) (todo : List Statement) (raw : RawEvent) (rest : List RawEvent)
    : Prop where
  nonempty : page.events ≠ []
  events : raw :: rest <+: s.chain.events.drop position
  progress : ∀ st ∈ storeRaw codec contractId raw, st ∈ todo ∨ (position, st) ∈ s.log

def Phase.InBlock (codec : Codec) (contractId : String) (s : State) : Phase → Prop
  | .storing _ page position todo raw rest => InPage codec contractId s page position todo raw rest
  | _ => True

/-- What holds whether or not the pages carry tokens. -/
structure Tracked (rpc : Rpc) (codec : Codec) (contractId : String) (s : State) : Prop where
  closed : s.chain.Closed
  ordered : s.chain.Ordered
  row : Bookmark rpc s.chain (loadCursor s.db contractId).1 (loadCursor s.db contractId).2
  next
    : Bookmark rpc s.chain (s.phase.goesOn contractId s.db).1 (s.phase.goesOn contractId s.db).2
  block : s.phase.InBlock codec contractId s
  processed : ∀ i ∈ s.handled, s.Processed codec contractId i

theorem forEvents_goesOn (db : Db) (lastLedger : Int) {page : EventsPage} (position : Nat)
    (raws : List RawEvent) (nonempty : page.events ≠ [])
    : (forEvents codec contractId lastLedger page position raws).goesOn contractId db
      = (reachedLedger lastLedger raws, page.cursor) := by
  have more : page.events.isEmpty = false := by simpa using nonempty
  cases raws with
  | nil => simp [forEvents, afterEvents, Phase.goesOn, more]
  | cons raw rest => rfl

theorem forEvents_pending (lastLedger : Int) (page : EventsPage) (position : Nat)
    (raws : List RawEvent) (i : Nat)
    : (forEvents codec contractId lastLedger page position raws).Pending i
      ↔ position ≤ i ∧ i < position + raws.length := by
  cases raws with
  | nil =>
      simp only [forEvents, afterEvents, Phase.Pending, List.length_nil, false_iff]
      omega
  | cons raw rest => rfl

theorem forEvents_inBlock {s : State} (lastLedger : Int) {page : EventsPage} {position : Nat}
    {raws : List RawEvent} (nonempty : page.events ≠ [])
    (events : raws <+: s.chain.events.drop position)
    : (forEvents codec contractId lastLedger page position raws).InBlock codec contractId s := by
  cases raws with
  | nil => trivial
  | cons raw rest => exact ⟨nonempty, events, fun st member => Or.inl member⟩

theorem Phase.InBlock.mono {s t : State} {phase : Phase}
    (h : phase.InBlock codec contractId s) (chain : s.chain.events <+: t.chain.events)
    (log : s.log ⊆ t.log)
    : phase.InBlock codec contractId t := by
  cases phase with
  | storing lastLedger page position todo raw rest =>
      refine ⟨h.nonempty, h.events.trans ?_, ?_⟩
      · obtain ⟨events, extended⟩ := chain
        rw [← extended, List.drop_append]
        exact List.prefix_append _ _
      · exact fun st member => (h.progress st member).imp_right (fun logged => log logged)
  | idle | fetching | persisting => trivial

theorem State.Processed.mono {s t : State} {i : Nat} (h : s.Processed codec contractId i)
    (chain : s.chain.events <+: t.chain.events) (handled : s.handled ⊆ t.handled)
    (log : s.log ⊆ t.log)
    : t.Processed codec contractId i := by
  obtain ⟨raw, found, done, applied⟩ := h
  obtain ⟨events, extended⟩ := chain
  refine ⟨raw, ?_, handled done, fun st member => log (applied st member)⟩
  rw [← extended, List.getElem?_append_left (List.getElem?_eq_some_iff.mp found).1]
  exact found

-----------------------------------------------------------------------------------------
-- Every step keeps track
-----------------------------------------------------------------------------------------

/-- A step that leaves history and record alone only has to account for row and phase. -/
theorem Tracked.next_phase {rpc : Rpc} {s : State} (h : Tracked rpc codec contractId s) {db : Db}
    {phase : Phase}
    (row : Bookmark rpc s.chain (loadCursor db contractId).1 (loadCursor db contractId).2)
    (next
      : Bookmark rpc s.chain (phase.goesOn contractId db).1 (phase.goesOn contractId db).2)
    (block : phase.InBlock codec contractId s)
    : Tracked rpc codec contractId { s with db, phase } where
  closed := h.closed
  ordered := h.ordered
  row := row
  next := next
  block := block.mono List.prefix_rfl (List.Subset.refl _)
  processed i done :=
    (h.processed i done).mono List.prefix_rfl (List.Subset.refl _) (List.Subset.refl _)

/-- A pass that is cut off starts again from the row. -/
theorem Tracked.interrupted {rpc : Rpc} {s : State} (h : Tracked rpc codec contractId s)
    : Tracked rpc codec contractId s.interrupted :=
  h.next_phase h.row h.row trivial

/-- The server has applied the next statement of the event in hand. -/
theorem Tracked.applied {rpc : Rpc} {s : State} (h : Tracked rpc codec contractId s)
    {lastLedger : Int} {page : EventsPage} {position : Nat} {st : Statement}
    {todo : List Statement} {raw : RawEvent} {rest : List RawEvent} {db : Db}
    (phase : s.phase = .storing lastLedger page position (st :: todo) raw rest)
    (result : st.exec s.db = .ok db)
    : Tracked rpc codec contractId
        { s.applied db position st with
          phase := .storing lastLedger page position todo raw rest } := by
  have row := loadCursor_exec contractId result
  have next := h.next
  have block := h.block
  rw [phase] at next block
  have longer : s.log ⊆ s.log ++ [(position, st)] := List.subset_append_left _ _
  refine {
    closed := h.closed
    ordered := h.ordered
    row := ?_
    next := next
    block := ⟨block.nonempty, block.events, ?_⟩
    processed := fun i done =>
      (h.processed i done).mono List.prefix_rfl (List.Subset.refl _) longer
  }
  · change Bookmark rpc s.chain (loadCursor db contractId).1 (loadCursor db contractId).2
    rw [row]
    exact h.row
  · intro other member
    rcases block.progress other member with waiting | logged
    · rcases List.mem_cons.mp waiting with rfl | later
      · exact Or.inr (List.mem_append_right _ (List.mem_singleton_self _))
      · exact Or.inl later
    · exact Or.inr (longer logged)

/-- What the server's answer means for the request the pass has sent. -/
theorem fetched_of_documented {rpc : Rpc} {s : State} {lastLedger : Int}
    {cursor : Option String} {position : Nat} {page : EventsPage}
    (h : Tracked rpc codec contractId s) (phase : s.phase = .fetching lastLedger cursor)
    (documented : DocumentedOmitting rpc s (.respond position page))
    : Bookmark rpc s.chain lastLedger cursor
      ∧ position = rpc.resume s.chain lastLedger cursor
      ∧ Fetched rpc s.chain lastLedger cursor page := by
  have next := h.next
  rw [phase, goesOn_fetching] at next
  have start := startLedger_eq next.nonneg next.fits
  have asked : (lastLedger, cursor) ∈ s.phase.request? := by rw [phase]; rfl
  exact ⟨next, (documented _ asked _ start).fetched⟩

/-- The start ledger of a request can always be computed. -/
theorem Tracked.asks {rpc : Rpc} {s : State} (h : Tracked rpc codec contractId s)
    {lastLedger : Int} {cursor : Option String} (phase : s.phase = .fetching lastLedger cursor)
    : startLedger lastLedger ≠ none := by
  have next := h.next
  rw [phase, goesOn_fetching] at next
  rw [startLedger_eq next.nonneg next.fits]
  exact Option.some_ne_none _

theorem continues_of_documented {rpc : Rpc} {s : State} {events : List RawEvent} {head : Nat}
    (documented : DocumentedOmitting rpc s (.grow events head))
    : s.chain.Continues ⟨s.chain.events ++ events, head⟩ :=
  ⟨events, rfl, documented.1, fun raw member => (documented.2.1 raw member).1⟩

theorem step_tracked {rpc : Rpc} {s t : State} {action : Action}
    (documented : DocumentedOmitting rpc s action) (h : Tracked rpc codec contractId s)
    (stepped : step codec contractId s action = some t)
    : Tracked rpc codec contractId t := by
  cases step_effect stepped with
  | grow events head =>
      have chain := continues_of_documented documented
      obtain ⟨above, later, inOrder⟩ := documented
      refine {
        closed := ?_
        ordered := List.pairwise_append.mpr ⟨h.ordered, inOrder, ?_⟩
        row := h.row.mono chain
        next := h.next.mono chain
        block := h.block.mono (List.prefix_append _ _) (List.Subset.refl _)
        processed := fun i done =>
          (h.processed i done).mono (List.prefix_append _ _) (List.Subset.refl _)
            (List.Subset.refl _)
      }
      · intro raw member
        rcases List.mem_append.mp member with old | new
        · exact ⟨(h.closed raw old).1, (h.closed raw old).2.trans above⟩
        · have bounds := later raw new
          exact ⟨by omega, bounds.2⟩
      · exact fun old member new here => (h.closed old member).2.trans (later new here).1.le
  | notStarted => exact h
  | @started lastLedger cursor idle row =>
      have next := h.row
      rw [row] at next
      exact h.next_phase h.row next trivial
  | @responded lastLedger cursor start position page phase asked =>
      obtain ⟨here, rfl, fetched⟩ := fetched_of_documented h phase documented
      refine h.next_phase h.row ?_ ?_
      · by_cases empty : page.events = []
        · have done := here.at_end h.ordered fetched empty
          simpa [empty, forEvents, afterEvents, Phase.goesOn] using done
        · rw [forEvents_goesOn _ _ _ _ empty]
          exact here.after_page h.ordered h.closed fetched empty
      · by_cases empty : page.events = []
        · rw [empty]
          trivial
        · exact forEvents_inBlock lastLedger empty fetched.block
  | executed phase result => exact h.applied phase result
  | lost phase result => exact (h.applied phase result).interrupted
  | @nextEvent lastLedger page position raw rest phase =>
      have next := h.next
      have block := h.block
      rw [phase] at next block
      have found := event_of_block block.events
      have longer : s.handled ⊆ s.handled ++ [position] := List.subset_append_left _ _
      refine {
        closed := h.closed
        ordered := h.ordered
        row := h.row
        next := ?_
        block := ?_
        processed := ?_
      }
      · rw [forEvents_goesOn _ _ _ _ block.nonempty]
        rw [goesOn_storing] at next
        exact next
      · refine forEvents_inBlock _ block.nonempty ?_
        have following := drop_eq_block_append block.events
        exact ⟨_, by
          rw [← List.drop_drop, following]
          rfl⟩
      · intro i member
        rcases List.mem_append.mp member with old | new
        · exact (h.processed i old).mono List.prefix_rfl longer (List.Subset.refl _)
        · obtain rfl := List.mem_singleton.mp new
          refine ⟨raw, found, List.mem_append_right _ (List.mem_singleton_self _), ?_⟩
          intro st issued
          rcases block.progress st issued with waiting | logged
          · cases waiting
          · exact logged
  | @persisted lastLedger cursor done phase =>
      have next := h.next
      rw [phase] at next
      refine h.next_phase (by simpa using next) ?_ ?_
      · cases done <;> simpa using next
      · cases done <;> trivial
  | @persistLost lastLedger cursor done phase =>
      have next := h.next
      rw [phase] at next
      exact h.next_phase (by simpa using next) (by simpa using next) trivial
  | undone => exact { h.interrupted with }
  | overflowed | rpcError | notExecuted | notPersisted | crash => exact h.interrupted
  | resetCursor => exact documented.elim

theorem init_tracked (rpc : Rpc) : Tracked rpc codec contractId State.init := by
  have ordered : State.init.chain.Ordered := List.Pairwise.nil
  have start : Bookmark rpc State.init.chain 0 none :=
    .without_token rpc ordered le_rfl (show (0 : Int) < 2 ^ 63 by decide) le_rfl
  exact {
    closed := by simp [Chain.Closed, State.init]
    ordered
    row := start
    next := start
    block := trivial
    processed := by simp [State.init]
  }

/-- Whatever lies before a position the pass can go on from has been or will be handled. -/
structure Complete (rpc : Rpc) (contractId : String) (s : State) : Prop where
  row : ∀ i < rowPosition rpc contractId s, i ∈ s.handled
  next : ∀ i < s.upcoming rpc contractId, s.phase.Pending i ∨ i ∈ s.handled

theorem upcoming_eq (rpc : Rpc) {s : State} {phase : Phase} (h : s.phase = phase)
    : s.upcoming rpc contractId
      = rpc.resume s.chain (phase.goesOn contractId s.db).1 (phase.goesOn contractId s.db).2 := by
  rw [State.upcoming, h]

/-- What a pass goes past beyond its page is of the page's last ledger. -/
theorem handled_beyond_page {rpc : Rpc} {s : State} {lastLedger : Int} {cursor : Option String}
    {page : EventsPage} (h : Bookmark rpc s.chain lastLedger cursor) (ordered : s.chain.Ordered)
    (fetched : Fetched rpc s.chain lastLedger cursor page) (nonempty : page.events ≠ [])
    (finishes
      : FinishesLedger s (.respond (rpc.resume s.chain lastLedger cursor) page))
    {i : Nat}
    (before : i < rpc.resume s.chain (reachedLedger lastLedger page.events) page.cursor)
    (after : rpc.resume s.chain lastLedger cursor + page.events.length ≤ i)
    : i ∈ s.handled := by
  rcases fetched.token nonempty with none | same
  · have ends := List.getLast?_eq_some_getLast nonempty
    have nonneg := h.nonneg.trans (le_reachedLedger lastLedger page.events)
    have fits := reachedLedger_lt h.fits page.events
    rw [none, lt_resume_none rpc ordered nonneg] at before
    obtain ⟨raw, found, passed⟩ := before
    have later : raw ∈ s.chain.events.drop
        (rpc.resume s.chain lastLedger cursor + page.events.length) := by
      obtain ⟨more, rfl⟩ := Nat.exists_eq_add_of_le after
      exact List.mem_iff_getElem?.mpr ⟨more, by rwa [List.getElem?_drop]⟩
    have upper := fetched.reachedLedger_le_last h ordered ends
    have lower := fetched.le_later ordered (List.mem_of_getLast? ends) later
    have same : raw.ledger = (page.events.getLast nonempty).ledger :=
      UInt64.toNat_inj.mp (by omega)
    refine finishes none _ ends (by omega) i (List.getElem?_eq_some_iff.mp found).1 after ?_
    rw [found, Option.map_some, same]
  · rw [same, resume_cursorAt] at before
    exact absurd before (Nat.not_lt.mpr after)

theorem Complete.interrupted {rpc : Rpc} {s : State} (h : Complete rpc contractId s)
    : Complete rpc contractId s.interrupted :=
  ⟨h.row, fun i before => Or.inr (h.row i before)⟩

/-- Outside of a page everything before the next request has been handled. -/
theorem Complete.handled {rpc : Rpc} {s : State} (h : Complete rpc contractId s) {phase : Phase}
    (here : s.phase = phase) (outside : ∀ i, ¬ phase.Pending i)
    : ∀ i < rpc.resume s.chain (phase.goesOn contractId s.db).1 (phase.goesOn contractId s.db).2,
        i ∈ s.handled := by
  intro i before
  have next := h.next i (by rwa [upcoming_eq rpc here])
  rw [here] at next
  exact next.resolve_left (outside i)

theorem step_complete {rpc : Rpc} {s t : State} {action : Action}
    (documented : DocumentedOmitting rpc s action) (finishes : FinishesLedger s action)
    (tracked : Tracked rpc codec contractId s) (h : Complete rpc contractId s)
    (stepped : step codec contractId s action = some t)
    : Complete rpc contractId t := by
  cases step_effect stepped with
  | grow events head =>
      have chain := continues_of_documented documented
      constructor
      · intro i before
        rw [rowPosition, chain.resume rpc tracked.row.closed] at before
        exact h.row i before
      · intro i before
        rw [State.upcoming, chain.resume rpc tracked.next.closed] at before
        exact h.next i before
  | notStarted => exact h
  | started idle row =>
      refine ⟨h.row, fun i before => Or.inr (h.row i ?_)⟩
      rw [upcoming_eq rpc rfl] at before
      rw [rowPosition, row]
      exact before
  | @responded lastLedger cursor start position page phase asked =>
      obtain ⟨here, rfl, fetched⟩ := fetched_of_documented tracked phase documented
      have passed := h.handled phase (fun _ => id)
      rw [goesOn_fetching] at passed
      refine ⟨h.row, ?_⟩
      intro i before
      rw [upcoming_eq rpc rfl] at before
      by_cases empty : page.events = []
      · refine Or.inr (passed i (Nat.lt_of_lt_of_le ?_ (fetched.exhausted empty)))
        have within := (here.at_end tracked.ordered fetched empty).within
        refine Nat.lt_of_lt_of_le ?_ within
        simpa [empty, forEvents, afterEvents] using before
      · rw [forEvents_goesOn _ _ _ _ empty] at before
        rw [forEvents_pending]
        by_cases early : i < rpc.resume s.chain lastLedger cursor
        · exact Or.inr (passed i early)
        · by_cases inside : i < rpc.resume s.chain lastLedger cursor + page.events.length
          · exact Or.inl ⟨Nat.not_lt.mp early, inside⟩
          · exact Or.inr (handled_beyond_page here tracked.ordered fetched empty finishes before
              (Nat.not_lt.mp inside))
  | @executed lastLedger page position st todo raw rest db phase result =>
      have row := loadCursor_exec contractId result
      constructor
      · intro i before
        refine h.row i ?_
        rw [rowPosition, ← row]
        exact before
      · intro i before
        have next := h.next i (by rwa [upcoming_eq rpc phase])
        rwa [phase] at next
  | @lost lastLedger page position st todo raw rest db phase result =>
      have row := loadCursor_exec contractId result
      have stored : ∀ i < rpc.resume s.chain (loadCursor db contractId).1
          (loadCursor db contractId).2, i ∈ s.handled := by
        rw [row]
        exact h.row
      exact ⟨stored, fun i before => Or.inr (stored i before)⟩
  | @nextEvent lastLedger page position raw rest phase =>
      have block := tracked.block
      rw [phase] at block
      refine ⟨fun i before => List.mem_append_left _ (h.row i before), ?_⟩
      intro i before
      rw [upcoming_eq rpc rfl, forEvents_goesOn _ _ _ _ block.nonempty] at before
      have next := h.next i (by rwa [upcoming_eq rpc phase, goesOn_storing])
      rw [phase] at next
      rw [forEvents_pending, List.mem_append, List.mem_singleton]
      rcases next with pending | handled
      · obtain ⟨lower, upper⟩ := pending
        omega
      · exact Or.inr (Or.inl handled)
  | @persisted lastLedger cursor done phase =>
      have stored := h.handled phase (fun _ => id)
      rw [goesOn_persisting] at stored
      constructor
      · intro i before
        rw [rowPosition, loadCursor_saveCursor] at before
        exact stored i before
      · intro i before
        refine Or.inr (stored i ?_)
        rw [upcoming_eq rpc rfl] at before
        cases done <;> simpa using before
  | @persistLost lastLedger cursor done phase =>
      have stored := h.handled phase (fun _ => id)
      rw [goesOn_persisting, ← loadCursor_saveCursor s.db contractId lastLedger cursor] at stored
      exact ⟨stored, fun i before => Or.inr (stored i before)⟩
  | undone => exact ⟨h.row, h.interrupted.next⟩
  | overflowed | rpcError | notExecuted | notPersisted | crash => exact h.interrupted
  | resetCursor => exact documented.elim

theorem init_complete (rpc : Rpc) : Complete rpc contractId State.init := by
  have start : rpc.resume State.init.chain 0 none = 0 :=
    Nat.le_zero.mp (resume_none_le rpc State.init.chain 0)
  have nothing : ∀ i < rowPosition rpc contractId State.init, i ∈ State.init.handled := by
    intro i before
    exact absurd (start ▸ before) (Nat.not_lt_zero i)
  exact ⟨nothing, fun i before => Or.inr (nothing i before)⟩

-----------------------------------------------------------------------------------------
-- What is skipped stays skipped
-----------------------------------------------------------------------------------------

/-- The event lies behind the pass, which has not handled it. -/
structure Lost (rpc : Rpc) (contractId : String) (s : State) (i : Nat) : Prop where
  ledger
    : ∃ raw, s.chain.events[i]? = some raw
        ∧ (raw.ledger.toNat : Int) ≤ (s.phase.goesOn contractId s.db).1
  passed : i < s.upcoming rpc contractId
  notPending : ¬ s.phase.Pending i
  unhandled : i ∉ s.handled

/-- Raising the ledger of a bookmark does not bring back what lies behind it. -/
theorem passed_raise {rpc : Rpc} {chain : Chain} (ordered : chain.Ordered) {ledger : Int}
    (nonneg : 0 ≤ ledger) {cursor : Option String} {i : Nat} {raw : RawEvent}
    (found : chain.events[i]? = some raw) (early : (raw.ledger.toNat : Int) ≤ ledger)
    (token : ∀ n, cursor = some n → i < rpc.positionOf n)
    : i < rpc.resume chain ledger cursor := by
  cases cursor with
  | none => exact (lt_resume_none rpc ordered nonneg).mpr ⟨raw, found, early⟩
  | some n => exact token n rfl

/-- No answer brings the pass back to it. -/
theorem Lost.answered {rpc : Rpc} {s : State} {i : Nat} (h : Lost rpc contractId s i)
    (tracked : Tracked rpc codec contractId s) {lastLedger : Int} {cursor : Option String}
    {page : EventsPage} (phase : s.phase = .fetching lastLedger cursor)
    (fetched : Fetched rpc s.chain lastLedger cursor page)
    : Lost rpc contractId
        { s with
          phase :=
            forEvents codec contractId lastLedger page (rpc.resume s.chain lastLedger cursor)
              page.events }
        i := by
  obtain ⟨ledger, passed, _, unhandled⟩ := h
  obtain ⟨raw, found, early⟩ := ledger
  have here := tracked.next
  rw [upcoming_eq rpc phase] at passed
  change i < rpc.resume s.chain lastLedger cursor at passed
  rw [phase, goesOn_fetching] at early here
  by_cases empty : page.events = []
  · have raised : lastLedger ≤ max lastLedger (asI64 page.latestLedger) := le_max_left _ _
    have behind : i < rpc.resume s.chain (max lastLedger (asI64 page.latestLedger))
        page.cursor := by
      refine passed_raise tracked.ordered (here.nonneg.trans raised) found
        (early.trans raised) ?_
      intro token same
      rcases fetched.given empty with none | given
      · cases none.symm.trans same
      · rw [← given, same] at passed
        exact passed
    refine ⟨⟨raw, found, ?_⟩, ?_, ?_, unhandled⟩
    · simpa [empty, forEvents, afterEvents] using Or.inl early
    · rw [upcoming_eq rpc rfl]
      simpa [empty, forEvents, afterEvents] using behind
    · rw [forEvents_pending, empty, List.length_nil]
      omega
  · have raised := le_reachedLedger lastLedger page.events
    refine ⟨⟨raw, found, ?_⟩, ?_, ?_, unhandled⟩
    · rw [forEvents_goesOn _ _ _ _ empty]
      exact early.trans raised
    · rw [upcoming_eq rpc rfl, forEvents_goesOn _ _ _ _ empty]
      refine passed_raise tracked.ordered (here.nonneg.trans raised) found
        (early.trans raised) ?_
      intro token same
      rcases fetched.token empty with none | given
      · cases none.symm.trans same
      · obtain rfl := Option.some.inj (same.symm.trans given)
        rw [rpc.positionOf_cursorAt]
        omega
    · rw [forEvents_pending]
      omega

theorem step_lost {rpc : Rpc} {s t : State} {action : Action} {i : Nat}
    (documented : DocumentedOmitting rpc s action) (succeeds : Succeeds s action)
    (tracked : Tracked rpc codec contractId s) (lost : Lost rpc contractId s i)
    (stepped : step codec contractId s action = some t)
    : Lost rpc contractId t i := by
  obtain ⟨raw, found, early⟩ := lost.ledger
  have passed := lost.passed
  have notPending := lost.notPending
  have unhandled := lost.unhandled
  cases step_effect stepped with
  | grow events head =>
      have chain := continues_of_documented documented
      refine ⟨⟨raw, ?_, early⟩, ?_, notPending, unhandled⟩
      · rw [List.getElem?_append_left (List.getElem?_eq_some_iff.mp found).1]
        exact found
      · rw [State.upcoming, chain.resume rpc tracked.next.closed]
        exact passed
  | notStarted => exact lost
  | started idle row =>
      rw [upcoming_eq rpc idle, goesOn_idle, row] at passed
      rw [idle, goesOn_idle, row] at early
      exact ⟨⟨raw, found, early⟩, passed, id, unhandled⟩
  | @responded lastLedger cursor start position page phase asked =>
      obtain ⟨_, rfl, fetched⟩ := fetched_of_documented tracked phase documented
      exact lost.answered tracked phase fetched
  | @executed lastLedger page position st todo current rest db phase result =>
      rw [upcoming_eq rpc phase] at passed
      rw [phase] at early notPending
      exact ⟨⟨raw, found, early⟩, passed, notPending, unhandled⟩
  | @nextEvent lastLedger page position current rest phase =>
      have block := tracked.block
      rw [phase] at block
      rw [upcoming_eq rpc phase, goesOn_storing] at passed
      rw [phase, goesOn_storing] at early
      rw [phase] at notPending
      refine ⟨⟨raw, found, ?_⟩, ?_, ?_, ?_⟩
      · rw [forEvents_goesOn _ _ _ _ block.nonempty]
        exact early
      · rw [upcoming_eq rpc rfl, forEvents_goesOn _ _ _ _ block.nonempty]
        exact passed
      · rw [forEvents_pending]
        simp only [Phase.Pending] at notPending
        omega
      · rw [List.mem_append, List.mem_singleton]
        simp only [Phase.Pending] at notPending
        intro handled
        rcases handled with before | here
        · exact unhandled before
        · omega
  | @persisted lastLedger cursor done phase =>
      rw [upcoming_eq rpc phase, goesOn_persisting] at passed
      rw [phase, goesOn_persisting] at early
      refine ⟨⟨raw, found, ?_⟩, ?_, ?_, unhandled⟩
      · cases done <;> simpa using early
      · rw [upcoming_eq rpc rfl]
        cases done <;> simpa using passed
      · cases done <;> exact id
  | @notExecuted lastLedger page position st todo current rest outcome phase failed =>
      cases outcome with
      | ok =>
          rcases failed with never | refused
          · cases never
          · obtain ⟨e, refused⟩ := refused
            simp [Succeeds, phase, refused, Except.toBool] at succeeds
      | failed | undone => exact succeeds.elim
  | overflowed phase overflow => exact absurd overflow (tracked.asks phase)
  | lost | undone | persistLost | rpcError | notPersisted | crash | resetCursor =>
      exact succeeds.elim

/-- A page that leaves its last ledger unfinished loses an event of it. -/
theorem lost_of_unfinished {rpc : Rpc} {s t : State} {action : Action}
    (documented : DocumentedOmitting rpc s action) (tracked : Tracked rpc codec contractId s)
    (unfinished : ¬ FinishesLedger s action) (stepped : step codec contractId s action = some t)
    : ∃ i, Lost rpc contractId t i := by
  cases step_effect stepped with
  | @responded lastLedger cursor start position page phase asked =>
      obtain ⟨here, rfl, fetched⟩ := fetched_of_documented tracked phase documented
      simp only [FinishesLedger, not_forall] at unfinished
      obtain ⟨none, last, ends, fits, i, inside, after, same, unhandled⟩ := unfinished
      obtain ⟨raw, found, ledger⟩ := Option.map_eq_some_iff.mp same
      have member := List.mem_of_getLast? ends
      have nonempty : page.events ≠ [] := List.ne_nil_of_mem member
      have nonneg := here.nonneg.trans (le_reachedLedger lastLedger page.events)
      have early : (raw.ledger.toNat : Int) ≤ reachedLedger lastLedger page.events := by
        rw [ledger, ← asI64_eq fits]
        exact asI64_le_reachedLedger lastLedger member
      refine ⟨i, ⟨raw, found, ?_⟩, ?_, ?_, unhandled⟩
      · rw [forEvents_goesOn _ _ _ _ nonempty]
        exact early
      · rw [upcoming_eq rpc rfl, forEvents_goesOn _ _ _ _ nonempty, none]
        exact (lt_resume_none rpc tracked.ordered nonneg).mpr ⟨raw, found, early⟩
      · rw [forEvents_pending]
        omega
  | overflowed phase overflow => exact absurd overflow (tracked.asks phase)
  | grow | notStarted | started | rpcError | executed | lost | notExecuted | undone | nextEvent
  | persisted | persistLost | notPersisted | crash | resetCursor => exact absurd trivial unfinished

/-- The pass handles nothing between two states. -/
structure Quiet (s t : State) : Prop where
  chain : s.chain.events <+: t.chain.events
  handled : t.handled = s.handled
  log : t.log = s.log

/-- Once the empty page has been answered the history may grow, and the pass is about to end. -/
structure Ending (s t : State) : Prop extends Quiet s t where
  phase : ∃ lastLedger cursor, t.phase = .persisting lastLedger cursor true

theorem ending_of_growth {s t u : State} {growth : List Action}
    (growing : ∀ action ∈ growth, action.IsGrowth) (ending : Ending s t)
    (ran : Machine.run (step codec contractId) t growth = some u)
    : Ending s u := by
  refine Machine.invariant_of_allowed ?_ ending growing ran
  intro before action after allowed (h : Ending s before) stepped
  cases action with
  | grow events head =>
      obtain rfl := Option.some.inj stepped
      exact ⟨⟨h.chain.trans (List.prefix_append _ _), h.handled, h.log⟩, h.phase⟩
  | _ => exact allowed.elim

/-- The pass whose request is answered with no events goes on to return, and it has asked for
what comes after the whole history.
-/
theorem pass_returns {rpc : Rpc} {s t : State} {position : Nat} {page : EventsPage}
    {growth : List Action} (documented : DocumentedOmitting rpc s (.respond position page))
    (tracked : Tracked rpc codec contractId s) (last : page.events = [])
    (growing : ∀ action ∈ growth, action.IsGrowth)
    (returned
      : Machine.run (step codec contractId) s (.respond position page :: growth ++ [.persist .ok])
        = some t)
    : t.phase = .idle
      ∧ Quiet s t
      ∧ s.chain.events.length ≤ s.upcoming rpc contractId
      ∧ ∀ i, ¬ s.phase.Pending i := by
  obtain ⟨u, before, persisted⟩ := Machine.run_concat.mp returned
  obtain ⟨answered, responded, grown⟩ := Machine.run_cons.mp before
  cases step_effect responded with
  | @responded lastLedger cursor start position page phase asked =>
      obtain ⟨_, rfl, fetched⟩ := fetched_of_documented tracked phase documented
      have answered : Ending s
          { s with
            phase :=
              forEvents codec contractId lastLedger page (rpc.resume s.chain lastLedger cursor)
                page.events } := by
        refine ⟨⟨List.prefix_rfl, rfl, rfl⟩, max lastLedger (asI64 page.latestLedger),
          page.cursor, ?_⟩
        simp [last, forEvents, afterEvents]
      have ending := ending_of_growth growing answered grown
      obtain ⟨ledger, token, about⟩ := ending.phase
      have stopped : t.phase = .idle ∧ Quiet u t := by
        cases step_effect persisted with
        | persisted saving =>
            cases about.symm.trans saving
            exact ⟨rfl, List.prefix_rfl, rfl, rfl⟩
      obtain ⟨idle, quiet⟩ := stopped
      refine ⟨idle, ⟨ending.chain.trans quiet.chain, quiet.handled.trans ending.handled,
        quiet.log.trans ending.log⟩, ?_, ?_⟩
      · rw [upcoming_eq rpc phase]
        exact fetched.exhausted last
      · rw [phase]
        exact fun _ => id
  | overflowed phase overflow => exact absurd overflow (tracked.asks phase)

/-- A pass that has returned has processed the whole history if no page without a token ends
inside a ledger that was not finished, whatever fails on the way; and only then if nothing
fails.
-/
theorem fallback_loses_nothing_iff (rpc : Rpc) (codec : Codec) (contractId : String)
    {actions growth : List Action} {position : Nat} {page : EventsPage} {s t : State}
    (documented
      : Machine.Along (step codec contractId) (DocumentedOmitting rpc) State.init
          (actions ++ [.respond position page]))
    (ran : Machine.run (step codec contractId) State.init actions = some s)
    (last : page.events = []) (growing : ∀ action ∈ growth, action.IsGrowth)
    (returned
      : Machine.run (step codec contractId) s (.respond position page :: growth ++ [.persist .ok])
        = some t)
    : t.phase = .idle
      ∧ (Machine.Along (step codec contractId) FinishesLedger State.init actions
        → ∀ i < s.chain.events.length, t.Processed codec contractId i)
      ∧ (Machine.Along (step codec contractId) Succeeds State.init actions
        → ((∀ i < s.chain.events.length, t.Processed codec contractId i)
          ↔ Machine.Along (step codec contractId) FinishesLedger State.init actions)) := by
  obtain ⟨before, answer⟩ := Machine.along_append.mp documented
  have tracked : Tracked rpc codec contractId s :=
    Machine.invariant_along (fun _ _ _ => step_tracked) (init_tracked rpc) before ran
  obtain ⟨idle, quiet, exhausted, outside⟩ :=
    pass_returns (answer s ran).1 tracked last growing returned
  have sufficient
      (finishes : Machine.Along (step codec contractId) FinishesLedger State.init actions)
      : ∀ i < s.chain.events.length, t.Processed codec contractId i := by
    have kept (s : State) (action : Action) (t : State)
        (here : DocumentedOmitting rpc s action ∧ FinishesLedger s action)
        (h : Tracked rpc codec contractId s ∧ Complete rpc contractId s)
        (stepped : step codec contractId s action = some t)
        : Tracked rpc codec contractId t ∧ Complete rpc contractId t :=
      ⟨step_tracked here.1 h.1 stepped, step_complete here.1 here.2 h.1 h.2 stepped⟩
    have complete := (Machine.invariant_along kept ⟨init_tracked rpc, init_complete rpc⟩
      (Machine.along_and.mpr ⟨before, finishes⟩) ran).2
    intro i inside
    have handled := (complete.next i (Nat.lt_of_lt_of_le inside exhausted)).resolve_left
      (outside i)
    exact (tracked.processed i handled).mono quiet.chain (by rw [quiet.handled]; exact fun _ => id)
      (by rw [quiet.log]; exact fun _ => id)
  refine ⟨idle, sufficient, fun succeeds => ⟨fun processed => ?_, sufficient⟩⟩
  have allowed := Machine.along_and.mpr ⟨before, succeeds⟩
  refine Machine.along_of_harmless _ (fun s => ∃ i, Lost rpc contractId s i) FinishesLedger
    (fun _ _ _ here h stepped => step_tracked here.1 h stepped) ?_
    (fun _ _ _ here h unfinished stepped => lost_of_unfinished here.1 h unfinished stepped)
    (init_tracked rpc) allowed ran ?_
  · intro s action t here tracked harmed stepped
    obtain ⟨i, lost⟩ := harmed
    exact ⟨i, step_lost here.1 here.2 tracked lost stepped⟩
  · intro harmed
    obtain ⟨i, lost⟩ := harmed
    obtain ⟨_, found, _⟩ := lost.ledger
    obtain ⟨_, _, handled, _⟩ := processed i (List.getElem?_eq_some_iff.mp found).1
    exact lost.unhandled (quiet.handled ▸ handled)

/-- One page without a token holds all of its ledger. -/
def wholeLedger : List Action :=
  [.grow (sampleHistory 0) 42, .start true, .respond 0 ⟨sampleHistory 0, none, 42⟩,
    .statement .ok, .statement .ok, .nextEvent, .statement .ok, .nextEvent, .persist .ok]

theorem fallback_loses_nothing_page
    : ∃ s,
        Machine.run (step (sampleCodec 1) "CPOOL") State.init
            (wholeLedger ++ [.respond 2 ⟨[], none, 42⟩, .persist .ok])
          = some s
        ∧ s.phase = .idle
        ∧ s.Processed (sampleCodec 1) "CPOOL" 1 := by
  have observed
      : (Machine.run (step (sampleCodec 1) "CPOOL") State.init wholeLedger).map
            (fun s =>
              ((Machine.run (step (sampleCodec 1) "CPOOL") s
                [.respond 2 ⟨[], none, 42⟩, .persist .ok]).isSome, s.chain.events))
        = some (true, sampleHistory 0) := by
    decide +kernel
  obtain ⟨s, ran, shape⟩ := Option.map_eq_some_iff.mp observed
  obtain ⟨goesOn, events⟩ := Prod.mk.inj shape
  obtain ⟨t, returned⟩ := Option.isSome_iff_exists.mp goesOn
  have documented
      : Machine.Along (step (sampleCodec 1) "CPOOL") (DocumentedOmitting sampleRpc) State.init
          (wholeLedger ++ [.respond 2 ⟨[], none, 42⟩]) := by
    decide +kernel
  have finishes
      : Machine.Along (step (sampleCodec 1) "CPOOL") FinishesLedger State.init wholeLedger := by
    decide +kernel
  have nothing : ∀ action ∈ ([] : List Action), action.IsGrowth := by simp
  obtain ⟨idle, processed, _⟩ :=
    fallback_loses_nothing_iff sampleRpc (sampleCodec 1) "CPOOL" documented ran rfl
      nothing returned
  exact ⟨t, Machine.run_append.mpr ⟨s, ran, returned⟩, idle,
    processed finishes 1 (by rw [events]; decide)⟩

/-- An event that does not decode is handled without a statement. -/
def paddingEvent : RawEvent := ⟨"", 42, "", [], ""⟩

/-- The deposit is the last event of its ledger, after as many others as a page can hold. -/
def crowdedLedger : List RawEvent :=
  List.replicate 100 paddingEvent ++ [sampleEvent "new_commitment" (sampleDeposit 0) 42]

/-- The full page comes without a token, and the next request asks for ledger 43. -/
def crowdedPass : List Action :=
  [.grow crowdedLedger 42, .start true, .respond 0 ⟨List.replicate 100 paddingEvent, none, 42⟩]
  ++ List.replicate 100 .nextEvent
  ++ [.persist .ok]

theorem deposit_cut_off
    : ∃ s,
        Machine.Along (step (sampleCodec 1) "CPOOL") (DocumentedOmitting sampleRpc) State.init
            (crowdedPass ++ [.respond 101 ⟨[], none, 42⟩])
        ∧ Machine.run (step (sampleCodec 1) "CPOOL") State.init
            (crowdedPass ++ [.respond 101 ⟨[], none, 42⟩, .persist .ok])
          = some s
        ∧ s.phase = .idle
        ∧ s.chain.events.length = 101
        ∧ s.db.commitments = []
        ∧ ¬ s.Processed (sampleCodec 1) "CPOOL" 100 := by
  have documented
      : Machine.Along (step (sampleCodec 1) "CPOOL") (DocumentedOmitting sampleRpc) State.init
          (crowdedPass ++ [.respond 101 ⟨[], none, 42⟩]) := by
    decide +kernel
  have observed
      : (Machine.run (step (sampleCodec 1) "CPOOL") State.init
          (crowdedPass ++ [.respond 101 ⟨[], none, 42⟩, .persist .ok])).map
            (fun s =>
              (s.phase.lastLedger?, s.chain.events.length, s.db.commitments,
                decide (100 ∈ s.handled)))
        = some (none, 101, [], false) := by
    decide +kernel
  obtain ⟨s, ran, shape⟩ := Option.map_eq_some_iff.mp observed
  simp only [Prod.mk.injEq, decide_eq_false_iff_not] at shape
  obtain ⟨idle, length, commitments, unhandled⟩ := shape
  refine ⟨s, documented, ran, ?_, length, commitments, ?_⟩
  · cases phase : s.phase with
    | idle => rfl
    | fetching | storing | persisting =>
        rw [phase] at idle
        cases idle
  · intro processed
    obtain ⟨_, _, handled, _⟩ := processed
    exact unhandled handled

end Attesta.Indexer.Sync
