import Attesta.Api.CursorWalk
import Attesta.Api.NoteDelivery

/-! A recipient of notes that follows the relay as documented. It reconnects from its last
cursor whenever a connection is lost and pages `/v1/notes` after a `resync`; across all of its
connections it gets every note of its filter once.
-/

namespace Attesta.Api.Recipient

open Feed NoteStream

inductive Mode
  | offline
  /-- Connected as `client`, of whose events the first `read` have been processed. -/
  | following (client read : Nat)
  /-- Told to page instead. -/
  | paging
  deriving DecidableEq

structure State where
  relay : NoteStream.State
  /-- The id of the last note processed, or where the recipient has begun. -/
  cursor : Int
  received : List EncryptedNoteRow
  mode : Mode

def State.begin (start : Int) : State where
  relay := NoteStream.State.init
  cursor := start
  received := []
  mode := .offline

inductive Action
  /-- Anything that happens in the relay and to other clients. -/
  | relay (action : NoteStream.Action)
  /-- Connect with the cursor as `Last-Event-ID`. -/
  | connect (client : Nat)
  /-- Process the next event of the stream. -/
  | read
  /-- Fetch the next page. -/
  | page
  /-- The connection is lost, or paging is given up. -/
  | disconnect

variable (pools : Option (List String))

/-- The notes the recipient is interested in. -/
def selected : EncryptedNoteRow → Bool := StreamQuery.selects ⟨none, pools⟩

/-- `/v1/notes` filters by one pool at most. -/
def pagePool : Option (List String) → Option String
  | some [pool] => some pool
  | _ => none

/-- The next event of a stream has come in. -/
def State.process (s : State) (client read : Nat) : StreamEvent → State
  | .note row =>
      { s with
        cursor := row.id
        received := s.received ++ [row]
        mode := .following client (read + 1) }
  | .resync => { s with mode := .paging }

/-- One step; an action that is not enabled has no successor. -/
def step (s : State) : Action → Option State
  | .relay action => (NoteStream.step s.relay action).map (fun relay => { s with relay })
  | .connect client =>
      match s.mode with
      | .offline =>
          (NoteStream.step s.relay (.subscribe client ⟨some s.cursor, pools⟩)).map
            (fun relay => { s with relay, mode := .following client 0 })
      | _ => none
  | .read =>
      match s.mode with
      | .following client read =>
          (s.relay.clients client).out[read]?.map (s.process client read)
      | _ => none
  | .page =>
      match s.mode with
      | .paging =>
          let page := Notes.listNotes s.relay.notes ⟨some s.cursor, pagePool pools⟩
          some { s with
            cursor := last EncryptedNoteRow.id s.cursor page.notes
            received := s.received ++ page.notes.filter (selected pools)
            mode := if page.nextCursor.isSome then .paging else .offline }
      | _ => none
  | .disconnect => some { s with mode := .offline }

/-- The connection that is open. -/
def Mode.connection : Mode → Option Nat
  | .following client _ => some client
  | .offline | .paging => none

/-- The fan-out task does not start past a note that was stored after the replay of the recipient's
open connection.
-/
def Unskipped (s : State) : Action → Prop
  | .relay action => ∀ client ∈ s.mode.connection, ¬ StartsPast client s.relay action
  | _ => True

instance (s : State) : (action : Action) → Decidable (Unskipped s action)
  | .relay action =>
      inferInstanceAs (Decidable (∀ client ∈ s.mode.connection, ¬ StartsPast client s.relay action))
  | .connect _ | .read | .page | .disconnect => isTrue trivial

/-- All events of an idle stream have been processed. -/
def State.CaughtUp (s : State) : Prop :=
  ∃ client lastSeen,
    s.mode = .following client (s.relay.clients client).out.length
    ∧ (s.relay.clients client).phase = .streaming lastSeen []
    ∧ (s.relay.clients client).next = s.relay.sent.length
    ∧ s.relay.Drained

-----------------------------------------------------------------------------------------
-- The relay under one connection
-----------------------------------------------------------------------------------------

/-- A note that is added lies past all others. -/
theorem step_notes {s t : NoteStream.State} {action : NoteStream.Action}
    (stepped : NoteStream.step s action = some t)
    : ∃ more, t.notes = s.notes ++ more
        ∧ ∀ row ∈ more, ∀ note ∈ s.notes, note.id < row.id := by
  cases step_effect stepped with
  | @insert row later positive =>
      refine ⟨[row], rfl, fun other member note stored => ?_⟩
      obtain rfl := List.mem_singleton.mp member
      exact later note stored
  | started | startFailed | woken | paged | pageFailed | sent | pageDone | subscribed | replayed
    | delivered | received =>
      exact ⟨[], (List.append_nil _).symm, by simp⟩

/-- A receiver keeps its filter and only writes further events. -/
theorem receive_out {sent : List EncryptedNoteRow} {client got : Client} {lastSeen : Int}
    (received : client.receive sent lastSeen = some got)
    : got.query = client.query ∧ client.out <+: got.out := by
  rcases receive_cases received with rfl | ⟨note, _, ⟨_, rfl⟩ | ⟨_, rfl⟩⟩
  · exact ⟨rfl, List.prefix_append _ _⟩
  · exact ⟨rfl, List.prefix_rfl⟩
  · exact ⟨rfl, List.prefix_append _ _⟩

theorem startStream_out (notes : List EncryptedNoteRow) (client : Client) (succeeded : Bool)
    : (client.startStream notes succeeded).query = client.query
      ∧ (client.startStream notes succeeded).out = client.out
      ∧ (client.startStream notes succeeded).phase ≠ .absent := by
  unfold Client.startStream
  split
  · exact ⟨rfl, rfl, by simp⟩
  · cases succeeded <;> exact ⟨rfl, rfl, by simp⟩

/-- What has been written to a connection stays written. -/
theorem step_out (i : Nat) {s t : NoteStream.State} {action : NoteStream.Action}
    (present : (s.clients i).phase ≠ .absent) (stepped : NoteStream.step s action = some t)
    : (t.clients i).phase ≠ .absent
      ∧ (t.clients i).query = (s.clients i).query
      ∧ (s.clients i).out <+: (t.clients i).out := by
  cases step_effect stepped with
  | insert | started | startFailed | woken | paged | pageFailed | sent | pageDone =>
      exact ⟨present, rfl, List.prefix_rfl⟩
  | @subscribed j query absent =>
      have apart : i ≠ j := fun same => present (same ▸ absent)
      rw [setClient_other apart]
      exact ⟨present, rfl, List.prefix_rfl⟩
  | @replayed j succeeded subscribed =>
      by_cases same : i = j
      · subst same
        rw [setClient_self]
        obtain ⟨query, out, active⟩ := startStream_out s.notes (s.clients i) succeeded
        exact ⟨active, query, out ▸ List.prefix_rfl⟩
      · rw [setClient_other same]
        exact ⟨present, rfl, List.prefix_rfl⟩
  | @delivered j lastSeen event rest streaming =>
      by_cases same : i = j
      · subst same
        rw [setClient_self]
        exact ⟨by simp, rfl, List.prefix_append _ _⟩
      · rw [setClient_other same]
        exact ⟨present, rfl, List.prefix_rfl⟩
  | @received j lastSeen client streaming got =>
      by_cases same : i = j
      · subst same
        rw [setClient_self]
        obtain ⟨query, out⟩ := receive_out got
        refine ⟨?_, query, out⟩
        rcases receive_cases got with rfl | ⟨note, _, ⟨_, rfl⟩ | ⟨_, rfl⟩⟩
        · simp [streaming]
        · simp [streaming]
        · simp
      · rw [setClient_other same]
        exact ⟨present, rfl, List.prefix_rfl⟩

/-- A new connection is safe. -/
theorem subscribe_safe {s t : NoteStream.State} {i : Nat} {query : StreamQuery}
    (channel : Channel s) (stepped : NoteStream.step s (.subscribe i query) = some t)
    : Safe i t ∧ (t.clients i).query = query ∧ (t.clients i).out = []
      ∧ (t.clients i).phase ≠ .absent := by
  have kept := step_channel channel stepped
  cases step_effect stepped with
  | subscribed _ absent =>
      refine ⟨⟨kept, ?_, ?_⟩, ?_⟩
      · rw [setClient_self]
        exact ⟨le_rfl, le_rfl, Nat.zero_le _, fun streaming => absurd streaming id⟩
      · rw [setClient_self]
        exact ⟨fun _ => rfl, fun _ _ _ phase => by cases phase⟩
      · rw [setClient_self]
        exact ⟨rfl, rfl, by simp⟩

/-- What a quiet connection has written is the beginning of what it was asked for. -/
theorem written_prefix {s : NoteStream.State} {i : Nat} {origin : Int} (safe : Safe i s)
    (resume : (s.clients i).query.resumeFrom = some origin) {pre : List StreamEvent}
    (before : pre <+: (s.clients i).out) (quiet : .resync ∉ pre)
    : notesOf pre
      <+: since EncryptedNoteRow.id (s.clients i).query.selects origin s.notes := by
  by_cases streaming : (s.clients i).phase.IsStreaming
  · cases phase : (s.clients i).phase with
    | streaming lastSeen replay =>
        exact (safe.resumed.following lastSeen replay origin phase resume).quiet pre
          (before.trans (List.prefix_append _ _)) quiet
    | absent | subscribed | refused => rw [phase] at streaming; exact streaming.elim
  · rw [safe.resumed.silent streaming] at before
    rw [List.prefix_nil.mp before]
    exact List.nil_prefix

-----------------------------------------------------------------------------------------
-- What the recipient has got
-----------------------------------------------------------------------------------------

/-- The recipient reads a connection that it has resumed at `origin`. -/
structure Connected (relay : NoteStream.State) (cursor : Int) (client read : Nat) (origin : Int)
    : Prop where
  query : (relay.clients client).query = ⟨some origin, pools⟩
  present : (relay.clients client).phase ≠ .absent
  safe : Safe client relay
  within : read ≤ (relay.clients client).out.length
  quiet : .resync ∉ (relay.clients client).out.take read
  stands
    : cursor
      = last EncryptedNoteRow.id origin (notesOf ((relay.clients client).out.take read))

/-- The recipient has exactly the notes of its filter up to its cursor. -/
structure Exact (start : Int) (s : State) : Prop where
  channel : Channel s.relay
  received
    : s.received
      = between EncryptedNoteRow.id (selected pools) start s.cursor s.relay.notes
  from_start : start ≤ s.cursor
  place : s.cursor = start ∨ ∃ note ∈ s.relay.notes, note.id = s.cursor
  connected
    : ∀ client read,
        s.mode = .following client read
        → ∃ origin, Connected pools s.relay s.cursor client read origin

variable {pools} {start : Int}

namespace Connected

variable {relay : NoteStream.State} {cursor : Int} {client read : Nat} {origin : Int}

/-- What the recipient has processed of a connection is all there is up to its cursor. -/
theorem processed (h : Connected pools relay cursor client read origin)
    : notesOf ((relay.clients client).out.take read)
        = between EncryptedNoteRow.id (selected pools) origin cursor relay.notes
      ∧ origin ≤ cursor := by
  have before := written_prefix h.safe (by rw [h.query]) (List.take_prefix _ _) h.quiet
  rw [h.query] at before
  constructor
  · rw [h.stands]
    exact prefix_eq_between h.safe.channel.increasing before
  · rw [h.stands]
    exact cursor_le_last fun note member => (mem_since.mp (before.subset member)).2.2

theorem relay_step (h : Connected pools relay cursor client read origin) {next : NoteStream.State}
    {action : NoteStream.Action} (unskipped : ¬ StartsPast client relay action)
    (stepped : NoteStream.step relay action = some next)
    : Connected pools next cursor client read origin := by
  obtain ⟨present, query, written⟩ := step_out client h.present stepped
  have same : (next.clients client).out.take read = (relay.clients client).out.take read := by
    obtain ⟨more, shape⟩ := written
    rw [← shape, List.take_append_of_le_length h.within]
  exact {
    query := query.trans h.query
    present
    safe := step_safe unskipped h.safe stepped
    within := h.within.trans written.length_le
    quiet := same ▸ h.quiet
    stands := same ▸ h.stands
  }

/-- The next event is a note: it is the only one of the filter up to its id. -/
theorem read_note (h : Connected pools relay cursor client read origin) {row : EncryptedNoteRow}
    (next : (relay.clients client).out[read]? = some (.note row))
    : Connected pools relay row.id client (read + 1) origin
      ∧ between EncryptedNoteRow.id (selected pools) cursor row.id relay.notes = [row]
      ∧ row ∈ relay.notes
      ∧ cursor ≤ row.id := by
  have grown : (relay.clients client).out.take (read + 1)
      = (relay.clients client).out.take read ++ [.note row] := by
    rw [List.take_add_one, next]
    rfl
  have later : Connected pools relay row.id client (read + 1) origin := {
    h with
    within := (List.getElem?_eq_some_iff.mp next).1
    quiet := by
      rw [grown]
      simpa using h.quiet
    stands := by rw [grown, notesOf_append, notesOf_note, last_concat]
  }
  obtain ⟨first, low⟩ := h.processed
  obtain ⟨both, _⟩ := later.processed
  have inside : row ∈ between EncryptedNoteRow.id (selected pools) origin row.id relay.notes := by
    rw [← both, grown]
    simp
  have stored : row ∈ relay.notes := List.mem_of_mem_filter inside
  -- The events of a quiet connection come in the order of their ids.
  have before := written_prefix h.safe (by rw [h.query]) (List.take_prefix (read + 1) _)
    later.quiet
  have sorted := (h.safe.channel.increasing.since _ _).sublist before.sublist
  rw [grown, notesOf_append, notesOf_note] at sorted
  have high : cursor ≤ row.id := by
    rw [h.stands]
    cases final : (notesOf ((relay.clients client).out.take read)).getLast? with
    | none =>
        have past := (mem_since.mp (before.subset (by rw [grown]; simp : row ∈ _))).2.2
        simpa [last, final] using past.le
    | some note =>
        have apart := (List.pairwise_append.mp sorted).2.2 note (List.mem_of_getLast? final) row
          (List.mem_singleton_self _)
        simpa [last, final] using apart.le
  refine ⟨later, ?_, stored, high⟩
  rw [grown, notesOf_append, notesOf_note, first,
    ← between_append_between h.safe.channel.increasing low high] at both
  exact (List.append_cancel_left both).symm

end Connected

/-- The rows of a page are the first ones past the cursor. -/
theorem listNotes_eq {notes : List EncryptedNoteRow}
    (increasing : Increasing EncryptedNoteRow.id notes) (cursor : Int) (pool : Option String)
    : (Notes.listNotes notes ⟨some cursor, pool⟩).notes
      = (since EncryptedNoteRow.id (Notes.inPool pool) cursor notes).take Notes.pageSize := by
  have sorted := increasing.since (Notes.inPool pool) cursor
  have same : notes.filter (fun row => decide (cursor < row.id) && Notes.inPool pool row)
      = since EncryptedNoteRow.id (Notes.inPool pool) cursor notes :=
    List.filter_congr fun row _ => Bool.and_comm _ _
  change ((notes.filter (fun row => decide (cursor < row.id)
    && Notes.inPool pool row)).insertionSort (fun a b => a.id ≤ b.id)).take Notes.pageSize = _
  rw [same, List.Pairwise.insertionSort_eq (sorted.imp le_of_lt)]

/-- The pool filter of the pages leaves nothing of the recipient's out. -/
theorem inPool_of_selected {row : EncryptedNoteRow} (chosen : selected pools row = true)
    : Notes.inPool (pagePool pools) row = true := by
  unfold pagePool
  split
  next pool =>
    have same : pool = row.pool := by simpa [selected, StreamQuery.selects] using chosen
    simp [Notes.inPool, same]
  next => rfl

/-- What a page adds is all there is of the filter up to the new cursor, and all there is at all
if the page is the last one.
-/
theorem page_between {notes : List EncryptedNoteRow}
    (increasing : Increasing EncryptedNoteRow.id notes) (cursor : Int)
    {page : Notes.NotesPage} (fetched : page = Notes.listNotes notes ⟨some cursor, pagePool pools⟩)
    : page.notes.filter (selected pools)
        = between EncryptedNoteRow.id (selected pools) cursor
            (last EncryptedNoteRow.id cursor page.notes) notes
      ∧ cursor ≤ last EncryptedNoteRow.id cursor page.notes
      ∧ (∀ row ∈ page.notes, row ∈ notes)
      ∧ (page.nextCursor = none
        → since EncryptedNoteRow.id (selected pools)
            (last EncryptedNoteRow.id cursor page.notes) notes = []) := by
  have rows : page.notes
      = (since EncryptedNoteRow.id (Notes.inPool (pagePool pools)) cursor notes).take
          Notes.pageSize := by
    rw [fetched, listNotes_eq increasing]
  have part : page.notes
      <+: since EncryptedNoteRow.id (Notes.inPool (pagePool pools)) cursor notes :=
    rows ▸ List.take_prefix _ _
  have past : ∀ row ∈ page.notes, cursor < row.id := fun row member =>
    (mem_since.mp (part.subset member)).2.2
  refine ⟨?_, cursor_le_last past, fun row member => (mem_since.mp (part.subset member)).1, ?_⟩
  · have whole := prefix_eq_between increasing part
    rw [congrArg (List.filter (selected pools)) whole, between, between, List.filter_filter]
    refine List.filter_congr fun row _ => ?_
    rw [Bool.eq_iff_iff]
    simp only [Bool.and_eq_true]
    exact ⟨fun h => ⟨⟨h.1, h.2.1.2⟩, h.2.2⟩,
      fun h => ⟨h.1.1, ⟨inPool_of_selected h.1.1, h.1.2⟩, h.2⟩⟩
  · intro ended
    have short : page.notes.length ≠ Notes.pageSize := by
      intro full
      have nonempty : page.notes ≠ [] := List.ne_nil_of_length_pos (full ▸ by decide)
      rw [fetched] at ended full nonempty
      simp only [Notes.listNotes] at ended full nonempty
      rw [if_pos full, Option.map_eq_none_iff, List.getLast?_eq_none_iff] at ended
      exact nonempty ended
    have all : page.notes
        = since EncryptedNoteRow.id (Notes.inPool (pagePool pools)) cursor notes := by
      refine rows.trans (List.take_of_length_le ?_)
      rw [rows, List.length_take] at short
      omega
    refine List.filter_eq_nil_iff.mpr ?_
    intro row stored ahead
    simp only [Bool.and_eq_true, decide_eq_true_eq] at ahead
    have listed : row ∈ page.notes := by
      rw [all]
      exact mem_since.mpr ⟨stored, inPool_of_selected ahead.1,
        (cursor_le_last past).trans_lt ahead.2⟩
    have sorted : Increasing EncryptedNoteRow.id page.notes :=
      (increasing.since _ _).sublist part.sublist
    exact absurd ahead.2 (not_lt.mpr (sorted.le_last listed cursor))

/-- What happens in the relay takes nothing from the recipient. -/
theorem Exact.relay_step {s : State} (h : Exact pools start s) {action : NoteStream.Action}
    (unskipped : Unskipped s (.relay action)) {relay : NoteStream.State}
    (stepped : NoteStream.step s.relay action = some relay)
    : Exact pools start { s with relay } := by
  obtain ⟨more, shape, later⟩ := step_notes stepped
  have past : ∀ row ∈ more, start < row.id → s.cursor < row.id := by
    intro row member after
    rcases h.place with same | ⟨note, stored, same⟩
    · exact same ▸ after
    · exact same ▸ later row member note stored
  exact {
    channel := step_channel h.channel stepped
    received := by
      rw [shape, between_append_of_past past]
      exact h.received
    from_start := h.from_start
    place := h.place.imp_right fun ⟨note, stored, same⟩ =>
      ⟨note, shape ▸ List.mem_append_left _ stored, same⟩
    connected := fun client read mode => by
      obtain ⟨origin, connected⟩ := h.connected client read mode
      have same : client ∈ s.mode.connection := by rw [show s.mode = _ from mode]; rfl
      exact ⟨origin, connected.relay_step (unskipped client same) stepped⟩
  }

theorem step_exact {s t : State} {action : Action} (unskipped : Unskipped s action)
    (h : Exact pools start s) (stepped : step pools s action = some t)
    : Exact pools start t := by
  cases action with
  | relay action =>
      obtain ⟨relay, went, rfl⟩ := Option.map_eq_some_iff.mp stepped
      exact h.relay_step unskipped went
  | connect client =>
      simp only [step] at stepped
      split at stepped
      next =>
        obtain ⟨relay, went, rfl⟩ := Option.map_eq_some_iff.mp stepped
        obtain ⟨safe, query, out, present⟩ := subscribe_safe h.channel went
        have kept := h.relay_step (fun _ _ => id) went
        refine { kept with connected := fun other read mode => ⟨s.cursor, ?_⟩ }
        obtain ⟨rfl, rfl⟩ := Mode.following.inj mode
        exact {
          query
          present
          safe
          within := Nat.zero_le _
          quiet := by simp
          stands := rfl
        }
      next => cases stepped
  | read =>
      simp only [step] at stepped
      split at stepped
      next client read mode =>
        obtain ⟨event, next, rfl⟩ := Option.map_eq_some_iff.mp stepped
        obtain ⟨origin, connected⟩ := h.connected client read mode
        cases event with
        | note row =>
            obtain ⟨later, only, stored, high⟩ := connected.read_note next
            exact {
              channel := h.channel
              received := by
                change s.received ++ [row] = between EncryptedNoteRow.id _ start row.id _
                rw [h.received, ← only]
                exact between_append_between h.channel.increasing h.from_start high
              from_start := h.from_start.trans high
              place := Or.inr ⟨row, stored, rfl⟩
              connected := fun other number mode => by
                obtain ⟨rfl, rfl⟩ := Mode.following.inj mode
                exact ⟨origin, later⟩
            }
        | resync => exact { h with connected := fun _ _ mode => by cases mode }
      next => cases stepped
  | page =>
      simp only [step] at stepped
      split at stepped
      next =>
        obtain rfl := Option.some.inj stepped
        obtain ⟨added, high, stored, _⟩ := @page_between pools _ h.channel.increasing s.cursor _ rfl
        exact {
          channel := h.channel
          received := by
            rw [h.received, added]
            exact between_append_between h.channel.increasing h.from_start high
          from_start := h.from_start.trans high
          place := by
            cases final : (Notes.listNotes s.relay.notes
                ⟨some s.cursor, pagePool pools⟩).notes.getLast? with
            | none => simpa [last, final] using h.place
            | some note =>
                refine Or.inr ⟨note, stored note (List.mem_of_getLast? final), ?_⟩
                simp [last, final]
          connected := fun _ _ mode => by
            dsimp only at mode
            split at mode <;> cases mode
        }
      next => cases stepped
  | disconnect =>
      obtain rfl := Option.some.inj stepped
      exact { h with connected := fun _ _ mode => by cases mode }

theorem begin_exact (pools : Option (List String)) (start : Int)
    : Exact pools start (.begin start) where
  channel := init_channel
  received := rfl
  from_start := le_rfl
  place := Or.inl rfl
  connected _ _ mode := by cases mode

/-- Nothing is ahead of a recipient that has caught up. -/
theorem Exact.none_ahead {s : State} (h : Exact pools start s) (caughtUp : s.CaughtUp)
    : since EncryptedNoteRow.id (selected pools) s.cursor s.relay.notes = [] := by
  obtain ⟨client, lastSeen, mode, phase, next, drained⟩ := caughtUp
  obtain ⟨origin, connected⟩ := h.connected client _ mode
  obtain ⟨processed, low⟩ := connected.processed
  have quiet := connected.quiet
  rw [List.take_length] at processed quiet
  have following := connected.safe.resumed.following lastSeen [] origin phase
    (by rw [connected.query])
  rw [List.append_nil, connected.query] at following
  have complete := following.complete quiet
  have rest
      : since EncryptedNoteRow.id (StreamQuery.selects ⟨some origin, pools⟩) lastSeen [] = [] :=
    rfl
  rw [← h.channel.sent_eq_feed drained, next, List.drop_length, rest, List.append_nil,
    processed] at complete
  have whole : between EncryptedNoteRow.id (selected pools) origin s.cursor s.relay.notes
        ++ since EncryptedNoteRow.id (selected pools) s.cursor s.relay.notes
      = since EncryptedNoteRow.id (selected pools) origin s.relay.notes :=
    between_append_since h.channel.increasing low
  exact List.append_right_eq_self.mp (whole.trans complete.symm)

/-- Lossless delivery over any number of connections. Whatever the indexer and other clients do, and
however often connections break, lag behind or overflow their replay, unless the fan-out task
starts past an open connection the recipient has at every moment exactly the notes of its filter
past its start and up to its cursor, in order; it has all there are whenever it has caught up
with an idle stream or has fetched a last page.
-/
theorem received_exact (pools : Option (List String)) (start : Int) {actions : List Action}
    {s : State}
    (unskipped : Machine.Along (step pools) Unskipped (.begin start) actions)
    (ran : Machine.run (step pools) (.begin start) actions = some s)
    : s.received = between EncryptedNoteRow.id (selected pools) start s.cursor s.relay.notes
      ∧ (s.CaughtUp
        → s.received = since EncryptedNoteRow.id (selected pools) start s.relay.notes)
      ∧ ∀ t, step pools s .page = some t → t.mode = .offline
          → t.received = since EncryptedNoteRow.id (selected pools) start t.relay.notes := by
  have now : Exact pools start s :=
    Machine.invariant_along (fun _ _ _ => step_exact) (begin_exact pools start) unskipped ran
  have all {t : State} (h : Exact pools start t)
      (none : since EncryptedNoteRow.id (selected pools) t.cursor t.relay.notes = [])
      : t.received = since EncryptedNoteRow.id (selected pools) start t.relay.notes := by
    rw [h.received, ← between_append_since h.channel.increasing h.from_start, none,
      List.append_nil]
  refine ⟨now.received, fun caughtUp => all now (now.none_ahead caughtUp), ?_⟩
  intro t stepped ended
  have paged : Unskipped s .page := trivial
  refine all (step_exact paged now stepped) ?_
  simp only [step] at stepped
  split at stepped
  next =>
    obtain rfl := Option.some.inj stepped
    refine (page_between now.channel.increasing s.cursor rfl).2.2.2 ?_
    dsimp only at ended
    split at ended
    next => cases ended
    next last => exact Option.not_isSome_iff_eq_none.mp last
  next => cases stepped

/-- The fan-out task starts under the first connection, which is lost after one of its two notes has
been read; the second one replays a note that it is also sent.
-/
def reconnectRun : List Action :=
  [.relay (.insert (sampleRow 1)), .connect 0, .relay (.replay 0 true), .relay (.readStart true),
    .relay (.insert (sampleRow 2)), .relay (.deliver 0), .relay .wake, .relay (.page true),
    .relay .send, .relay .send, .relay (.receive 0), .read, .disconnect, .connect 1,
    .relay (.insert (sampleRow 3)), .relay (.replay 1 true), .relay .wake, .relay (.page true),
    .relay .send, .relay .send, .relay (.deliver 1), .relay (.deliver 1), .relay (.receive 1),
    .read, .read]

theorem received_exact_reconnect
    : ∃ s,
        Machine.run (step (some ["CPOOL"])) (.begin 0) reconnectRun = some s
        ∧ s.relay.notes.map EncryptedNoteRow.id = [1, 2, 3]
        ∧ s.received = since EncryptedNoteRow.id (selected (some ["CPOOL"])) 0 s.relay.notes := by
  have observed
      : (Machine.run (step (some ["CPOOL"])) (.begin 0) reconnectRun).map
          (fun s => ((s.relay.notes.map EncryptedNoteRow.id, s.relay.fanOut),
            (s.mode, (s.relay.clients 1).phase),
            [(s.relay.clients 1).out.length, (s.relay.clients 1).next, s.relay.sent.length]))
        = some (([1, 2, 3], .waiting 3), (.following 1 2, .streaming 3 []), [2, 2, 2]) := by
    decide +kernel
  have unskipped : Machine.Along (step (some ["CPOOL"])) Unskipped (.begin 0) reconnectRun := by
    decide +kernel
  obtain ⟨s, ran, shape⟩ := Option.map_eq_some_iff.mp observed
  simp only [Prod.mk.injEq, List.cons.injEq, and_true] at shape
  obtain ⟨⟨ids, fanOut⟩, ⟨mode, phase⟩, written, next, sent⟩ := shape
  have drained : s.relay.Drained := by
    refine ⟨3, by rw [fanOut]; rfl, ?_⟩
    intro note member
    have id := List.mem_map_of_mem (f := EncryptedNoteRow.id) member
    rw [ids] at id
    simp only [List.mem_cons, List.not_mem_nil, or_false] at id
    omega
  have caughtUp : s.CaughtUp := ⟨1, 3, written ▸ mode, phase, next.trans sent.symm, drained⟩
  obtain ⟨_, all, _⟩ := received_exact (some ["CPOOL"]) 0 unskipped ran
  exact ⟨s, ran, ids, all caughtUp⟩

end Attesta.Api.Recipient
