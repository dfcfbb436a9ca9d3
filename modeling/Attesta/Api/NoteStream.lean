import Attesta.Core.Models
import Attesta.Foundation.Feed
import Attesta.Foundation.Machine
import Mathlib.Logic.Function.Basic

/-! The note relay: the table written by the indexer, the fan-out task with its own cursor, the
bounded broadcast channel, and any number of SSE connections that subscribe, replay stored
notes and then follow the channel. Every await of the two tasks is a step of its own.
-/

namespace Attesta.Api.NoteStream

open Feed

/-- What a connection asks for: the id to resume from and the pool filter. -/
structure StreamQuery where
  resumeFrom : Option Int
  pools : Option (List String)
  deriving DecidableEq

/-- The pool filter, in SQL and in the live stream alike. -/
def StreamQuery.selects (query : StreamQuery) (note : EncryptedNoteRow) : Bool :=
  match query.pools with
  | some pools => pools.any (fun pool => pool == note.pool)
  | none => true

/-- A server-sent event. Rendering a row never fails. -/
inductive StreamEvent
  | note (row : EncryptedNoteRow)
  | resync
  deriving DecidableEq

/-- `REPLAY_LIMIT`. -/
def replayLimit : Nat := 5000

/-- The rows of the replay query; the table is listed in the order of its ids. -/
def replayRows (query : StreamQuery) (cursor : Int) (notes : List EncryptedNoteRow)
    : List EncryptedNoteRow :=
  (since EncryptedNoteRow.id query.selects cursor notes).take replayLimit

/-- The replayed part of a stream: on overflow the client is told to page instead. -/
def replayEvents (rows : List EncryptedNoteRow) : List StreamEvent :=
  rows.map .note ++ if rows.length = replayLimit then [.resync] else []

inductive ClientPhase
  | absent
  /-- Subscribed to the channel, before the replay query. -/
  | subscribed
  /-- The replay query has failed. -/
  | refused
  /-- `replay` is still to be written, then the channel is followed. -/
  | streaming (lastSeen : Int) (replay : List StreamEvent)
  deriving DecidableEq

structure Client where
  query : StreamQuery
  phase : ClientPhase
  /-- How many messages of the channel this receiver has passed. -/
  next : Nat
  out : List StreamEvent
  /-- How many messages had been sent when the client subscribed; nothing reads it. -/
  joined : Nat
  /-- How many notes the replay query has seen; nothing reads it. -/
  snapshot : Nat

def Client.absent : Client where
  query := ⟨none, none⟩
  phase := .absent
  next := 0
  out := []
  joined := 0
  snapshot := 0

-----------------------------------------------------------------------------------------
-- The relay as a machine
-----------------------------------------------------------------------------------------

/-- `poll_new_notes`, from the notification or timer on always through `drain_new_notes`. -/
inductive FanOut
  /-- Before the SELECT of the starting id. -/
  | starting
  | waiting (lastId : Int)
  /-- Before the SELECT of a page. -/
  | querying (lastId : Int)
  /-- In the loop over the rows of a page. -/
  | sending (lastId : Int) (rows : List EncryptedNoteRow) (fullPage : Bool)
  deriving DecidableEq

inductive Action
  /-- The indexer commits a note. -/
  | insert (row : EncryptedNoteRow)
  | readStart (succeeded : Bool)
  /-- A notification, a lost connection or a timer. -/
  | wake
  | page (succeeded : Bool)
  /-- The next row of the page is sent, or the page is done. -/
  | send
  | subscribe (client : Nat) (query : StreamQuery)
  | replay (client : Nat) (succeeded : Bool)
  /-- The next replayed event is written. -/
  | deliver (client : Nat)
  /-- The next message of the channel is received. -/
  | receive (client : Nat)

structure State where
  notes : List EncryptedNoteRow
  fanOut : FanOut
  /-- The id the fan-out task has started from; nothing reads it. -/
  start : Int
  /-- Every message ever sent; receivers reach the last `noteCapacity` of them. -/
  sent : List EncryptedNoteRow
  clients : Nat → Client

def State.init : State where
  notes := []
  fanOut := .starting
  start := 0
  sent := []
  clients _ := .absent

/-- The capacity of the broadcast channel. -/
def noteCapacity : Nat := 1024

def pageLimit : Nat := 1000

/-- `SELECT COALESCE(MAX(id), 0)`. -/
def maxId (notes : List EncryptedNoteRow) : Int :=
  (notes.map EncryptedNoteRow.id).max?.getD 0

def State.setClient (s : State) (i : Nat) (client : Client) : State :=
  { s with clients := Function.update s.clients i client }

/-- The head of the live stream of one client. -/
def Client.receive (sent : List EncryptedNoteRow) (client : Client) (lastSeen : Int)
    : Option Client :=
  if client.next + noteCapacity < sent.length then
    -- The oldest messages are gone; the receiver goes on with the oldest one left.
    some { client with
      next := sent.length - noteCapacity
      out := client.out ++ [.resync] }
  else
    match sent[client.next]? with
    | none => none
    | some note =>
        if note.id ≤ lastSeen then some { client with next := client.next + 1 }
        else
          some { client with
            next := client.next + 1
            phase := .streaming note.id []
            out := client.out ++ if client.query.selects note then [.note note] else [] }

/-- The replay query and what is derived from it. -/
def Client.startStream (notes : List EncryptedNoteRow) (client : Client) (succeeded : Bool)
    : Client :=
  match client.query.resumeFrom with
  | none => { client with phase := .streaming 0 [], snapshot := notes.length }
  | some cursor =>
      let rows := replayRows client.query cursor notes
      { client with
        phase :=
          if succeeded then .streaming (last EncryptedNoteRow.id cursor rows) (replayEvents rows)
          else .refused
        snapshot := notes.length }

/-- One step; an action that is not enabled has no successor. -/
def step (s : State) : Action → Option State
  | .insert row =>
      -- One writer and a `BIGSERIAL` column: ids become visible in increasing order.
      if (∀ note ∈ s.notes, note.id < row.id) ∧ 0 < row.id then
        some { s with notes := s.notes ++ [row] }
      else none
  | .readStart succeeded =>
      match s.fanOut with
      | .starting =>
          let start := if succeeded then maxId s.notes else 0
          some { s with fanOut := .waiting start, start }
      | _ => none
  | .wake =>
      match s.fanOut with
      | .waiting lastId => some { s with fanOut := .querying lastId }
      | _ => none
  | .page succeeded =>
      match s.fanOut with
      | .querying lastId =>
          let rows := (since EncryptedNoteRow.id (fun _ => true) lastId s.notes).take pageLimit
          some { s with
            fanOut :=
              if succeeded then .sending lastId rows (rows.length == pageLimit)
              else .waiting lastId }
      | _ => none
  | .send =>
      match s.fanOut with
      | .sending _ (note :: rows) fullPage =>
          some { s with sent := s.sent ++ [note], fanOut := .sending note.id rows fullPage }
      | .sending lastId [] fullPage =>
          some { s with fanOut := if fullPage then .querying lastId else .waiting lastId }
      | _ => none
  | .subscribe i query =>
      match (s.clients i).phase with
      | .absent =>
          some (s.setClient i
            { Client.absent with
              query
              phase := .subscribed
              next := s.sent.length
              joined := s.sent.length })
      | _ => none
  | .replay i succeeded =>
      match (s.clients i).phase with
      | .subscribed => some (s.setClient i ((s.clients i).startStream s.notes succeeded))
      | _ => none
  | .deliver i =>
      match (s.clients i).phase with
      | .streaming lastSeen (event :: rest) =>
          some (s.setClient i
            { s.clients i with
              phase := .streaming lastSeen rest
              out := (s.clients i).out ++ [event] })
      | _ => none
  | .receive i =>
      match (s.clients i).phase with
      | .streaming lastSeen [] =>
          ((s.clients i).receive s.sent lastSeen).map (s.setClient i)
      | _ => none

-----------------------------------------------------------------------------------------
-- Every way a step can go
-----------------------------------------------------------------------------------------

/-- The steps of the machine as a relation, with what a step knows about its start. -/
inductive Effect (s : State) : Action → State → Prop
  | insert {row : EncryptedNoteRow} (later : ∀ note ∈ s.notes, note.id < row.id)
    (positive : 0 < row.id)
    : Effect s (.insert row) { s with notes := s.notes ++ [row] }
  | started (starting : s.fanOut = .starting)
    : Effect s (.readStart true)
        { s with fanOut := .waiting (maxId s.notes), start := maxId s.notes }
  | startFailed (starting : s.fanOut = .starting)
    : Effect s (.readStart false) { s with fanOut := .waiting 0, start := 0 }
  | woken {lastId : Int} (waiting : s.fanOut = .waiting lastId)
    : Effect s .wake { s with fanOut := .querying lastId }
  | paged {lastId : Int} {fullPage : Bool} (querying : s.fanOut = .querying lastId)
    : Effect s (.page true)
        { s with
          fanOut :=
            .sending lastId
              ((since EncryptedNoteRow.id (fun _ => true) lastId s.notes).take pageLimit)
              fullPage }
  | pageFailed {lastId : Int} (querying : s.fanOut = .querying lastId)
    : Effect s (.page false) { s with fanOut := .waiting lastId }
  | sent {lastId : Int} {note : EncryptedNoteRow} {rows : List EncryptedNoteRow}
    {fullPage : Bool} (sending : s.fanOut = .sending lastId (note :: rows) fullPage)
    : Effect s .send
        { s with sent := s.sent ++ [note], fanOut := .sending note.id rows fullPage }
  | pageDone {lastId : Int} {fullPage : Bool} (sending : s.fanOut = .sending lastId [] fullPage)
    : Effect s .send
        { s with fanOut := if fullPage then .querying lastId else .waiting lastId }
  | subscribed {i : Nat} (query : StreamQuery) (absent : (s.clients i).phase = .absent)
    : Effect s (.subscribe i query)
        (s.setClient i
          { Client.absent with
            query
            phase := .subscribed
            next := s.sent.length
            joined := s.sent.length })
  | replayed {i : Nat} (succeeded : Bool) (subscribed : (s.clients i).phase = .subscribed)
    : Effect s (.replay i succeeded)
        (s.setClient i ((s.clients i).startStream s.notes succeeded))
  | delivered {i : Nat} {lastSeen : Int} {event : StreamEvent} {rest : List StreamEvent}
    (streaming : (s.clients i).phase = .streaming lastSeen (event :: rest))
    : Effect s (.deliver i)
        (s.setClient i
          { s.clients i with
            phase := .streaming lastSeen rest
            out := (s.clients i).out ++ [event] })
  | received {i : Nat} {lastSeen : Int} {client : Client}
    (streaming : (s.clients i).phase = .streaming lastSeen [])
    (got : (s.clients i).receive s.sent lastSeen = some client)
    : Effect s (.receive i) (s.setClient i client)

theorem step_effect {s t : State} {action : Action} (h : step s action = some t)
    : Effect s action t := by
  cases action with
  | insert row =>
      simp only [step] at h
      split at h
      next fits => exact Option.some.inj h ▸ .insert fits.1 fits.2
      next => cases h
  | readStart succeeded =>
      simp only [step] at h
      split at h
      next starting =>
        cases succeeded with
        | true => exact Option.some.inj h ▸ .started starting
        | false => exact Option.some.inj h ▸ .startFailed starting
      next => cases h
  | wake =>
      simp only [step] at h
      split at h
      next waiting => exact Option.some.inj h ▸ .woken waiting
      next => cases h
  | page succeeded =>
      simp only [step] at h
      split at h
      next querying =>
        cases succeeded with
        | true => exact Option.some.inj h ▸ .paged querying
        | false => exact Option.some.inj h ▸ .pageFailed querying
      next => cases h
  | send =>
      simp only [step] at h
      split at h
      next sending => exact Option.some.inj h ▸ .sent sending
      next sending => exact Option.some.inj h ▸ .pageDone sending
      next => cases h
  | subscribe i query =>
      simp only [step] at h
      split at h
      next absent => exact Option.some.inj h ▸ .subscribed query absent
      next => cases h
  | replay i succeeded =>
      simp only [step] at h
      split at h
      next subscribed => exact Option.some.inj h ▸ .replayed succeeded subscribed
      next => cases h
  | deliver i =>
      simp only [step] at h
      split at h
      next streaming => exact Option.some.inj h ▸ .delivered streaming
      next => cases h
  | receive i =>
      simp only [step] at h
      split at h
      next streaming =>
        obtain ⟨client, got, rfl⟩ := Option.map_eq_some_iff.mp h
        exact .received streaming got
      next => cases h

-----------------------------------------------------------------------------------------
-- The channel carries the table from the starting id on
-----------------------------------------------------------------------------------------

/-- The rows of the current page that have not been sent. -/
def FanOut.rows : FanOut → List EncryptedNoteRow
  | .sending _ rows _ => rows
  | _ => []

def FanOut.lastId? : FanOut → Option Int
  | .starting => none
  | .waiting lastId | .querying lastId | .sending lastId _ _ => some lastId

/-- Every message there is, or will be, for the notes stored so far. -/
def State.feed (s : State) : List EncryptedNoteRow :=
  since EncryptedNoteRow.id (fun _ => true) s.start s.notes

/-- The invariant of the fan-out task. -/
structure Channel (s : State) : Prop where
  increasing : Increasing EncryptedNoteRow.id s.notes
  positive : ∀ note ∈ s.notes, 0 < note.id
  start : s.start = 0 ∨ ∃ note ∈ s.notes, note.id = s.start
  idle : s.fanOut = .starting → s.sent = [] ∧ s.start = 0
  ahead : s.sent ++ s.fanOut.rows <+: s.feed
  cursor
    : ∀ lastId, s.fanOut.lastId? = some lastId
        → lastId = last EncryptedNoteRow.id s.start s.sent

theorem le_maxId {notes : List EncryptedNoteRow} {note : EncryptedNoteRow}
    (member : note ∈ notes)
    : note.id ≤ maxId notes := by
  unfold maxId
  have inside : note.id ∈ notes.map EncryptedNoteRow.id := List.mem_map_of_mem member
  cases found : (notes.map EncryptedNoteRow.id).max? with
  | none => simp [List.max?_eq_none_iff.mp found] at inside
  | some greatest => exact (List.max?_eq_some_iff.mp found).2 _ inside

theorem maxId_mem (notes : List EncryptedNoteRow)
    : maxId notes = 0 ∨ ∃ note ∈ notes, note.id = maxId notes := by
  unfold maxId
  cases found : (notes.map EncryptedNoteRow.id).max? with
  | none => exact Or.inl rfl
  | some greatest =>
      have inside := (List.max?_eq_some_iff.mp found).1
      exact Or.inr (List.mem_map.mp inside)

/-- Nothing lies past the greatest id. -/
theorem since_maxId (select : EncryptedNoteRow → Bool) (notes : List EncryptedNoteRow)
    : since EncryptedNoteRow.id select (maxId notes) notes = [] := by
  refine List.filter_eq_nil_iff.mpr ?_
  intro note member
  have bound := le_maxId member
  simp [bound]

/-- A new note is past every cursor taken from the table. -/
theorem Channel.start_lt {s : State} (h : Channel s) {row : EncryptedNoteRow}
    (later : ∀ note ∈ s.notes, note.id < row.id) (positive : 0 < row.id)
    : s.start < row.id := by
  rcases h.start with zero | ⟨note, member, same⟩
  · rw [zero]
    exact positive
  · rw [← same]
    exact later note member

theorem Channel.feed_insert {s : State} (h : Channel s) {row : EncryptedNoteRow}
    (later : ∀ note ∈ s.notes, note.id < row.id) (positive : 0 < row.id)
    : State.feed { s with notes := s.notes ++ [row] } = s.feed ++ [row] := by
  have fresh : s.start < row.id := h.start_lt later positive
  simp [State.feed, since, fresh]

theorem Channel.feed_increasing {s : State} (h : Channel s)
    : Increasing EncryptedNoteRow.id s.feed :=
  h.increasing.since _ _

theorem Channel.sent_prefix {s : State} (h : Channel s) : s.sent <+: s.feed :=
  (List.prefix_append _ _).trans h.ahead

/-- The next page starts right after what has been sent. -/
theorem Channel.page {s : State} (h : Channel s) {lastId : Int}
    (querying : s.fanOut = .querying lastId)
    : s.sent ++ since EncryptedNoteRow.id (fun _ => true) lastId s.notes = s.feed := by
  obtain ⟨rest, shape⟩ := h.sent_prefix
  have place := h.cursor lastId (by rw [querying]; rfl)
  have after : ∀ note ∈ s.sent ++ rest, s.start < note.id := by
    intro note member
    rw [shape] at member
    exact (mem_since.mp member).2.2
  have sorted : Increasing EncryptedNoteRow.id (s.sent ++ rest) := shape ▸ h.feed_increasing
  have unread := since_last sorted after
  have bound : s.start ≤ lastId := by
    rw [place]
    exact cursor_le_last (fun note member => after note (List.mem_append_left _ member))
  have same : since EncryptedNoteRow.id (fun _ => true) lastId s.notes
      = since EncryptedNoteRow.id (fun _ => true) lastId s.feed := by
    simp only [State.feed, since, List.filter_filter]
    refine List.filter_congr ?_
    intro note _
    by_cases past : lastId < note.id
    · simp [past, bound.trans_lt past]
    · simp [past]
  rw [same, ← shape, place, unread]

theorem step_channel {s t : State} {action : Action} (h : Channel s)
    (stepped : step s action = some t)
    : Channel t := by
  cases step_effect stepped with
  | @insert row later positive =>
      have grown := h.feed_insert later positive
      refine {
        increasing := List.pairwise_append.mpr ⟨h.increasing, List.pairwise_singleton _ _, ?_⟩
        positive := ?_
        start := h.start.imp_right fun found => ?_
        idle := h.idle
        ahead := by rw [grown]; exact h.ahead.trans (List.prefix_append _ _)
        cursor := h.cursor
      }
      · intro note member other last
        rw [List.mem_singleton.mp last]
        exact later note member
      · intro note member
        rcases List.mem_append.mp member with old | new
        · exact h.positive note old
        · rw [List.mem_singleton.mp new]
          exact positive
      · obtain ⟨note, member, same⟩ := found
        exact ⟨note, List.mem_append_left _ member, same⟩
  | started starting =>
      obtain ⟨none, _⟩ := h.idle starting
      refine { h with
        start := maxId_mem s.notes
        idle := fun again => by cases again
        ahead := by rw [none]; exact List.nil_prefix
        cursor := fun lastId same => by rw [none]; exact (Option.some.inj same).symm
      }
  | startFailed starting =>
      obtain ⟨none, _⟩ := h.idle starting
      refine { h with
        start := Or.inl rfl
        idle := fun again => by cases again
        ahead := by rw [none]; exact List.nil_prefix
        cursor := fun lastId same => by rw [none]; exact (Option.some.inj same).symm
      }
  | woken waiting =>
      have ahead := h.ahead
      rw [waiting] at ahead
      exact { h with
        idle := fun again => by cases again
        ahead := ahead
        cursor := fun lastId same => h.cursor lastId (by rw [waiting]; exact same)
      }
  | @paged lastId fullPage querying =>
      have page : s.sent
            ++ (since EncryptedNoteRow.id (fun _ => true) lastId s.notes).take pageLimit
          <+: s.feed := by
        rw [← h.page querying]
        exact (List.prefix_append_right_inj _).mpr (List.take_prefix _ _)
      exact { h with
        idle := fun again => by cases again
        ahead := page
        cursor := fun lastId same => h.cursor lastId (by rw [querying]; exact same)
      }
  | pageFailed querying =>
      have ahead := h.ahead
      rw [querying] at ahead
      exact { h with
        idle := fun again => by cases again
        ahead := ahead
        cursor := fun lastId same => h.cursor lastId (by rw [querying]; exact same)
      }
  | sent sending =>
      have ahead := h.ahead
      rw [sending] at ahead
      exact { h with
        idle := fun again => by cases again
        ahead := by simpa [FanOut.rows, State.feed] using ahead
        cursor := fun lastId same => by rw [last_concat]; exact (Option.some.inj same).symm
      }
  | @pageDone lastId fullPage sending =>
      have ahead := h.ahead
      rw [sending] at ahead
      have place := h.cursor lastId (by rw [sending]; rfl)
      cases fullPage <;> exact { h with
        idle := fun again => by cases again
        ahead := ahead
        cursor := fun _ same => (Option.some.inj same).symm.trans place
      }
  | subscribed | replayed | delivered | received =>
      exact ⟨h.increasing, h.positive, h.start, h.idle, h.ahead, h.cursor⟩

theorem init_channel : Channel State.init where
  increasing := List.Pairwise.nil
  positive := by simp [State.init]
  start := Or.inl rfl
  idle _ := ⟨rfl, rfl⟩
  ahead := List.nil_prefix
  cursor _ same := by cases same

theorem run_channel {s : State} {actions : List Action}
    (ran : Machine.run step State.init actions = some s)
    : Channel s :=
  Machine.invariant (fun _ _ _ => step_channel) init_channel ran

/-- The fan-out task would read an empty page now. -/
def State.Drained (s : State) : Prop :=
  ∃ lastId, s.fanOut.lastId? = some lastId ∧ ∀ note ∈ s.notes, note.id ≤ lastId

/-- A step of the fan-out task. -/
def Action.IsFanOut : Action → Prop
  | .readStart _ | .wake | .page _ | .send => True
  | _ => False

/-- With nothing left to read, everything has been sent. -/
theorem Channel.sent_eq_feed {s : State} (h : Channel s) (drained : s.Drained)
    : s.sent = s.feed := by
  obtain ⟨lastId, here, bound⟩ := drained
  obtain ⟨rest, shape⟩ := h.sent_prefix
  have place := h.cursor lastId here
  cases rest with
  | nil => rw [← shape, List.append_nil]
  | cons note rest =>
      have after : ∀ other ∈ s.sent ++ note :: rest, s.start < other.id := by
        intro other member
        rw [shape] at member
        exact (mem_since.mp member).2.2
      have sorted : Increasing EncryptedNoteRow.id (s.sent ++ note :: rest) :=
        shape ▸ h.feed_increasing
      have past := sorted.last_lt after (List.mem_cons_self ..)
      have stored : note ∈ s.feed := by
        rw [← shape]
        simp
      have upper := bound note (mem_since.mp stored).1
      rw [place] at upper
      exact absurd past (not_lt.mpr upper)

/-- Between two pages, with the next one starting after an id. -/
def FanOut.ReadsFrom (lastId : Int) (fanOut : FanOut) : Prop :=
  fanOut = .waiting lastId ∨ fanOut = .querying lastId

/-- The loop over the rows of a page, by induction on the rows. -/
theorem send_rows (s : State) (lastId : Int) (rows : List EncryptedNoteRow) (fullPage : Bool)
    : ∃ actions final fanOut, (∀ action ∈ actions, action.IsFanOut)
        ∧ Machine.run step { s with fanOut := .sending lastId rows fullPage } actions
          = some { s with sent := s.sent ++ rows, fanOut }
        ∧ fanOut.ReadsFrom final := by
  induction rows generalizing s lastId with
  | nil =>
      refine ⟨[.send], lastId, if fullPage then .querying lastId else .waiting lastId,
        by simp [Action.IsFanOut], ?_, ?_⟩
      · simp [Machine.run, step]
      · cases fullPage
        · exact Or.inl rfl
        · exact Or.inr rfl
  | cons note rows ih =>
      obtain ⟨actions, final, fanOut, own, ran, after⟩ :=
        ih { s with sent := s.sent ++ [note] } note.id
      refine ⟨.send :: actions, final, fanOut, ?_, ?_, after⟩
      · simpa [Action.IsFanOut] using own
      · refine Machine.run_cons.mpr ⟨_, rfl, ?_⟩
        rw [List.append_assoc] at ran
        exact ran

/-- One page, from its query to the end of the loop over its rows. -/
theorem send_page (s : State) {lastId : Int} (ready : s.fanOut.ReadsFrom lastId)
    : ∃ actions final fanOut, (∀ action ∈ actions, action.IsFanOut)
        ∧ Machine.run step s actions
          = some { s with
              sent :=
                s.sent
                ++ (since EncryptedNoteRow.id (fun _ => true) lastId s.notes).take pageLimit
              fanOut }
        ∧ fanOut.ReadsFrom final := by
  obtain ⟨actions, final, fanOut, own, ran, after⟩ := send_rows s lastId
    ((since EncryptedNoteRow.id (fun _ => true) lastId s.notes).take pageLimit)
    (((since EncryptedNoteRow.id (fun _ => true) lastId s.notes).take pageLimit).length
      == pageLimit)
  rcases ready with waiting | querying
  · refine ⟨.wake :: .page true :: actions, final, fanOut, ?_, ?_, after⟩
    · simpa [Action.IsFanOut] using own
    · refine Machine.run_cons.mpr ⟨{ s with fanOut := .querying lastId }, ?_, ?_⟩
      · simp [step, waiting]
      · exact Machine.run_cons.mpr ⟨_, rfl, ran⟩
  · refine ⟨.page true :: actions, final, fanOut, ?_, ?_, after⟩
    · simpa [Action.IsFanOut] using own
    · refine Machine.run_cons.mpr ⟨_, ?_, ran⟩
      simp [step, querying]

/-- Page by page the whole table is sent, by induction on what has not been sent. -/
theorem drain_pages {s : State} (h : Channel s) {lastId : Int}
    (ready : s.fanOut.ReadsFrom lastId)
    : ∃ actions t, (∀ action ∈ actions, action.IsFanOut)
        ∧ Machine.run step s actions = some t
        ∧ t.Drained ∧ t.notes = s.notes ∧ t.clients = s.clients := by
  induction unsent : s.feed.length - s.sent.length using Nat.strong_induction_on
    generalizing s lastId with
  | _ n ih =>
      obtain ⟨actions, final, fanOut, own, ran, after⟩ := send_page s ready
      have channel := Machine.invariant (fun _ _ _ => step_channel) h ran
      have place : s.fanOut.lastId? = some lastId := by
        rcases ready with waiting | querying
        · rw [waiting]; rfl
        · rw [querying]; rfl
      cases page
          : (since EncryptedNoteRow.id (fun _ => true) lastId s.notes).take pageLimit with
      | nil =>
          refine ⟨[], s, by simp, rfl, ⟨lastId, place, ?_⟩, rfl, rfl⟩
          have none : since EncryptedNoteRow.id (fun _ => true) lastId s.notes = [] := by
            simpa [pageLimit] using page
          intro note member
          have old := List.filter_eq_nil_iff.mp none note member
          simpa using old
      | cons note rows =>
          rw [page] at ran channel
          have longer := channel.sent_prefix.length_le
          have fewer : s.feed.length - (s.sent ++ note :: rows).length < n := by
            change (s.sent ++ note :: rows).length ≤ s.feed.length at longer
            rw [List.length_append, List.length_cons] at longer ⊢
            omega
          obtain ⟨more, t, further, rest, drained, notes, clients⟩ :=
            ih _ fewer channel after rfl
          refine ⟨actions ++ more, t, ?_, Machine.run_append.mpr ⟨_, ran, rest⟩, drained, notes,
            clients⟩
          intro action member
          rcases List.mem_append.mp member with first | second
          · exact own action first
          · exact further action second

/-- From every reachable state the fan-out task can go on until it has sent everything. -/
theorem reaches_drained {s : State} (h : Channel s)
    : ∃ actions t, (∀ action ∈ actions, action.IsFanOut)
        ∧ Machine.run step s actions = some t
        ∧ t.Drained ∧ t.notes = s.notes ∧ t.clients = s.clients := by
  cases fanOut : s.fanOut with
  | waiting lastId => exact drain_pages h (Or.inl fanOut)
  | querying lastId => exact drain_pages h (Or.inr fanOut)
  | starting =>
      have first : step s (.readStart false)
          = some { s with fanOut := .waiting 0, start := 0 } := by
        simp [step, fanOut]
      obtain ⟨actions, t, own, ran, drained⟩ :=
        drain_pages (step_channel h first) (Or.inl rfl)
      refine ⟨.readStart false :: actions, t, ?_, Machine.run_cons.mpr ⟨_, first, ran⟩, drained⟩
      simpa [Action.IsFanOut] using own
  | sending lastId rows fullPage =>
      obtain ⟨before, final, after, own, ran, ready⟩ := send_rows s lastId rows fullPage
      have same : { s with fanOut := .sending lastId rows fullPage } = s := by
        rw [← fanOut]
      rw [same] at ran
      have channel := Machine.invariant (fun _ _ _ => step_channel) h ran
      obtain ⟨actions, t, further, rest, drained⟩ := drain_pages channel ready
      refine ⟨before ++ actions, t, ?_, Machine.run_append.mpr ⟨_, ran, rest⟩, drained⟩
      intro action member
      rcases List.mem_append.mp member with first | second
      · exact own action first
      · exact further action second

end Attesta.Api.NoteStream
