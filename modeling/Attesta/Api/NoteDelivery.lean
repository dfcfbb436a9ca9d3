import Attesta.Api.NoteStream

/-! What an SSE client gets. A stream that has not told its client to page again is a prefix of
the notes the client has asked for, however its replay overlaps with the live channel.
-/

namespace Attesta.Api.NoteStream

open Feed

def notesOf (events : List StreamEvent) : List EncryptedNoteRow :=
  events.filterMap (fun event =>
    match event with
    | .note row => some row
    | .resync => none)

@[simp]
theorem notesOf_append (first second : List StreamEvent)
    : notesOf (first ++ second) = notesOf first ++ notesOf second :=
  List.filterMap_append ..

@[simp]
theorem notesOf_note (row : EncryptedNoteRow) : notesOf [.note row] = [row] := rfl

@[simp]
theorem notesOf_resync : notesOf [.resync] = [] := rfl

@[simp]
theorem notesOf_map_note (rows : List EncryptedNoteRow)
    : notesOf (rows.map .note) = rows := by
  induction rows with
  | nil => rfl
  | cons row rest _ => simp [notesOf]

/-- A stream that resumed at `cursor`: `events` have been written or are about to be, the
receiver stands at `next` in the feed of messages, and the replay query saw the first
`snapshot` notes.
-/
structure Following (notes feed : List EncryptedNoteRow) (select : EncryptedNoteRow → Bool)
    (events : List StreamEvent) (next snapshot : Nat) (cursor lastSeen : Int)
    : Prop where
  cursor_le : cursor ≤ lastSeen
  seen : lastSeen = cursor ∨ ∃ note ∈ notes, note.id = lastSeen
  snapshot_le : snapshot ≤ notes.length
  ordered : Increasing EncryptedNoteRow.id (notesOf events)
  selected
    : ∀ note ∈ notesOf events, select note = true ∧ cursor < note.id ∧ note.id ≤ lastSeen
  quiet
    : ∀ pre, pre <+: events → .resync ∉ pre
        → notesOf pre <+: since EncryptedNoteRow.id select cursor notes
  caught
    : .resync ∉ events
        → ∀ note ∈ notes.take snapshot, select note = true → note.id ≤ lastSeen
  complete
    : .resync ∉ events
        → notesOf events ++ since EncryptedNoteRow.id select lastSeen (feed.drop next)
          = since EncryptedNoteRow.id select cursor notes

variable {notes feed : List EncryptedNoteRow} {select : EncryptedNoteRow → Bool}
  {events : List StreamEvent} {next snapshot : Nat} {cursor lastSeen : Int}

theorem mem_notesOf {row : EncryptedNoteRow} : row ∈ notesOf events ↔ .note row ∈ events := by
  simp only [notesOf, List.mem_filterMap]
  constructor
  · intro h
    obtain ⟨event, member, same⟩ := h
    cases event with
    | note other =>
        obtain rfl := Option.some.inj same
        exact member
    | resync => cases same
  · exact fun member => ⟨_, member, rfl⟩

theorem notesOf_prefix {pre : List StreamEvent} (h : pre <+: events)
    : notesOf pre <+: notesOf events := by
  obtain ⟨rest, rfl⟩ := h
  rw [notesOf_append]
  exact List.prefix_append _ _

theorem notesOf_replayEvents (rows : List EncryptedNoteRow)
    : notesOf (replayEvents rows) = rows := by
  unfold replayEvents
  rw [notesOf_append, notesOf_map_note]
  split
  · exact List.append_nil rows
  · exact List.append_nil rows

/-- A replay without `resync` has returned every matching row. -/
theorem replayRows_eq {query : StreamQuery}
    (quiet : .resync ∉ replayEvents (replayRows query cursor notes))
    : replayRows query cursor notes
      = since EncryptedNoteRow.id query.selects cursor notes := by
  have short : (replayRows query cursor notes).length ≠ replayLimit := by
    intro full
    exact quiet (by simp [replayEvents, full])
  refine List.take_of_length_le ?_
  rw [replayRows, List.length_take] at short
  omega

/-- The replay covers everything up to its snapshot, or ends with a `resync`. -/
theorem Following.start (increasing : Increasing EncryptedNoteRow.id notes)
    (feed_subset : feed ⊆ notes) (query : StreamQuery) (cursor : Int) (next : Nat)
    : Following notes feed query.selects (replayEvents (replayRows query cursor notes)) next
        notes.length cursor (last EncryptedNoteRow.id cursor (replayRows query cursor notes)) := by
  have part : replayRows query cursor notes
      <+: since EncryptedNoteRow.id query.selects cursor notes :=
    List.take_prefix _ _
  have wanted : ∀ note ∈ replayRows query cursor notes,
      note ∈ notes ∧ query.selects note = true ∧ cursor < note.id :=
    fun note member => mem_since.mp (part.subset member)
  have sorted : Increasing EncryptedNoteRow.id (replayRows query cursor notes) :=
    (increasing.since query.selects cursor).sublist part.sublist
  have cursor_le := cursor_le_last (fun note member => (wanted note member).2.2)
  have rows := notesOf_replayEvents (replayRows query cursor notes)
  have caught (quiet : .resync ∉ replayEvents (replayRows query cursor notes))
      (note : EncryptedNoteRow) (member : note ∈ notes) (chosen : query.selects note = true)
      : note.id ≤ last EncryptedNoteRow.id cursor (replayRows query cursor notes) := by
    by_cases past : cursor < note.id
    · apply sorted.le_last
      rw [replayRows_eq quiet]
      exact mem_since.mpr ⟨member, chosen, past⟩
    · exact (not_lt.mp past).trans cursor_le
  exact {
    cursor_le
    seen := by
      cases final : (replayRows query cursor notes).getLast? with
      | none => simp [last, final]
      | some note =>
          refine Or.inr ⟨note, (wanted note (List.mem_of_getLast? final)).1, ?_⟩
          simp [last, final]
    snapshot_le := le_rfl
    ordered := by rw [rows]; exact sorted
    selected := by
      rw [rows]
      exact fun note member => ⟨(wanted note member).2.1, (wanted note member).2.2,
        sorted.le_last member cursor⟩
    quiet := by
      intro pre before _
      have shorter := notesOf_prefix before
      rw [rows] at shorter
      exact shorter.trans part
    caught := by
      intro quiet note member chosen
      exact caught quiet note (List.mem_of_mem_take member) chosen
    complete := by
      intro quiet
      have done : since EncryptedNoteRow.id query.selects
          (last EncryptedNoteRow.id cursor (replayRows query cursor notes)) (feed.drop next)
          = [] := by
        refine List.filter_eq_nil_iff.mpr ?_
        intro note member
        have inside : note ∈ notes := feed_subset (List.mem_of_mem_drop member)
        have bound := caught quiet note inside
        simpa using bound
      rw [rows, done, List.append_nil]
      exact replayRows_eq quiet
  }

/-- A new note is past the last one seen exactly if it is past the cursor. -/
theorem Following.fresh (h : Following notes feed select events next snapshot cursor lastSeen)
    {row : EncryptedNoteRow} (later : ∀ note ∈ notes, note.id < row.id)
    : lastSeen < row.id ↔ cursor < row.id := by
  constructor
  · exact fun past => h.cursor_le.trans_lt past
  · intro past
    rcases h.seen with rfl | ⟨note, member, same⟩
    · exact past
    · rw [← same]
      exact later note member

/-- A note is stored, and will be sent. -/
theorem Following.insert (h : Following notes feed select events next snapshot cursor lastSeen)
    {row : EncryptedNoteRow} (later : ∀ note ∈ notes, note.id < row.id)
    (within : next ≤ feed.length)
    : Following (notes ++ [row]) (feed ++ [row]) select events next snapshot cursor lastSeen := by
  have grown : since EncryptedNoteRow.id select cursor (notes ++ [row])
      = since EncryptedNoteRow.id select cursor notes
        ++ since EncryptedNoteRow.id select cursor [row] :=
    since_append notes [row]
  refine {
    cursor_le := h.cursor_le
    seen := h.seen.imp_right fun found => ?_
    snapshot_le := h.snapshot_le.trans (by simp)
    ordered := h.ordered
    selected := h.selected
    quiet := ?_
    caught := ?_
    complete := ?_
  }
  · obtain ⟨note, member, same⟩ := found
    exact ⟨note, List.mem_append_left _ member, same⟩
  · intro pre before quiet
    rw [grown]
    exact (h.quiet pre before quiet).trans (List.prefix_append _ _)
  · rw [List.take_append_of_le_length h.snapshot_le]
    exact h.caught
  · intro quiet
    have same : since EncryptedNoteRow.id select lastSeen [row]
        = since EncryptedNoteRow.id select cursor [row] := by
      simp [since, h.fresh later, List.filter_cons]
    rw [List.drop_append_of_le_length within, since_append, since_append, ← List.append_assoc,
      h.complete quiet, same]

/-- The fan-out task starts past every note the snapshot has seen. -/
theorem Following.startFeed
    (h : Following notes feed select events next snapshot cursor lastSeen)
    (whole : notes.length ≤ snapshot) (feed_eq : feed.drop next = notes)
    : Following notes [] select events next snapshot cursor lastSeen := by
  refine { h with complete := ?_ }
  intro quiet
  have done : since EncryptedNoteRow.id select lastSeen notes = [] := by
    refine List.filter_eq_nil_iff.mpr ?_
    intro note member
    have bound := h.caught quiet note (by rwa [List.take_of_length_le whole])
    simpa using bound
  have complete := h.complete quiet
  rw [feed_eq, done] at complete
  rw [List.drop_nil]
  exact complete

/-- The receiver has lost messages. -/
theorem Following.resync
    (h : Following notes feed select events next snapshot cursor lastSeen) (later : Nat)
    : Following notes feed select (events ++ [.resync]) later snapshot cursor lastSeen := by
  have loud : .resync ∈ events ++ [.resync] := by simp
  refine { h with
    ordered := by simpa using h.ordered
    selected := by simpa using h.selected
    quiet := ?_
    caught := fun quiet => absurd loud quiet
    complete := fun quiet => absurd loud quiet
  }
  intro pre before quiet
  rcases List.prefix_concat_iff.mp before with rfl | shorter
  · exact absurd loud quiet
  · exact h.quiet pre shorter quiet

/-- A message that overlaps with what has been seen is skipped. -/
theorem Following.skip
    (h : Following notes feed select events next snapshot cursor lastSeen)
    {note : EncryptedNoteRow} (here : feed[next]? = some note) (old : note.id ≤ lastSeen)
    : Following notes feed select events (next + 1) snapshot cursor lastSeen := by
  refine { h with complete := ?_ }
  intro quiet
  obtain ⟨bound, found⟩ := List.getElem?_eq_some_iff.mp here
  have head := List.drop_eq_getElem_cons bound
  have complete := h.complete quiet
  rw [head, found, since_cons_old old] at complete
  exact complete

/-- A message past everything seen is delivered if the client has asked for it. -/
theorem Following.receive
    (h : Following notes feed select events next snapshot cursor lastSeen)
    (increasing : Increasing EncryptedNoteRow.id feed) (feed_subset : feed ⊆ notes)
    {note : EncryptedNoteRow} (here : feed[next]? = some note) (fresh : lastSeen < note.id)
    : Following notes feed select (events ++ if select note then [.note note] else [])
        (next + 1) snapshot cursor note.id := by
  obtain ⟨bound, found⟩ := List.getElem?_eq_some_iff.mp here
  have head : feed.drop next = note :: feed.drop (next + 1) := by
    rw [List.drop_eq_getElem_cons bound, found]
  have sorted : Increasing EncryptedNoteRow.id (note :: feed.drop (next + 1)) := by
    rw [← head]
    exact List.Pairwise.sublist (List.drop_sublist _ _) increasing
  have inside : note ∈ notes := feed_subset (List.mem_of_getElem? here)
  have past : cursor < note.id := h.cursor_le.trans_lt fresh
  have rows : notesOf (events ++ if select note then [.note note] else [])
      = notesOf events ++ if select note then [note] else [] := by
    rw [notesOf_append]
    split <;> rfl
  have earlier (quiet : .resync ∉ events ++ if select note then [.note note] else [])
      : .resync ∉ events :=
    fun loud => quiet (List.mem_append_left _ loud)
  have complete (quiet : .resync ∉ events)
      : notesOf (events ++ if select note then [.note note] else [])
          ++ since EncryptedNoteRow.id select note.id (feed.drop (next + 1))
        = since EncryptedNoteRow.id select cursor notes := by
    have before := h.complete quiet
    rw [head, since_cons_new sorted fresh] at before
    rw [rows, List.append_assoc]
    exact before
  refine {
    cursor_le := past.le
    seen := Or.inr ⟨note, inside, rfl⟩
    snapshot_le := h.snapshot_le
    ordered := ?_
    selected := ?_
    quiet := ?_
    caught := fun quiet other member chosen =>
      (h.caught (earlier quiet) other member chosen).trans fresh.le
    complete := fun quiet => complete (earlier quiet)
  }
  · rw [rows]
    refine List.pairwise_append.mpr ⟨h.ordered, by split <;> simp, ?_⟩
    intro other member new last
    split at last
    · rw [List.mem_singleton.mp last]
      exact (h.selected other member).2.2.trans_lt fresh
    · cases last
  · rw [rows]
    intro other member
    rcases List.mem_append.mp member with old | new
    · obtain ⟨chosen, after, before⟩ := h.selected other old
      exact ⟨chosen, after, before.trans fresh.le⟩
    · split at new
      next chosen =>
        rw [List.mem_singleton.mp new]
        exact ⟨chosen, past, le_rfl⟩
      next => cases new
  · intro pre before quiet
    cases chosen : select note with
    | false =>
        rw [chosen] at before
        exact h.quiet pre (by simpa using before) quiet
    | true =>
        rw [chosen] at before complete
        rcases List.prefix_concat_iff.mp before with rfl | shorter
        · have silent : .resync ∉ events := fun loud => quiet (List.mem_append_left _ loud)
          exact ⟨_, complete silent⟩
        · exact h.quiet pre shorter quiet

-----------------------------------------------------------------------------------------
-- The client in the machine
-----------------------------------------------------------------------------------------

def ClientPhase.IsStreaming : ClientPhase → Prop
  | .streaming _ _ => True
  | _ => False

instance : (phase : ClientPhase) → Decidable phase.IsStreaming
  | .streaming _ _ => isTrue trivial
  | .absent | .subscribed | .refused => isFalse id

/-- Where a client has joined the channel: what was sent before, its replay has seen. -/
structure Placed (s : State) (client : Client) : Prop where
  next_le : client.next ≤ s.sent.length
  joined_le : client.joined ≤ s.sent.length
  snapshot_le : client.snapshot ≤ s.notes.length
  earlier
    : client.phase.IsStreaming
        → ∀ note ∈ s.sent.take client.joined, note ∈ s.notes.take client.snapshot

/-- A connection has written nothing yet, or follows the feed from its cursor. -/
structure Resumed (s : State) (client : Client) : Prop where
  silent : ¬ client.phase.IsStreaming → client.out = []
  following
    : ∀ lastSeen replay cursor,
        client.phase = .streaming lastSeen replay → client.query.resumeFrom = some cursor
        → Following s.notes s.feed client.query.selects (client.out ++ replay) client.next
            client.snapshot cursor lastSeen

/-- The fan-out task starts past a note that a streaming client has not replayed. -/
def StartsPast (i : Nat) (s : State) : Action → Prop
  | .readStart true =>
      (s.clients i).phase.IsStreaming ∧ (s.clients i).snapshot < s.notes.length
  | _ => False

instance (i : Nat) (s : State) : (action : Action) → Decidable (StartsPast i s action)
  | .readStart true => inferInstanceAs (Decidable (_ ∧ _))
  | .readStart false | .insert _ | .wake | .page _ | .send | .subscribe _ _ | .replay _ _
  | .deliver _ | .receive _ => isFalse id

@[simp]
theorem setClient_self (s : State) (i : Nat) (client : Client)
    : (s.setClient i client).clients i = client := by
  simp [State.setClient]

@[simp]
theorem setClient_other {i j : Nat} (apart : i ≠ j) (s : State) (client : Client)
    : (s.setClient j client).clients i = s.clients i := by
  simp [State.setClient, apart]

theorem feed_subset (s : State) : s.feed ⊆ s.notes := List.filter_sublist.subset

/-- Everything a receiver can do with its next message. -/
theorem receive_cases {sent : List EncryptedNoteRow} {client got : Client} {lastSeen : Int}
    (h : client.receive sent lastSeen = some got)
    : got = { client with
            next := sent.length - noteCapacity
            out := client.out ++ [.resync] }
        ∨ ∃ note, sent[client.next]? = some note
          ∧ (note.id ≤ lastSeen ∧ got = { client with next := client.next + 1 }
            ∨ lastSeen < note.id ∧ got = {
                client with
                next := client.next + 1
                phase := .streaming note.id []
                out := client.out ++ if client.query.selects note then [.note note] else [] }) := by
  unfold Client.receive at h
  split at h
  · exact Or.inl (Option.some.inj h).symm
  · split at h
    next => cases h
    next note here =>
      refine Or.inr ⟨note, here, ?_⟩
      split at h
      next old => exact Or.inl ⟨old, (Option.some.inj h).symm⟩
      next fresh => exact Or.inr ⟨not_le.mp fresh, (Option.some.inj h).symm⟩

theorem Placed.mono {s t : State} {client : Client} (h : Placed s client)
    (notes : s.notes <+: t.notes) (sent : s.sent <+: t.sent)
    : Placed t client := by
  obtain ⟨moreNotes, notes⟩ := notes
  obtain ⟨moreSent, sent⟩ := sent
  refine ⟨?_, ?_, ?_, ?_⟩
  · rw [← sent, List.length_append]
    exact h.next_le.trans (Nat.le_add_right _ _)
  · rw [← sent, List.length_append]
    exact h.joined_le.trans (Nat.le_add_right _ _)
  · rw [← notes, List.length_append]
    exact h.snapshot_le.trans (Nat.le_add_right _ _)
  · rw [← sent, ← notes, List.take_append_of_le_length h.joined_le,
      List.take_append_of_le_length h.snapshot_le]
    exact h.earlier

/-- A receiver never passes the end of the channel and remembers where it has joined. -/
theorem Placed.receive {s : State} {client got : Client} {lastSeen : Int} (h : Placed s client)
    (streaming : client.phase.IsStreaming)
    (received : client.receive s.sent lastSeen = some got)
    : Placed s got := by
  have earlier := h.earlier streaming
  rcases receive_cases received with rfl | ⟨note, here, ⟨_, rfl⟩ | ⟨_, rfl⟩⟩
  · exact ⟨Nat.sub_le _ _, h.joined_le, h.snapshot_le, fun _ => earlier⟩
  · exact ⟨(List.getElem?_eq_some_iff.mp here).1, h.joined_le, h.snapshot_le, fun _ => earlier⟩
  · exact ⟨(List.getElem?_eq_some_iff.mp here).1, h.joined_le, h.snapshot_le, fun _ => earlier⟩

/-- A receiver that has written its replay goes on from where it stands. -/
theorem Resumed.receive {s : State} {client got : Client} {lastSeen : Int}
    (h : Resumed s client) (channel : Channel s)
    (streaming : client.phase = .streaming lastSeen [])
    (received : client.receive s.sent lastSeen = some got)
    : Resumed s got := by
  have before (cursor : Int) (resume : client.query.resumeFrom = some cursor)
      : Following s.notes s.feed client.query.selects client.out client.next client.snapshot
          cursor lastSeen := by
    simpa using h.following lastSeen [] cursor streaming resume
  have message {note : EncryptedNoteRow} (here : s.sent[client.next]? = some note)
      : s.feed[client.next]? = some note := by
    obtain ⟨more, shape⟩ := channel.sent_prefix
    rw [← shape, List.getElem?_append_left (List.getElem?_eq_some_iff.mp here).1]
    exact here
  have active : client.phase.IsStreaming := by
    rw [streaming]
    trivial
  rcases receive_cases received with rfl | ⟨note, here, ⟨old, rfl⟩ | ⟨fresh, rfl⟩⟩
  · refine ⟨fun off => absurd active off, fun _ _ cursor phase resume => ?_⟩
    obtain ⟨rfl, rfl⟩ := ClientPhase.streaming.inj (streaming.symm.trans phase)
    rw [List.append_nil]
    exact (before cursor resume).resync _
  · refine ⟨fun off => absurd active off, fun _ _ cursor phase resume => ?_⟩
    obtain ⟨rfl, rfl⟩ := ClientPhase.streaming.inj (streaming.symm.trans phase)
    rw [List.append_nil]
    exact (before cursor resume).skip (message here) old
  · refine ⟨fun off => absurd trivial off, fun _ _ cursor phase resume => ?_⟩
    obtain ⟨rfl, rfl⟩ := ClientPhase.streaming.inj phase
    rw [List.append_nil]
    exact (before cursor resume).receive channel.feed_increasing (feed_subset s)
      (message here) fresh

theorem step_placed (i : Nat) {s t : State} {action : Action} (channel : Channel s)
    (h : Placed s (s.clients i)) (stepped : step s action = some t)
    : Placed t (t.clients i) := by
  cases step_effect stepped with
  | insert => exact h.mono (List.prefix_append _ _) List.prefix_rfl
  | sent => exact h.mono List.prefix_rfl (List.prefix_append _ _)
  | started | startFailed | woken | paged | pageFailed | pageDone =>
      exact h.mono List.prefix_rfl List.prefix_rfl
  | @subscribed j query absent =>
      by_cases same : i = j
      · subst same
        rw [setClient_self]
        exact ⟨le_rfl, le_rfl, Nat.zero_le _, fun streaming => absurd streaming id⟩
      · rw [setClient_other same]
        exact h.mono List.prefix_rfl List.prefix_rfl
  | @replayed j succeeded subscribed =>
      by_cases same : i = j
      · subst same
        rw [setClient_self]
        have seen : ∀ note ∈ s.sent.take (s.clients i).joined,
            note ∈ s.notes.take s.notes.length := by
          intro note member
          rw [List.take_length]
          exact feed_subset s (channel.sent_prefix.subset (List.mem_of_mem_take member))
        unfold Client.startStream
        split
        · exact ⟨h.next_le, h.joined_le, le_rfl, fun _ => seen⟩
        · exact ⟨h.next_le, h.joined_le, le_rfl, fun _ => seen⟩
      · rw [setClient_other same]
        exact h.mono List.prefix_rfl List.prefix_rfl
  | @delivered j lastSeen event rest streaming =>
      by_cases same : i = j
      · subst same
        rw [setClient_self]
        exact ⟨h.next_le, h.joined_le, h.snapshot_le,
          fun _ => h.earlier (by rw [streaming]; trivial)⟩
      · rw [setClient_other same]
        exact h.mono List.prefix_rfl List.prefix_rfl
  | @received j lastSeen client streaming got =>
      by_cases same : i = j
      · subst same
        rw [setClient_self]
        have placed := h.receive (by rw [streaming]; trivial) got
        exact placed.mono List.prefix_rfl List.prefix_rfl
      · rw [setClient_other same]
        exact h.mono List.prefix_rfl List.prefix_rfl

/-- A streaming client keeps following, unless the fan-out task starts past it. -/
theorem step_resumed (i : Nat) {s t : State} {action : Action} (channel : Channel s)
    (placed : Placed s (s.clients i)) (kept : ¬ StartsPast i s action)
    (h : Resumed s (s.clients i)) (stepped : step s action = some t)
    : Resumed t (t.clients i) := by
  cases step_effect stepped with
  | insert later positive =>
      refine ⟨h.silent, fun lastSeen replay cursor phase resume => ?_⟩
      have within : (s.clients i).next ≤ s.feed.length :=
        placed.next_le.trans channel.sent_prefix.length_le
      rw [channel.feed_insert later positive]
      exact (h.following lastSeen replay cursor phase resume).insert later within
  | started starting =>
      refine ⟨h.silent, fun lastSeen replay cursor phase resume => ?_⟩
      obtain ⟨none, zero⟩ := channel.idle starting
      have streaming : (s.clients i).phase.IsStreaming := by
        rw [phase]
        trivial
      have whole : s.notes.length ≤ (s.clients i).snapshot :=
        Nat.le_of_not_lt fun missed => kept ⟨streaming, missed⟩
      have first : (s.clients i).next = 0 := by
        have bound := placed.next_le
        rw [none] at bound
        exact Nat.le_zero.mp bound
      have all : s.feed.drop (s.clients i).next = s.notes := by
        rw [first, List.drop_zero, State.feed, zero]
        refine List.filter_eq_self.mpr ?_
        intro note member
        simpa using channel.positive note member
      change Following s.notes (since EncryptedNoteRow.id (fun _ => true) (maxId s.notes) s.notes)
        _ _ _ _ _ _
      rw [since_maxId]
      exact (h.following lastSeen replay cursor phase resume).startFeed whole all
  | startFailed starting =>
      refine ⟨h.silent, fun lastSeen replay cursor phase resume => ?_⟩
      have same := h.following lastSeen replay cursor phase resume
      rw [State.feed, (channel.idle starting).2] at same
      exact same
  | sent | woken | paged | pageFailed | pageDone => exact ⟨h.silent, h.following⟩
  | @subscribed j query absent =>
      by_cases same : i = j
      · subst same
        rw [setClient_self]
        exact ⟨fun _ => rfl, fun _ _ _ phase => by cases phase⟩
      · rw [setClient_other same]
        exact ⟨h.silent, h.following⟩
  | @replayed j succeeded subscribed =>
      by_cases same : i = j
      · subst same
        rw [setClient_self]
        have silent : (s.clients i).out = [] :=
          h.silent (by rw [subscribed]; exact id)
        unfold Client.startStream
        split
        next resume =>
          refine ⟨fun off => absurd trivial off, fun _ _ _ _ some => ?_⟩
          cases resume.symm.trans some
        next cursor resume =>
          cases succeeded with
          | false => exact ⟨fun _ => silent, fun _ _ _ phase => by cases phase⟩
          | true =>
              refine ⟨fun off => absurd trivial off, fun _ _ _ phase some => ?_⟩
              obtain ⟨rfl, rfl⟩ := ClientPhase.streaming.inj phase
              obtain rfl := Option.some.inj (resume.symm.trans some)
              change Following s.notes s.feed _ ((s.clients i).out ++ _) _ _ _ _
              rw [silent, List.nil_append]
              exact .start channel.increasing (feed_subset s) _ _ _
      · rw [setClient_other same]
        exact ⟨h.silent, h.following⟩
  | @delivered j lastSeen event rest streaming =>
      by_cases same : i = j
      · subst same
        rw [setClient_self]
        refine ⟨fun off => absurd trivial off, fun _ _ cursor phase resume => ?_⟩
        obtain ⟨rfl, rfl⟩ := ClientPhase.streaming.inj phase
        have before := h.following _ _ cursor streaming resume
        rw [List.append_cons] at before
        exact before
      · rw [setClient_other same]
        exact ⟨h.silent, h.following⟩
  | @received j lastSeen client streaming got =>
      by_cases same : i = j
      · subst same
        rw [setClient_self]
        have next := h.receive channel streaming got
        exact ⟨next.silent, next.following⟩
      · rw [setClient_other same]
        exact ⟨h.silent, h.following⟩

-----------------------------------------------------------------------------------------
-- Whole runs
-----------------------------------------------------------------------------------------

/-- The client connects after the fan-out task has read its starting id. -/
def StartedFirst (i : Nat) (s : State) : Action → Prop
  | .subscribe j _ => j = i → s.fanOut ≠ .starting
  | _ => True

instance (i : Nat) (s : State) : (action : Action) → Decidable (StartedFirst i s action)
  | .subscribe j _ => inferInstanceAs (Decidable (j = i → s.fanOut ≠ .starting))
  | .insert _ | .readStart _ | .wake | .page _ | .send | .replay _ _ | .deliver _
  | .receive _ => isTrue trivial

/-- What holds of one client along a run. -/
structure Safe (i : Nat) (s : State) : Prop where
  channel : Channel s
  placed : Placed s (s.clients i)
  resumed : Resumed s (s.clients i)

theorem step_safe {i : Nat} {s t : State} {action : Action} (kept : ¬ StartsPast i s action)
    (h : Safe i s) (stepped : step s action = some t)
    : Safe i t where
  channel := step_channel h.channel stepped
  placed := step_placed i h.channel h.placed stepped
  resumed := step_resumed i h.channel h.placed kept h.resumed stepped

theorem init_placed (i : Nat) : Placed State.init (State.init.clients i) :=
  ⟨le_rfl, le_rfl, le_rfl, fun streaming => absurd streaming id⟩

theorem init_safe (i : Nat) : Safe i State.init where
  channel := init_channel
  placed := init_placed i
  resumed := ⟨fun _ => rfl, fun _ _ _ phase => by cases phase⟩

/-- A client that has connected keeps the fan-out task out of its initial state. -/
theorem step_started {i : Nat} {s t : State} {action : Action}
    (ordered : StartedFirst i s action)
    (h : (s.clients i).phase ≠ .absent → s.fanOut ≠ .starting)
    (stepped : step s action = some t)
    : (t.clients i).phase ≠ .absent → t.fanOut ≠ .starting := by
  cases step_effect stepped with
  | insert => exact h
  | started | startFailed | woken | paged | pageFailed | sent => exact fun _ => by simp
  | @pageDone lastId fullPage _ => cases fullPage <;> exact fun _ => by simp
  | @subscribed j query absent =>
      by_cases same : i = j
      · exact fun _ => ordered same.symm
      · rw [setClient_other same]
        exact h
  | @replayed j succeeded active =>
      by_cases same : i = j
      · subst same
        exact fun _ => h (by rw [active]; simp)
      · rw [setClient_other same]
        exact h
  | @delivered j lastSeen event rest active =>
      by_cases same : i = j
      · subst same
        exact fun _ => h (by rw [active]; simp)
      · rw [setClient_other same]
        exact h
  | @received j lastSeen client active =>
      by_cases same : i = j
      · subst same
        exact fun _ => h (by rw [active]; simp)
      · rw [setClient_other same]
        exact h

/-- A client that connects after the start of the fan-out task is never started past. -/
theorem run_safe {i : Nat} {actions : List Action} {s : State}
    (ordered : Machine.Along step (StartedFirst i) State.init actions)
    (ran : Machine.run step State.init actions = some s)
    : Safe i s := by
  have kept : ∀ s action t, StartedFirst i s action
      → Safe i s ∧ ((s.clients i).phase ≠ .absent → s.fanOut ≠ .starting)
      → step s action = some t
      → Safe i t ∧ ((t.clients i).phase ≠ .absent → t.fanOut ≠ .starting) := by
    intro s action t ordered h stepped
    obtain ⟨safe, started⟩ := h
    refine ⟨step_safe ?_ safe stepped, step_started ordered started stepped⟩
    intro past
    cases step_effect stepped with
    | started starting =>
        have connected : (s.clients i).phase ≠ .absent := by
          intro absent
          have streaming := past.1
          rw [absent] at streaming
          exact streaming
        exact started connected starting
    | _ => exact past
  exact (Machine.invariant_along kept ⟨init_safe i, fun connected => absurd rfl connected⟩
    ordered ran).1

/-- A stream of a client that connects after the start of the fan-out task: ids increase, stay
past the cursor and inside the filter, and nothing is missing until a `resync`.
-/
theorem stream_resumes (i : Nat) {actions : List Action} {s : State}
    (ordered : Machine.Along step (StartedFirst i) State.init actions)
    (ran : Machine.run step State.init actions = some s) {cursor : Int}
    (resume : (s.clients i).query.resumeFrom = some cursor) {pre : List StreamEvent}
    (before : pre <+: (s.clients i).out)
    : Increasing EncryptedNoteRow.id (notesOf pre)
      ∧ (∀ note ∈ notesOf pre,
          (s.clients i).query.selects note = true ∧ cursor < note.id)
      ∧ (.resync ∉ pre
        → notesOf pre
          = between EncryptedNoteRow.id (s.clients i).query.selects cursor
              (last EncryptedNoteRow.id cursor (notesOf pre)) s.notes) := by
  have safe := run_safe ordered ran
  cases phase : (s.clients i).phase with
  | streaming lastSeen replay =>
      have following := safe.resumed.following lastSeen replay cursor phase resume
      have early : pre <+: (s.clients i).out ++ replay := before.trans (List.prefix_append _ _)
      have part := notesOf_prefix early
      refine ⟨following.ordered.sublist part.sublist, ?_, ?_⟩
      · intro note member
        obtain ⟨chosen, past, _⟩ := following.selected note (part.subset member)
        exact ⟨chosen, past⟩
      · exact fun quiet =>
          prefix_eq_between safe.channel.increasing (following.quiet pre early quiet)
  | absent | subscribed | refused =>
      have silent := safe.resumed.silent (by rw [phase]; exact id)
      rw [silent, List.prefix_nil] at before
      subst before
      refine ⟨List.Pairwise.nil, by simp [notesOf], fun _ => ?_⟩
      exact prefix_eq_between safe.channel.increasing List.nil_prefix

def sampleRow (id : Int) : EncryptedNoteRow := ⟨id, "CPOOL", [1], [2], [3], 42, "abc"⟩

/-- The first note is replayed, the second one both replayed and sent, the third one sent. -/
def sampleStream : List Action :=
  [.insert (sampleRow 1), .readStart true, .subscribe 0 ⟨some 0, some ["CPOOL"]⟩,
    .insert (sampleRow 2), .replay 0 true, .wake, .page true, .send, .send,
    .insert (sampleRow 3), .deliver 0, .deliver 0, .receive 0, .wake, .page true, .send, .send,
    .receive 0]

theorem stream_resumes_overlap
    : ∃ s,
        Machine.run step State.init sampleStream = some s
        ∧ (s.clients 0).out
          = [.note (sampleRow 1), .note (sampleRow 2), .note (sampleRow 3)]
        ∧ notesOf (s.clients 0).out
          = between EncryptedNoteRow.id (s.clients 0).query.selects 0
              (last EncryptedNoteRow.id 0 (notesOf (s.clients 0).out)) s.notes := by
  have observed
      : (Machine.run step State.init sampleStream).map
          (fun s => ((s.clients 0).out, (s.clients 0).query))
        = some ([.note (sampleRow 1), .note (sampleRow 2), .note (sampleRow 3)],
            ⟨some 0, some ["CPOOL"]⟩) := by
    decide +kernel
  have ordered : Machine.Along step (StartedFirst 0) State.init sampleStream := by
    decide +kernel
  obtain ⟨s, ran, shape⟩ := Option.map_eq_some_iff.mp observed
  obtain ⟨out, query⟩ := Prod.mk.inj shape
  have resume : (s.clients 0).query.resumeFrom = some 0 := by rw [query]
  obtain ⟨_, _, complete⟩ := stream_resumes 0 ordered ran resume List.prefix_rfl
  exact ⟨s, ran, out, complete (by rw [out]; decide)⟩

/-- Every note the replay has not seen is past the starting id, so it will be sent. -/
def Passed (i : Nat) (s : State) : Prop :=
  (s.clients i).phase.IsStreaming → s.fanOut ≠ .starting
    → ∀ note ∈ s.notes.drop (s.clients i).snapshot, s.start < note.id

/-- Steps that change neither the table nor the start keep what is true of a client. -/
theorem Passed.congr {i : Nat} {s t : State} (streaming : (t.clients i).phase = (s.clients i).phase)
    (snapshot : (t.clients i).snapshot = (s.clients i).snapshot) (notes : t.notes = s.notes)
    (start : t.start = s.start) (fanOut : t.fanOut = .starting ↔ s.fanOut = .starting)
    : Passed i t ↔ Passed i s := by
  simp only [Passed, streaming, snapshot, notes, start, ne_eq, fanOut]

/-- Only the fan-out task's start can leave a client behind, and then it does for good. -/
theorem step_passed_iff (i : Nat) {s t : State} {action : Action} (channel : Channel s)
    (placed : Placed s (s.clients i)) (stepped : step s action = some t)
    : Passed i t ↔ Passed i s ∧ ¬ StartsPast i s action := by
  cases step_effect stepped with
  | @insert row later positive =>
      have past := channel.start_lt later positive
      rw [and_iff_left (show ¬ StartsPast i s (.insert row) from id)]
      simp only [Passed, List.drop_append_of_le_length placed.snapshot_le]
      constructor
      · intro h streaming started note member
        exact h streaming started note (List.mem_append_left _ member)
      · intro h streaming started note member
        rcases List.mem_append.mp member with old | new
        · exact h streaming started note old
        · rw [List.mem_singleton.mp new]
          exact past
  | started starting =>
      have before : Passed i s := fun _ started => absurd starting started
      rw [and_iff_right before]
      constructor
      · intro h past
        obtain ⟨streaming, missed⟩ := past
        have member : s.notes[(s.clients i).snapshot] ∈ s.notes.drop (s.clients i).snapshot := by
          rw [List.drop_eq_getElem_cons missed]
          exact List.mem_cons_self ..
        have above := h streaming (by simp) _ member
        exact absurd (le_maxId (List.getElem_mem missed)) (not_le.mpr above)
      · intro kept streaming _ note member
        have whole : s.notes.length ≤ (s.clients i).snapshot :=
          Nat.le_of_not_lt fun missed => kept ⟨streaming, missed⟩
        rw [List.drop_of_length_le whole] at member
        cases member
  | startFailed starting =>
      have before : Passed i s := fun _ started => absurd starting started
      rw [and_iff_right before]
      constructor
      · exact fun _ => id
      · intro _ _ _ note member
        exact channel.positive note (List.mem_of_mem_drop member)
  | woken here | paged here | pageFailed here | sent here =>
      rw [and_iff_left (show ¬ StartsPast i s _ from id)]
      exact Passed.congr rfl rfl rfl rfl (by rw [here]; simp)
  | @pageDone lastId fullPage here =>
      rw [and_iff_left (show ¬ StartsPast i s .send from id)]
      exact Passed.congr rfl rfl rfl rfl (by rw [here]; cases fullPage <;> simp)
  | @subscribed j query absent =>
      rw [and_iff_left (show ¬ StartsPast i s (.subscribe j query) from id)]
      by_cases same : i = j
      · subst same
        simp [Passed, absent, ClientPhase.IsStreaming]
      · exact Passed.congr (by rw [setClient_other same]) (by rw [setClient_other same]) rfl rfl
          Iff.rfl
  | @replayed j succeeded active =>
      rw [and_iff_left (show ¬ StartsPast i s (.replay j succeeded) from id)]
      by_cases same : i = j
      · subst same
        have before : Passed i s := fun streaming => by rw [active] at streaming; cases streaming
        have whole : ((s.clients i).startStream s.notes succeeded).snapshot = s.notes.length := by
          unfold Client.startStream
          split <;> rfl
        refine ⟨fun _ => before, fun _ _ _ note member => ?_⟩
        rw [setClient_self, whole] at member
        have none : note ∈ s.notes.drop s.notes.length := member
        rw [List.drop_length] at none
        cases none
      · exact Passed.congr (by rw [setClient_other same]) (by rw [setClient_other same]) rfl rfl
          Iff.rfl
  | @delivered j lastSeen event rest active =>
      rw [and_iff_left (show ¬ StartsPast i s (.deliver j) from id)]
      by_cases same : i = j
      · subst same
        simp [Passed, active, ClientPhase.IsStreaming, State.setClient]
      · exact Passed.congr (by rw [setClient_other same]) (by rw [setClient_other same]) rfl rfl
          Iff.rfl
  | @received j lastSeen client active got =>
      rw [and_iff_left (show ¬ StartsPast i s (.receive j) from id)]
      by_cases same : i = j
      · subst same
        rcases receive_cases got with rfl | ⟨note, _, ⟨_, rfl⟩ | ⟨_, rfl⟩⟩ <;>
          simp [Passed, active, ClientPhase.IsStreaming, State.setClient]
      · exact Passed.congr (by rw [setClient_other same]) (by rw [setClient_other same]) rfl rfl
          Iff.rfl

theorem run_passed_iff (i : Nat) {actions : List Action} {s : State}
    (ran : Machine.run step State.init actions = some s)
    : Passed i s
      ↔ Machine.Along step (fun s action => ¬ StartsPast i s action) State.init actions := by
  have initially : Passed i State.init := fun streaming => absurd streaming id
  have kept : ∀ s action t, True → Channel s ∧ Placed s (s.clients i) → step s action = some t
      → Channel t ∧ Placed t (t.clients i) :=
    fun s action t _ h stepped => ⟨step_channel h.1 stepped, step_placed i h.1 h.2 stepped⟩
  have anything : Machine.Along step (fun _ _ => True) State.init actions :=
    Machine.along_of_forall (fun _ _ => trivial) State.init
  have whole := Machine.along_iff (fun _ _ => True) (Passed i)
    (fun s action => ¬ StartsPast i s action) kept
    (fun s action t _ h stepped => step_passed_iff i h.1 h.2 stepped)
    ⟨init_channel, init_placed i⟩ anything ran
  rw [whole, and_iff_right initially]

/-- When everything has been sent, a client has been sent every note its replay has not seen
exactly if the fan-out task has not started past one of them.
-/
theorem sent_after_joining_iff {i : Nat} {s : State} (channel : Channel s)
    (placed : Placed s (s.clients i)) (streaming : (s.clients i).phase.IsStreaming)
    (drained : s.Drained)
    : (∀ note ∈ s.notes.drop (s.clients i).snapshot,
          note ∈ s.sent.drop (s.clients i).joined)
      ↔ Passed i s := by
  have all := channel.sent_eq_feed drained
  constructor
  · intro h _ _ note member
    have sent := List.mem_of_mem_drop (h note member)
    rw [all] at sent
    exact (mem_since.mp sent).2.2
  · intro h note member
    have started : s.fanOut ≠ .starting := by
      obtain ⟨lastId, here, _⟩ := drained
      intro starting
      rw [starting] at here
      cases here
    have past := h streaming started note member
    have sent : note ∈ s.sent := by
      rw [all]
      exact mem_since.mpr ⟨List.mem_of_mem_drop member, rfl, past⟩
    rw [← List.take_append_drop (s.clients i).joined s.sent] at sent
    rcases List.mem_append.mp sent with before | after
    · have seen := placed.earlier streaming note before
      have distinct := channel.increasing
      rw [← List.take_append_drop (s.clients i).snapshot s.notes] at distinct
      have apart := (List.pairwise_append.mp distinct).2.2 note seen note member
      exact absurd apart (lt_irrefl _)
    · exact after

/-- Around the start of the fan-out task: it always gets to the end of the table; by then a
client that resumed has been sent every note stored after its replay exactly if the task did
not start past one; and unless it did, the client gets them all or a `resync`.
-/
theorem start_up_iff (i : Nat) {actions : List Action} {s : State}
    (ran : Machine.run step State.init actions = some s)
    : (∃ more t, (∀ action ∈ more, action.IsFanOut) ∧ Machine.run step s more = some t
          ∧ t.Drained ∧ t.notes = s.notes ∧ t.clients = s.clients)
      ∧ ((s.clients i).phase.IsStreaming → s.Drained
        → ((∀ note ∈ s.notes.drop (s.clients i).snapshot,
              note ∈ s.sent.drop (s.clients i).joined)
          ↔ Machine.Along step (fun s action => ¬ StartsPast i s action) State.init actions))
      ∧ (Machine.Along step (fun s action => ¬ StartsPast i s action) State.init actions
        → ∀ lastSeen cursor,
            (s.clients i).phase = .streaming lastSeen []
            → (s.clients i).query.resumeFrom = some cursor
            → s.Drained → (s.clients i).next = s.sent.length
            → .resync ∈ (s.clients i).out
              ∨ ∀ note ∈ s.notes, (s.clients i).query.selects note = true → cursor < note.id
                → .note note ∈ (s.clients i).out) := by
  have channel := run_channel ran
  have placed : Placed s (s.clients i) := by
    have kept : ∀ s action t, Channel s ∧ Placed s (s.clients i) → step s action = some t
        → Channel t ∧ Placed t (t.clients i) :=
      fun s action t h stepped => ⟨step_channel h.1 stepped, step_placed i h.1 h.2 stepped⟩
    exact (Machine.invariant kept ⟨init_channel, init_placed i⟩ ran).2
  refine ⟨reaches_drained channel, ?_, ?_⟩
  · intro streaming drained
    rw [sent_after_joining_iff channel placed streaming drained]
    exact run_passed_iff i ran
  · intro kept lastSeen cursor phase resume drained received
    by_cases loud : .resync ∈ (s.clients i).out
    · exact Or.inl loud
    · refine Or.inr fun note stored chosen past => ?_
      have safe : Safe i s :=
        Machine.invariant_along (fun _ _ _ => step_safe) (init_safe i) kept ran
      have following := safe.resumed.following lastSeen [] cursor phase resume
      rw [List.append_nil] at following
      have complete := following.complete loud
      rw [← channel.sent_eq_feed drained, received, List.drop_length] at complete
      have rest : since EncryptedNoteRow.id (s.clients i).query.selects lastSeen [] = [] := rfl
      rw [rest, List.append_nil] at complete
      rw [← mem_notesOf, complete]
      exact mem_since.mpr ⟨stored, chosen, past⟩

/-- The client replays a note before the task reads its starting id, and is sent the next one. -/
def sampleStartUp : List Action :=
  [.insert (sampleRow 1), .subscribe 0 ⟨some 0, none⟩, .replay 0 true, .readStart true,
    .insert (sampleRow 2), .deliver 0, .wake, .page true, .send, .send, .receive 0]

theorem start_up_early_client
    : ∃ s,
        Machine.run step State.init sampleStartUp = some s
        ∧ (s.clients 0).out = [.note (sampleRow 1), .note (sampleRow 2)]
        ∧ (∀ note ∈ s.notes.drop (s.clients 0).snapshot,
            note ∈ s.sent.drop (s.clients 0).joined)
        ∧ ∀ note ∈ s.notes, (s.clients 0).query.selects note = true → 0 < note.id
            → .note note ∈ (s.clients 0).out := by
  have observed
      : (Machine.run step State.init sampleStartUp).map
          (fun s => (((s.clients 0).phase, s.fanOut, s.notes.map EncryptedNoteRow.id),
            ((s.clients 0).out, (s.clients 0).query), (s.clients 0).next, s.sent.length))
        = some ((.streaming 2 [], .waiting 2, [1, 2]),
            ([.note (sampleRow 1), .note (sampleRow 2)], ⟨some 0, none⟩), 1, 1) := by
    decide +kernel
  have kept
      : Machine.Along step (fun s action => ¬ StartsPast 0 s action) State.init
          sampleStartUp := by
    decide +kernel
  obtain ⟨s, ran, shape⟩ := Option.map_eq_some_iff.mp observed
  simp only [Prod.mk.injEq] at shape
  obtain ⟨⟨phase, fanOut, ids⟩, ⟨out, query⟩, next, sent⟩ := shape
  have streaming : (s.clients 0).phase.IsStreaming := by rw [phase]; trivial
  have drained : s.Drained := by
    refine ⟨2, by rw [fanOut]; rfl, ?_⟩
    intro note member
    have id := List.mem_map_of_mem (f := EncryptedNoteRow.id) member
    rw [ids] at id
    simp only [List.mem_cons, List.not_mem_nil, or_false] at id
    omega
  obtain ⟨_, joined, received⟩ := start_up_iff 0 ran
  refine ⟨s, ran, out, (joined streaming drained).mpr kept, ?_⟩
  rcases received kept 2 0 phase (by rw [query]) drained (next.trans sent.symm) with loud | all
  · rw [out] at loud
    simp at loud
  · exact all

/-- Once started, the fan-out task never changes its start. -/
theorem step_start {s t : State} {action : Action} (started : s.fanOut ≠ .starting)
    (stepped : step s action = some t)
    : t.fanOut ≠ .starting ∧ t.start = s.start := by
  cases step_effect stepped with
  | insert | subscribed | replayed | delivered | received => exact ⟨started, rfl⟩
  | started starting | startFailed starting => exact absurd starting started
  | woken | paged | pageFailed | sent => exact ⟨by simp, rfl⟩
  | @pageDone lastId fullPage => cases fullPage <;> exact ⟨by simp, rfl⟩

/-- The client replays before the first note, the task reads its start after it. -/
theorem note_lost_at_start
    : ∃ s,
        Machine.run step State.init
            [.subscribe 0 ⟨some 0, none⟩, .replay 0 true, .insert (sampleRow 1), .readStart true]
          = some s
        ∧ (s.clients 0).phase = .streaming 0 [] ∧ (s.clients 0).out = []
        ∧ sampleRow 1 ∈ s.notes.drop (s.clients 0).snapshot
        ∧ ∀ more t, Machine.run step s more = some t → sampleRow 1 ∉ t.sent := by
  have observed
      : (Machine.run step State.init
            [.subscribe 0 ⟨some 0, none⟩, .replay 0 true, .insert (sampleRow 1),
              .readStart true]).map
          (fun s => ((s.clients 0).phase, (s.clients 0).out,
            s.notes.drop (s.clients 0).snapshot, s.fanOut, s.start))
        = some (.streaming 0 [], [], [sampleRow 1], .waiting 1, 1) := by
    decide +kernel
  obtain ⟨s, ran, shape⟩ := Option.map_eq_some_iff.mp observed
  simp only [Prod.mk.injEq] at shape
  obtain ⟨phase, out, missed, fanOut, start⟩ := shape
  refine ⟨s, ran, phase, out, by rw [missed]; simp, ?_⟩
  intro more t later sent
  have kept : ∀ s action t, s.fanOut ≠ .starting ∧ s.start = 1 → step s action = some t
      → t.fanOut ≠ .starting ∧ t.start = 1 := by
    intro s action t h stepped
    obtain ⟨started, same⟩ := step_start h.1 stepped
    exact ⟨started, same.trans h.2⟩
  have begun := Machine.invariant kept ⟨by rw [fanOut]; simp, start⟩ later
  have channel := run_channel (Machine.run_append.mpr ⟨s, ran, later⟩)
  have past := (mem_since.mp (channel.sent_prefix.subset sent)).2.2
  rw [begun.2] at past
  exact absurd past (by decide)

end Attesta.Api.NoteStream
