import Attesta.Api.NoteStream
import Attesta.Core.Config

/-! The request of a note stream as it arrives: the id to resume from in a header or a parameter,
and the pools as one text separated by commas. What a connection can ask for is exactly what can
be written so.
-/

namespace Attesta.Api.NoteStream

open Core.Config (commaList joined IsEntry)
open Attesta.Indexer (parseDigits)

/-- The range of `i64`. -/
def InI64 (n : Int) : Prop := -2 ^ 63 ≤ n ∧ n < 2 ^ 63

instance (n : Int) : Decidable (InI64 n) := inferInstanceAs (Decidable (_ ∧ _))

/-- `str::parse::<i64>`: an optional sign, decimal digits, and the range of the type. -/
def parseI64 (s : String) : Option Int :=
  let value : Option Int :=
    match s.toList with
    | '-' :: digits => (parseDigits digits).map (fun n => -(n : Int))
    | '+' :: digits => (parseDigits digits).map Int.ofNat
    | digits => (parseDigits digits).map Int.ofNat
  value.filter (fun n => decide (InI64 n))

/-- The beginning of `stream_notes`. The header comes as a text, if it is there and is one. -/
def StreamQuery.ofRequest (lastEventId : Option String) (sinceCursor : Option Int)
    (pool : Option String) : StreamQuery where
  resumeFrom := (lastEventId.bind parseI64).or sinceCursor
  pools := pool.map commaList

/-- The `id:` field of an event: `note.id.to_string()`. -/
def eventId (row : EncryptedNoteRow) : String := toString row.id

/-- What every stream query that was read from a request has. -/
structure StreamQuery.WellFormed (query : StreamQuery) : Prop where
  resumeFrom : ∀ n, query.resumeFrom = some n → InI64 n
  pools : ∀ pools, query.pools = some pools → ∀ pool ∈ pools, IsEntry pool

theorem parseI64_inI64 {s : String} {n : Int} (h : parseI64 s = some n) : InI64 n := by
  simpa using (Option.filter_eq_some_iff.mp h).2

theorem digit_of_toDigits {n : Nat} {c : Char} {rest : List Char}
    (shape : Nat.toDigits 10 n = c :: rest)
    : c.isDigit = true :=
  Nat.isDigit_of_mem_toDigits (b := 10) (n := n) (by decide) (by decide) (by simp [shape])

/-- Rendered and read back, a number of the range is as it was. -/
theorem parseI64_toString {n : Int} (range : InI64 n) : parseI64 (toString n) = some n := by
  have inRange : decide (InI64 n) = true := decide_eq_true range
  cases n with
  | ofNat m =>
      have text : (toString (Int.ofNat m)).toList = Nat.toDigits 10 m := Nat.toList_repr
      unfold parseI64
      rw [text]
      split
      next shape => cases digit_of_toDigits shape
      next shape => cases digit_of_toDigits shape
      next =>
        rw [Core.Config.parseDigits_toDigits, Option.map_some]
        exact Option.filter_some_pos inRange
  | negSucc m =>
      have text : (toString (Int.negSucc m)).toList = '-' :: Nat.toDigits 10 (m + 1) := by
        rw [← Nat.toList_repr]
        exact String.toList_append
      unfold parseI64
      rw [text]
      simp only [Core.Config.parseDigits_toDigits]
      exact Option.filter_some_pos inRange

theorem StreamQuery.ofRequest_wellFormed {lastEventId : Option String} {sinceCursor : Option Int}
    {pool : Option String} (range : ∀ n, sinceCursor = some n → InI64 n)
    : (ofRequest lastEventId sinceCursor pool).WellFormed := by
  constructor
  · intro n from_
    rcases Option.or_eq_some_iff.mp from_ with header | parameter
    · obtain ⟨text, _, parsed⟩ := Option.bind_eq_some_iff.mp header
      exact parseI64_inI64 parsed
    · exact range n parameter.2
  · intro pools named entry listed
    obtain ⟨text, _, rfl⟩ := Option.map_eq_some_iff.mp named
    exact Core.Config.isEntry_of_mem_commaList listed

/-- A client that sends back the id of an event and the pools it wants is served those. -/
theorem StreamQuery.ofRequest_written {query : StreamQuery} (wellFormed : query.WellFormed)
    : ofRequest (query.resumeFrom.map toString) none (query.pools.map joined) = query := by
  have resumeFrom : (query.resumeFrom.map toString).bind parseI64 = query.resumeFrom := by
    cases resume : query.resumeFrom with
    | none => rfl
    | some n => exact parseI64_toString (wellFormed.resumeFrom n resume)
  have pools : (query.pools.map joined).map commaList = query.pools := by
    cases named : query.pools with
    | none => rfl
    | some pools =>
        exact congrArg some (Core.Config.commaList_joined (wellFormed.pools pools named))
  rw [ofRequest, resumeFrom, pools, Option.or_none]

/-- The id of an event read back is the cursor of its note, whatever the parameter says. -/
theorem resumeFrom_eventId {row : EncryptedNoteRow} (range : InI64 row.id)
    (sinceCursor : Option Int) (pool : Option String)
    : (StreamQuery.ofRequest (some (eventId row)) sinceCursor pool).resumeFrom = some row.id := by
  rw [StreamQuery.ofRequest, Option.bind_some, eventId, parseI64_toString range, Option.some_or]

/-- What the requests of a stream can say: a resume id of the type of the cursors and pools that
are not empty and have no comma and no whitespace at their ends. Each such query is what the
request says that writes it out, and every request says such a query; and a client that sends
back the id of the last event it got resumes right after that note.
-/
theorem stream_requests_round_trip (query : StreamQuery)
    : (query.WellFormed
        ↔ StreamQuery.ofRequest (query.resumeFrom.map toString) none (query.pools.map joined)
          = query)
      ∧ (query.WellFormed
        ↔ ∃ lastEventId sinceCursor pool,
            (∀ n, sinceCursor = some n → InI64 n)
            ∧ StreamQuery.ofRequest lastEventId sinceCursor pool = query)
      ∧ ∀ row sinceCursor pool,
          InI64 row.id
          → (StreamQuery.ofRequest (some (eventId row)) sinceCursor pool).resumeFrom
            = some row.id := by
  have noCursor : ∀ n : Int, none = some n → InI64 n := fun _ other => nomatch other
  refine ⟨⟨StreamQuery.ofRequest_written, fun written => ?_⟩,
    ⟨fun wellFormed => ⟨_, _, _, noCursor, StreamQuery.ofRequest_written wellFormed⟩, ?_⟩,
    fun row sinceCursor pool range => resumeFrom_eventId range sinceCursor pool⟩
  · exact written ▸ StreamQuery.ofRequest_wellFormed noCursor
  · intro request
    obtain ⟨lastEventId, sinceCursor, pool, range, rfl⟩ := request
    exact StreamQuery.ofRequest_wellFormed range

end Attesta.Api.NoteStream
