import Attesta.Api.Issuer
import Attesta.Foundation.CursorWalk

/-! The two paginated listings: notes by id and deliveries by sequence number. A client that
follows the cursors sees one page of whatever the table is at each request; no order of
arrival and no restriction on claims and deletes in between is assumed.
-/

namespace Attesta.Api

open CursorWalk
open Attesta.Api.Retention (Mailbox)

-----------------------------------------------------------------------------------------
-- list_notes
-----------------------------------------------------------------------------------------

namespace Notes

/-- `PAGE_SIZE`. -/
def pageSize : Nat := 500

structure NotesQuery where
  sinceCursor : Option Int
  pool : Option String

structure NotesPage where
  notes : List EncryptedNoteRow
  nextCursor : Option Int

/-- `$2::text IS NULL OR pool = $2`. -/
def inPool (pool : Option String) (row : EncryptedNoteRow) : Bool :=
  match pool with
  | some pool => row.pool == pool
  | none => true

def listNotes (table : List EncryptedNoteRow) (query : NotesQuery) : NotesPage :=
  let since := query.sinceCursor.getD 0
  let notes := select EncryptedNoteRow.id
    (fun row => decide (since < row.id) && inPool query.pool row) pageSize table
  { notes
    nextCursor :=
      if notes.length = pageSize then notes.getLast?.map EncryptedNoteRow.id else none }

/-- Request `k` of a walk, made while the table is `tables k`. -/
def fetch (tables : Nat → List EncryptedNoteRow) (pool : Option String) (k : Nat)
    (cursor : Option Int)
    : Page EncryptedNoteRow Int :=
  let page := listNotes (tables k) ⟨cursor, pool⟩
  ⟨page.notes, page.nextCursor⟩

/-- The notes that match the filter at request `k`. -/
def Matches (tables : Nat → List EncryptedNoteRow) (pool : Option String) (k : Nat)
    (note : EncryptedNoteRow)
    : Prop :=
  note ∈ tables k ∧ inPool pool note = true

theorem serves {tables : Nat → List EncryptedNoteRow}
    (distinct : ∀ k, ((tables k).map EncryptedNoteRow.id).Nodup) (pool : Option String)
    : Serves EncryptedNoteRow.id pageSize 0 (Matches tables pool) (fetch tables pool) where
  increasing k _ := increasing_select (distinct k)
  sound k cursor note member := by
    obtain ⟨stored, passes⟩ := of_mem_select member
    rw [Bool.and_eq_true, decide_eq_true_eq] at passes
    exact ⟨⟨stored, passes.2⟩, passes.1⟩
  complete k cursor note found past := by
    refine select_covers pageSize (distinct k) found.1 ?_
    rw [Bool.and_eq_true, decide_eq_true_eq]
    exact ⟨past, found.2⟩
  next _ _ := rfl

end Notes

-----------------------------------------------------------------------------------------
-- list_deliveries
-----------------------------------------------------------------------------------------

namespace Issuer

/-- Request `k` of a walk, made while the mailbox is `mailboxes k`. -/
def fetch (mailboxes : Nat → Mailbox) (recipientHint : String) (k : Nat) (cursor : Option Int)
    : Page ListedDelivery Int :=
  let page := listDeliveries (mailboxes k) recipientHint cursor
  ⟨page.deliveries, page.nextCursor⟩

/-- The deliveries that wait for the hint, unclaimed, at request `k`. -/
def Matches (mailboxes : Nat → Mailbox) (recipientHint : String) (k : Nat)
    (delivery : ListedDelivery)
    : Prop :=
  ∃ row ∈ (mailboxes k).rows, row.recipientHint = recipientHint ∧ row.claimedAt = none
    ∧ listed row = delivery

theorem serves {mailboxes : Nat → Mailbox}
    (distinct : ∀ k, ((mailboxes k).rows.map CredentialDeliveryRow.seq).Nodup)
    (recipientHint : String)
    : Serves ListedDelivery.seq deliveriesPageSize 0 (Matches mailboxes recipientHint)
        (fetch mailboxes recipientHint) where
  increasing k _ := increasing_listDeliveries (distinct k)
  sound k cursor delivery member := by
    obtain ⟨row, stored, waits, rfl⟩ := exists_of_mem_listDeliveries member
    obtain ⟨hint, unclaimed, past⟩ := waiting_iff.mp waits
    exact ⟨⟨row, stored, hint, unclaimed, rfl⟩, past⟩
  complete k cursor delivery found past := by
    obtain ⟨row, stored, hint, unclaimed, rfl⟩ := found
    have waits := waiting_iff.mpr ⟨hint, unclaimed, past⟩
    rcases select_covers deliveriesPageSize (distinct k) stored waits with here | later
    · exact Or.inl (List.mem_map_of_mem here)
    · refine Or.inr ⟨(List.length_map _).trans later.1, fun other member => ?_⟩
      obtain ⟨before, onPage, rfl⟩ := List.mem_map.mp member
      exact later.2 before onPage
  next k cursor := by
    simp only [fetch, listDeliveries, List.length_map, List.getLast?_map, Option.map_map]
    rfl

end Issuer

/-- Walks by cursor are complete and free of duplicates. Whatever happens to the tables between
two requests, the client that follows the cursors of `list_notes` or of `list_deliveries` from
any start reads strictly increasing cursors past it, only rows that match when they are read,
and exactly once every row that matches from its first request to its last; and it comes to a
last page if finitely many rows ever match, also when they fill their pages exactly. The
primary key of the notes and the unique index on `seq` are all that is used of the tables.
-/
theorem cursor_walks_complete {notes : Nat → List EncryptedNoteRow}
    (noteIds : ∀ k, ((notes k).map EncryptedNoteRow.id).Nodup) {mailboxes : Nat → Mailbox}
    (sequence : ∀ k, ((mailboxes k).rows.map CredentialDeliveryRow.seq).Nodup)
    (pool : Option String) (recipientHint : String) (start : Option Int)
    : Complete EncryptedNoteRow.id Notes.pageSize 0 (Notes.Matches notes pool)
        (Notes.fetch notes pool) start
      ∧ Complete Issuer.ListedDelivery.seq Issuer.deliveriesPageSize 0
          (Issuer.Matches mailboxes recipientHint) (Issuer.fetch mailboxes recipientHint)
          start :=
  ⟨(Notes.serves noteIds pool).walk (by decide) start,
    (Issuer.serves sequence recipientHint).walk (by decide) start⟩

def sampleNote (i : Nat) : EncryptedNoteRow := ⟨i + 1, "CPOOL", [1], [2], [3], 42, "abc"⟩

/-- One note more than fits on a page; another one arrives between the requests. -/
def sampleNotes (k : Nat) : List EncryptedNoteRow := (List.range (501 + k)).map sampleNote

/-- One delivery more than fits on a page; the first is claimed between the requests. -/
def sampleDeliveries (k : Nat) : Mailbox where
  rows := (List.range 201).map (fun i : Nat =>
    ⟨i + 1, i, "issuer", "hint", [1], [2], 0, if i < k then some 5 else none, none⟩)
  unique := by
    rw [List.map_map]
    exact List.Nodup.map (fun _ _ same => same) List.nodup_range

theorem cursor_walks_complete_two_pages
    : request (Notes.fetch sampleNotes (some "CPOOL")) none 1 = some (some 500)
      ∧ (∀ i < 501,
          (walked (Notes.fetch sampleNotes (some "CPOOL")) none 2).count (sampleNote i) = 1)
      ∧ request (Issuer.fetch sampleDeliveries "hint") none 1 = some (some 200)
      ∧ ∀ i : Nat, 1 ≤ i → i < 201
          → (walked (Issuer.fetch sampleDeliveries "hint") none 2).count
              ⟨i + 1, i, "issuer", "hint", [1], [2], 0⟩ = 1 := by
  have increasing (n : Nat) : ((List.range n).map (fun i : Nat => (i + 1 : Int))).Nodup :=
    List.Nodup.map (fun _ _ same => by omega) List.nodup_range
  have noteIds (k : Nat) : ((sampleNotes k).map EncryptedNoteRow.id).Nodup := by
    rw [sampleNotes, List.map_map]
    exact increasing _
  have sequence (k : Nat) : ((sampleDeliveries k).rows.map CredentialDeliveryRow.seq).Nodup := by
    rw [sampleDeliveries, List.map_map]
    exact increasing _
  obtain ⟨notes, deliveries⟩ :=
    cursor_walks_complete noteIds sequence (some "CPOOL") "hint" none
  have notesAsked
      : (request (Notes.fetch sampleNotes (some "CPOOL")) none 1,
            request (Notes.fetch sampleNotes (some "CPOOL")) none 2)
        = (some (some 500), none) := by
    decide +kernel
  have deliveriesAsked
      : (request (Issuer.fetch sampleDeliveries "hint") none 1,
            request (Issuer.fetch sampleDeliveries "hint") none 2)
        = (some (some 200), none) := by
    decide +kernel
  obtain ⟨firstNotes, lastNotes⟩ := Prod.mk.inj notesAsked
  obtain ⟨firstDeliveries, lastDeliveries⟩ := Prod.mk.inj deliveriesAsked
  refine ⟨firstNotes, fun i inside => ?_, firstDeliveries, fun i claimed inside => ?_⟩
  · refine notes.complete 1 ⟨by simp [firstNotes], lastNotes⟩ _ ?_ fun k _ => ⟨?_, rfl⟩
    · exact Int.natCast_succ_pos i
    · exact List.mem_map_of_mem (List.mem_range.mpr (by omega))
  · refine deliveries.complete 1 ⟨by simp [firstDeliveries], lastDeliveries⟩ _ ?_ fun k bound => ?_
    · exact Int.natCast_succ_pos i
    · refine ⟨_, List.mem_map_of_mem (List.mem_range.mpr inside), rfl, ?_, rfl⟩
      exact if_neg (by omega)

end Attesta.Api
