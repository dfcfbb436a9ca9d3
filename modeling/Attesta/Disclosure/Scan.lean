import Attesta.Api.CursorWalk
import Attesta.Api.Rebuild
import Attesta.Disclosure.Report
import Attesta.Indexer.Mirror

/-! The notes a report counts. The indexer goes on while `generate` fetches page after page, so
each page comes from another state of the table.
-/

namespace Attesta.Disclosure

open CursorWalk Attesta.Indexer
open Attesta.Api (RootResponse)
open Attesta.Api.Notes (pageSize inPool Matches)

/-- The notes `generate` pages through, page `k` fetched from `tables k`; none if `fuel` pages
have not been enough.
-/
def scanNotes (tables : Nat → List EncryptedNoteRow) (pool : String) (fuel : Nat)
    : Option (List EncryptedNoteRow) :=
  follow (Api.Notes.fetch tables (some pool)) fuel 0 none []

/-- The report `generate` writes when its scan has ended. -/
def writeReport (tables : Nat → List EncryptedNoteRow) (pool generatedAt : String)
    (root : RootResponse) (fuel : Nat)
    : Option Report :=
  (scanNotes tables pool fuel).map (fun notes => generate pool generatedAt root notes.length)

def notesOfPool (pool : String) (db : Db) : List EncryptedNoteRow :=
  db.encryptedNotes.filter (inPool (some pool))

/-- Request `n` is the first one at which the pool has too few notes for another full page. -/
def EndsAt (states : Nat → Run.State) (pool : String) (n : Nat) : Prop :=
  (∀ k < n, (k + 1) * pageSize ≤ (notesOfPool pool (states k).db).length)
  ∧ (notesOfPool pool (states n).db).length < (n + 1) * pageSize

section Requests

variable {states : Nat → Run.State} (keyed : ∀ k, Keyed (states k).db)
include keyed

theorem serves_states (pool : String)
    : Serves EncryptedNoteRow.id pageSize 0
        (Matches (fun k => (states k).db.encryptedNotes) (some pool))
        (Api.Notes.fetch (fun k => (states k).db.encryptedNotes) (some pool)) :=
  Api.Notes.serves
    (fun k => List.pairwise_map.mpr ((keyed k).notes.imp ne_of_lt)) (some pool)

theorem mem_notesOfPool {pool : String} {k : Nat} {row : EncryptedNoteRow}
    : row ∈ notesOfPool pool (states k).db
      ↔ Matches (fun k => (states k).db.encryptedNotes) (some pool) k row
        ∧ (none : Option Int).getD 0 < row.id := by
  rw [notesOfPool, List.mem_filter, Matches]
  refine ⟨fun h => ⟨h, ((keyed k).drawn row h.1).1⟩, And.left⟩

/-- A later table has further notes with greater ids. -/
theorem grows_states (continues : ∀ k, Continues (states k).db (states (k + 1)).db)
    (pool : String)
    : Grows EncryptedNoteRow.id
        (Matches (fun k => (states k).db.encryptedNotes) (some pool)) where
  kept k row matched := ⟨(continues k).notes.subset matched.1, matched.2⟩
  ordered k a b old new later := by
    obtain ⟨rest, shape⟩ := (continues k).notes
    have sorted := (keyed (k + 1)).notes
    rw [← shape] at sorted
    have stored : b ∈ (states k).db.encryptedNotes ++ rest := shape ▸ later.1
    rcases List.mem_append.mp stored with before | appended
    · exact absurd ⟨before, later.2⟩ new
    · exact (List.pairwise_append.mp sorted).2.2 a old.1 b appended

end Requests

/-- A scan misses nothing and counts nothing twice, whatever the indexer does between its pages:
what it collects are all notes of the pool there are at the last page, in order. It ends at the
first page for which the pool has too few notes, so it goes on only while the notes come in page
after page.
-/
theorem scan_exact (codec : Codec) (config : Run.Config) {chains : String → Sync.Chain}
    {states : Nat → Run.State}
    (started : Machine.Reachable (Run.step codec config) (.start chains) (states 0))
    (goesOn : ∀ k, Machine.Reachable (Run.step codec config) (states k) (states (k + 1)))
    (pool generatedAt : String) (root : RootResponse) (fuel : Nat)
    : (∀ notes,
        scanNotes (fun k => (states k).db.encryptedNotes) pool fuel = some notes
          ↔ ∃ n < fuel, EndsAt states pool n ∧ notes = notesOfPool pool (states n).db)
      ∧ ∀ report,
          writeReport (fun k => (states k).db.encryptedNotes) pool generatedAt root fuel
              = some report
            ↔ ∃ n < fuel, EndsAt states pool n
                ∧ report
                  = generate pool generatedAt root (notesOfPool pool (states n).db).length := by
  have keyed (k : Nat) : Keyed (states k).db := by
    induction k with
    | zero => exact (Run.reachable_kept (Run.empty_mirrors codec chains).keyed started).1
    | succ k ih => exact (Run.reachable_kept ih (goesOn k)).1
  have continues (k : Nat) : Continues (states k).db (states (k + 1)).db :=
    (Run.reachable_kept (keyed k) (goesOn k)).2
  have collected (notes : List EncryptedNoteRow)
      : scanNotes (fun k => (states k).db.encryptedNotes) pool fuel = some notes
        ↔ ∃ n < fuel, EndsAt states pool n ∧ notes = notesOfPool pool (states n).db := by
    have sorted (k : Nat)
        : Feed.Increasing EncryptedNoteRow.id (notesOfPool pool (states k).db) :=
      List.Pairwise.sublist List.filter_sublist (keyed k).notes
    refine ((serves_states keyed pool).follow_iff (grows_states keyed continues pool) (by decide)
      sorted (fun k row => mem_notesOfPool keyed)
      (fun k cursor => List.length_take_le _ _)).trans ?_
    exact exists_congr fun n => and_congr_right fun _ => and_assoc.symm
  refine ⟨collected, fun report => ?_⟩
  simp only [writeReport, Option.map_eq_some_iff, collected]
  constructor
  · rintro ⟨_, ⟨n, within, ends, rfl⟩, rfl⟩
    exact ⟨n, within, ends, rfl⟩
  · rintro ⟨n, within, ends, rfl⟩
    exact ⟨_, ⟨n, within, ends, rfl⟩, rfl⟩

/-- One page of a pool with one note, while the indexer rests. -/
theorem scan_exact_rest
    : ∃ live : Run.State,
        live.db.encryptedNotes.map EncryptedNoteRow.pool = ["CA", "CB"]
        ∧ scanNotes (fun _ => live.db.encryptedNotes) "CA" 1 = some (notesOfPool "CA" live.db)
        ∧ writeReport (fun _ => live.db.encryptedNotes) "CA" "2026-01-01T00:00:00Z"
            ⟨"CA", "0x00", 0, 0⟩ 1
          = some ⟨1, "CA", "2026-01-01T00:00:00Z", "0x00", 0, [], 1⟩ := by
  have observed
      : (Machine.run (Run.step (sampleCodec 2) Run.twoPools) .init Run.onePass).map
          (fun live => live.db.encryptedNotes.map EncryptedNoteRow.pool)
        = some ["CA", "CB"] := by
    decide +kernel
  obtain ⟨live, ran, pools⟩ := Option.map_eq_some_iff.mp observed
  have one : (notesOfPool "CA" live.db).length = 1 := by
    have counted : (notesOfPool "CA" live.db).length
        = (live.db.encryptedNotes.map EncryptedNoteRow.pool).count "CA" := by
      rw [List.count_eq_countP, List.countP_map, List.countP_eq_length_filter]
      rfl
    rw [counted, pools]
    decide
  have ends : EndsAt (fun _ => live) "CA" 0 :=
    ⟨fun k below => absurd below k.not_lt_zero, by rw [one]; decide⟩
  have rests (_ : Nat)
      : Machine.Reachable (Run.step (sampleCodec 2) Run.twoPools) live live :=
    ⟨[], rfl⟩
  obtain ⟨collected, written⟩ := @scan_exact (sampleCodec 2) Run.twoPools (fun _ => ⟨[], 0⟩)
    (fun _ => live) ⟨Run.onePass, ran⟩ rests "CA" "2026-01-01T00:00:00Z" ⟨"CA", "0x00", 0, 0⟩ 1
  refine ⟨live, pools, (collected _).mpr ⟨0, by decide, ends, rfl⟩,
    (written _).mpr ⟨0, by decide, ends, ?_⟩⟩
  rw [one]
  rfl

end Attesta.Disclosure
