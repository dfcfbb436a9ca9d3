import Attesta.Api.RootHistory

/-! The disclosure tool: a report stores the live root of its pool and that root's anchored
ledger, and `verify` compares it with the root the backend recorded at that ledger.
-/

namespace Attesta.Disclosure

open Attesta.Merkle Attesta.Indexer Attesta.Api Attesta.Api.TreeService PaddedTree

/-- The report file. Decrypted entries do not exist yet, so their list is always empty. -/
structure Report where
  version : Nat
  pool : String
  generatedAt : String
  treeRoot : String
  anchoredLedger : Int
  entries : List String
  totalNotesScanned : Nat
  deriving DecidableEq

/-- What `verify` prints. -/
structure Verification where
  reportRoot : String
  anchoredLedger : Int
  historicalRoot : String
  rootsMatch : Bool
  deriving DecidableEq

/-- The report `generate` writes from the fetched root and the number of notes it paged. -/
def generate (pool generatedAt : String) (root : RootResponse) (notesScanned : Nat) : Report where
  version := 1
  pool
  generatedAt
  treeRoot := root.root
  anchoredLedger := root.anchoredLedger
  entries := []
  totalNotesScanned := notesScanned

/-- The historical root `verify` asks the backend for. -/
def Report.query (report : Report) : RootQuery where
  atLedger := some report.anchoredLedger
  atLeafCount := none

/-- What `verify` makes of the fetched historical root. -/
def verify (report : Report) (historical : RootResponse) : Verification where
  reportRoot := report.treeRoot
  anchoredLedger := report.anchoredLedger
  historicalRoot := historical.root
  rootsMatch := historical.root == report.treeRoot

/-- Leaves of a pool are observed in ledger order. -/
def LedgersOrdered (db : Db) (pool : String) : Prop :=
  ∀ (i j : Nat) (earlier later : Leaf),
    i ≤ j → leaf? db pool i = some earlier → leaf? db pool j = some later
    → earlier.ledger ≤ later.ledger

/-- No leaf recorded past the given leaf count lies at or before the ledger, except leaves
that cannot be told from padding.
-/
def NoLaterLeaf (hasher : TreeHasher) (db : Db) (pool : String) (leafCount ledger : Int)
    : Prop :=
  ∀ (k : Nat) (leaf : Leaf),
    leafCount ≤ k → Stored db pool (k + 1) → leaf? db pool k = some leaf
    → leaf.ledger ≤ ledger → leaf.node = hasher.emptyLeaf

theorem le_foldl_max (leaves : List Leaf) (start : Int)
    : start ≤ leaves.foldl (fun anchor leaf => max anchor leaf.ledger) start
      ∧ ∀ leaf ∈ leaves,
          leaf.ledger ≤ leaves.foldl (fun anchor leaf => max anchor leaf.ledger) start := by
  induction leaves generalizing start with
  | nil => exact ⟨le_rfl, by simp⟩
  | cons head rest ih =>
      obtain ⟨above, later⟩ := ih (max start head.ledger)
      refine ⟨(le_max_left _ _).trans above, ?_⟩
      intro leaf member
      rcases List.mem_cons.mp member with rfl | inRest
      · exact (le_max_right _ _).trans above
      · exact later leaf inRest

/-- The anchored ledger is no earlier than any leaf of the tree. -/
theorem ledger_le_anchorOf {leaves : List Leaf} {leaf : Leaf} (h : leaf ∈ leaves)
    : leaf.ledger ≤ anchorOf leaves :=
  (le_foldl_max leaves 0).2 leaf h

/-- A row carries the ledger of the leaf that completed it. -/
theorem ledger_of_row {hasher : TreeHasher} {db : Db} (sound : DbSound hasher db)
    {row : TreeRootRow} (stored : row ∈ db.treeRoots) {k : Nat} {leaf : Leaf}
    (count : row.leafCount = (k + 1 : Nat)) (found : leaf? db row.pool k = some leaf)
    : row.ledger = leaf.ledger := by
  obtain ⟨leaves, last, prefixed, length, _, ledger⟩ := sound.exists_leaves stored
  have position : k = leaves.length := by
    have counts := length.symm.trans count
    omega
  subst position
  have same := found.symm.trans (prefixed leaves.length (by simp))
  simpa [ledger] using (congrArg Leaf.ledger (Option.some.inj same)).symm

/-- The history answers a report with the root of a prefix that extends the reported leaves.
It ends with the last recorded leaf at or before the anchored ledger.
-/
theorem historical_root {hasher : TreeHasher} {db : Db} (sound : DbSound hasher db)
    {pool : String} {leaves : List Leaf} (prefixed : LeafPrefix db pool leaves)
    (stored : Stored db pool leaves.length)
    : ∃ all ledger,
        historyAnswer db pool { atLedger := some (anchorOf leaves), atLeafCount := none }
          = .ok ⟨pool, Hex.hex0x (rootOf hasher all), all.length, ledger⟩
        ∧ leaves <+: all
        ∧ LeafPrefix db pool all
        ∧ Stored db pool all.length
        ∧ (∀ leaf, all.getLast? = some leaf → leaf.ledger ≤ anchorOf leaves)
        ∧ ∀ (k : Nat) (leaf : Leaf),
            Stored db pool (k + 1) → leaf? db pool k = some leaf
            → leaf.ledger ≤ anchorOf leaves → k < all.length := by
  obtain ⟨own, ownStored, rfl, ownCount⟩ := stored
  -- The row of the reported root itself is covered by the query.
  obtain ⟨before, final, ownPrefix, ownLength, _, ownLedger⟩ := sound.exists_leaves ownStored
  have length : (before ++ [final]).length = leaves.length := by
    have counts := ownLength.symm.trans ownCount
    simpa using Int.ofNat.inj counts
  have same : before ++ [final] = leaves := by
    rw [ownPrefix.eq_take prefixed (Nat.le_of_eq length), length, List.take_length]
  have ownCovered
      : RootQuery.covers { atLedger := some (anchorOf leaves), atLeafCount := none } own
        = true := by
    have bound : final.ledger ≤ anchorOf leaves := ledger_le_anchorOf (by simp [← same])
    simpa [RootQuery.covers, ownLedger] using bound
  obtain ⟨row, found⟩ := exists_historyRow ownStored rfl ownCovered
  obtain ⟨member, samePool, covered, newest⟩ := historyRow_spec found
  obtain ⟨earlier, last, rowPrefix, rowLength, root, ledger⟩ := sound.exists_leaves member
  rw [samePool] at rowPrefix
  have longer : leaves.length ≤ (earlier ++ [last]).length := by
    have newer := newest own ownStored rfl ownCovered
    rw [ownCount, rowLength] at newer
    simpa using Int.ofNat_le.mp newer
  have bytes : Node.ofBytes? row.root = some (rootOf hasher (earlier ++ [last])) := by
    rw [root]
    exact Node.ofBytes?_bytes _
  refine ⟨earlier ++ [last], row.ledger, ?_, ?_, rowPrefix, ?_, ?_, ?_⟩
  · simp [historyAnswer, found, bytes, rowLength, pure, Except.pure]
  · exact prefixed.eq_take rowPrefix longer ▸ List.take_prefix _ _
  · exact ⟨row, member, samePool, by simp [rowLength]⟩
  · intro leaf isLast
    obtain rfl : last = leaf := by simpa using isLast
    simpa [RootQuery.covers, ledger] using covered
  · rintro k leaf ⟨other, otherStored, otherPool, otherCount⟩ atIndex below
    have otherLedger := ledger_of_row sound otherStored otherCount (otherPool ▸ atIndex)
    have older := newest other otherStored otherPool
      (by simpa [RootQuery.covers, otherLedger] using below)
    rw [otherCount, rowLength] at older
    simpa using Nat.lt_of_succ_le (Int.ofNat_le.mp older)

/-- Two prefixes of the stored leaves whose trees hash different pairs to one node. -/
def StoredCollision (hasher : TreeHasher) (db : Db) (pool : String) : Prop :=
  ∃ left right,
    LeafPrefix db pool left ∧ LeafPrefix db pool right
    ∧ hasher.scheme.Collision (hasher.scheme.Hashed (left.map Leaf.node) treeDepth)
        (hasher.scheme.Hashed (right.map Leaf.node) treeDepth)

/-- For a report on a live root of a run in which every history INSERT succeeds, `verify` gets
an answer, and the roots match exactly if no further leaf was recorded at or before the
anchored ledger. Only a collision among the hashed nodes could hide such a leaf.
-/
theorem verify_matches_iff (codec : Codec) (hasher : TreeHasher) {pool : String}
    (generatedAt : String) (notesScanned : Nat) {actions : List Action} {s t : State}
    {live : RootResponse} {r position : Nat}
    (succeed : ∀ action ∈ actions, action.InsertsSucceed)
    (ran : Machine.run (step codec hasher) State.init actions = some s)
    (ordered : LedgersOrdered s.db pool)
    (fetched : ⟨liveRequest pool, .ok (.root live)⟩ ∈ s.answers)
    (asks
      : (s.replicas r).lookups[position]?
        = some (pool, (generate pool generatedAt live notesScanned).query))
    (stepped : step codec hasher s (.lookup r position .ok) = some t)
    : ∃ historical,
        t.answers
          = s.answers
            ++ [⟨.root pool (generate pool generatedAt live notesScanned).query,
                .ok (.root historical)⟩]
        ∧ (NoLaterLeaf hasher s.db pool live.leafCount live.anchoredLedger
          → (verify (generate pool generatedAt live notesScanned) historical).rootsMatch = true)
        ∧ ((∀ row ∈ s.db.treeRoots, row.pool = pool → row.leafCount ≤ 2 ^ treeDepth)
          → (verify (generate pool generatedAt live notesScanned) historical).rootsMatch = true
          → NoLaterLeaf hasher s.db pool live.leafCount live.anchoredLedger
            ∨ StoredCollision hasher s.db pool) := by
  obtain ⟨sound, recorded⟩ := run_recorded succeed ran
  obtain ⟨leaves, nonempty, prefixed, stored, rfl⟩ := recorded.live pool live fetched
  obtain ⟨all, ledger, answered, older, allPrefix, allStored, below, newest⟩ :=
    historical_root sound.db prefixed stored
  refine ⟨⟨pool, Hex.hex0x (rootOf hasher all), all.length, ledger⟩, ?_, ?_, ?_⟩
  · simp only [step, asks, Option.map_some, Option.some.injEq] at stepped
    rw [← stepped]
    simp only [State.endLookup, State.answer, State.setReplica, Report.query, generate, answered,
      Except.map]
  · intro undisturbed
    refine beq_iff_eq.mpr (congrArg Hex.hex0x ?_)
    refine hasher.scheme.root_of_prefix (older.map Leaf.node) ?_
    intro k inside new
    simp only [List.length_map] at inside new
    have last := below (all.getLast (List.ne_nil_of_length_pos (by omega)))
      (List.getLast?_eq_some_getLast _)
    rw [List.getLast_eq_getElem] at last
    have early := ordered k (all.length - 1) _ _ (by omega) (allPrefix k inside)
      (allPrefix (all.length - 1) (by omega))
    rw [List.getElem_map]
    exact undisturbed k all[k] (Int.ofNat_le.mpr new)
      (recorded.downward pool all.length (k + 1) allStored k.succ_pos inside)
      (allPrefix k inside) (early.trans last)
  · intro capacity equal
    obtain ⟨row, member, samePool, count⟩ := allStored
    have room : all.length ≤ 2 ^ treeDepth := by
      have bound := capacity row member samePool
      rw [count] at bound
      exact_mod_cast bound
    have roots := Hex.hex0x_injective (beq_iff_eq.mp equal)
    rcases hasher.scheme.prefix_binding (older.map Leaf.node) (by simpa using room) roots
      with padding | collision
    · refine Or.inl (fun k leaf new atIndex inTable early => ?_)
      have inside := newest k leaf atIndex inTable early
      obtain rfl := Option.some.inj (inTable.symm.trans (allPrefix k inside))
      have value := padding k (by simpa using inside) (by simpa using Int.ofNat_le.mp new)
      rwa [List.getElem_map] at value
    · exact Or.inr ⟨all, leaves, allPrefix, prefixed, collision⟩

/-- Rows in ledger order make leaves in ledger order. -/
theorem LedgersOrdered.of_rows {db : Db} (pool : String)
    (h
      : ∀ row ∈ db.commitments, ∀ other ∈ db.commitments, row.leafIndex ≤ other.leafIndex
          → row.ledger ≤ other.ledger)
    : LedgersOrdered db pool := by
  intro i j earlier later le first second
  obtain ⟨row, member, _, index₁, _, at₁⟩ := exists_row_of_leaf? first
  obtain ⟨row', member', _, index₂, _, at₂⟩ := exists_row_of_leaf? second
  rw [← at₁, ← at₂]
  exact h row member row' member' (by rw [index₁, index₂]; exact_mod_cast le)

/-- A report on the first sample leaf, observed at ledger 42. -/
def sampleReport : Report :=
  generate "CPOOL" "2026-01-01T00:00:00Z" ⟨"CPOOL", Hex.hex0x (sampleLeaf 0), 1, 42⟩ 0

/-- `generate` fetches the root after one leaf. A leaf of the next ledger is indexed before
`verify` asks for the history.
-/
def laterLedgerRun : List Action :=
  [sampleStore 0 42, .request 0 (liveRequest "CPOOL") .ok, .insert 0 .ok, sampleStore 1 43,
    .request 0 (.root "CPOOL" sampleReport.query) .ok, .insert 0 .ok]

theorem verify_matches_later_ledger
    : ∃ s t historical,
        Machine.run (step (sampleCodec 2) sampleHasher) State.init laterLedgerRun = some s
        ∧ s.db.treeRoots.map TreeRootRow.leafCount = [1, 2]
        ∧ step (sampleCodec 2) sampleHasher s (.lookup 0 0 .ok) = some t
        ∧ ⟨.root "CPOOL" sampleReport.query, .ok (.root historical)⟩ ∈ t.answers
        ∧ (verify sampleReport historical).rootsMatch = true := by
  have observed
      : (Machine.run (step (sampleCodec 2) sampleHasher) State.init laterLedgerRun).map
          (fun s => (s.answers, (s.replicas 0).lookups, s.db.commitments,
            s.db.treeRoots.map TreeRootRow.leafCount))
        = some ([⟨liveRequest "CPOOL", .ok (.root ⟨"CPOOL", Hex.hex0x (sampleLeaf 0), 1, 42⟩)⟩],
            [("CPOOL", sampleReport.query)],
            [⟨"CPOOL", 0, (sampleLeaf 0).bytes, 42, "abc"⟩,
              ⟨"CPOOL", 1, (sampleLeaf 1).bytes, 43, "abc"⟩],
            [1, 2]) := by
    decide +kernel
  obtain ⟨s, ran, shape⟩ := Option.map_eq_some_iff.mp observed
  simp only [Prod.mk.injEq] at shape
  obtain ⟨answers, lookups, rows, counts⟩ := shape
  have ordered : LedgersOrdered s.db "CPOOL" := by
    refine .of_rows "CPOOL" ?_
    rw [rows]
    decide +kernel
  have quiet : NoLaterLeaf sampleHasher s.db "CPOOL" 1 42 := by
    intro k leaf new _ found early
    obtain ⟨row, member, _, index, _, ledger⟩ := exists_row_of_leaf? found
    have late : ∀ row ∈ s.db.commitments, 1 ≤ row.leafIndex → 42 < row.ledger := by
      rw [rows]
      decide +kernel
    exact absurd (ledger ▸ early) (Int.not_le.mpr (late row member (index ▸ new)))
  obtain ⟨t, stepped⟩
      : ∃ t, step (sampleCodec 2) sampleHasher s (.lookup 0 0 .ok) = some t := by
    simp [step, lookups]
  obtain ⟨historical, added, holds, _⟩ := verify_matches_iff (sampleCodec 2) sampleHasher
    "2026-01-01T00:00:00Z" 0 (by simp [laterLedgerRun, sampleStore, Action.InsertsSucceed]) ran
    ordered (answers ▸ List.mem_singleton_self _) (by rw [lookups]; rfl) stepped
  refine ⟨s, t, historical, ran, counts, stepped, ?_, holds quiet⟩
  simp [added, sampleReport]

/-- A second leaf of the reported ledger is indexed after the report was generated. Every call
succeeds, and yet the report no longer verifies.
-/
theorem report_disturbed_within_ledger
    : ∃ s t historical,
        Machine.run (step (sampleCodec 2) sampleHasher) State.init
            [sampleStore 0 42, .request 0 (liveRequest "CPOOL") .ok, .insert 0 .ok,
              sampleStore 1 42, .request 0 (.root "CPOOL" sampleReport.query) .ok, .insert 0 .ok]
          = some s
        ∧ LedgersOrdered s.db "CPOOL"
        ∧ ⟨liveRequest "CPOOL", .ok (.root ⟨"CPOOL", Hex.hex0x (sampleLeaf 0), 1, 42⟩)⟩
            ∈ s.answers
        ∧ step (sampleCodec 2) sampleHasher s (.lookup 0 0 .ok) = some t
        ∧ ⟨.root "CPOOL" sampleReport.query, .ok (.root historical)⟩ ∈ t.answers
        ∧ (verify sampleReport historical).rootsMatch = false := by
  have observed
      : (Machine.run (step (sampleCodec 2) sampleHasher) State.init
            [sampleStore 0 42, .request 0 (liveRequest "CPOOL") .ok, .insert 0 .ok,
              sampleStore 1 42, .request 0 (.root "CPOOL" sampleReport.query) .ok,
              .insert 0 .ok]).map
          (fun s => (s.answers, s.db.commitments.map CommitmentRow.ledger,
            (step (sampleCodec 2) sampleHasher s (.lookup 0 0 .ok)).map State.answers))
        = some ([⟨liveRequest "CPOOL", .ok (.root ⟨"CPOOL", Hex.hex0x (sampleLeaf 0), 1, 42⟩)⟩],
            [42, 42],
            some [⟨liveRequest "CPOOL",
                  .ok (.root ⟨"CPOOL", Hex.hex0x (sampleLeaf 0), 1, 42⟩)⟩,
                ⟨.root "CPOOL" sampleReport.query,
                  .ok (.root ⟨"CPOOL", Hex.hex0x (sampleLeaf 2), 2, 42⟩)⟩]) := by
    decide +kernel
  obtain ⟨s, ran, shape⟩ := Option.map_eq_some_iff.mp observed
  simp only [Prod.mk.injEq] at shape
  obtain ⟨answers, ledgers, looked⟩ := shape
  obtain ⟨t, stepped, final⟩ := Option.map_eq_some_iff.mp looked
  refine ⟨s, t, ⟨"CPOOL", Hex.hex0x (sampleLeaf 2), 2, 42⟩, ran, ?_, by simp [answers], stepped,
    by simp [final], by decide +kernel⟩
  have one (row : CommitmentRow) (member : row ∈ s.db.commitments) : row.ledger = 42 := by
    simpa [ledgers] using List.mem_map_of_mem (f := CommitmentRow.ledger) member
  refine .of_rows "CPOOL" fun row member other member' _ => ?_
  rw [one row member, one other member']

end Attesta.Disclosure
