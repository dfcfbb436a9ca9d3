import Attesta.Api.RootHistory

/-! Replicas converge on one root history. Each of them writes history rows from its own
cached tree, but all trees mirror prefixes of one append-only table of leaves, so a row that
is dropped on conflict is the row that is already there.
-/

namespace Attesta.Api

/-- The leaf count an answer reports. -/
def TreeResponse.reportedCount : TreeResponse → Int
  | .path response => response.leafCount
  | .root response => response.leafCount

/-- The root an answer reports, in hex. -/
def TreeResponse.reportedRoot : TreeResponse → String
  | .path response => response.root
  | .root response => response.root

/-- Two prefixes of equal length are the same leaves. -/
theorem LeafPrefix.eq_of_length {db : Db} {pool : String} {left right : List Leaf}
    (hl : LeafPrefix db pool left) (hr : LeafPrefix db pool right)
    (lengths : left.length = right.length)
    : left = right := by
  have taken := hl.eq_take hr (Nat.le_of_eq lengths)
  rw [taken, lengths, List.take_length]

end Attesta.Api

namespace Attesta.Api.TreeService

open Attesta.Merkle Attesta.Indexer KeyedRows

/-- Whatever request it answers, a sound answer reports the root of a stored prefix. -/
theorem Answer.Sound.reports {hasher : TreeHasher} {db : Db} {answer : Answer}
    (h : answer.Sound hasher db) {response : TreeResponse} (ok : answer.result = .ok response)
    : ∃ leaves,
        LeafPrefix db answer.request.pool leaves
        ∧ response.reportedCount = leaves.length
        ∧ response.reportedRoot = Hex.hex0x (rootOf hasher leaves) := by
  obtain ⟨request, result⟩ := answer
  obtain rfl : result = .ok response := ok
  cases request with
  | path pool commitment =>
      cases response with
      | path response =>
          obtain ⟨leaves, _, _, stored, _, _, _, _, count, root⟩ := h
          exact ⟨leaves, stored, count, root⟩
      | root response => exact h.elim
  | root pool query =>
      cases response with
      | path response => exact h.elim
      | root response =>
          obtain ⟨leaves, stored, _, count, root⟩ := h
          exact ⟨leaves, stored, count, root⟩

/-- Sound answers of one pool that report one leaf count report one root. -/
theorem Answer.Sound.root_eq {hasher : TreeHasher} {db : Db} {first second : Answer}
    (hf : first.Sound hasher db) (hs : second.Sound hasher db)
    (samePool : first.request.pool = second.request.pool) {left right : TreeResponse}
    (leftOk : first.result = .ok left) (rightOk : second.result = .ok right)
    (counts : left.reportedCount = right.reportedCount)
    : left.reportedRoot = right.reportedRoot := by
  obtain ⟨leaves, stored, count, root⟩ := hf.reports leftOk
  obtain ⟨others, otherStored, otherCount, otherRoot⟩ := hs.reports rightOk
  have lengths : leaves.length = others.length := by
    rw [count, otherCount] at counts
    exact Int.ofNat.inj counts
  have same := stored.eq_of_length (samePool ▸ otherStored) lengths
  rw [root, otherRoot, same]

/-- No two rows of a sound history share pool and leaf count. -/
theorem DbSound.keys_nodup {hasher : TreeHasher} {db : Db} (h : DbSound hasher db)
    : (db.treeRoots.map (fun row => (row.pool, row.leafCount))).Nodup := by
  refine List.pairwise_map.mpr (h.uniqueRoots.imp ?_)
  intro first second apart same
  obtain ⟨samePool, sameCount⟩ := Prod.mk.inj same
  simp [TreeRootRow.conflict, samePool, sameCount] at apart

/-- What replicas agree on between an earlier and a later moment of a run. -/
structure Converged (hasher : TreeHasher) (s t : State) : Prop where
  /-- A row is the root after the stored leaves below its leaf count, the last of them giving
  its ledger.
  -/
  rows
    : ∀ row ∈ t.db.treeRoots,
        ∃ leaves leaf,
          LeafPrefix t.db row.pool (leaves ++ [leaf])
          ∧ row.leafCount = (leaves.length + 1 : Nat)
          ∧ row.root = (rootOf hasher (leaves ++ [leaf])).bytes
          ∧ row.ledger = leaf.ledger
  unique : (t.db.treeRoots.map (fun row => (row.pool, row.leafCount))).Nodup
  kept : s.db.treeRoots <+: t.db.treeRoots
  /-- Answers to clients, given at any two moments by any two replicas. -/
  answers
    : ∀ first ∈ t.answers, ∀ second ∈ t.answers,
        first.request.pool = second.request.pool
        → ∀ left right, first.result = .ok left → second.result = .ok right
        → left.reportedCount = right.reportedCount → left.reportedRoot = right.reportedRoot
  trees
    : ∀ r r' pool,
        ((s.replicas r).trees.entry hasher pool).tree.len
            = ((t.replicas r').trees.entry hasher pool).tree.len
        → ((s.replicas r).trees.entry hasher pool).tree.root
            = ((t.replicas r').trees.entry hasher pool).tree.root

/-- Over any run the leaves and the history only grow. -/
theorem run_grows {codec : Codec} {hasher : TreeHasher} {s t : State} {actions : List Action}
    (sound : s.Sound hasher) (ran : Machine.run (step codec hasher) s actions = some t)
    : t.Sound hasher ∧ s.db.commitments <+: t.db.commitments
      ∧ s.db.treeRoots <+: t.db.treeRoots := by
  have preserved (before : State) (action : Action) (after : State)
      (h : before.Sound hasher ∧ s.db.commitments <+: before.db.commitments
        ∧ s.db.treeRoots <+: before.db.treeRoots)
      (stepped : step codec hasher before action = some after)
      : after.Sound hasher ∧ s.db.commitments <+: after.db.commitments
        ∧ s.db.treeRoots <+: after.db.treeRoots := by
    obtain ⟨soundBefore, leaves, roots⟩ := h
    exact ⟨step_sound soundBefore stepped, leaves.trans (step_commitments soundBefore stepped),
      roots.trans (step_treeRoots stepped)⟩
  exact Machine.invariant preserved ⟨sound, List.prefix_rfl, List.prefix_rfl⟩ ran

/-- Replicas that cache equally many leaves of a pool, at whatever moments, cache one root. -/
theorem tree_root_eq {hasher : TreeHasher} {s t : State} (hs : s.Sound hasher)
    (ht : t.Sound hasher) (grows : s.db.commitments <+: t.db.commitments) {r r' : Nat}
    {pool : String}
    (lengths
      : ((s.replicas r).trees.entry hasher pool).tree.len
        = ((t.replicas r').trees.entry hasher pool).tree.len)
    : ((s.replicas r).trees.entry hasher pool).tree.root
      = ((t.replicas r').trees.entry hasher pool).tree.root := by
  obtain ⟨leaves, mirrors⟩ := (hs.replicas r).trees pool
  obtain ⟨others, otherMirrors⟩ := (ht.replicas r').trees pool
  have counts : leaves.length = others.length := by
    rw [← mirrors.len, ← otherMirrors.len, lengths]
  have same := (mirrors.stored.mono grows).eq_of_length otherMirrors.stored counts
  rw [mirrors.root, otherMirrors.root, same]

/-- Any number of replicas of one database converge on one root history, whatever is inserted,
topped up, dropped on conflict, failed or restarted in between.
-/
theorem replicas_converge (codec : Codec) (hasher : TreeHasher) {s t : State}
    {earlier later : List Action}
    (reached : Machine.run (step codec hasher) State.init earlier = some s)
    (ran : Machine.run (step codec hasher) s later = some t)
    : Converged hasher s t := by
  have before := run_sound reached
  obtain ⟨sound, leaves, roots⟩ := run_grows before ran
  refine ⟨fun row member => sound.db.exists_leaves member, sound.db.keys_nodup, roots, ?_, ?_⟩
  · intro first firstGiven second secondGiven samePool left right leftOk rightOk counts
    exact (sound.answers first firstGiven).root_eq (sound.answers second secondGiven) samePool
      leftOk rightOk counts
  · exact fun r r' pool lengths => tree_root_eq before sound leaves lengths

/-- Two replicas append the same leaf and both insert its row; the second is dropped. -/
theorem replicas_converge_two
    : ∃ s t,
        Machine.run (step (sampleCodec 1) sampleHasher) State.init
            [sampleStore 0 42, .request 0 (liveRequest "CPOOL") .ok,
              .request 1 (liveRequest "CPOOL") .ok, .insert 1 .ok]
          = some s
        ∧ Machine.run (step (sampleCodec 1) sampleHasher) s [.insert 0 .ok, .restart 1]
          = some t
        ∧ t.db.treeRoots.map TreeRootRow.leafCount = [1]
        ∧ t.answers.length = 2
        ∧ Converged sampleHasher s t := by
  have observed
      : (Machine.run (step (sampleCodec 1) sampleHasher) State.init
            ([sampleStore 0 42, .request 0 (liveRequest "CPOOL") .ok,
              .request 1 (liveRequest "CPOOL") .ok, .insert 1 .ok]
              ++ [.insert 0 .ok, .restart 1])).map
          (fun t => (t.db.treeRoots.map TreeRootRow.leafCount, t.answers.length))
        = some ([1], 2) := by
    decide +kernel
  obtain ⟨t, whole, shape⟩ := Option.map_eq_some_iff.mp observed
  obtain ⟨counts, given⟩ := Prod.mk.inj shape
  obtain ⟨s, reached, ran⟩ := Machine.run_append.mp whole
  exact ⟨s, t, reached, ran, counts, given,
    replicas_converge (sampleCodec 1) sampleHasher reached ran⟩

end Attesta.Api.TreeService
