import Attesta.Api.Convergence
import Attesta.Foundation.StalePaths

/-! What a prover can do with an answer of `get_path`: parse it, recompute the root, and keep
the path while the pool grows. Answers come from any replica at any moment of a run.
-/

namespace Attesta.Api.TreeService

open Attesta.Merkle Attesta.Indexer PaddedTree

/-- A path element as the handler renders it. -/
def renderElement (el : PathElement) : PathElementJson := ⟨Hex.hex0x el.sibling, el.siblingOnRight⟩

/-- What a prover reads back. -/
def parseElement (el : PathElementJson) : Except ApiError PathElement :=
  (parseNode el.sibling).map (fun sibling => ⟨sibling, el.siblingOnRight⟩)

/-- All that a path answer says, as a function of the leaves its replica had. -/
def PathHonest (hasher : TreeHasher) (db : Db) (pool commitment : String)
    (response : PathResponse)
    : Prop :=
  ∃ (leaves : List Leaf) (i : Nat) (node : Node) (path : List PathElement),
    LeafPrefix db pool leaves
    ∧ parseNode commitment = .ok node
    ∧ leaves[i]?.map Leaf.node = some node
    ∧ path.map PathElement.step = hasher.scheme.path (leaves.map Leaf.node) i treeDepth
    ∧ response = {
        pool
        leafIndex := i
        root := Hex.hex0x (rootOf hasher leaves)
        leafCount := leaves.length
        anchoredLedger := anchorOf leaves
        path := path.map renderElement
      }

/-- Every path answer so far is honest. -/
def PathsHonest (hasher : TreeHasher) (s : State) : Prop :=
  ∀ pool commitment response,
    ⟨.path pool commitment, .ok (.path response)⟩ ∈ s.answers
      → PathHonest hasher s.db pool commitment response

theorem PathHonest.mono {hasher : TreeHasher} {db next : Db} {pool commitment : String}
    {response : PathResponse} (h : PathHonest hasher db pool commitment response)
    (grows : db.commitments <+: next.commitments)
    : PathHonest hasher next pool commitment response := by
  obtain ⟨leaves, i, node, path, stored, rest⟩ := h
  exact ⟨leaves, i, node, path, stored.mono grows, rest⟩

/-- A mirrored tree is read faithfully. -/
theorem pathAnswer_honest {hasher : TreeHasher} {db : Db} {pool commitment : String}
    {poolTree : PoolTree} {leaves : List Leaf} {node : Node} {response : PathResponse}
    (mirrors : poolTree.Mirrors hasher db pool leaves) (parsed : parseNode commitment = .ok node)
    (h : pathAnswer pool poolTree node = .ok response)
    : PathHonest hasher db pool commitment response := by
  unfold pathAnswer at h
  split at h
  next i found =>
    have atIndex := (mirrors.index node i).mp found
    have inside : i < (leaves.map Leaf.node).length := by
      obtain ⟨leaf, there, _⟩ := Option.map_eq_some_iff.mp atIndex
      simpa using (List.getElem?_eq_some_iff.mp there).1
    obtain ⟨honest, served, steps⟩ := mirrors.tree.path inside
    rw [served] at h
    refine ⟨leaves, i, node, honest, mirrors.stored, parsed, atIndex, steps, ?_⟩
    have shape := Except.ok.inj h
    rw [← shape, mirrors.len, mirrors.root, mirrors.anchor]
    rfl
  next => cases h

-----------------------------------------------------------------------------------------
-- Where path answers come from
-----------------------------------------------------------------------------------------

/-- A new path answer is read from the tree the request was answered from. -/
theorem State.finish_path {s : State} {r : Nat} {poolTree : PoolTree} {request : TreeRequest}
    {pool commitment : String} {response : PathResponse}
    (h : ⟨.path pool commitment, .ok (.path response)⟩ ∈ (s.finish r poolTree request).answers)
    : ⟨.path pool commitment, .ok (.path response)⟩ ∈ s.answers
      ∨ request.pool = pool
        ∧ ∃ node, parseNode commitment = .ok node ∧ pathAnswer pool poolTree node = .ok response
      := by
  unfold State.finish checkNonEmpty at h
  split at h
  next e failed =>
    refine (List.mem_append.mp h).imp_right (fun new => ?_)
    cases List.mem_singleton.mp new
  next final passed =>
    split at passed
    next => cases passed
    next nonempty =>
      obtain rfl := Except.ok.inj passed
      cases request with
      | path target asked =>
          refine (List.mem_append.mp h).imp_right (fun new => ?_)
          have same := List.mem_singleton.mp new
          injection same with request result
          obtain ⟨rfl, rfl⟩ := TreeRequest.path.inj request
          refine ⟨rfl, ?_⟩
          cases parsed : parseNode commitment with
          | error e => simp [parsed, Except.bind, Except.map] at result
          | ok node =>
              cases answered : pathAnswer pool poolTree node with
              | error e => simp [parsed, answered, Except.bind, Except.map] at result
              | ok read =>
                  simp only [parsed, answered, Except.bind, Except.map, Except.ok.injEq,
                    TreeResponse.path.injEq] at result
                  exact ⟨node, rfl, result ▸ answered⟩
      | root target query =>
          simp only [State.respond] at h
          split at h
          · refine (List.mem_append.mp h).imp_right (fun new => ?_)
            cases List.mem_singleton.mp new
          · exact Or.inl h

theorem PathsHonest.finish {hasher : TreeHasher} {s : State} (h : PathsHonest hasher s) (r : Nat)
    {poolTree : PoolTree} {request : TreeRequest} {leaves : List Leaf}
    (mirrors : poolTree.Mirrors hasher s.db request.pool leaves)
    : PathsHonest hasher (s.finish r poolTree request) := by
  intro pool commitment response member
  rw [State.finish_db]
  rcases State.finish_path member with old | ⟨rfl, node, parsed, answered⟩
  · exact h pool commitment response old
  · exact pathAnswer_honest mirrors parsed answered

/-- An answer that is no path adds nothing to be honest about. -/
theorem PathsHonest.answer {hasher : TreeHasher} {s : State} (h : PathsHonest hasher s)
    (request : TreeRequest) {result : Except ApiError TreeResponse}
    (noPath : ∀ response, result ≠ .ok (.path response))
    : PathsHonest hasher (s.answer request result) := by
  intro pool commitment response member
  rcases List.mem_append.mp member with old | new
  · exact h pool commitment response old
  · have same := List.mem_singleton.mp new
    exact absurd (congrArg Answer.result same).symm (noPath response)

theorem PathsHonest.begin {hasher : TreeHasher} {s : State} (h : PathsHonest hasher s)
    (sound : s.Sound hasher) (r : Nat) (request : TreeRequest)
    : PathsHonest hasher (s.begin hasher r request) := by
  obtain ⟨leaves, mirrored⟩ := (sound.replicas r).trees request.pool
  obtain ⟨next, more, run, mirrors⟩ := topUp_spec sound.db.valid mirrored
  simp only [State.begin, run]
  split
  next empty =>
    exact PathsHonest.finish (s := s.setReplica r _) h r mirrors
  next waiting => exact h

theorem PathsHonest.endInsert {hasher : TreeHasher} {s : State} (h : PathsHonest hasher s)
    (sound : s.Sound hasher) {r : Nat} {pending : PendingInsert}
    (waiting : (s.replicas r).pendingInsert = some pending) (outcome : InsertOutcome)
    : PathsHonest hasher (s.endInsert hasher r pending outcome) := by
  obtain ⟨leaves, start, _, mirrors, _⟩ := (sound.replicas r).pending pending waiting
  have stored
      : PathsHonest hasher
          { s.setReplica r { s.replicas r with pendingInsert := none } with
            db := insertTreeRoots s.db pending.request.pool pending.newRoots } :=
    fun pool commitment response member =>
      (h pool commitment response member).mono List.prefix_rfl
  cases outcome with
  | ok => exact stored.finish r (mirrors.mono List.prefix_rfl)
  | failed applied =>
      cases applied
      · exact PathsHonest.answer h _ (by simp)
      · exact stored.answer _ (by simp)
  | cancelled applied =>
      cases applied
      · exact h
      · exact stored

/-- Every step of the service keeps its path answers honest. -/
theorem step_pathsHonest {codec : Codec} {hasher : TreeHasher} {s t : State} {action : Action}
    (sound : s.Sound hasher) (h : PathsHonest hasher s)
    (stepped : step codec hasher s action = some t)
    : PathsHonest hasher t := by
  cases step_effect stepped with
  | stored executed =>
      intro pool commitment response member
      exact (h pool commitment response member).mono (execAll_dbSound sound.db executed).2
  | refused => exact h.answer _ (by simp)
  | begun => exact h.begin sound _ _
  | unread => exact PathsHonest.answer h _ (by simp)
  | dropped => exact h
  | inserted waiting => exact h.endInsert sound waiting _
  | @lookedUp r position pool query outcome found =>
      cases outcome with
      | ok =>
          refine PathsHonest.answer h _ (fun response same => ?_)
          cases answered : historyAnswer s.db pool query <;>
            simp [answered, Except.map] at same
      | failed => exact PathsHonest.answer h _ (by simp)
      | cancelled => exact h
  | restarted => exact h

theorem run_pathsHonest {codec : Codec} {hasher : TreeHasher} {s : State} {actions : List Action}
    (ran : Machine.run (step codec hasher) State.init actions = some s)
    : PathsHonest hasher s := by
  have preserved (before : State) (action : Action) (after : State)
      (kept : before.Sound hasher ∧ PathsHonest hasher before)
      (stepped : step codec hasher before action = some after)
      : after.Sound hasher ∧ PathsHonest hasher after :=
    ⟨step_sound kept.1 stepped, step_pathsHonest kept.1 kept.2 stepped⟩
  have initially : PathsHonest hasher State.init := by
    intro pool commitment response member
    cases member
  exact (Machine.invariant preserved ⟨State.init_sound hasher, initially⟩ ran).2

-----------------------------------------------------------------------------------------
-- The prover's side
-----------------------------------------------------------------------------------------

theorem parseNode_hex0x (node : Node) : parseNode (Hex.hex0x node) = .ok node := by
  simp [parseNode, Hex.hexBytes_hex0x]

theorem parse_renderElement (el : PathElement) : parseElement (renderElement el) = .ok el := by
  rw [parseElement, renderElement, parseNode_hex0x]
  rfl

/-- Every element of an answer reads back as the element it was rendered from. -/
theorem mapM_parse (path : List PathElement)
    : (path.map renderElement).mapM parseElement = .ok path := by
  induction path with
  | nil => rfl
  | cons el rest ih =>
      rw [List.map_cons, List.mapM_cons, ih, parse_renderElement]
      rfl

/-- An honest path of a leaf that the root covers leads to the root. -/
theorem verifyPath_of_steps {hasher : TreeHasher} {tree : MerkleTree}
    (same : tree.hasher = hasher) {xs : List Node} {i : Nat} (covered : i < 2 ^ treeDepth)
    {node : Node} (found : xs[i]? = some node) {path : List PathElement}
    (steps : path.map PathElement.step = hasher.scheme.path xs i treeDepth)
    : tree.verifyPath node path (hasher.scheme.root xs treeDepth) = true := by
  obtain ⟨inside, rfl⟩ := List.getElem?_eq_some_iff.mp found
  have climbed := hasher.scheme.climb_path xs i treeDepth
  rw [hasher.scheme.leaf_of_lt inside, Nat.div_eq_of_lt (by omega)] at climbed
  rw [MerkleTree.verifyPath_eq, same, steps, climbed, Scheme.root, beq_self_eq_true]

/-- The sides of an honest path are the bits of the index. -/
theorem siblingOnRight_of_steps {hasher : TreeHasher} {xs : List Node} {i depth : Nat}
    {path : List PathElement}
    (steps : path.map PathElement.step = hasher.scheme.path xs i depth) (d : Nat)
    (h : d < path.length)
    : path[d].siblingOnRight = !i.testBit d := by
  have length : path.length = depth := by simpa using congrArg List.length steps
  have element := congrArg (fun steps => steps[d]?) steps
  simp only [List.getElem?_map, List.getElem?_eq_getElem h, Option.map_some,
    hasher.scheme.getElem?_path xs i (length ▸ h), Option.some.injEq] at element
  have side : path[d].siblingOnRight = (i / 2 ^ d % 2 == 0) := congrArg Prod.snd element
  rw [side, Nat.testBit_eq_decide_div_mod_eq]
  rcases Nat.mod_two_eq_zero_or_one (i / 2 ^ d) with even | odd
  · simp [even]
  · simp [odd]

/-- A prover can use every path answer as it is: the commitment it asked for, the root and each
of the 32 siblings parse, the sides are the bits of the reported leaf index, and the path leads
from the commitment to the reported root if the leaf is one of the first `2 ^ 32`.
-/
theorem served_paths_verify (codec : Codec) (hasher : TreeHasher) {s : State}
    {actions : List Action} (reached : Machine.run (step codec hasher) State.init actions = some s)
    {pool commitment : String} {response : PathResponse}
    (given : ⟨.path pool commitment, .ok (.path response)⟩ ∈ s.answers)
    : ∃ (node root : Node) (path : List PathElement) (i : Nat),
        parseNode commitment = .ok node
        ∧ parseNode response.root = .ok root
        ∧ response.path.mapM parseElement = .ok path
        ∧ path.length = treeDepth
        ∧ response.leafIndex = i
        ∧ (∀ d (h : d < path.length), path[d].siblingOnRight = !i.testBit d)
        ∧ (i < 2 ^ treeDepth
          → ∀ tree : MerkleTree, tree.hasher = hasher
            → tree.verifyPath node path root = true) := by
  obtain ⟨leaves, i, node, path, _, parsed, found, steps, rfl⟩ :=
    run_pathsHonest reached pool commitment response given
  have length : path.length = treeDepth := by simpa using congrArg List.length steps
  refine ⟨node, rootOf hasher leaves, path, i, parsed, parseNode_hex0x _, mapM_parse path, length,
    rfl, siblingOnRight_of_steps steps, fun covered tree same => ?_⟩
  rw [← List.getElem?_map] at found
  exact verifyPath_of_steps same covered found steps

/-- Rendered paths agree where the reference paths do. -/
theorem renderElement_eq {hasher : TreeHasher} {xs ys : List Node} {i j : Nat}
    {old new : List PathElement}
    (oldSteps : old.map PathElement.step = hasher.scheme.path xs i treeDepth)
    (newSteps : new.map PathElement.step = hasher.scheme.path ys j treeDepth) {d : Nat}
    (same
      : (hasher.scheme.path ys j treeDepth)[d]? = (hasher.scheme.path xs i treeDepth)[d]?)
    : (new.map renderElement)[d]? = (old.map renderElement)[d]? := by
  rw [← oldSteps, ← newSteps] at same
  have render (el : PathElement)
      : renderElement el = ⟨Hex.hex0x el.step.1, el.step.2⟩ :=
    rfl
  simp only [List.getElem?_map] at same ⊢
  have both :=
    congrArg (Option.map (fun step => (⟨Hex.hex0x step.1, step.2⟩ : PathElementJson))) same
  simpa only [Option.map_map, Function.comp_def, ← render] using both

/-- The leaf index a path answer reports. -/
def reportedIndex : TreeResponse → Option Int
  | .path response => some response.leafIndex
  | .root _ => none

/-- What an answer reports as leaf index and leaf count. -/
def Answer.reported (answer : Answer) : Option (Option Int × Int) :=
  answer.result.toOption.map (fun response => (reportedIndex response, response.reportedCount))

theorem Answer.path_of_reported {answer : Answer} {i n : Int}
    (h : answer.reported = some (some i, n))
    : ∃ response,
        answer = ⟨answer.request, .ok (.path response)⟩
        ∧ response.leafIndex = i
        ∧ response.leafCount = n := by
  obtain ⟨request, result⟩ := answer
  rcases result with e | response | response
  · cases h
  · obtain ⟨index, count⟩ := Prod.mk.inj (Option.some.inj h)
    exact ⟨response, rfl, Option.some.inj index, count⟩
  · cases (Prod.mk.inj (Option.some.inj h)).1

/-- Requests for the first leaf, with one leaf in the pool and after the second one. -/
def firstLeafTwice : List Action :=
  [sampleStore 0 42, .request 0 (.path "CPOOL" (Hex.hex0x (sampleLeaf 0))) .ok, .insert 0 .ok,
    sampleStore 1 43, .request 1 (.path "CPOOL" (Hex.hex0x (sampleLeaf 0))) .ok, .insert 1 .ok]

theorem firstLeafTwice_answers
    : ∃ (s : State) (old new : PathResponse),
        Machine.run (step (sampleCodec 2) sampleHasher) State.init firstLeafTwice = some s
        ∧ ⟨.path "CPOOL" (Hex.hex0x (sampleLeaf 0)), .ok (.path old)⟩ ∈ s.answers
        ∧ ⟨.path "CPOOL" (Hex.hex0x (sampleLeaf 0)), .ok (.path new)⟩ ∈ s.answers
        ∧ (old.leafIndex = 0 ∧ old.leafCount = 1)
        ∧ new.leafIndex = 0
        ∧ new.leafCount = 2 := by
  have observed
      : (Machine.run (step (sampleCodec 2) sampleHasher) State.init firstLeafTwice).map
          (fun s => s.answers.map (fun answer => (answer.request, answer.reported)))
        = some [(.path "CPOOL" (Hex.hex0x (sampleLeaf 0)), some (some 0, 1)),
            (.path "CPOOL" (Hex.hex0x (sampleLeaf 0)), some (some 0, 2))] := by
    decide +kernel
  obtain ⟨s, ran, shape⟩ := Option.map_eq_some_iff.mp observed
  have given (entry : TreeRequest × Option (Option Int × Int))
      (listed : entry ∈ s.answers.map (fun answer => (answer.request, answer.reported)))
      {i n : Int} (path : entry.2 = some (some i, n))
      : ∃ response, ⟨entry.1, .ok (.path response)⟩ ∈ s.answers
          ∧ response.leafIndex = i ∧ response.leafCount = n := by
    obtain ⟨answer, member, rfl⟩ := List.mem_map.mp listed
    obtain ⟨response, same, index, count⟩ := answer.path_of_reported path
    exact ⟨response, same ▸ member, index, count⟩
  rw [shape] at given
  obtain ⟨old, oldGiven, oldReported⟩ := given _ List.mem_cons_self rfl
  obtain ⟨new, newGiven, newReported⟩ :=
    given _ (List.mem_cons_of_mem _ List.mem_cons_self) rfl
  exact ⟨s, old, new, ran, oldGiven, newGiven, oldReported, newReported⟩

theorem served_paths_verify_first_leaf
    : ∃ (s : State) (response : PathResponse) (node root : Node) (path : List PathElement),
        Machine.run (step (sampleCodec 2) sampleHasher) State.init firstLeafTwice = some s
        ∧ ⟨.path "CPOOL" (Hex.hex0x (sampleLeaf 0)), .ok (.path response)⟩ ∈ s.answers
        ∧ parseNode response.root = .ok root
        ∧ response.path.mapM parseElement = .ok path
        ∧ (MerkleTree.new sampleHasher).verifyPath node path root = true := by
  obtain ⟨s, _, response, ran, _, given, _, first, _⟩ := firstLeafTwice_answers
  obtain ⟨node, root, path, i, _, rootParsed, pathParsed, _, index, _, verified⟩ :=
    served_paths_verify (sampleCodec 2) sampleHasher ran given
  have covered : i < 2 ^ treeDepth := by
    obtain rfl : i = 0 := Int.ofNat.inj (index.symm.trans first)
    exact Nat.two_pow_pos treeDepth
  exact ⟨s, response, node, root, path, ran, given, rootParsed, pathParsed,
    verified covered (MerkleTree.new sampleHasher) rfl⟩

/-- How a path ages. Two answers about one leaf of a pool, from any replicas at any moments,
agree on every level whose sibling stands on the left, was already full, or has got no new leaf;
between consecutive leaf counts at most one level differs, and at one leaf count none.
-/
theorem served_paths_agree (codec : Codec) (hasher : TreeHasher) {s : State}
    {actions : List Action} (reached : Machine.run (step codec hasher) State.init actions = some s)
    {pool commitment other : String} {old new : PathResponse}
    (oldGiven : ⟨.path pool commitment, .ok (.path old)⟩ ∈ s.answers)
    (newGiven : ⟨.path pool other, .ok (.path new)⟩ ∈ s.answers)
    (sameLeaf : old.leafIndex = new.leafIndex) (grown : old.leafCount ≤ new.leafCount)
    : ∃ i n m : Nat,
        old.leafIndex = i
        ∧ old.leafCount = n
        ∧ new.leafCount = m
        ∧ (∀ d < treeDepth,
            new.path[d]? = old.path[d]?
            ∨ i / 2 ^ d % 2 = 0 ∧ n < (i / 2 ^ d + 2) * 2 ^ d ∧ (i / 2 ^ d + 1) * 2 ^ d < m)
        ∧ (m = n + 1
            → ∃ level, ∀ d < treeDepth, d ≠ level → new.path[d]? = old.path[d]?)
        ∧ (m = n → new.path = old.path) := by
  obtain ⟨leaves, i, node, path, stored, _, found, steps, rfl⟩ :=
    run_pathsHonest reached pool commitment old oldGiven
  obtain ⟨more, j, _, newPath, newStored, _, _, newSteps, rfl⟩ :=
    run_pathsHonest reached pool other new newGiven
  obtain rfl : i = j := Int.ofNat.inj sameLeaf
  have longer : leaves.length ≤ more.length := Int.ofNat_le.mp grown
  have taken := stored.eq_take newStored longer
  have grows : leaves.map Leaf.node <+: more.map Leaf.node := by
    rw [taken]
    exact (List.take_prefix _ _).map _
  have inside : i < (leaves.map Leaf.node).length := by
    obtain ⟨leaf, there, _⟩ := Option.map_eq_some_iff.mp found
    simpa using (List.getElem?_eq_some_iff.mp there).1
  refine ⟨i, leaves.length, more.length, rfl, rfl, rfl, fun d below => ?_, fun next => ?_,
    fun same => ?_⟩
  · refine (hasher.scheme.path_of_prefix grows inside below).imp ?_ ?_
    · exact renderElement_eq steps newSteps
    · rintro ⟨even, notFull, begun⟩
      rw [Scheme.siblingIndex, if_pos even, List.length_map] at notFull begun
      exact ⟨even, notFull, begun⟩
  · obtain ⟨last, shape⟩ : ∃ last, more.map Leaf.node = leaves.map Leaf.node ++ [last] := by
      obtain ⟨rest, shape⟩ := grows
      have one : rest.length = 1 := by
        have lengths := congrArg List.length shape
        simp only [List.length_append, List.length_map] at lengths
        omega
      obtain ⟨last, rfl⟩ := List.length_eq_one_iff.mp one
      exact ⟨last, shape.symm⟩
    obtain ⟨level, kept⟩ := hasher.scheme.path_concat (leaves.map Leaf.node) last i treeDepth
    refine ⟨level, fun d below apart => renderElement_eq steps newSteps ?_⟩
    rw [shape]
    exact kept d below apart
  · have equal : more = leaves := by rw [taken, ← same, List.take_length]
    refine List.ext_getElem? fun d => renderElement_eq steps newSteps ?_
    rw [equal]

theorem served_paths_agree_first_leaf
    : ∃ (s : State) (old new : PathResponse) (level : Nat),
        Machine.run (step (sampleCodec 2) sampleHasher) State.init firstLeafTwice = some s
        ∧ ⟨.path "CPOOL" (Hex.hex0x (sampleLeaf 0)), .ok (.path old)⟩ ∈ s.answers
        ∧ ⟨.path "CPOOL" (Hex.hex0x (sampleLeaf 0)), .ok (.path new)⟩ ∈ s.answers
        ∧ new.leafCount = old.leafCount + 1
        ∧ ∀ d < treeDepth, d ≠ level → new.path[d]? = old.path[d]? := by
  obtain ⟨s, old, new, ran, oldGiven, newGiven, ⟨oldIndex, oldCount⟩, newIndex, newCount⟩ :=
    firstLeafTwice_answers
  have next : new.leafCount = old.leafCount + 1 := by rw [newCount, oldCount]; rfl
  obtain ⟨i, n, m, _, before, after, _, one, _⟩ :=
    served_paths_agree (sampleCodec 2) sampleHasher ran oldGiven newGiven
      (oldIndex.trans newIndex.symm) (by omega)
  obtain ⟨level, kept⟩ := one (by omega)
  exact ⟨s, old, new, level, ran, oldGiven, newGiven, next, kept⟩

end Attesta.Api.TreeService
