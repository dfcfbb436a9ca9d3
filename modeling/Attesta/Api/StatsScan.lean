import Attesta.Api.StatsCache

/-! How old the stats of an answer can be. The cache machine is opened up at `compute_stats`,
whose five queries see the database at five moments, with writes of the indexer in between.
-/

namespace Attesta.Api.Stats

open Attesta.Indexer

variable {ttl : UInt32}

-----------------------------------------------------------------------------------------
-- One request of the cache machine
-----------------------------------------------------------------------------------------

/-- Every way a step can move request `i` to another phase. -/
inductive Advance (ttl : UInt32) (s : State) (i : Nat) : Action → Phase → Prop
  | read (new : s.requests i = none) : Advance ttl s i (.read i) (readCache ttl s.now s.cache)
  | started {seen : Option CacheEntry} (missed : s.requests i = some (.missed seen))
    : Advance ttl s i (.start i) .computing
  | finished (outcome : Except ApiError ProtocolStats)
    (computing : s.requests i = some .computing)
    : Advance ttl s i (.finish i outcome) (afterCompute ttl s.now outcome)
  | stored {entry : CacheEntry} (storing : s.requests i = some (.storing entry))
    : Advance ttl s i (.store i) (.answered (.ok (withCacheHeader entry.stats ttl)))
  | dropped (computing : s.requests i = some .computing) : Advance ttl s i (.drop i) .dropped

theorem set_eq_or (s : State) (i j : Nat) (phase : Phase)
    : (s.set i phase).requests j = s.requests j
      ∨ j = i ∧ (s.set i phase).requests j = some phase := by
  by_cases same : j = i
  · exact Or.inr ⟨same, by simp [State.set, same]⟩
  · exact Or.inl (by simp [State.set, same])

/-- A step leaves a request as it is or advances it. -/
theorem step_advances {s t : State} {action : Action} (h : step ttl s action = some t) (j : Nat)
    : t.requests j = s.requests j
      ∨ ∃ phase, t.requests j = some phase ∧ Advance ttl s j action phase := by
  have moved {i : Nat} {phase : Phase} (same : t.requests = (s.set i phase).requests)
      (advances : Advance ttl s i action phase)
      : t.requests j = s.requests j
        ∨ ∃ phase, t.requests j = some phase ∧ Advance ttl s j action phase := by
    rw [same]
    rcases set_eq_or s i j phase with kept | here
    · exact Or.inl kept
    · exact Or.inr ⟨phase, here.2, here.1 ▸ advances⟩
  cases action with
  | read i =>
      simp only [step] at h
      split at h
      next new => exact moved (Option.some.inj h ▸ rfl) (.read new)
      next => cases h
  | start i =>
      simp only [step] at h
      split at h
      next missed => exact moved (Option.some.inj h ▸ rfl) (.started missed)
      next => cases h
  | finish i outcome =>
      simp only [step] at h
      split at h
      next computing => exact moved (Option.some.inj h ▸ rfl) (.finished outcome computing)
      next => cases h
  | store i =>
      simp only [step] at h
      split at h
      next storing => exact moved (Option.some.inj h ▸ rfl) (.stored storing)
      next => cases h
  | drop i =>
      simp only [step] at h
      split at h
      next computing => exact moved (Option.some.inj h ▸ rfl) (.dropped computing)
      next => cases h
  | tick now =>
      simp only [step] at h
      split at h
      next => exact Or.inl (Option.some.inj h ▸ rfl)
      next => cases h

/-- Only a store writes to the cache. -/
theorem step_cache {s t : State} {action : Action} (h : step ttl s action = some t)
    : t.cache = s.cache
      ∨ ∃ i entry, s.requests i = some (.storing entry) ∧ t.cache = some entry := by
  cases action with
  | store i =>
      simp only [step] at h
      split at h
      next entry storing => exact Or.inr ⟨i, entry, storing, Option.some.inj h ▸ rfl⟩
      next => cases h
  | read i | start i | finish i outcome | drop i | tick now =>
      simp only [step] at h
      split at h
      · exact Or.inl (Option.some.inj h ▸ rfl)
      · cases h

theorem step_now {s t : State} {action : Action} (h : step ttl s action = some t)
    : s.now ≤ t.now := by
  cases action with
  | tick now =>
      simp only [step] at h
      split at h
      next later => exact Option.some.inj h ▸ later
      next => cases h
  | read i | start i | finish i outcome | store i | drop i =>
      simp only [step] at h
      split at h
      · exact Option.some.inj h ▸ le_rfl
      · cases h

/-- What the cache answers with has not reached the TTL. -/
theorem readCache_answered {now : Nat} {cache : Option CacheEntry} {response : Response}
    (h : readCache ttl now cache = .answered (.ok response))
    : ∃ entry, cache = some entry ∧ response = withCacheHeader entry.stats ttl
        ∧ now < entry.computedAt + window ttl := by
  unfold readCache at h
  split at h
  · split at h
    next entry =>
      split at h
      next fresh =>
        cases h
        refine ⟨entry, rfl, rfl, ?_⟩
        have seconds : (now - entry.computedAt) / nanosPerSec < ttl.toNat :=
          of_decide_eq_true fresh
        have early := (Nat.div_lt_iff_lt_mul (by decide)).mp seconds
        unfold window
        omega
      next => cases h
    next => cases h
  · cases h

theorem readCache_cases (ttl : UInt32) (now : Nat) (cache : Option CacheEntry)
    : (∃ seen, readCache ttl now cache = .missed seen)
      ∨ ∃ response, readCache ttl now cache = .answered (.ok response) := by
  unfold readCache
  split
  · split
    · split
      · exact Or.inr ⟨_, rfl⟩
      · exact Or.inl ⟨_, rfl⟩
    · exact Or.inl ⟨_, rfl⟩
  · exact Or.inl ⟨_, rfl⟩

theorem afterCompute_ok (ttl : UInt32) (now : Nat) (stats : ProtocolStats)
    : afterCompute ttl now (.ok stats) = .storing ⟨now, stats⟩
      ∨ afterCompute ttl now (.ok stats) = .answered (.ok (withCacheHeader stats ttl)) := by
  simp only [afterCompute]
  split
  · exact Or.inl rfl
  · exact Or.inr rfl

theorem Advance.computing {s : State} {i : Nat} {action : Action} {phase : Phase}
    (h : Advance ttl s i action phase) (here : phase = .computing)
    : action = .start i := by
  cases h with
  | read =>
      rcases readCache_cases ttl s.now s.cache with ⟨_, missed⟩ | ⟨_, answered⟩
      · cases here.symm.trans missed
      · cases here.symm.trans answered
  | started => rfl
  | finished outcome =>
      cases outcome with
      | error => cases here
      | ok stats =>
          rcases afterCompute_ok ttl s.now stats with storing | answered
          · cases here.symm.trans storing
          · cases here.symm.trans answered
  | stored | dropped => cases here

theorem Advance.storing {s : State} {i : Nat} {action : Action} {phase : Phase}
    (h : Advance ttl s i action phase) {entry : CacheEntry} (here : phase = .storing entry)
    : action = .finish i (.ok entry.stats) ∧ entry.computedAt = s.now := by
  cases h with
  | read =>
      rcases readCache_cases ttl s.now s.cache with ⟨_, missed⟩ | ⟨_, answered⟩
      · cases here.symm.trans missed
      · cases here.symm.trans answered
  | finished outcome =>
      cases outcome with
      | error => cases here
      | ok stats =>
          rcases afterCompute_ok ttl s.now stats with storing | answered
          · cases here.symm.trans storing
            exact ⟨rfl, rfl⟩
          · cases here.symm.trans answered
  | started | stored | dropped => cases here

/-- A request is answered from the cache, or with what it has computed. -/
theorem Advance.answered {s : State} {i : Nat} {action : Action} {phase : Phase}
    (h : Advance ttl s i action phase) {response : Response}
    (here : phase = .answered (.ok response))
    : (action = .read i
        ∧ ∃ entry, s.cache = some entry ∧ response = withCacheHeader entry.stats ttl
          ∧ s.now < entry.computedAt + window ttl)
      ∨ (∃ stats, action = .finish i (.ok stats) ∧ response = withCacheHeader stats ttl)
      ∨ ∃ entry, s.requests i = some (.storing entry)
        ∧ response = withCacheHeader entry.stats ttl := by
  cases h with
  | read => exact Or.inl ⟨rfl, readCache_answered here⟩
  | finished outcome =>
      cases outcome with
      | error => cases here
      | ok stats =>
          rcases afterCompute_ok ttl s.now stats with storing | answered
          · cases here.symm.trans storing
          · cases here.symm.trans answered
            exact Or.inr (Or.inl ⟨stats, rfl, rfl⟩)
  | stored storing =>
      cases here
      exact Or.inr (Or.inr ⟨_, storing, rfl⟩)
  | started | dropped => cases here

end Attesta.Api.Stats

namespace Attesta.Api.StatsScan

open Attesta.Indexer
open Stats (CacheEntry Response ProtocolStats withCacheHeader window computeStats selectPools
  readCache afterCompute)

-----------------------------------------------------------------------------------------
-- compute_stats, query by query
-----------------------------------------------------------------------------------------

/-- The queries of `compute_stats`, in their order. -/
inductive Part
  | pools
  | totalCommitments
  | totalNullifiers
  | activeIssuers
  | credentialsDelivered
  deriving DecidableEq

def Part.next? : Part → Option Part
  | .pools => some .totalCommitments
  | .totalCommitments => some .totalNullifiers
  | .totalNullifiers => some .activeIssuers
  | .activeIssuers => some .credentialsDelivered
  | .credentialsDelivered => none

/-- The result of one query, beside those there are. -/
def Part.query (db : Db) (stats : ProtocolStats) : Part → ProtocolStats
  | .pools => { stats with pools := selectPools db }
  | .totalCommitments => { stats with totalCommitments := db.commitments.length }
  | .totalNullifiers => { stats with totalNullifiers := db.nullifiers.length }
  | .activeIssuers =>
      { stats with activeIssuers := db.issuers.countP (fun row => row.status == "active") }
  | .credentialsDelivered => { stats with credentialsDelivered := db.credentialDeliveries.length }

/-- Before the first query; none of it is read. -/
def noStats : ProtocolStats := ⟨[], 0, 0, 0, 0⟩

structure State where
  server : Stats.State
  db : Db
  /-- The next query of each `compute_stats` under way, and the results so far. -/
  scans : Nat → Part × ProtocolStats

inductive Action
  /-- A step of the cache machine, other than the end of `compute_stats`. -/
  | request (action : Stats.Action)
  | query (i : Nat) (ok : Bool)
  /-- Another session commits. -/
  | write (db : Db)

def State.init (db : Db) (now : Nat) : State where
  server := .init now
  db := db
  scans _ := (.pools, noStats)

variable (ttl : UInt32)

/-- One step; an action that is not enabled has no successor. -/
def step (s : State) : Action → Option State
  | .request (.finish _ _) => none
  | .request (.start i) =>
      (Stats.step ttl s.server (.start i)).map
        (fun server =>
          { s with server, scans := Function.update s.scans i (.pools, noStats) })
  | .request action => (Stats.step ttl s.server action).map (fun server => { s with server })
  | .query i ok =>
      match s.server.requests i with
      | some .computing =>
          let stats := (s.scans i).1.query s.db (s.scans i).2
          if ok then
            match (s.scans i).1.next? with
            | some next => some { s with scans := Function.update s.scans i (next, stats) }
            | none =>
                (Stats.step ttl s.server (.finish i (.ok stats))).map
                  (fun server => { s with server })
          else
            (Stats.step ttl s.server (.finish i (.error .internal))).map
              (fun server => { s with server })
      | _ => none
  | .write db => some { s with db }

variable {ttl}

/-- Each step is one of the cache machine, or none of its business. -/
theorem step_refines {s t : State} {action : Action} (h : step ttl s action = some t)
    : t.server = s.server ∨ ∃ action, Stats.step ttl s.server action = some t.server := by
  cases action with
  | request action =>
      cases action with
      | finish => cases h
      | read | start | store | drop | tick =>
          obtain ⟨server, went, rfl⟩ := Option.map_eq_some_iff.mp h
          exact Or.inr ⟨_, went⟩
  | query i ok =>
      simp only [step] at h
      split at h
      · split at h
        · split at h
          · cases h
            exact Or.inl rfl
          · obtain ⟨server, went, rfl⟩ := Option.map_eq_some_iff.mp h
            exact Or.inr ⟨_, went⟩
        · obtain ⟨server, went, rfl⟩ := Option.map_eq_some_iff.mp h
          exact Or.inr ⟨_, went⟩
      · cases h
  | write db =>
      cases h
      exact Or.inl rfl

theorem run_refines {db : Db} {now : Nat} {actions : List Action} {s : State}
    (ran : Machine.run (step ttl) (State.init db now) actions = some s)
    : Machine.Reachable (Stats.step ttl) (Stats.State.init now) s.server :=
  Machine.reachable_of_refines State.server (fun _ _ _ => step_refines) ran

/-- Every way a query can go. -/
theorem step_query {s t : State} {i : Nat} {ok : Bool} (h : step ttl s (.query i ok) = some t)
    : s.server.requests i = some .computing
      ∧ (ok = true
          ∧ (∃ next, (s.scans i).1.next? = some next
            ∧ t = { s with
                scans := Function.update s.scans i
                  (next, (s.scans i).1.query s.db (s.scans i).2) })
        ∨ ∃ outcome,
            Stats.step ttl s.server (.finish i outcome) = some t.server
            ∧ t.scans = s.scans
            ∧ ∀ stats, outcome = .ok stats
              → ok = true ∧ (s.scans i).1.next? = none
                ∧ stats = (s.scans i).1.query s.db (s.scans i).2) := by
  simp only [step] at h
  split at h
  next computing =>
    refine ⟨computing, ?_⟩
    split at h
    next good =>
      split at h
      next next more => exact Or.inl ⟨good, next, more, (Option.some.inj h).symm⟩
      next last =>
        obtain ⟨server, went, rfl⟩ := Option.map_eq_some_iff.mp h
        refine Or.inr ⟨_, went, rfl, fun stats same => ?_⟩
        exact ⟨good, last, (Except.ok.inj same).symm⟩
    next =>
      obtain ⟨server, went, rfl⟩ := Option.map_eq_some_iff.mp h
      exact Or.inr ⟨_, went, rfl, fun stats same => by cases same⟩
  next => cases h

/-- A request that starts to compute has no results yet, and the other ones keep theirs. -/
theorem step_request {s t : State} {action : Stats.Action}
    (h : step ttl s (.request action) = some t)
    : Stats.step ttl s.server action = some t.server
      ∧ (∀ i outcome, action ≠ .finish i outcome)
      ∧ (∀ i, action = .start i → t.scans i = (.pools, noStats))
      ∧ ∀ i, s.server.requests i = some .computing → t.scans i = s.scans i := by
  cases action with
  | finish => cases h
  | start i =>
      obtain ⟨server, went, rfl⟩ := Option.map_eq_some_iff.mp h
      refine ⟨went, by simp, ?_, ?_⟩
      · rintro j ⟨⟩
        simp
      · intro j computing
        have apart : j ≠ i := by
          rintro rfl
          simp [Stats.step, computing] at went
        simp [apart]
  | read | store | drop | tick =>
      obtain ⟨server, went, rfl⟩ := Option.map_eq_some_iff.mp h
      exact ⟨went, by simp, by simp, fun _ _ => rfl⟩

-----------------------------------------------------------------------------------------
-- Where the numbers come from
-----------------------------------------------------------------------------------------

/-- Two results agree on the column of one query. -/
def Agrees : Part → ProtocolStats → ProtocolStats → Prop
  | .pools, a, b => a.pools = b.pools
  | .totalCommitments, a, b => a.totalCommitments = b.totalCommitments
  | .totalNullifiers, a, b => a.totalNullifiers = b.totalNullifiers
  | .activeIssuers, a, b => a.activeIssuers = b.activeIssuers
  | .credentialsDelivered, a, b => a.credentialsDelivered = b.credentialsDelivered

/-- How many queries come before this one. -/
def Part.index : Part → Nat
  | .pools => 0
  | .totalCommitments => 1
  | .totalNullifiers => 2
  | .activeIssuers => 3
  | .credentialsDelivered => 4

theorem agrees_query_self (part : Part) (db : Db) (stats : ProtocolStats)
    : Agrees part (computeStats db) (part.query db stats) := by
  cases part <;> rfl

theorem agrees_query {part other : Part} (apart : part ≠ other) {seen stats : ProtocolStats}
    (h : Agrees part seen stats) (db : Db)
    : Agrees part seen (other.query db stats) := by
  cases part <;> cases other <;> first | exact h | exact absurd rfl apart

theorem Part.index_next {part next : Part} (h : part.next? = some next)
    : next.index = part.index + 1 := by
  cases part <;> cases h <;> rfl

theorem Part.index_le_of_last {part : Part} (h : part.next? = none) (other : Part)
    : other.index ≤ part.index := by
  cases part with
  | credentialsDelivered => cases other <;> decide
  | _ => cases h

theorem Part.eq_of_index {part other : Part} (h : part.index = other.index) : part = other := by
  cases part <;> cases other <;> first | rfl | cases h

section History

variable (ttl) (start : State) (past : List Action) (i : Nat)

/-- The `compute_stats` of request `i` has started at this time. -/
def Began (began : Nat) : Prop :=
  Machine.Once (step ttl)
    (fun s action => action = .request (.start i) ∧ s.server.now = began) start past

/-- Between two times a query of request `i` has found this column in the database. -/
def Saw (began ended : Nat) (stats : ProtocolStats) (part : Part) : Prop :=
  Machine.Once (step ttl)
    (fun s action =>
      action = .query i true ∧ began ≤ s.server.now ∧ s.server.now ≤ ended
        ∧ Agrees part (computeStats s.db) stats)
    start past

/-- The `compute_stats` of request `i` ran between two times and found these stats. -/
def Computed (began ended : Nat) (stats : ProtocolStats) : Prop :=
  Began ttl start past i began ∧ ∀ part, Saw ttl start past i began ended stats part

/-- The answer has stats that request `i` has computed itself, or that had been computed less than
the TTL before it read the cache.
-/
def Fresh (response : Response) : Prop :=
  ∃ j began ended stats,
    Computed ttl start past j began ended stats
    ∧ response = withCacheHeader stats ttl
    ∧ (j = i
      ∨ Machine.Once (step ttl)
          (fun s action =>
            action = .request (.read i) ∧ ended ≤ s.server.now
              ∧ s.server.now < ended + window ttl)
          start past)

/-- The results of request `i` so far were found since it started. -/
def Scanning (s : State) : Prop :=
  ∃ began, Began ttl start past i began ∧ began ≤ s.server.now
    ∧ ∀ part : Part, part.index < (s.scans i).1.index
      → Saw ttl start past i began s.server.now (s.scans i).2 part

/-- Everything the server holds has been computed. -/
structure Traced (s : State) : Prop where
  scanning : ∀ j, s.server.requests j = some .computing → Scanning ttl start past j s
  storing
    : ∀ j entry, s.server.requests j = some (.storing entry) → entry.computedAt ≤ s.server.now
        ∧ ∃ began, Computed ttl start past j began entry.computedAt entry.stats
  cached
    : ∀ entry, s.server.cache = some entry → entry.computedAt ≤ s.server.now
        ∧ ∃ j began, Computed ttl start past j began entry.computedAt entry.stats
  answered
    : ∀ j response, s.server.requests j = some (.answered (.ok response))
        → Fresh ttl start past j response

end History

variable {start : State} {past : List Action} {i began ended : Nat} {stats : ProtocolStats}

theorem Saw.mono {later : Nat} {part : Part} (h : Saw ttl start past i began ended stats part)
    (after : ended ≤ later)
    : Saw ttl start past i began later stats part :=
  Machine.Once.mono (fun _ _ here => ⟨here.1, here.2.1, here.2.2.1.trans after, here.2.2.2⟩) h

theorem Saw.query {part other : Part} (h : Saw ttl start past i began ended stats part)
    (apart : part ≠ other) (db : Db)
    : Saw ttl start past i began ended (other.query db stats) part :=
  Machine.Once.mono
    (fun _ _ here => ⟨here.1, here.2.1, here.2.2.1, agrees_query apart here.2.2.2 db⟩) h

theorem Scanning.concat {s t : State} (h : Scanning ttl start past i s) (action : Action)
    (later : s.server.now ≤ t.server.now) (scans : t.scans i = s.scans i)
    : Scanning ttl start (past ++ [action]) i t := by
  obtain ⟨began, first, after, saw⟩ := h
  refine ⟨began, first.concat action, after.trans later, ?_⟩
  rw [scans]
  exact fun part read => ((saw part read).mono later).concat action

theorem Computed.concat (h : Computed ttl start past i began ended stats) (action : Action)
    : Computed ttl start (past ++ [action]) i began ended stats :=
  ⟨h.1.concat action, fun part => (h.2 part).concat action⟩

theorem Fresh.concat {response : Response} (h : Fresh ttl start past i response)
    (action : Action)
    : Fresh ttl start (past ++ [action]) i response := by
  obtain ⟨j, began, ended, stats, computed, shape, source⟩ := h
  exact ⟨j, began, ended, stats, computed.concat action, shape,
    source.imp_right fun read => read.concat action⟩

/-- A step of the cache machine keeps the invariant, if a finished `compute_stats` is one. -/
theorem Traced.server {s t : State} {action : Action} {inner : Stats.Action}
    (h : Traced ttl start past s) (ran : Machine.run (step ttl) start past = some s)
    (went : Stats.step ttl s.server inner = some t.server)
    (reads : ∀ j, inner = .read j → action = .request (.read j))
    (starts
      : ∀ j, inner = .start j → action = .request (.start j) ∧ t.scans j = (.pools, noStats))
    (others : ∀ j, s.server.requests j = some .computing → t.scans j = s.scans j)
    (finishes
      : ∀ j stats, inner = .finish j (.ok stats)
          → ∃ began, Computed ttl start (past ++ [action]) j began s.server.now stats)
    : Traced ttl start (past ++ [action]) t := by
  have later := Stats.step_now went
  constructor
  · intro j computing
    rcases Stats.step_advances went j with same | advanced
    · have before := same ▸ computing
      exact (h.scanning j before).concat action later (others j before)
    · obtain ⟨phase, there, advances⟩ := advanced
      obtain rfl := advances.computing (Option.some.inj (there.symm.trans computing))
      obtain ⟨here, fresh⟩ := starts j rfl
      refine ⟨s.server.now, Machine.once_last ran ⟨here, rfl⟩, later, fun part read => ?_⟩
      rw [fresh] at read
      cases read
  · intro j entry storing
    rcases Stats.step_advances went j with same | advanced
    · obtain ⟨before, began, computed⟩ := h.storing j entry (same ▸ storing)
      exact ⟨before.trans later, began, computed.concat action⟩
    · obtain ⟨phase, there, advances⟩ := advanced
      obtain ⟨finished, stamp⟩ := advances.storing (Option.some.inj (there.symm.trans storing))
      exact ⟨stamp ▸ later, stamp ▸ finishes j entry.stats finished⟩
  · intro entry cached
    rcases Stats.step_cache went with same | stored
    · obtain ⟨before, j, began, computed⟩ := h.cached entry (same ▸ cached)
      exact ⟨before.trans later, j, began, computed.concat action⟩
    · obtain ⟨j, other, storing, there⟩ := stored
      cases cached.symm.trans there
      obtain ⟨before, began, computed⟩ := h.storing j entry storing
      exact ⟨before.trans later, j, began, computed.concat action⟩
  · intro j response answered
    rcases Stats.step_advances went j with same | advanced
    · exact (h.answered j response (same ▸ answered)).concat action
    · obtain ⟨phase, there, advances⟩ := advanced
      rcases advances.answered (Option.some.inj (there.symm.trans answered)) with hit | own | own
      · obtain ⟨read, entry, cached, shape, early⟩ := hit
        obtain ⟨before, scanner, began, computed⟩ := h.cached entry cached
        exact ⟨scanner, began, _, _, computed.concat action, shape,
          Or.inr (Machine.once_last ran ⟨reads j read, before, early⟩)⟩
      · obtain ⟨stats, finished, shape⟩ := own
        obtain ⟨began, computed⟩ := finishes j stats finished
        exact ⟨j, began, _, stats, computed, shape, Or.inl rfl⟩
      · obtain ⟨entry, storing, shape⟩ := own
        obtain ⟨_, began, computed⟩ := h.storing j entry storing
        exact ⟨j, began, _, _, computed.concat action, shape, Or.inl rfl⟩

/-- So does a step that is nothing to the cache machine, if the scans keep theirs. -/
theorem Traced.concat {s t : State} (h : Traced ttl start past s) (action : Action)
    (server : t.server = s.server)
    (scanning
      : ∀ j, s.server.requests j = some .computing
          → Scanning ttl start (past ++ [action]) j t)
    : Traced ttl start (past ++ [action]) t := by
  refine ⟨fun j computing => scanning j (server ▸ computing), ?_, ?_, ?_⟩
  · intro j entry storing
    obtain ⟨before, began, computed⟩ := h.storing j entry (server ▸ storing)
    exact ⟨server ▸ before, began, computed.concat action⟩
  · intro entry cached
    obtain ⟨before, j, began, computed⟩ := h.cached entry (server ▸ cached)
    exact ⟨server ▸ before, j, began, computed.concat action⟩
  · intro j response answered
    exact (h.answered j response (server ▸ answered)).concat action

/-- The next query of a request adds its own column to those that are read. -/
theorem Traced.query {s : State} (h : Traced ttl start past s)
    (ran : Machine.run (step ttl) start past = some s) {i : Nat}
    (computing : s.server.requests i = some .computing)
    : ∃ began, Began ttl start past i began ∧ began ≤ s.server.now
        ∧ ∀ part : Part, part.index ≤ (s.scans i).1.index
          → Saw ttl start (past ++ [.query i true]) i began s.server.now
              ((s.scans i).1.query s.db (s.scans i).2) part := by
  obtain ⟨began, first, after, saw⟩ := h.scanning i computing
  refine ⟨began, first, after, fun part within => ?_⟩
  rcases Nat.lt_or_eq_of_le within with earlier | now
  · have apart : part ≠ (s.scans i).1 := by
      rintro rfl
      exact Nat.lt_irrefl _ earlier
    exact ((saw part earlier).query apart s.db).concat _
  · rw [Part.eq_of_index now]
    exact Machine.once_last ran ⟨rfl, after, le_rfl, agrees_query_self _ s.db _⟩

theorem step_traced {s t : State} {action : Action} (h : Traced ttl start past s)
    (ran : Machine.run (step ttl) start past = some s) (stepped : step ttl s action = some t)
    : Traced ttl start (past ++ [action]) t := by
  cases action with
  | write db =>
      cases stepped
      exact h.concat _ rfl fun j computing => (h.scanning j computing).concat _ le_rfl rfl
  | request inner =>
      obtain ⟨went, unfinished, fresh, kept⟩ := step_request stepped
      refine h.server ran went (fun _ => congrArg _) ?_ kept ?_
      · exact fun j same => ⟨congrArg _ same, fresh j same⟩
      · exact fun j stats same => absurd same (unfinished j _)
  | query i ok =>
      obtain ⟨computing, onwards⟩ := step_query stepped
      rcases onwards with ⟨rfl, next, more, rfl⟩ | ⟨outcome, went, scans, ending⟩
      · refine h.concat _ rfl fun j scanning => ?_
        by_cases same : j = i
        · subst same
          obtain ⟨began, first, after, saw⟩ := h.query ran computing
          refine ⟨began, first.concat _, after, fun part before => ?_⟩
          simp only [Function.update_self, Part.index_next more] at before ⊢
          exact saw part (Nat.le_of_lt_succ before)
        · exact (h.scanning j scanning).concat _ le_rfl (Function.update_of_ne same _ _)
      · refine h.server ran went (fun j same => by cases same) (fun j same => by cases same)
          (fun _ _ => congrFun scans _) ?_
        intro j stats same
        cases same
        obtain ⟨rfl, last, rfl⟩ := ending _ rfl
        obtain ⟨began, first, after, saw⟩ := h.query ran computing
        exact ⟨began, first.concat _, fun part => saw part (Part.index_le_of_last last part)⟩

theorem run_traced {db : Db} {now : Nat} {actions : List Action} {s : State}
    (ran : Machine.run (step ttl) (State.init db now) actions = some s)
    : Traced ttl (State.init db now) actions s := by
  refine Machine.invariant_of_history
    (fun past s action t reached traced => step_traced traced reached) ?_ ran
  constructor
  · intro j computing
    cases computing
  · intro j entry storing
    cases storing
  · intro entry cached
    cases cached
  · intro j response answered
    cases answered

/-- Whatever is written in between, each number of an answer was in the database while one call
of `compute_stats` ran: the call of the same request, or one that had ended less than the TTL
before the request read the cache. With its queries the server still is the cache machine.
-/
theorem stats_fresh (ttl : UInt32) {db : Db} {now : Nat} {actions : List Action} {s : State}
    (ran : Machine.run (step ttl) (State.init db now) actions = some s)
    : Machine.Reachable (Stats.step ttl) (Stats.State.init now) s.server
      ∧ ∀ i response, s.server.requests i = some (.answered (.ok response))
        → Fresh ttl (State.init db now) actions i response :=
  ⟨run_refines ran, (run_traced ran).answered⟩

/-- One request computes the stats, with a deposit between its queries, and another one is
answered from the cache nine seconds later.
-/
def sampleScan (db : Db) : List Action :=
  [.request (.read 0), .request (.start 0), .query 0 true, .query 0 true, .write db,
    .query 0 true, .query 0 true, .query 0 true, .request (.store 0),
    .request (.tick 9000000000), .request (.read 1)]

/-- The nullifiers counted in the answer of a request. -/
def nullifiersOf : Option Stats.Phase → Option Int
  | some (.answered (.ok response)) => some response.stats.totalNullifiers
  | _ => none

theorem nullifiersOf_eq_some {phase : Option Stats.Phase} {n : Int}
    (counted : nullifiersOf phase = some n)
    : ∃ response, phase = some (.answered (.ok response))
        ∧ response.stats.totalNullifiers = n := by
  unfold nullifiersOf at counted
  split at counted
  next response => exact ⟨response, rfl, Option.some.inj counted⟩
  next => cases counted

theorem stats_fresh_from_cache
    : ∃ s response,
        Machine.run (step 10) (State.init Db.empty 0)
            (sampleScan { Db.empty with nullifiers := [⟨"CPOOL", [1], 7, "abc"⟩] })
          = some s
        ∧ s.server.requests 1 = some (.answered (.ok response))
        ∧ response.stats.totalNullifiers = 1
        ∧ Fresh 10 (State.init Db.empty 0)
            (sampleScan { Db.empty with nullifiers := [⟨"CPOOL", [1], 7, "abc"⟩] }) 1
            response := by
  have observed
      : (Machine.run (step 10) (State.init Db.empty 0)
          (sampleScan { Db.empty with nullifiers := [⟨"CPOOL", [1], 7, "abc"⟩] })).map
            (fun s => nullifiersOf (s.server.requests 1))
        = some (some 1) := by
    decide +kernel
  obtain ⟨s, ran, counted⟩ := Option.map_eq_some_iff.mp observed
  obtain ⟨response, answered, one⟩ := nullifiersOf_eq_some counted
  exact ⟨s, response, ran, answered, one, (stats_fresh 10 ran).2 1 response answered⟩

end Attesta.Api.StatsScan
