import Attesta.Api.Error
import Attesta.Api.Stats
import Attesta.Foundation.Machine

/-! The stats endpoint with its cache, for any number of requests at a time. The lock of the
cache is held while it is read and while it is written, but not from a miss until the result is
stored, so every request that comes in between computes the stats as well.
-/

namespace Attesta.Api.Stats

open Attesta.Indexer

/-- An entry of `stats_cache`, with its `Instant` in nanoseconds. -/
structure CacheEntry where
  computedAt : Nat
  stats : ProtocolStats
  deriving DecidableEq

structure Response where
  cacheControl : Option String
  stats : ProtocolStats
  deriving DecidableEq

def withCacheHeader (stats : ProtocolStats) (ttl : UInt32) : Response where
  cacheControl := if ttl = 0 then none else some ("public, max-age=" ++ toString ttl.toNat)
  stats := stats

def nanosPerSec : Nat := 1000000000

/-- The TTL in nanoseconds. -/
def window (ttl : UInt32) : Nat := ttl.toNat * nanosPerSec

/-- `computed_at.elapsed().as_secs() < ttl`. -/
def CacheEntry.isFresh (entry : CacheEntry) (ttl : UInt32) (now : Nat) : Bool :=
  decide ((now - entry.computedAt) / nanosPerSec < ttl.toNat)

-----------------------------------------------------------------------------------------
-- The requests as a machine
-----------------------------------------------------------------------------------------

/-- Where a call of `get_stats` is. -/
inductive Phase
  /-- The cache had no fresh entry, but maybe an old one. -/
  | missed (seen : Option CacheEntry)
  | computing
  /-- The stats are computed and stamped, and the lock for the write is still to be taken. -/
  | storing (entry : CacheEntry)
  | answered (answer : Except ApiError Response)
  /-- The client went away during `compute_stats`. -/
  | dropped

structure State where
  now : Nat
  cache : Option CacheEntry
  requests : Nat → Option Phase
  /-- When each `compute_stats` started; nothing reads it. -/
  starts : List Nat

inductive Action
  /-- A new request reads the cache. -/
  | read (i : Nat)
  | start (i : Nat)
  | finish (i : Nat) (outcome : Except ApiError ProtocolStats)
  | store (i : Nat)
  | drop (i : Nat)
  | tick (now : Nat)

def State.init (now : Nat) : State where
  now
  cache := none
  requests _ := none
  starts := []

def State.set (s : State) (i : Nat) (phase : Phase) : State :=
  { s with requests := Function.update s.requests i (some phase) }

/-- The head of `get_stats`. -/
def readCache (ttl : UInt32) (now : Nat) (cache : Option CacheEntry) : Phase :=
  if 0 < ttl then
    match cache with
    | some entry =>
        if entry.isFresh ttl now then .answered (.ok (withCacheHeader entry.stats ttl))
        else .missed (some entry)
    | none => .missed none
  else .missed none

/-- What `get_stats` does with the result of `compute_stats`. -/
def afterCompute (ttl : UInt32) (now : Nat) : Except ApiError ProtocolStats → Phase
  | .error e => .answered (.error e)
  | .ok stats =>
      if 0 < ttl then .storing ⟨now, stats⟩ else .answered (.ok (withCacheHeader stats ttl))

variable (ttl : UInt32)

/-- One step; an action that is not enabled has no successor. -/
def step (s : State) : Action → Option State
  | .read i =>
      match s.requests i with
      | none => some (s.set i (readCache ttl s.now s.cache))
      | some _ => none
  | .start i =>
      match s.requests i with
      | some (.missed _) => some { s.set i .computing with starts := s.starts ++ [s.now] }
      | _ => none
  | .finish i outcome =>
      match s.requests i with
      | some .computing => some (s.set i (afterCompute ttl s.now outcome))
      | _ => none
  | .store i =>
      match s.requests i with
      | some (.storing entry) =>
          some { s.set i (.answered (.ok (withCacheHeader entry.stats ttl))) with
            cache := some entry }
      | _ => none
  | .drop i =>
      match s.requests i with
      | some .computing => some (s.set i .dropped)
      | _ => none
  | .tick now => if s.now ≤ now then some { s with now } else none

/-- Any two executions of `compute_stats` start at least the TTL apart. -/
def Spaced (s : State) : Prop :=
  s.starts.Pairwise (fun earlier later => earlier + window ttl ≤ later)

/-- Every `compute_stats` that started after the stamp of the entry the request has read, or at
all if there was none, started at least the TTL ago.
-/
def UnseenAreOld (s : State) : Action → Prop
  | .start i =>
      ∀ seen, s.requests i = some (.missed seen)
        → ∀ start ∈ s.starts, (∀ entry ∈ seen, entry.computedAt < start)
          → start + window ttl ≤ s.now
  | _ => True

instance UnseenAreOld.decidable (s : State)
    : (action : Action) → Decidable (UnseenAreOld ttl s action)
  | .start i =>
      match h : s.requests i with
      | some (.missed seen) =>
          decidable_of_iff (∀ start ∈ s.starts, (∀ entry ∈ seen, entry.computedAt < start)
            → start + window ttl ≤ s.now) (by simp [UnseenAreOld, h])
      | none | some .computing | some (.storing _) | some (.answered _) | some .dropped =>
          isTrue (by simp [UnseenAreOld, h])
  | .read _ | .finish _ _ | .store _ | .drop _ | .tick _ => isTrue trivial

-----------------------------------------------------------------------------------------
-- Every way a step can go
-----------------------------------------------------------------------------------------

/-- The steps of the machine as a relation, with what a step knows about its start. -/
inductive Effect (s : State) : Action → State → Prop
  | read {i : Nat} (new : s.requests i = none)
    : Effect s (.read i) (s.set i (readCache ttl s.now s.cache))
  | started {i : Nat} {seen : Option CacheEntry} (missed : s.requests i = some (.missed seen))
    : Effect s (.start i) { s.set i .computing with starts := s.starts ++ [s.now] }
  | went {action : Action} {i : Nat} {phase : Phase} {cache : Option CacheEntry}
    (other : ∀ seen, phase ≠ .missed seen) (noStart : ∀ j, action ≠ .start j)
    : Effect s action { s.set i phase with cache }
  | ticked {now : Nat} (later : s.now ≤ now) : Effect s (.tick now) { s with now }

variable {ttl}

theorem afterCompute_ne_missed (now : Nat) (outcome : Except ApiError ProtocolStats)
    (seen : Option CacheEntry)
    : afterCompute ttl now outcome ≠ .missed seen := by
  cases outcome with
  | error e => simp [afterCompute]
  | ok stats =>
      simp only [afterCompute]
      split <;> simp

theorem step_effect {s t : State} {action : Action} (h : step ttl s action = some t)
    : Effect ttl s action t := by
  cases action with
  | read i =>
      simp only [step] at h
      split at h
      next new => exact Option.some.inj h ▸ .read new
      next => cases h
  | start i =>
      simp only [step] at h
      split at h
      next seen missed => exact Option.some.inj h ▸ .started missed
      next => cases h
  | finish i outcome =>
      simp only [step] at h
      split at h
      next =>
        exact Option.some.inj h ▸ .went (afterCompute_ne_missed s.now outcome) (by simp)
      next => cases h
  | store i | drop i =>
      simp only [step] at h
      split at h
      next => exact Option.some.inj h ▸ .went (by simp) (by simp)
      next => cases h
  | tick now =>
      simp only [step] at h
      split at h
      next later => exact Option.some.inj h ▸ .ticked later
      next => cases h

/-- An entry that a request has read and not used is as old as the TTL. -/
def Stale (ttl : UInt32) (s : State) : Prop :=
  ∀ i entry, s.requests i = some (.missed (some entry))
    → entry.computedAt + window ttl ≤ s.now

/-- Whole seconds do not reach the TTL before it is over. -/
theorem readCache_stale {now : Nat} {cache : Option CacheEntry} {entry : CacheEntry}
    (h : readCache ttl now cache = .missed (some entry))
    : entry.computedAt + window ttl ≤ now := by
  unfold readCache at h
  split at h
  next on =>
    split at h
    next other =>
      split at h
      next => cases h
      next old =>
        obtain rfl := Option.some.inj (Phase.missed.inj h)
        have seconds : ttl.toNat ≤ (now - other.computedAt) / nanosPerSec := by
          simpa [CacheEntry.isFresh] using old
        have positive : 0 < ttl.toNat := on
        simp only [window, nanosPerSec] at seconds ⊢
        omega
    next => cases h
  next => cases h

theorem set_missed {s : State} {i j : Nat} {phase : Phase} {seen : Option CacheEntry}
    (h : (s.set i phase).requests j = some (.missed seen))
    : phase = .missed seen ∨ s.requests j = some (.missed seen) := by
  by_cases same : j = i
  · subst same
    simp only [State.set, Function.update_self, Option.some.injEq] at h
    exact Or.inl h
  · simp only [State.set, Function.update_of_ne same] at h
    exact Or.inr h

theorem step_stale {s t : State} {action : Action} (h : Stale ttl s)
    (stepped : step ttl s action = some t)
    : Stale ttl t := by
  intro j entry missed
  cases step_effect stepped with
  | read =>
      rcases set_missed missed with now | before
      · exact readCache_stale now
      · exact h j entry before
  | started =>
      rcases set_missed missed with now | before
      · cases now
      · exact h j entry before
  | went other =>
      rcases set_missed missed with now | before
      · exact absurd now (other _)
      · exact h j entry before
  | ticked later => exact Nat.le_trans (h j entry missed) later

/-- What a request has seen in the cache started at least the TTL before it was read. -/
theorem spaced_start_iff {s : State} {i : Nat} {seen : Option CacheEntry} (stale : Stale ttl s)
    (missed : s.requests i = some (.missed seen)) (spaced : Spaced ttl s)
    : (s.starts ++ [s.now]).Pairwise (fun earlier later => earlier + window ttl ≤ later)
      ↔ UnseenAreOld ttl s (.start i) := by
  rw [List.pairwise_append]
  constructor
  · rintro ⟨_, _, old⟩ _ _ start started _
    exact old start started s.now (List.mem_singleton_self _)
  · intro unseen
    refine ⟨spaced, List.pairwise_singleton _ _, fun start started now here => ?_⟩
    obtain rfl := List.mem_singleton.mp here
    by_cases covered : ∀ entry ∈ seen, entry.computedAt < start
    · exact unseen seen missed start started covered
    · obtain ⟨entry, found, before⟩ : ∃ entry ∈ seen, start ≤ entry.computedAt := by
        simpa using covered
      have read : s.requests i = some (.missed (some entry)) := found ▸ missed
      have old := stale i entry read
      omega

theorem Spaced.step_iff {s t : State} {action : Action} (stale : Stale ttl s)
    (spaced : Spaced ttl s) (stepped : step ttl s action = some t)
    : Spaced ttl t ↔ UnseenAreOld ttl s action := by
  cases step_effect stepped with
  | started missed => exact spaced_start_iff stale missed spaced
  | read | ticked => exact iff_of_true spaced trivial
  | went _ noStart =>
      refine iff_of_true spaced ?_
      cases action with
      | start i => exact absurd rfl (noStart i)
      | _ => trivial

/-- In every run of any number of requests the executions of `compute_stats` start at least the
TTL apart exactly if a request starts one only when all those have that distance whose result it
could not see in the cache.
-/
theorem scans_spaced_iff (ttl : UInt32) {now : Nat} {actions : List Action} {s : State}
    (ran : Machine.run (step ttl) (State.init now) actions = some s)
    : Machine.Always (step ttl) (Spaced ttl) (State.init now) actions
      ↔ Machine.Along (step ttl) (UnseenAreOld ttl) (State.init now) actions := by
  refine Machine.always_iff_along_of_step (Spaced ttl) (UnseenAreOld ttl)
    (fun _ _ _ stale stepped => step_stale stale stepped)
    (fun _ _ _ stale spaced stepped => Spaced.step_iff stale spaced stepped) ?_ ?_ ran
  · intro i entry missed
    cases missed
  · exact List.Pairwise.nil

/-- Two requests, the second of them when the entry of the first is as old as the TTL. -/
def spacedRequests : List Action :=
  [.read 0, .start 0, .finish 0 (.ok (computeStats Db.empty)), .store 0,
    .tick 10000000000, .read 1, .start 1]

theorem scans_spaced_iff_sequential
    : ∃ s, Machine.run (step 10) (State.init 0) spacedRequests = some s
      ∧ s.starts = [0, 10000000000]
      ∧ Machine.Always (step 10) (Spaced 10) (State.init 0) spacedRequests := by
  have observed
      : (Machine.run (step 10) (State.init 0) spacedRequests).map State.starts
        = some [0, 10000000000] := by
    decide +kernel
  obtain ⟨s, ran, starts⟩ := Option.map_eq_some_iff.mp observed
  exact ⟨s, ran, starts, (scans_spaced_iff 10 ran).mpr (by decide +kernel)⟩

/-- Two requests that come before the first result is stored both scan the tables. -/
theorem concurrent_misses_both_scan
    : ∃ s, Machine.run (step 10) (State.init 0) [.read 0, .read 1, .start 0, .start 1] = some s
      ∧ s.starts = [0, 0]
      ∧ ¬ Spaced 10 s := by
  have observed
      : (Machine.run (step 10) (State.init 0) [.read 0, .read 1, .start 0, .start 1]).map
          State.starts
        = some [0, 0] := by
    decide +kernel
  obtain ⟨s, ran, starts⟩ := Option.map_eq_some_iff.mp observed
  refine ⟨s, ran, starts, ?_⟩
  rw [Spaced, starts]
  decide

end Attesta.Api.Stats
