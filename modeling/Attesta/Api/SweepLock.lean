import Mathlib.Logic.Function.Basic
import Attesta.Api.Retention

/-! The retention sweepers of all replicas on one database. The advisory lock keeps their cycles
apart while they last; nothing keeps a replica from asking for it right after another has
released it.
-/

namespace Attesta.Api.SweepLock

open Retention (Config Phase)

/-- `SWEEP_INTERVAL`, in microseconds. -/
def sweepInterval : Int := 3600000000

/-- `run` in one process. A process that is started again is another replica. -/
structure Replica where
  phase : Phase
  /-- The connection of the cycle. -/
  session : Nat
  /-- A `DELETE` was sent, and `sweep` waits for the reply. -/
  sent : Bool
  wakeAt : Int
  /-- How many cycles have begun; nothing reads it. -/
  cycle : Nat

structure Cycle where
  replica : Nat
  number : Nat
  deriving DecidableEq

/-- The session that has the lock, and how many more times it has taken it. -/
structure Lock where
  session : Nat
  again : Nat

/-- A `DELETE` that the database executes. -/
structure Running where
  cycle : Cycle
  since : Int

/-- A `DELETE` that is over. -/
structure Deletion where
  cycle : Cycle
  since : Int
  till : Int
  /-- The connection of the cycle was still there. -/
  awaited : Bool

structure State where
  now : Int
  /-- None before the process is started. -/
  replicas : Nat → Option Replica
  /-- Which replica has the connection, as long as client and server can talk. -/
  owner : Nat → Option Nat
  lock : Option Lock
  /-- What each session executes. -/
  running : Nat → Option Running
  /-- Nothing reads it. -/
  deletions : List Deletion

inductive LockReply
  | granted
  | held
  /-- The lock may have been taken, if the connection broke under the reply. -/
  | failed (taken : Bool)

inductive Move
  | wake
  /-- The connection is new or idle in the pool. -/
  | acquire (session : Option Nat)
  | lock (reply : LockReply)
  /-- A `DELETE` begins. -/
  | send
  /-- The reply of a `DELETE` comes, of a full batch or not. -/
  | reply (full : Bool)
  | deleteFails
  | unlock (released : Bool)

inductive Action
  | launch (replica : Nat)
  /-- The process ends, and with it its connections. -/
  | stop (replica : Nat)
  | move (replica : Nat) (move : Move)
  /-- A `DELETE` is over, whether or not somebody waits for its reply. -/
  | finish (session : Nat)
  | disconnect (session : Nat)
  /-- The database notices that the client is gone. -/
  | endSession (session : Nat)
  | tick (now : Int)

def State.init (now : Int) : State where
  now
  replicas _ := none
  owner _ := none
  lock := none
  running _ := none
  deletions := []

def State.holder (s : State) : Option Nat := s.lock.map Lock.session

/-- `pg_try_advisory_lock`; a session can take its own lock again. -/
def tryLock (lock : Option Lock) (session : Nat) : Option Lock :=
  match lock with
  | none => some ⟨session, 0⟩
  | some held => if held.session = session then some ⟨session, held.again + 1⟩ else none

/-- `pg_advisory_unlock`; it takes as many calls as the lock was taken. -/
def unlock (lock : Option Lock) (session : Nat) : Option Lock :=
  match lock with
  | none => none
  | some held =>
      if held.session = session then
        match held.again with
        | 0 => none
        | again + 1 => some ⟨session, again⟩
      else some held

/-- A number that a new connection can get. -/
def State.Unused (s : State) (session : Nat) : Prop :=
  s.owner session = none ∧ s.holder ≠ some session ∧ (s.running session).isNone

instance (s : State) (session : Nat) : Decidable (s.Unused session) :=
  inferInstanceAs (Decidable (_ ∧ _ ∧ _))

def State.put (s : State) (replica : Nat) (own : Replica) : State :=
  { s with replicas := Function.update s.replicas replica (some own) }

/-- The end of a cycle. -/
def Replica.sleep (own : Replica) (now : Int) : Replica :=
  { own with phase := .sleeping, wakeAt := now + sweepInterval }

/-- The call of `sweep` goes on or returns. -/
def Replica.afterDelete (config : Config) (own : Replica) (kind : Retention.Kind) (full : Bool)
    : Replica :=
  { own with
    phase := if full then .sweeping kind else Retention.afterSweep config kind
    sent := false }

variable (configs : Nat → Config)

/-- One step of a replica that runs. -/
def moveStep (s : State) (replica : Nat) (own : Replica) : Move → Option State
  | .wake =>
      match own.phase with
      | .sleeping =>
          if own.wakeAt ≤ s.now then
            some (s.put replica { own with phase := .acquiring, cycle := own.cycle + 1 })
          else none
      | _ => none
  | .acquire session =>
      match own.phase with
      | .acquiring =>
          match session with
          | none => some (s.put replica (own.sleep s.now))
          | some session =>
              if s.owner session = some replica ∨ s.Unused session then
                some { s.put replica { own with phase := .locking, session, sent := false } with
                  owner := Function.update s.owner session (some replica) }
              else none
      | _ => none
  | .lock reply =>
      match own.phase with
      | .locking =>
          match reply, tryLock s.lock own.session with
          | .failed false, _ => some (s.put replica (own.sleep s.now))
          | .held, none =>
              if s.owner own.session = some replica then some (s.put replica (own.sleep s.now))
              else none
          | .granted, some lock =>
              if s.owner own.session = some replica then
                some { s.put replica
                    { own with phase := Retention.afterLock (configs replica) } with
                  lock := some lock }
              else none
          | .failed true, some lock =>
              if s.owner own.session = some replica then
                some { s.put replica (own.sleep s.now) with
                  lock := some lock
                  owner := Function.update s.owner own.session none }
              else none
          | _, _ => none
      | _ => none
  | .send =>
      match own.phase with
      | .sweeping _ =>
          if own.sent = false ∧ s.owner own.session = some replica
              ∧ (s.running own.session).isNone then
            some { s.put replica { own with sent := true } with
              running :=
                Function.update s.running own.session (some ⟨⟨replica, own.cycle⟩, s.now⟩) }
          else none
      | _ => none
  | .reply full =>
      match own.phase with
      | .sweeping kind =>
          if own.sent = true ∧ s.owner own.session = some replica
              ∧ (s.running own.session).isNone then
            some (s.put replica (own.afterDelete (configs replica) kind full))
          else none
      | _ => none
  | .deleteFails =>
      match own.phase with
      | .sweeping kind =>
          -- Either the connection is lost or the database has reported an error.
          if s.owner own.session = some replica → (s.running own.session).isNone then
            some (s.put replica (own.afterDelete (configs replica) kind false))
          else none
      | _ => none
  | .unlock released =>
      match own.phase with
      | .unlocking =>
          if released then
            if s.owner own.session = some replica then
              some { s.put replica (own.sleep s.now) with lock := unlock s.lock own.session }
            else none
          else some (s.put replica (own.sleep s.now))
      | _ => none

/-- One step; an action that is not enabled has no successor. -/
def step (s : State) : Action → Option State
  | .launch replica =>
      match s.replicas replica with
      | none =>
          some (s.put replica
            { phase := Retention.begin (configs replica)
              session := 0
              sent := false
              wakeAt := s.now
              cycle := 1 })
      | some _ => none
  | .stop replica =>
      (s.replicas replica).map (fun own =>
        { s.put replica { own with phase := .disabled } with
          owner := fun session =>
            if s.owner session = some replica then none else s.owner session })
  | .move replica move => (s.replicas replica).bind (moveStep configs s replica · move)
  | .finish session =>
      (s.running session).map (fun delete =>
        { s with
          running := Function.update s.running session none
          deletions := s.deletions ++
            [{ cycle := delete.cycle
               since := delete.since
               till := s.now
               awaited := s.owner session == some delete.cycle.replica }] })
  | .disconnect session => some { s with owner := Function.update s.owner session none }
  | .endSession session =>
      if s.owner session = none ∧ (s.running session).isNone then
        some { s with lock := if s.holder = some session then none else s.lock }
      else none
  | .tick now => if s.now ≤ now then some { s with now } else none

-----------------------------------------------------------------------------------------
-- One sweep at a time and one per interval
-----------------------------------------------------------------------------------------

/-- In these phases a cycle has the lock. -/
def HasLock : Phase → Bool
  | .sweeping _ | .unlocking => true
  | .disabled | .sleeping | .acquiring | .locking => false

/-- The replica is in a cycle that has the lock and can still use its connection. -/
def State.InCycle (s : State) (replica : Nat) (own : Replica) : Prop :=
  s.replicas replica = some own ∧ HasLock own.phase = true ∧ s.owner own.session = some replica

/-- At most one `DELETE` runs, and none of another cycle as long as a cycle may send more. -/
structure Apart (s : State) : Prop where
  one
    : ∀ session other, s.running session ≠ none → s.running other ≠ none → session = other
  cycles
    : ∀ replica own session delete, s.InCycle replica own → s.running session = some delete
      → delete.cycle = ⟨replica, own.cycle⟩

/-- When a cycle has executed a `DELETE`; one that runs has lasted until now. -/
def State.Executed (s : State) (cycle : Cycle) (since till : Int) : Prop :=
  (∃ awaited, ⟨cycle, since, till, awaited⟩ ∈ s.deletions)
  ∨ till = s.now ∧ ∃ session, s.running session = some ⟨cycle, since⟩

/-- The cycle executes a `DELETE` in the window of the interval's length from the moment on. -/
def State.SweepsFrom (s : State) (start : Int) (cycle : Cycle) : Prop :=
  ∃ since till, s.Executed cycle since till ∧ since < start + sweepInterval ∧ start ≤ till

def OnePerWindow (s : State) : Prop :=
  ∀ start cycle other, s.SweepsFrom start cycle → s.SweepsFrom start other → cycle = other

/-- Whoever gets the lock gets it an interval after every `DELETE` of another replica, and of an
earlier cycle of its own that has lost its connection.
-/
def Calm (s : State) : Action → Prop
  | .move replica (.lock .granted) =>
      ∀ deletion ∈ s.deletions, deletion.cycle.replica ≠ replica ∨ deletion.awaited = false
        → deletion.till + sweepInterval ≤ s.now
  | _ => True

instance (s : State) : (action : Action) → Decidable (Calm s action)
  | .move replica (.lock .granted) =>
      inferInstanceAs (Decidable (∀ deletion ∈ s.deletions,
        deletion.cycle.replica ≠ replica ∨ deletion.awaited = false
          → deletion.till + sweepInterval ≤ s.now))
  | .move _ (.lock .held) | .move _ (.lock (.failed _)) | .move _ .wake | .move _ (.acquire _)
    | .move _ .send | .move _ (.reply _) | .move _ .deleteFails | .move _ (.unlock _)
    | .launch _ | .stop _ | .finish _ | .disconnect _ | .endSession _ | .tick _ => isTrue trivial

-----------------------------------------------------------------------------------------
-- Every way a step can go
-----------------------------------------------------------------------------------------

/-- With these `run_cycle` returns without having had the lock or without giving it back. -/
def Move.Quits : Move → Prop
  | .acquire none | .lock .held | .lock (.failed false) | .unlock false => True
  | _ => False

/-- With these a `DELETE` ends for `sweep`. -/
def Move.Ends : Move → Prop
  | .reply _ | .deleteFails => True
  | _ => False

/-- The steps of the machine as a relation, with what a step knows about its start. -/
inductive Effect (s : State) : Action → State → Prop
  | woke {replica : Nat} {own : Replica} (here : s.replicas replica = some own)
    (sleeping : own.phase = .sleeping) (rested : own.wakeAt ≤ s.now)
    : Effect s (.move replica .wake)
        (s.put replica { own with phase := .acquiring, cycle := own.cycle + 1 })
  | wentToSleep {replica : Nat} {own : Replica} {move : Move}
    (here : s.replicas replica = some own) (quits : move.Quits)
    (leaving : own.phase = .acquiring ∨ own.phase = .locking ∨ own.phase = .unlocking)
    : Effect s (.move replica move) (s.put replica (own.sleep s.now))
  | acquired {replica session : Nat} {own : Replica} (here : s.replicas replica = some own)
    (acquiring : own.phase = .acquiring)
    (free : s.owner session = some replica ∨ s.Unused session)
    : Effect s (.move replica (.acquire (some session)))
        { s.put replica { own with phase := .locking, session, sent := false } with
          owner := Function.update s.owner session (some replica) }
  | granted {replica : Nat} {own : Replica} {lock : Lock} (here : s.replicas replica = some own)
    (locking : own.phase = .locking) (connected : s.owner own.session = some replica)
    (taken : tryLock s.lock own.session = some lock)
    : Effect s (.move replica (.lock .granted))
        { s.put replica { own with phase := Retention.afterLock (configs replica) } with
          lock := some lock }
  | grantLost {replica : Nat} {own : Replica} {lock : Lock}
    (here : s.replicas replica = some own) (locking : own.phase = .locking)
    (connected : s.owner own.session = some replica)
    (taken : tryLock s.lock own.session = some lock)
    : Effect s (.move replica (.lock (.failed true)))
        { s.put replica (own.sleep s.now) with
          lock := some lock
          owner := Function.update s.owner own.session none }
  | sent {replica : Nat} {own : Replica} {kind : Retention.Kind}
    (here : s.replicas replica = some own) (sweeping : own.phase = .sweeping kind)
    (unsent : own.sent = false) (connected : s.owner own.session = some replica)
    (idle : s.running own.session = none)
    : Effect s (.move replica .send)
        { s.put replica { own with sent := true } with
          running :=
            Function.update s.running own.session (some ⟨⟨replica, own.cycle⟩, s.now⟩) }
  | replied {replica : Nat} {own : Replica} {kind : Retention.Kind} {full : Bool} {move : Move}
    (here : s.replicas replica = some own) (ends : move.Ends)
    (sweeping : own.phase = .sweeping kind)
    (idle : s.owner own.session = some replica → s.running own.session = none)
    : Effect s (.move replica move)
        (s.put replica (own.afterDelete (configs replica) kind full))
  | unlocked {replica : Nat} {own : Replica} (here : s.replicas replica = some own)
    (unlocking : own.phase = .unlocking) (connected : s.owner own.session = some replica)
    : Effect s (.move replica (.unlock true))
        { s.put replica (own.sleep s.now) with lock := unlock s.lock own.session }
  | launched {replica : Nat} (missing : s.replicas replica = none)
    : Effect s (.launch replica)
        (s.put replica
          { phase := Retention.begin (configs replica)
            session := 0
            sent := false
            wakeAt := s.now
            cycle := 1 })
  | stopped {replica : Nat} {own : Replica} (here : s.replicas replica = some own)
    : Effect s (.stop replica)
        { s.put replica { own with phase := .disabled } with
          owner := fun session =>
            if s.owner session = some replica then none else s.owner session }
  | finished {session : Nat} {delete : Running} (executing : s.running session = some delete)
    : Effect s (.finish session)
        { s with
          running := Function.update s.running session none
          deletions := s.deletions ++
            [{ cycle := delete.cycle
               since := delete.since
               till := s.now
               awaited := s.owner session == some delete.cycle.replica }] }
  | disconnected {session : Nat}
    : Effect s (.disconnect session) { s with owner := Function.update s.owner session none }
  | sessionEnded {session : Nat} (gone : s.owner session = none)
    (idle : s.running session = none)
    : Effect s (.endSession session)
        { s with lock := if s.holder = some session then none else s.lock }
  | ticked {now : Int} (later : s.now ≤ now) : Effect s (.tick now) { s with now }

variable {configs}

theorem moveStep_effect {s t : State} {replica : Nat} {own : Replica} {move : Move}
    (here : s.replicas replica = some own)
    (h : moveStep configs s replica own move = some t)
    : Effect configs s (.move replica move) t := by
  cases move with
  | wake =>
      simp only [moveStep] at h
      split at h
      next sleeping =>
        obtain ⟨rested, next⟩ := Option.ite_none_right_eq_some.mp h
        exact Option.some.inj next ▸ .woke here sleeping rested
      next => cases h
  | acquire session =>
      simp only [moveStep] at h
      split at h
      next acquiring =>
        cases session with
        | none => exact Option.some.inj h ▸ .wentToSleep here trivial (Or.inl acquiring)
        | some session =>
            obtain ⟨free, next⟩ := Option.ite_none_right_eq_some.mp h
            exact Option.some.inj next ▸ .acquired here acquiring free
      next => cases h
  | lock reply =>
      simp only [moveStep] at h
      split at h
      next locking =>
        have leaving : own.phase = .acquiring ∨ own.phase = .locking ∨ own.phase = .unlocking :=
          Or.inr (Or.inl locking)
        split at h
        next => exact Option.some.inj h ▸ .wentToSleep here trivial leaving
        next =>
          obtain ⟨_, next⟩ := Option.ite_none_right_eq_some.mp h
          exact Option.some.inj next ▸ .wentToSleep here trivial leaving
        next taken =>
          obtain ⟨connected, next⟩ := Option.ite_none_right_eq_some.mp h
          exact Option.some.inj next ▸ .granted here locking connected taken
        next taken =>
          obtain ⟨connected, next⟩ := Option.ite_none_right_eq_some.mp h
          exact Option.some.inj next ▸ .grantLost here locking connected taken
        next => cases h
      next => cases h
  | send =>
      simp only [moveStep, Option.isNone_iff_eq_none] at h
      split at h
      next sweeping =>
        obtain ⟨⟨unsent, connected, idle⟩, next⟩ := Option.ite_none_right_eq_some.mp h
        exact Option.some.inj next ▸ .sent here sweeping unsent connected idle
      next => cases h
  | reply full =>
      simp only [moveStep, Option.isNone_iff_eq_none] at h
      split at h
      next sweeping =>
        obtain ⟨⟨_, _, idle⟩, next⟩ := Option.ite_none_right_eq_some.mp h
        exact Option.some.inj next ▸ .replied here trivial sweeping (fun _ => idle)
      next => cases h
  | deleteFails =>
      simp only [moveStep, Option.isNone_iff_eq_none] at h
      split at h
      next sweeping =>
        obtain ⟨idle, next⟩ := Option.ite_none_right_eq_some.mp h
        exact Option.some.inj next ▸ .replied here trivial sweeping idle
      next => cases h
  | unlock released =>
      simp only [moveStep] at h
      split at h
      next unlocking =>
        cases released with
        | true =>
            obtain ⟨connected, next⟩ := Option.ite_none_right_eq_some.mp h
            exact Option.some.inj next ▸ .unlocked here unlocking connected
        | false => exact Option.some.inj h ▸ .wentToSleep here trivial (Or.inr (Or.inr unlocking))
      next => cases h

theorem step_effect {s t : State} {action : Action} (h : step configs s action = some t)
    : Effect configs s action t := by
  cases action with
  | launch replica =>
      simp only [step] at h
      split at h
      next missing => exact Option.some.inj h ▸ .launched missing
      next => cases h
  | stop replica =>
      obtain ⟨own, here, rfl⟩ := Option.map_eq_some_iff.mp h
      exact .stopped here
  | move replica move =>
      obtain ⟨own, here, moved⟩ := Option.bind_eq_some_iff.mp h
      exact moveStep_effect here moved
  | finish session =>
      obtain ⟨delete, executing, rfl⟩ := Option.map_eq_some_iff.mp h
      exact .finished executing
  | disconnect session => exact Option.some.inj h ▸ .disconnected
  | endSession session =>
      simp only [step, Option.isNone_iff_eq_none] at h
      obtain ⟨⟨gone, idle⟩, next⟩ := Option.ite_none_right_eq_some.mp h
      exact Option.some.inj next ▸ .sessionEnded gone idle
  | tick now =>
      obtain ⟨later, next⟩ := Option.ite_none_right_eq_some.mp h
      exact Option.some.inj next ▸ .ticked later

/-- Each replica goes through the phases of a sweeper that is alone, whatever that one's table. -/
theorem move_simulates {s t : State} {replica : Nat} {own : Replica} {move : Move}
    (here : s.replicas replica = some own)
    (moved : step configs s (.move replica move) = some t)
    : ∃ after, t.replicas replica = some after
        ∧ (after.phase = own.phase
          ∨ ∀ u : Retention.State, u.phase = own.phase
            → ∃ action v, Retention.step (configs replica) u action = some v
                ∧ v.phase = after.phase) := by
  have known {other : Replica} (here' : s.replicas replica = some other) : other = own :=
    Option.some.inj (here'.symm.trans here)
  have goes {u : Retention.State} {next : Phase} (action : Retention.Action)
      (went : Retention.step (configs replica) u action = some { u with phase := next })
      : ∃ action v, Retention.step (configs replica) u action = some v ∧ v.phase = next :=
    ⟨action, _, went, rfl⟩
  cases step_effect moved with
  | woke here' sleeping =>
      obtain rfl := known here'
      refine ⟨_, Function.update_self _ _ _, Or.inr fun u phase => goes .wake ?_⟩
      simp only [Retention.step, phase.trans sleeping]
  | wentToSleep here' _ leaving =>
      obtain rfl := known here'
      refine ⟨_, Function.update_self _ _ _, Or.inr fun u phase => ?_⟩
      rcases leaving with acquiring | locking | unlocking
      · refine goes (.acquire false) ?_
        simp only [Retention.step, phase.trans acquiring]
        rfl
      · refine goes (.lock .held) ?_
        simp only [Retention.step, phase.trans locking]
        rfl
      · refine goes (.unlock true) ?_
        simp only [Retention.step, phase.trans unlocking]
        rfl
  | acquired here' acquiring =>
      obtain rfl := known here'
      refine ⟨_, Function.update_self _ _ _, Or.inr fun u phase => goes (.acquire true) ?_⟩
      simp only [Retention.step, phase.trans acquiring]
      rfl
  | granted here' locking =>
      obtain rfl := known here'
      refine ⟨_, Function.update_self _ _ _, Or.inr fun u phase => goes (.lock .granted) ?_⟩
      simp only [Retention.step, phase.trans locking]
  | grantLost here' locking =>
      obtain rfl := known here'
      refine ⟨_, Function.update_self _ _ _, Or.inr fun u phase => goes (.lock .failed) ?_⟩
      simp only [Retention.step, phase.trans locking]
      rfl
  | sent here' => exact ⟨_, Function.update_self _ _ _, Or.inl (by rw [known here'])⟩
  | @replied _ _ kind full _ here' _ sweeping =>
      obtain rfl := known here'
      refine ⟨_, Function.update_self _ _ _, ?_⟩
      cases full with
      | true => exact Or.inl sweeping.symm
      | false =>
          refine Or.inr fun u phase => goes (.delete .failed) ?_
          simp only [Retention.step, phase.trans sweeping]
          rfl
  | unlocked here' unlocking =>
      obtain rfl := known here'
      refine ⟨_, Function.update_self _ _ _, Or.inr fun u phase => goes (.unlock true) ?_⟩
      simp only [Retention.step, phase.trans unlocking]
      rfl

-----------------------------------------------------------------------------------------
-- The lock keeps the cycles apart
-----------------------------------------------------------------------------------------

/-- The replica waits for what the session executes. -/
structure Replica.Awaits (own : Replica) (session number : Nat) : Prop where
  session : own.session = session
  sent : own.sent = true
  sweeping : ∃ kind, own.phase = .sweeping kind
  cycle : own.cycle = number

/-- A session that executes a `DELETE` has the lock, and so has the session of a cycle that can
still use it. The replica of a `DELETE` that runs has lost the connection or waits.
-/
structure Sound (s : State) : Prop where
  held : ∀ session delete, s.running session = some delete → s.holder = some session
  attended
    : ∀ session delete, s.running session = some delete
      → s.owner session = none
        ∨ s.owner session = some delete.cycle.replica
          ∧ ∃ own, s.replicas delete.cycle.replica = some own
              ∧ own.Awaits session delete.cycle.number
  inCycle : ∀ replica own, s.InCycle replica own → s.holder = some own.session

theorem update_eq_some {α : Type*} {f : Nat → Option α} {key other : Nat} {new found : α}
    (h : Function.update f key (some new) other = some found)
    : other = key ∧ found = new ∨ other ≠ key ∧ f other = some found := by
  by_cases same : other = key
  · subst same
    rw [Function.update_self] at h
    exact Or.inl ⟨rfl, (Option.some.inj h).symm⟩
  · rw [Function.update_of_ne same] at h
    exact Or.inr ⟨same, h⟩

theorem update_none_eq_some {α : Type*} {f : Nat → Option α} {key other : Nat} {found : α}
    (h : Function.update f key none other = some found)
    : other ≠ key ∧ f other = some found := by
  have apart : other ≠ key := by
    rintro rfl
    rw [Function.update_self] at h
    cases h
  exact ⟨apart, by rwa [Function.update_of_ne apart] at h⟩

theorem holder_of_tryLock {s : State} {session : Nat} {lock : Lock}
    (taken : tryLock s.lock session = some lock)
    : lock.session = session ∧ (s.holder = none ∨ s.holder = some session) := by
  unfold tryLock at taken
  split at taken
  next free =>
    obtain rfl := Option.some.inj taken
    exact ⟨rfl, Or.inl (by simp [State.holder, free])⟩
  next held here =>
    obtain ⟨same, next⟩ := Option.ite_none_right_eq_some.mp taken
    obtain rfl := Option.some.inj next
    exact ⟨rfl, Or.inr (by simp [State.holder, here, same])⟩

/-- The cycles after a replica has gone on. -/
theorem State.InCycle.of_put {s t : State} {replica other : Nat} {its after : Replica}
    (h : t.InCycle other its)
    (replicas : t.replicas = Function.update s.replicas replica (some after))
    (owner
      : ∀ session other, other ≠ replica → t.owner session = some other
        → s.owner session = some other)
    : other = replica ∧ its = after ∨ other ≠ replica ∧ s.InCycle other its := by
  obtain ⟨here, has, connected⟩ := h
  rw [replicas] at here
  rcases update_eq_some here with same | ⟨apart, known⟩
  · exact Or.inl same
  · exact Or.inr ⟨apart, known, has, owner _ _ apart connected⟩

namespace Sound

variable {s t : State} {replica session : Nat} {own : Replica} {delete : Running}

/-- Only a replica that waits for it is connected to a session that executes something. -/
theorem awaited (sound : Sound s) (executing : s.running session = some delete)
    (connected : s.owner session = some replica) (here : s.replicas replica = some own)
    : delete.cycle = ⟨replica, own.cycle⟩ ∧ own.Awaits session own.cycle := by
  rcases sound.attended session delete executing with gone | ⟨owned, other, known, awaits⟩
  · cases gone.symm.trans connected
  · obtain rfl := Option.some.inj (owned.symm.trans connected)
    obtain rfl := Option.some.inj (known.symm.trans here)
    exact ⟨by rw [awaits.cycle], awaits.session, awaits.sent, awaits.sweeping, rfl⟩

theorem unattended (sound : Sound s) (here : s.replicas replica = some own)
    (outside : ∀ kind, own.phase ≠ .sweeping kind) (executing : s.running session = some delete)
    : s.owner session ≠ some replica := by
  intro connected
  obtain ⟨kind, sweeping⟩ := (sound.awaited executing connected here).2.sweeping
  exact outside kind sweeping

/-- Nobody else is in a cycle if the lock is free or in one's own session. -/
theorem alone (sound : Sound s) (connected : s.owner own.session = some replica)
    (free : s.holder = none ∨ s.holder = some own.session) {other : Nat} {its : Replica}
    (h : s.InCycle other its)
    : other = replica := by
  have holds := sound.inCycle other its h
  rcases free with free | mine
  · cases free.symm.trans holds
  · have same := Option.some.inj (mine.symm.trans holds)
    exact Option.some.inj (h.2.2.symm.trans (same ▸ connected))

/-- What a replica does without touching a session that executes something, unless it leaves. -/
theorem of_put (sound : Sound s) {after : Replica}
    (replicas : t.replicas = Function.update s.replicas replica (some after))
    (running : t.running = s.running)
    (holder : ∀ session, s.running session ≠ none → t.holder = s.holder)
    (owner
      : ∀ session, s.running session ≠ none
        → t.owner session = none
          ∨ s.owner session ≠ some replica ∧ t.owner session = s.owner session)
    (inCycle : ∀ other its, t.InCycle other its → t.holder = some its.session)
    : Sound t := by
  refine ⟨?_, ?_, inCycle⟩
  · intro session delete executing
    rw [running] at executing
    rw [holder session (by simp [executing])]
    exact sound.held session delete executing
  · intro session delete executing
    rw [running] at executing
    rcases owner session (by simp [executing]) with gone | ⟨foreign, same⟩
    · exact Or.inl gone
    · rcases sound.attended session delete executing with lost | ⟨owned, its, known, awaits⟩
      · exact Or.inl (same.trans lost)
      · have apart : delete.cycle.replica ≠ replica := fun eq => foreign (eq ▸ owned)
        refine Or.inr ⟨same.trans owned, its, ?_, awaits⟩
        rw [replicas, Function.update_of_ne apart, known]

/-- In particular when it is not in a cycle afterwards. -/
theorem of_put_idle (sound : Sound s) {after : Replica}
    (replicas : t.replicas = Function.update s.replicas replica (some after))
    (running : t.running = s.running) (lock : t.lock = s.lock)
    (idle : HasLock after.phase = false)
    (owner
      : ∀ session, s.running session ≠ none
        → t.owner session = none
          ∨ s.owner session ≠ some replica ∧ t.owner session = s.owner session)
    (others
      : ∀ session other, other ≠ replica → t.owner session = some other
        → s.owner session = some other)
    : Sound t := by
  have holder : t.holder = s.holder := by rw [State.holder, State.holder, lock]
  refine sound.of_put replicas running (fun _ _ => holder) owner fun other its h => ?_
  rcases h.of_put replicas others with ⟨_, rfl⟩ | ⟨_, before⟩
  · cases idle.symm.trans h.2.1
  · exact holder.trans (sound.inCycle other its before)

/-- Taking the lock or giving it back, while nothing runs. -/
theorem of_put_alone (sound : Sound s) (connected : s.owner own.session = some replica)
    (free : s.holder = none ∨ s.holder = some own.session) {after : Replica}
    (replicas : t.replicas = Function.update s.replicas replica (some after))
    (running : t.running = s.running) (quiet : ∀ session, s.running session = none)
    (others
      : ∀ session other, other ≠ replica → t.owner session = some other
        → s.owner session = some other)
    (inCycle : t.InCycle replica after → t.holder = some after.session)
    : Sound t := by
  have nothing {session : Nat} (busy : s.running session ≠ none) : False := busy (quiet session)
  refine sound.of_put replicas running (fun _ busy => (nothing busy).elim)
    (fun _ busy => (nothing busy).elim) fun other its h => ?_
  rcases h.of_put replicas others with ⟨rfl, rfl⟩ | ⟨apart, before⟩
  · exact inCycle h
  · exact absurd (sound.alone connected free before) apart

/-- Nothing runs if the lock is free or in the session of a replica that waits for nothing. -/
theorem quiet (sound : Sound s) (here : s.replicas replica = some own)
    (outside : ∀ kind, own.phase ≠ .sweeping kind) (connected : s.owner own.session = some replica)
    (free : s.holder = none ∨ s.holder = some own.session) (session : Nat)
    : s.running session = none := by
  by_contra busy
  obtain ⟨delete, executing⟩ := Option.ne_none_iff_exists'.mp busy
  have holds := sound.held session delete executing
  rcases free with free | mine
  · cases free.symm.trans holds
  · obtain rfl := Option.some.inj (mine.symm.trans holds)
    exact sound.unattended here outside executing connected

/-- The session that has the lock begins to execute. -/
theorem send (sound : Sound s) {kind : Retention.Kind} (here : s.replicas replica = some own)
    (sweeping : own.phase = .sweeping kind) (unsent : own.sent = false)
    (connected : s.owner own.session = some replica)
    : Sound
        { s.put replica { own with sent := true } with
          running :=
            Function.update s.running own.session (some ⟨⟨replica, own.cycle⟩, s.now⟩) } := by
  have holds := sound.inCycle replica own ⟨here, by simp [sweeping, HasLock], connected⟩
  constructor
  · intro session delete executing
    rcases update_eq_some executing with ⟨rfl, _⟩ | ⟨_, before⟩
    · exact holds
    · exact sound.held session delete before
  · intro session delete executing
    rcases update_eq_some executing with ⟨rfl, rfl⟩ | ⟨_, before⟩
    · exact Or.inr ⟨connected, _, Function.update_self _ _ _, rfl, rfl, ⟨kind, sweeping⟩, rfl⟩
    · rcases sound.attended session delete before with lost | ⟨owned, its, known, awaits⟩
      · exact Or.inl lost
      · -- Its own replica would not have been ready to send.
        have apart : delete.cycle.replica ≠ replica := by
          intro same
          have waits := (sound.awaited before (same ▸ owned) here).2.sent
          cases unsent.symm.trans waits
        exact Or.inr ⟨owned, its, (Function.update_of_ne apart _ _).trans known, awaits⟩
  · intro other its h
    rcases h.of_put rfl (fun _ _ _ owned => owned) with ⟨_, rfl⟩ | ⟨_, before⟩
    · exact holds
    · exact sound.inCycle other its before

theorem disconnect (sound : Sound s) (session : Nat)
    : Sound { s with owner := Function.update s.owner session none } := by
  refine ⟨sound.held, fun other delete executing => ?_, fun replica own h => ?_⟩
  · by_cases same : other = session
    · exact Or.inl (same ▸ Function.update_self _ _ _)
    · simpa only [Function.update_of_ne same] using sound.attended other delete executing
  · obtain ⟨here, has, connected⟩ := h
    exact sound.inCycle replica own ⟨here, has, (update_none_eq_some connected).2⟩

/-- The lock of a session that nobody uses is nobody's. -/
theorem endSession (sound : Sound s) (gone : s.owner session = none)
    (idle : s.running session = none)
    : Sound { s with lock := if s.holder = some session then none else s.lock } := by
  have same {other : Nat} (holds : s.holder = some other) (apart : other ≠ session)
      : (if s.holder = some session then none else s.lock).map Lock.session = some other := by
    rw [if_neg (fun held => apart (Option.some.inj (holds.symm.trans held)))]
    exact holds
  refine ⟨fun other delete executing => ?_, sound.attended, fun replica own h => ?_⟩
  · refine same (sound.held other delete executing) ?_
    rintro rfl
    cases idle.symm.trans executing
  · refine same (sound.inCycle replica own h) ?_
    intro eq
    cases gone.symm.trans (eq ▸ h.2.2)

end Sound

theorem afterClaimed_hasLock (config : Config)
    : HasLock (Retention.afterClaimed config) = true := by
  unfold Retention.afterClaimed
  split <;> rfl

theorem afterLock_hasLock (config : Config) : HasLock (Retention.afterLock config) = true := by
  unfold Retention.afterLock
  split
  · exact afterClaimed_hasLock config
  · rfl

theorem begin_hasLock (config : Config) : HasLock (Retention.begin config) = false := by
  unfold Retention.begin
  split <;> rfl

theorem step_sound {s t : State} {action : Action} (sound : Sound s)
    (stepped : step configs s action = some t)
    : Sound t := by
  have outside {replica : Nat} {own : Replica} (here : s.replicas replica = some own)
      (elsewhere : ∀ kind, own.phase ≠ .sweeping kind) (session : Nat)
      (busy : s.running session ≠ none)
      : s.owner session ≠ some replica := by
    obtain ⟨delete, executing⟩ := Option.ne_none_iff_exists'.mp busy
    exact sound.unattended here elsewhere executing
  cases step_effect stepped with
  | woke here sleeping =>
      have elsewhere := outside here (by simp [sleeping])
      exact sound.of_put_idle rfl rfl rfl rfl
        (fun session busy => Or.inr ⟨elsewhere session busy, rfl⟩) (fun _ _ _ owned => owned)
  | wentToSleep here _ leaving =>
      have elsewhere := outside here (fun kind sweeping => by simp [sweeping] at leaving)
      exact sound.of_put_idle rfl rfl rfl rfl
        (fun session busy => Or.inr ⟨elsewhere session busy, rfl⟩) (fun _ _ _ owned => owned)
  | @acquired replica session own here acquiring free =>
      have elsewhere := outside here (by simp [acquiring])
      refine sound.of_put_idle rfl rfl rfl rfl (fun other busy => ?_)
        (fun other its apart owned => ?_)
      · have apart : other ≠ session := by
          rintro rfl
          rcases free with mine | ⟨_, _, idle⟩
          · exact elsewhere other busy mine
          · exact busy (Option.isNone_iff_eq_none.mp idle)
        exact Or.inr ⟨elsewhere other busy, Function.update_of_ne apart _ _⟩
      · rcases update_eq_some owned with ⟨_, mine⟩ | ⟨_, before⟩
        · exact absurd mine apart
        · exact before
  | granted here locking connected taken =>
      obtain ⟨session, free⟩ := holder_of_tryLock taken
      exact sound.of_put_alone connected free rfl rfl
        (sound.quiet here (by simp [locking]) connected free) (fun _ _ _ owned => owned)
        (fun _ => by simp [State.holder, session])
  | @grantLost replica own lock here locking connected taken =>
      obtain ⟨_, free⟩ := holder_of_tryLock taken
      refine sound.of_put_alone connected free rfl rfl
        (sound.quiet here (by simp [locking]) connected free) (fun session other _ owned => ?_) ?_
      · exact (update_none_eq_some owned).2
      · rintro ⟨_, has, _⟩
        cases has
  | sent here sweeping unsent connected => exact sound.send here sweeping unsent connected
  | @replied replica own kind full move here _ sweeping idle =>
      refine sound.of_put rfl rfl (fun _ _ => rfl) (fun session busy => Or.inr ⟨?_, rfl⟩) ?_
      · intro owned
        obtain ⟨delete, executing⟩ := Option.ne_none_iff_exists'.mp busy
        have mine := (sound.awaited executing owned here).2.session
        exact busy (mine ▸ idle (mine ▸ owned))
      · intro other its h
        rcases h.of_put rfl (fun _ _ _ owned => owned) with ⟨rfl, rfl⟩ | ⟨_, before⟩
        · exact sound.inCycle other own ⟨here, by simp [sweeping, HasLock], h.2.2⟩
        · exact sound.inCycle other its before
  | @unlocked replica own here unlocking connected =>
      have free := sound.inCycle replica own ⟨here, by simp [unlocking, HasLock], connected⟩
      refine sound.of_put_alone connected (Or.inr free) rfl rfl
        (sound.quiet here (by simp [unlocking]) connected (Or.inr free))
        (fun _ _ _ owned => owned) ?_
      rintro ⟨_, has, _⟩
      cases has
  | @launched replica missing =>
      refine sound.of_put_idle rfl rfl rfl (begin_hasLock _)
        (fun session busy => Or.inr ⟨?_, rfl⟩) (fun _ _ _ owned => owned)
      intro connected
      obtain ⟨delete, executing⟩ := Option.ne_none_iff_exists'.mp busy
      rcases sound.attended session delete executing with gone | ⟨owned, its, known, _⟩
      · cases gone.symm.trans connected
      · obtain rfl := Option.some.inj (owned.symm.trans connected)
        cases missing.symm.trans known
  | @stopped replica own here =>
      refine sound.of_put_idle rfl rfl rfl rfl (fun session _ => ?_)
        (fun session other _ owned => ?_)
      · by_cases mine : s.owner session = some replica
        · exact Or.inl (if_pos mine)
        · exact Or.inr ⟨mine, if_neg mine⟩
      · exact (Option.ite_none_left_eq_some.mp owned).2
  | finished executing =>
      refine ⟨fun session delete now => ?_, fun session delete now => ?_, sound.inCycle⟩
      · exact sound.held session delete (update_none_eq_some now).2
      · exact sound.attended session delete (update_none_eq_some now).2
  | disconnected => exact sound.disconnect _
  | sessionEnded gone idle => exact sound.endSession gone idle
  | ticked later => exact ⟨sound.held, sound.attended, sound.inCycle⟩

theorem init_sound (now : Int) : Sound (State.init now) := by
  refine ⟨fun session delete h => ?_, fun session delete h => ?_, fun replica own h => ?_⟩
  · cases h
  · cases h
  · cases h.1

theorem Sound.apart {s : State} (sound : Sound s) : Apart s := by
  constructor
  · intro session other busy also
    obtain ⟨delete, executing⟩ := Option.ne_none_iff_exists'.mp busy
    obtain ⟨further, beside⟩ := Option.ne_none_iff_exists'.mp also
    exact Option.some.inj
      ((sound.held session delete executing).symm.trans (sound.held other further beside))
  · intro replica own session delete h executing
    have same := Option.some.inj
      ((sound.inCycle replica own h).symm.trans (sound.held session delete executing))
    exact (sound.awaited executing (same ▸ h.2.2) h.1).1

-----------------------------------------------------------------------------------------
-- The sleep keeps the cycles of one replica apart
-----------------------------------------------------------------------------------------

/-- In these phases a cycle has begun and does not have the lock. -/
def Starting : Phase → Bool
  | .acquiring | .locking => true
  | .disabled | .sleeping | .sweeping _ | .unlocking => false

def State.Begun (s : State) (cycle : Cycle) : Prop :=
  ∃ own, s.replicas cycle.replica = some own
    ∧ cycle.number ≤ own.cycle
    ∧ (Starting own.phase = true → cycle.number < own.cycle)

/-- The next cycle that can get the lock is an interval after the moment. -/
def Replica.Rested (own : Replica) (now till : Int) : Prop :=
  match own.phase with
  | .sleeping => till + sweepInterval ≤ own.wakeAt
  | .acquiring | .locking => till + sweepInterval ≤ now
  | .disabled | .sweeping _ | .unlocking => True

structure Dated (s : State) : Prop where
  past : ∀ deletion ∈ s.deletions, deletion.since ≤ deletion.till ∧ deletion.till ≤ s.now
  since : ∀ session delete, s.running session = some delete → delete.since ≤ s.now
  begun : ∀ deletion ∈ s.deletions, s.Begun deletion.cycle
  runs : ∀ session delete, s.running session = some delete → s.Begun delete.cycle
  rested
    : ∀ deletion ∈ s.deletions, deletion.awaited = true
      → ∀ own, s.replicas deletion.cycle.replica = some own → own.Rested s.now deletion.till

theorem Replica.rested_of_hasLock {own : Replica} (h : HasLock own.phase = true) (now till : Int)
    : own.Rested now till := by
  cases phase : own.phase with
  | sweeping | unlocking => simp only [Replica.Rested, phase]
  | disabled | sleeping | acquiring | locking =>
      rw [phase] at h
      cases h

theorem Replica.rested_sleep {own : Replica} {now till : Int} (past : till ≤ now)
    : (own.sleep now).Rested now till := by
  simpa only [Replica.Rested, Replica.sleep] using Int.add_le_add_right past sweepInterval

theorem Replica.Rested.mono {own : Replica} {now later till : Int} (h : own.Rested now till)
    (le : now ≤ later)
    : own.Rested later till := by
  cases phase : own.phase with
  | sleeping => simpa only [Replica.Rested, phase] using h
  | acquiring | locking =>
      simp only [Replica.Rested, phase] at h ⊢
      exact h.trans le
  | disabled | sweeping | unlocking => simp only [Replica.Rested, phase]

theorem afterDelete_hasLock (config : Config) (own : Replica) (kind : Retention.Kind)
    (full : Bool)
    : HasLock (own.afterDelete config kind full).phase = true := by
  cases full with
  | true => rfl
  | false =>
      cases kind with
      | claimed => exact afterClaimed_hasLock config
      | unclaimed => rfl

theorem Starting.not_hasLock {phase : Phase} (h : HasLock phase = true)
    : Starting phase = false := by
  cases phase with
  | sweeping | unlocking => rfl
  | disabled | sleeping | acquiring | locking => cases h

namespace Dated

variable {s t : State} {replica : Nat} {own after : Replica}

theorem of_put (dated : Dated s) (here : s.replicas replica = some own)
    (replicas : t.replicas = Function.update s.replicas replica (some after))
    (running : t.running = s.running) (deletions : t.deletions = s.deletions)
    (now : t.now = s.now) (cycle : own.cycle ≤ after.cycle)
    (starting
      : Starting after.phase = true → Starting own.phase = true ∨ own.cycle < after.cycle)
    (rested : ∀ till, till ≤ s.now → own.Rested s.now till → after.Rested s.now till)
    : Dated t := by
  have begun {which : Cycle} (h : s.Begun which) : t.Begun which := by
    obtain ⟨its, known, order, fresh⟩ := h
    unfold State.Begun
    rw [replicas]
    by_cases same : which.replica = replica
    · rw [same] at known ⊢
      obtain rfl := Option.some.inj (known.symm.trans here)
      refine ⟨after, Function.update_self _ _ _, order.trans cycle, fun starts => ?_⟩
      rcases starting starts with already | later
      · exact Nat.lt_of_lt_of_le (fresh already) cycle
      · exact Nat.lt_of_le_of_lt order later
    · exact ⟨its, (Function.update_of_ne same _ _).trans known, order, fresh⟩
  constructor
  · rw [deletions, now]
    exact dated.past
  · rw [running, now]
    exact dated.since
  · rw [deletions]
    exact fun deletion member => begun (dated.begun deletion member)
  · rw [running]
    exact fun session delete executing => begun (dated.runs session delete executing)
  · rw [deletions, now, replicas]
    intro deletion member awaited its known
    rcases update_eq_some known with ⟨same, rfl⟩ | ⟨_, before⟩
    · have earlier := dated.rested deletion member awaited own (same ▸ here)
      exact rested _ (dated.past deletion member).2 earlier
    · exact dated.rested deletion member awaited its before

/-- The first cycle of a replica comes after all that is known. -/
theorem launch (dated : Dated s) (missing : s.replicas replica = none) (first : Replica)
    : Dated (s.put replica first) := by
  have apart {cycle : Cycle} (h : s.Begun cycle) : cycle.replica ≠ replica := by
    obtain ⟨own, known, _⟩ := h
    intro same
    cases missing.symm.trans (same ▸ known)
  have begun {cycle : Cycle} (h : s.Begun cycle) : (s.put replica first).Begun cycle := by
    obtain ⟨own, known, order⟩ := h
    exact ⟨own, (Function.update_of_ne (apart ⟨own, known, order⟩) _ _).trans known, order⟩
  refine ⟨dated.past, dated.since, fun deletion member => begun (dated.begun deletion member),
    fun session delete executing => begun (dated.runs session delete executing),
    fun deletion member awaited own known => ?_⟩
  rcases update_eq_some known with ⟨same, _⟩ | ⟨_, before⟩
  · exact absurd same (apart (dated.begun deletion member))
  · exact dated.rested deletion member awaited own before

/-- If the connection has lasted, the replica still waits, in a cycle that has the lock. -/
theorem finish (dated : Dated s) (sound : Sound s) {session : Nat} {delete : Running}
    (executing : s.running session = some delete)
    : Dated
        { s with
          running := Function.update s.running session none
          deletions := s.deletions ++
            [{ cycle := delete.cycle
               since := delete.since
               till := s.now
               awaited := s.owner session == some delete.cycle.replica }] } := by
  have began := dated.since session delete executing
  have waits (connected : s.owner session = some delete.cycle.replica) (own : Replica)
      (known : s.replicas delete.cycle.replica = some own)
      : own.Rested s.now s.now := by
    obtain ⟨kind, sweeping⟩ := (sound.awaited executing connected known).2.sweeping
    exact Replica.rested_of_hasLock (by rw [sweeping]; rfl) _ _
  constructor
  · exact List.forall_mem_append.mpr
      ⟨dated.past, List.forall_mem_singleton.mpr ⟨began, Int.le_refl _⟩⟩
  · exact fun other further now => dated.since other further (update_none_eq_some now).2
  · exact List.forall_mem_append.mpr
      ⟨dated.begun, List.forall_mem_singleton.mpr (dated.runs session delete executing)⟩
  · exact fun other further now => dated.runs other further (update_none_eq_some now).2
  · refine List.forall_mem_append.mpr ⟨dated.rested, List.forall_mem_singleton.mpr ?_⟩
    exact fun awaited own known => waits (by simpa using awaited) own known

end Dated

theorem step_dated {s t : State} {action : Action} (sound : Sound s) (dated : Dated s)
    (stepped : step configs s action = some t)
    : Dated t := by
  cases step_effect stepped with
  | woke here sleeping rested =>
      refine dated.of_put here rfl rfl rfl rfl (Nat.le_succ _)
        (fun _ => Or.inr (Nat.lt_succ_self _)) (fun till _ before => ?_)
      simp only [Replica.Rested, sleeping] at before ⊢
      exact before.trans rested
  | wentToSleep here leaving =>
      refine dated.of_put here rfl rfl rfl rfl (Nat.le_refl _) (fun starts => ?_)
        (fun till past _ => Replica.rested_sleep past)
      cases starts
  | acquired here acquiring =>
      refine dated.of_put here rfl rfl rfl rfl (Nat.le_refl _)
        (fun _ => Or.inl (by rw [acquiring]; rfl)) (fun till _ before => ?_)
      simpa only [Replica.Rested, acquiring] using before
  | granted here =>
      have has := afterLock_hasLock
      refine dated.of_put here rfl rfl rfl rfl (Nat.le_refl _) (fun starts => ?_)
        (fun till _ _ => Replica.rested_of_hasLock (has _) _ _)
      cases (Starting.not_hasLock (has _)).symm.trans starts
  | grantLost here | unlocked here =>
      refine dated.of_put here rfl rfl rfl rfl (Nat.le_refl _) (fun starts => ?_)
        (fun till past _ => Replica.rested_sleep past)
      cases starts
  | @sent replica own kind here sweeping =>
      have outside : Starting own.phase = false := by rw [sweeping]; rfl
      have moved : Dated (s.put replica { own with sent := true }) :=
        dated.of_put here rfl rfl rfl rfl (Nat.le_refl _) Or.inl (fun _ _ before => before)
      refine ⟨moved.past, fun session delete executing => ?_, moved.begun,
        fun session delete executing => ?_, moved.rested⟩
      · rcases update_eq_some executing with ⟨_, rfl⟩ | ⟨_, before⟩
        · exact Int.le_refl _
        · exact moved.since session delete before
      · rcases update_eq_some executing with ⟨_, rfl⟩ | ⟨_, before⟩
        · exact ⟨_, Function.update_self _ _ _, Nat.le_refl _,
            fun starts => by cases outside.symm.trans starts⟩
        · exact moved.runs session delete before
  | @replied replica own kind full move here _ sweeping =>
      have has := afterDelete_hasLock (configs replica) own kind full
      refine dated.of_put here rfl rfl rfl rfl (Nat.le_refl _) (fun starts => ?_)
        (fun till _ _ => Replica.rested_of_hasLock has _ _)
      cases (Starting.not_hasLock has).symm.trans starts
  | launched missing => exact dated.launch missing _
  | stopped here =>
      refine dated.of_put here rfl rfl rfl rfl (Nat.le_refl _) (fun starts => ?_)
        (fun till _ _ => trivial)
      cases starts
  | finished executing => exact dated.finish sound executing
  | disconnected | sessionEnded =>
      exact ⟨dated.past, dated.since, dated.begun, dated.runs, dated.rested⟩
  | ticked later =>
      refine ⟨fun deletion member => ?_, fun session delete executing => ?_, dated.begun,
        dated.runs, fun deletion member awaited own known => ?_⟩
      · exact ⟨(dated.past deletion member).1, (dated.past deletion member).2.trans later⟩
      · exact (dated.since session delete executing).trans later
      · exact (dated.rested deletion member awaited own known).mono later

theorem init_dated (now : Int) : Dated (State.init now) := by
  refine ⟨fun deletion h => ?_, fun session delete h => ?_, fun deletion h => ?_,
    fun session delete h => ?_, fun deletion h => ?_⟩ <;> cases h

-----------------------------------------------------------------------------------------
-- Nothing but the calm keeps those of several replicas apart
-----------------------------------------------------------------------------------------

/-- A cycle that has the lock is an interval after every other. -/
structure Spaced (s : State) : Prop where
  gaps
    : ∀ deletion ∈ s.deletions, ∀ other ∈ s.deletions, deletion.cycle ≠ other.cycle
      → deletion.till + sweepInterval ≤ other.since
        ∨ other.till + sweepInterval ≤ deletion.since
  runs
    : ∀ deletion ∈ s.deletions, ∀ session delete, s.running session = some delete
      → deletion.cycle ≠ delete.cycle → deletion.till + sweepInterval ≤ delete.since
  calm
    : ∀ replica own, s.InCycle replica own → ∀ deletion ∈ s.deletions,
      deletion.cycle ≠ ⟨replica, own.cycle⟩ → deletion.till + sweepInterval ≤ s.now

namespace Spaced

variable {s t : State} {replica : Nat} {after : Replica}

theorem of_put (spaced : Spaced s)
    (replicas : t.replicas = Function.update s.replicas replica (some after))
    (running : t.running = s.running) (deletions : t.deletions = s.deletions)
    (now : t.now = s.now)
    (owner
      : ∀ session other, other ≠ replica → t.owner session = some other
        → s.owner session = some other)
    (calm
      : t.InCycle replica after → ∀ deletion ∈ s.deletions,
        deletion.cycle ≠ ⟨replica, after.cycle⟩ → deletion.till + sweepInterval ≤ s.now)
    : Spaced t := by
  constructor
  · rw [deletions]
    exact spaced.gaps
  · rw [deletions, running]
    exact spaced.runs
  · rw [deletions, now]
    intro other its h
    rcases h.of_put replicas owner with ⟨rfl, rfl⟩ | ⟨_, before⟩
    · exact calm h
    · exact spaced.calm other its before

/-- In particular when it is not in a cycle afterwards. -/
theorem of_put_idle (spaced : Spaced s) (idle : HasLock after.phase = false)
    (replicas : t.replicas = Function.update s.replicas replica (some after))
    (running : t.running = s.running) (deletions : t.deletions = s.deletions)
    (now : t.now = s.now)
    (owner
      : ∀ session other, other ≠ replica → t.owner session = some other
        → s.owner session = some other)
    : Spaced t := by
  refine spaced.of_put replicas running deletions now owner fun h => ?_
  cases idle.symm.trans h.2.1

end Spaced

/-- Whoever gets the lock has slept since its own cycles, and the calm is for all others. -/
theorem step_spaced {s t : State} {action : Action} (sound : Sound s) (dated : Dated s)
    (calm : Calm s action) (spaced : Spaced s) (stepped : step configs s action = some t)
    : Spaced t := by
  cases step_effect stepped with
  | woke | wentToSleep | unlocked =>
      exact spaced.of_put_idle rfl rfl rfl rfl rfl (fun _ _ _ owned => owned)
  | launched =>
      exact spaced.of_put_idle (begin_hasLock _) rfl rfl rfl rfl (fun _ _ _ owned => owned)
  | acquired =>
      refine spaced.of_put_idle rfl rfl rfl rfl rfl (fun session other apart owned => ?_)
      rcases update_eq_some owned with ⟨_, mine⟩ | ⟨_, before⟩
      · exact absurd mine apart
      · exact before
  | grantLost =>
      exact spaced.of_put_idle rfl rfl rfl rfl rfl
        (fun _ _ _ owned => (update_none_eq_some owned).2)
  | stopped =>
      exact spaced.of_put_idle rfl rfl rfl rfl rfl
        (fun _ _ _ owned => (Option.ite_none_left_eq_some.mp owned).2)
  | @granted replica own lock here locking =>
      refine spaced.of_put rfl rfl rfl rfl (fun _ _ _ owned => owned) fun _ deletion member _ => ?_
      by_cases mine : deletion.cycle.replica = replica ∧ deletion.awaited = true
      · obtain ⟨same, awaited⟩ := mine
        have rested := dated.rested deletion member awaited own (same ▸ here)
        simpa only [Replica.Rested, locking] using rested
      · refine calm deletion member ?_
        simpa [imp_iff_not_or] using mine
  | @sent replica own kind here sweeping unsent connected =>
      have within : s.InCycle replica own := ⟨here, by rw [sweeping]; rfl, connected⟩
      have moved : Spaced (s.put replica { own with sent := true }) :=
        spaced.of_put rfl rfl rfl rfl (fun _ _ _ owned => owned)
          (fun _ => spaced.calm replica own within)
      refine ⟨moved.gaps, fun deletion member session delete executing apart => ?_, moved.calm⟩
      rcases update_eq_some executing with ⟨_, rfl⟩ | ⟨_, before⟩
      · exact spaced.calm replica own within deletion member apart
      · exact spaced.runs deletion member session delete before apart
  | @replied replica own kind full move here _ sweeping =>
      refine spaced.of_put rfl rfl rfl rfl (fun _ _ _ owned => owned) fun h => ?_
      exact spaced.calm replica own ⟨here, by rw [sweeping]; rfl, h.2.2⟩
  | @finished session delete executing =>
      refine ⟨fun deletion member other member' apart => ?_,
        fun deletion _ other further now _ => ?_, fun replica own h deletion member apart => ?_⟩
      · rcases List.mem_append.mp member with old | new <;>
          rcases List.mem_append.mp member' with old' | new'
        · exact spaced.gaps deletion old other old' apart
        · obtain rfl := List.mem_singleton.mp new'
          exact Or.inl (spaced.runs deletion old session delete executing apart)
        · obtain rfl := List.mem_singleton.mp new
          exact Or.inr (spaced.runs other old' session delete executing apart.symm)
        · obtain rfl := List.mem_singleton.mp new
          obtain rfl := List.mem_singleton.mp new'
          exact absurd rfl apart
      · -- Nothing else was running.
        obtain ⟨elsewhere, before⟩ := update_none_eq_some now
        exact absurd (sound.apart.one other session (by simp [before]) (by simp [executing]))
          elsewhere
      · rcases List.mem_append.mp member with old | new
        · exact spaced.calm replica own h deletion old apart
        · obtain rfl := List.mem_singleton.mp new
          exact absurd (sound.apart.cycles replica own session delete h executing) apart
  | disconnected =>
      refine ⟨spaced.gaps, spaced.runs, fun replica own h => ?_⟩
      exact spaced.calm replica own ⟨h.1, h.2.1, (update_none_eq_some h.2.2).2⟩
  | sessionEnded => exact ⟨spaced.gaps, spaced.runs, spaced.calm⟩
  | ticked later =>
      refine ⟨spaced.gaps, spaced.runs, fun replica own h deletion member apart => ?_⟩
      exact (spaced.calm replica own h deletion member apart).trans later

theorem init_spaced (now : Int) : Spaced (State.init now) := by
  refine ⟨fun deletion h => ?_, fun deletion h => ?_, fun replica own h => ?_⟩
  · cases h
  · cases h
  · cases h.1

theorem Spaced.onePerWindow {s : State} (sound : Sound s) (spaced : Spaced s)
    : OnePerWindow s := by
  rintro start cycle other ⟨since, till, executed, before, after⟩
    ⟨since', till', executed', before', after'⟩
  by_contra apart
  rcases executed with ⟨_, member⟩ | ⟨rfl, session, executing⟩ <;>
    rcases executed' with ⟨_, member'⟩ | ⟨rfl, session', executing'⟩
  · have gap := spaced.gaps _ member _ member' apart
    simp only at gap
    omega
  · have gap := spaced.runs _ member _ _ executing' apart
    simp only at gap
    omega
  · have gap := spaced.runs _ member' _ _ executing (Ne.symm apart)
    simp only at gap
    omega
  · have same := sound.apart.one session session' (by simp [executing]) (by simp [executing'])
    cases executing.symm.trans (same ▸ executing')
    exact apart rfl

/-- A replica that gets the lock earlier than that breaks it with its first `DELETE`. -/
theorem not_onePerWindow {s t u : State} {replica : Nat} (dated : Dated s)
    (granted : step configs s (.move replica (.lock .granted)) = some t)
    (early : ¬ Calm s (.move replica (.lock .granted)))
    (sent : step configs t (.move replica .send) = some u)
    : ¬ OnePerWindow u := by
  intro one
  cases step_effect granted with
  | wentToSleep _ quits => exact quits
  | replied _ ends => exact ends
  | @granted _ own lock here locking =>
      cases step_effect sent with
      | wentToSleep _ quits => exact quits
      | replied _ ends => exact ends
      | @sent _ same kind here' =>
          obtain ⟨_, rfl⟩ | ⟨apart, _⟩ := update_eq_some here'
          · simp only [Calm, not_forall] at early
            obtain ⟨deletion, member, _, soon⟩ := early
            obtain ⟨began, past⟩ := dated.past deletion member
            -- The window that starts with the end of that DELETE has the new one as well.
            have clash : deletion.cycle = ⟨replica, own.cycle⟩ := by
              refine one deletion.till _ _
                ⟨deletion.since, deletion.till, Or.inl ⟨deletion.awaited, member⟩, ?_, ?_⟩
                ⟨s.now, s.now, Or.inr ⟨rfl, _, Function.update_self _ _ _⟩, ?_, past⟩
              · exact Int.lt_of_le_of_lt began (Int.lt_add_of_pos_right _ (by decide))
              · exact Int.le_refl _
              · exact Int.not_le.mp soon
            obtain ⟨its, known, _, fresh⟩ := dated.begun deletion member
            rw [clash] at known fresh
            obtain rfl := Option.some.inj (known.symm.trans here)
            exact Nat.lt_irrefl _ (fresh (by rw [locking]; rfl))
          · exact apart rfl

/-- In every run of any number of replicas no two cycles' DELETEs overlap. If all that get the
lock are calm, one cycle at most sweeps in every window of an interval's length; the DELETE of
one that is not, if it gets that far, is the second in a window.
-/
theorem sweeps_apart {now : Int} {actions : List Action} {s : State}
    (ran : Machine.run (step configs) (State.init now) actions = some s)
    : Machine.Always (step configs) Apart (State.init now) actions
      ∧ (Machine.Along (step configs) Calm (State.init now) actions
        → Machine.Always (step configs) OnePerWindow (State.init now) actions)
      ∧ ∀ replica t u,
          step configs s (.move replica (.lock .granted)) = some t
          → ¬ Calm s (.move replica (.lock .granted))
          → step configs t (.move replica .send) = some u
          → ¬ OnePerWindow u := by
  have preserved (before : State) (action : Action) (after : State)
      (inv : Sound before ∧ Dated before) (stepped : step configs before action = some after)
      : Sound after ∧ Dated after :=
    ⟨step_sound inv.1 stepped, step_dated inv.1 inv.2 stepped⟩
  have spaced (before : State) (action : Action) (after : State) (calm : Calm before action)
      (inv : (Sound before ∧ Dated before) ∧ Spaced before)
      (stepped : step configs before action = some after)
      : (Sound after ∧ Dated after) ∧ Spaced after :=
    ⟨preserved before action after inv.1 stepped,
      step_spaced inv.1.1 inv.1.2 calm inv.2 stepped⟩
  have start : Sound (State.init now) ∧ Dated (State.init now) := ⟨init_sound now, init_dated now⟩
  have free : Machine.Along (step configs) (fun _ _ => True) (State.init now) actions :=
    Machine.along_of_forall (fun _ _ => trivial) _
  refine ⟨?_, fun calm => ?_, fun replica t u granted early sent => ?_⟩
  · exact Machine.always_of_invariant (fun s a t _ => preserved s a t)
      (fun _ inv => inv.1.apart) start free
  · exact Machine.always_of_invariant spaced (fun _ inv => inv.2.onePerWindow inv.1.1)
      ⟨start, init_spaced now⟩ calm
  · exact not_onePerWindow (Machine.invariant preserved start ran).2 granted early sent

/-- Both replicas delete claimed rows only. -/
def claimedOnly (_ : Nat) : Config := ⟨30, 0⟩

/-- A cycle with one DELETE, in the session with the number of the replica. -/
def oneCycle (replica : Nat) : List Action :=
  [.move replica (.acquire (some replica)), .move replica (.lock .granted), .move replica .send,
    .finish replica, .move replica (.reply false), .move replica (.unlock true)]

/-- The second replica starts while the first one has the lock, and tries again after its sleep;
by then the first one is late for its own second cycle.
-/
def inTurn : List Action :=
  [.launch 0, .launch 1] ++ (oneCycle 0).take 3
  ++ [.move 1 (.acquire (some 1)), .move 1 (.lock .held)] ++ (oneCycle 0).drop 3
  ++ [.tick 3600000000, .move 1 .wake] ++ oneCycle 1

theorem sweeps_apart_in_turn
    : ∃ s,
        Machine.run (step claimedOnly) (State.init 0) inTurn = some s
        ∧ s.deletions.map Deletion.cycle = [⟨0, 1⟩, ⟨1, 2⟩]
        ∧ Machine.Always (step claimedOnly) Apart (State.init 0) inTurn
        ∧ Machine.Always (step claimedOnly) OnePerWindow (State.init 0) inTurn := by
  have calm : Machine.Along (step claimedOnly) Calm (State.init 0) inTurn := by decide +kernel
  have ran : ∃ s, Machine.run (step claimedOnly) (State.init 0) inTurn = some s
      ∧ s.deletions.map Deletion.cycle = [⟨0, 1⟩, ⟨1, 2⟩] := ⟨_, rfl, rfl⟩
  obtain ⟨s, ran, cycles⟩ := ran
  obtain ⟨apart, one, _⟩ := sweeps_apart ran
  exact ⟨s, ran, cycles, apart, one calm⟩

/-- The second replica starts ten seconds after the first. -/
def inPassing : List Action :=
  [.launch 0] ++ oneCycle 0 ++ [.tick 10000000, .launch 1] ++ oneCycle 1

theorem two_sweeps_within_the_hour
    : ∃ s,
        Machine.run (step claimedOnly) (State.init 0) inPassing = some s
        ∧ s.deletions = [⟨⟨0, 1⟩, 0, 0, true⟩, ⟨⟨1, 1⟩, 10000000, 10000000, true⟩]
        ∧ ¬ OnePerWindow s := by
  have ran : ∃ s, Machine.run (step claimedOnly) (State.init 0) inPassing = some s
      ∧ s.deletions = [⟨⟨0, 1⟩, 0, 0, true⟩, ⟨⟨1, 1⟩, 10000000, 10000000, true⟩] :=
    ⟨_, rfl, rfl⟩
  obtain ⟨s, ran, deletions⟩ := ran
  refine ⟨s, ran, deletions, fun one => ?_⟩
  have first : s.SweepsFrom 0 ⟨0, 1⟩ :=
    ⟨0, 0, Or.inl ⟨true, by simp [deletions]⟩, by decide, by decide⟩
  have second : s.SweepsFrom 0 ⟨1, 1⟩ :=
    ⟨10000000, 10000000, Or.inl ⟨true, by simp [deletions]⟩, by decide, by decide⟩
  cases one 0 _ _ first second

end Attesta.Api.SweepLock
