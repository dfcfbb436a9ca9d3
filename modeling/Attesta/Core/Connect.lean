import Attesta.Foundation.Backoff

/-! `db::connect`: the first connection to the database, retried with a backoff. Times are in
milliseconds.
-/

namespace Attesta.Core

open Backoff

/-- `sqlx::Error`, as far as `is_retryable` looks at it. -/
inductive SqlxError
  /-- The server answers with an error, and with its SQLSTATE if it has one. -/
  | database (code : Option String)
  | other (message : String)
  deriving DecidableEq

/-- `CONNECT_MAX_ATTEMPTS`. -/
def connectMaxAttempts : Nat := 10

/-- `CONNECT_INITIAL_BACKOFF`. -/
def connectInitialBackoff : Nat := 500

/-- `CONNECT_MAX_BACKOFF`. -/
def connectMaxBackoff : Nat := 10000

/-- `CONNECT_ATTEMPT_TIMEOUT`. -/
def connectAttemptTimeout : Nat := 5000

def isRetryable : SqlxError → Bool
  | .database code => !(code == some "28P01" || code == some "28000" || code == some "3D000")
  | .other _ => true

def retryPolicy : Policy SqlxError where
  maxAttempts := connectMaxAttempts
  initial := connectInitialBackoff
  cap := connectMaxBackoff
  retryable := isRetryable

/-- `connect` on a server that answers attempt after attempt. -/
def connect {PgPool : Type} (server : Service SqlxError PgPool) (now : Nat)
    : Outcome SqlxError PgPool :=
  retryPolicy.run server now

/-- The pauses before the last attempt. -/
def totalBackoff : Nat := 55500

theorem totalBackoff_eq
    : ((List.range (connectMaxAttempts - 1)).map retryPolicy.delay).sum = totalBackoff := by
  decide

theorem sum_delay_le {k : Nat} (within : k < connectMaxAttempts)
    : ((List.range k).map retryPolicy.delay).sum ≤ totalBackoff := by
  have prefixed : List.range k <+: List.range (connectMaxAttempts - 1) := by
    rw [List.prefix_iff_eq_take, List.take_range, List.length_range]
    simp only [connectMaxAttempts] at within ⊢
    rw [Nat.min_eq_left (by omega)]
  exact totalBackoff_eq ▸ (prefixed.sublist.map _).sum_le_sum (fun _ _ => Nat.zero_le _)

variable {PgPool : Type} {server : Service SqlxError PgPool} {now : Nat}

/-- No attempt outlives its timeout. -/
def Timely (server : Service SqlxError PgPool) : Prop :=
  ∀ attempt clock, (server attempt clock).2 ≤ connectAttemptTimeout

/-- A server that comes up after eight seconds. An attempt waits for it until its timeout. -/
def slowServer : Service SqlxError Unit := fun _ clock =>
  if clock + connectAttemptTimeout < 8000 then
    (.error (.other "pool timed out while waiting for an open connection"), connectAttemptTimeout)
  else (.ok (), 8000 - clock)

theorem slowServer_timely : Timely slowServer := by
  intro attempt clock
  unfold slowServer
  split
  next => exact le_rfl
  next late =>
    dsimp only
    omega

/-- The call always returns, within ten attempts and 105.5 seconds. It gives the first answer that
is a connection, a terminal error or the tenth error; each pause doubles up to ten seconds.
-/
theorem connect_returns (server : Service SqlxError PgPool) (timely : Timely server) (now : Nat)
    : ∃ k < connectMaxAttempts,
        (connect server now).result = some (retryPolicy.answer server now k)
        ∧ (connect server now).starts = (List.range (k + 1)).map (retryPolicy.start server now)
        ∧ (∀ j < k, ∃ e, retryPolicy.answer server now j = .error e ∧ isRetryable e = true)
        ∧ (∀ e, retryPolicy.answer server now k = .error e
          → k + 1 = connectMaxAttempts ∨ isRetryable e = false)
        ∧ (∀ j, retryPolicy.start server now (j + 1)
          = retryPolicy.start server now j
            + (server (j + 1) (retryPolicy.start server now j)).2
            + min (connectInitialBackoff * 2 ^ j) connectMaxBackoff)
        ∧ (connect server now).finish
          ≤ now + totalBackoff + connectMaxAttempts * connectAttemptTimeout := by
  obtain ⟨k, within, before, here⟩ :=
    @Policy.exists_last _ _ retryPolicy server now (by decide)
  have returned := Policy.run_eq within before here
  refine ⟨k, within, congrArg Outcome.result returned, congrArg Outcome.starts returned, ?_, ?_,
    ?_, ?_⟩
  · intro j earlier
    exact (before j earlier).2
  · intro e failed
    by_contra more
    rw [not_or, Bool.not_eq_false] at more
    exact here ⟨more.1, e, failed, more.2⟩
  · intro j
    have capped : retryPolicy.initial ≤ retryPolicy.cap := by decide
    exact congrArg (_ + ·) (Policy.delay_eq capped j)
  · have start : retryPolicy.start server now k
        ≤ now + ((List.range k).map retryPolicy.delay).sum + k * connectAttemptTimeout :=
      Policy.start_le timely k
    have last := timely (k + 1) (retryPolicy.start server now k)
    have pauses := sum_delay_le within
    have attempts : (k + 1) * connectAttemptTimeout
        ≤ connectMaxAttempts * connectAttemptTimeout :=
      Nat.mul_le_mul_right _ within
    rw [Nat.succ_mul] at attempts
    rw [connect, returned]
    dsimp only
    omega

theorem connect_returns_slowServer
    : ∃ k < connectMaxAttempts,
        (connect slowServer 0).result = some (retryPolicy.answer slowServer 0 k)
        ∧ (connect slowServer 0).starts
          = (List.range (k + 1)).map (retryPolicy.start slowServer 0)
        ∧ (∀ j < k, ∃ e, retryPolicy.answer slowServer 0 j = .error e ∧ isRetryable e = true)
        ∧ (∀ e, retryPolicy.answer slowServer 0 k = .error e
          → k + 1 = connectMaxAttempts ∨ isRetryable e = false)
        ∧ (∀ j, retryPolicy.start slowServer 0 (j + 1)
          = retryPolicy.start slowServer 0 j
            + (slowServer (j + 1) (retryPolicy.start slowServer 0 j)).2
            + min (connectInitialBackoff * 2 ^ j) connectMaxBackoff)
        ∧ (connect slowServer 0).finish
          ≤ 0 + totalBackoff + connectMaxAttempts * connectAttemptTimeout :=
  connect_returns slowServer slowServer_timely 0

/-- A server that comes up within the pauses is connected to, at most 20 seconds after it is up,
if nothing before says that the credentials are wrong.
-/
theorem connect_cold_start (server : Service SqlxError PgPool) (timely : Timely server)
    {now up : Nat} (soon : now ≤ up ∧ up ≤ now + totalBackoff)
    (works : ∀ attempt clock, up ≤ clock → ∃ pool, (server attempt clock).1 = .ok pool)
    (transient
      : ∀ attempt clock e, clock < up → (server attempt clock).1 = .error e
          → isRetryable e = true)
    : (∃ pool, (connect server now).result = some (.ok pool))
      ∧ (connect server now).finish
        ≤ up + 2 * connectAttemptTimeout + connectMaxBackoff := by
  obtain ⟨k, within, before, here⟩ :=
    @Policy.exists_last _ _ retryPolicy server now (by decide)
  have returned := Policy.run_eq within before here
  rw [connect, returned]
  have early : ∀ j, retryPolicy.Retried server now j → retryPolicy.start server now j < up := by
    intro j retried
    by_contra late
    obtain ⟨pool, works⟩ := works (j + 1) _ (Nat.not_lt.mp late)
    obtain ⟨_, e, failed, _⟩ := retried
    unfold Policy.answer at failed
    rw [works] at failed
    cases failed
  constructor
  · cases answered : retryPolicy.answer server now k with
    | ok pool => exact ⟨pool, rfl⟩
    | error e =>
        -- The last attempt starts after all the pauses, so the server is up by then.
        have soonEnough : retryPolicy.start server now k < up := by
          by_contra late
          obtain ⟨pool, works⟩ := works (k + 1) _ (Nat.not_lt.mp late)
          unfold Policy.answer at answered
          rw [works] at answered
          cases answered
        have retryable := transient (k + 1) _ e soonEnough answered
        have tenth : k + 1 = connectMaxAttempts := by
          by_contra more
          exact here ⟨more, e, answered, retryable⟩
        have pauses : now + ((List.range k).map retryPolicy.delay).sum
            ≤ retryPolicy.start server now k :=
          Policy.sum_delay_le_start k
        rw [Nat.eq_sub_of_add_eq tenth, totalBackoff_eq] at pauses
        rw [Nat.eq_sub_of_add_eq tenth] at soonEnough
        omega
  · cases k with
    | zero =>
        have first := timely 1 now
        change now + (server 1 now).2 ≤ _
        omega
    | succ k =>
        have last := early k (before k (Nat.lt_succ_self k))
        have took := timely (k + 1 + 1) (retryPolicy.start server now (k + 1))
        have previous := timely (k + 1) (retryPolicy.start server now k)
        have pause : retryPolicy.delay k ≤ connectMaxBackoff :=
          Policy.delay_le_cap (by decide) k
        have next : retryPolicy.start server now (k + 1)
            = retryPolicy.start server now k
              + (server (k + 1) (retryPolicy.start server now k)).2
              + retryPolicy.delay k := rfl
        dsimp only
        omega

theorem connect_cold_start_slowServer
    : (connect slowServer 0).starts = [0, 5500]
      ∧ (∃ pool, (connect slowServer 0).result = some (.ok pool))
      ∧ (connect slowServer 0).finish
        ≤ 8000 + 2 * connectAttemptTimeout + connectMaxBackoff := by
  refine ⟨by decide, connect_cold_start slowServer slowServer_timely (by decide) ?_ ?_⟩
  · intro attempt clock up
    have late : ¬ clock + connectAttemptTimeout < 8000 := by omega
    exact ⟨(), by rw [slowServer, if_neg late]⟩
  · intro attempt clock e _ failed
    unfold slowServer at failed
    split at failed
    next =>
      cases failed
      rfl
    next => cases failed

end Attesta.Core
