import Mathlib.Algebra.Order.BigOperators.Group.List
import Mathlib.Data.List.Range
import Mathlib.Tactic.Ring

/-! A retry loop with a capped exponential backoff, over any service whose answers may depend on
the number of the attempt and on the time it starts.
-/

namespace Backoff

variable {ε α : Type*}

/-- A policy; times are in any unit. -/
structure Policy (ε : Type*) where
  maxAttempts : Nat
  initial : Nat
  cap : Nat
  retryable : ε → Bool

/-- The result of an attempt and how long it takes, by its number and its start. -/
abbrev Service (ε α : Type*) := Nat → Nat → Except ε α × Nat

/-- What the loop comes to. -/
structure Outcome (ε α : Type*) where
  /-- None if the loop ends without a return. -/
  result : Option (Except ε α)
  finish : Nat
  /-- When each attempt started. -/
  starts : List Nat

variable (policy : Policy ε) (service : Service ε α) (now : Nat)

/-- The body of the loop for the attempts that are left. -/
def Policy.loop : List Nat → Nat → Nat → Outcome ε α
  | [], _, clock => ⟨none, clock, []⟩
  | attempt :: later, backoff, clock =>
      let finish := clock + (service attempt clock).2
      match (service attempt clock).1 with
      | .ok a => ⟨some (.ok a), finish, [clock]⟩
      | .error e =>
          if attempt = policy.maxAttempts ∨ policy.retryable e = false then
            ⟨some (.error e), finish, [clock]⟩
          else
            let rest := Policy.loop later (min (backoff * 2) policy.cap) (finish + backoff)
            { rest with starts := clock :: rest.starts }

/-- The loop over the attempts `1..=maxAttempts`. -/
def Policy.run : Outcome ε α :=
  policy.loop service (List.range' 1 policy.maxAttempts) policy.initial now

-----------------------------------------------------------------------------------------
-- The schedule
-----------------------------------------------------------------------------------------

/-- The pause after `k + 1` failed attempts. -/
def Policy.delay : Nat → Nat
  | 0 => policy.initial
  | k + 1 => min (Policy.delay k * 2) policy.cap

/-- When attempt `k + 1` starts if all before it are retried. -/
def Policy.start : Nat → Nat
  | 0 => now
  | k + 1 => Policy.start k + (service (k + 1) (Policy.start k)).2 + policy.delay k

/-- How attempt `k + 1` ends if all before it are retried. -/
def Policy.answer (k : Nat) : Except ε α := (service (k + 1) (policy.start service now k)).1

/-- Attempt `k + 1` fails, and another one follows. -/
def Policy.Retried (k : Nat) : Prop :=
  k + 1 ≠ policy.maxAttempts
  ∧ ∃ e, policy.answer service now k = .error e ∧ policy.retryable e = true

variable {policy}

theorem Policy.delay_eq (h : policy.initial ≤ policy.cap) (k : Nat)
    : policy.delay k = min (policy.initial * 2 ^ k) policy.cap := by
  induction k with
  | zero => simp [delay, h]
  | succ k ih =>
      rw [delay, ih, pow_succ, ← Nat.mul_assoc]
      omega

theorem Policy.delay_le_cap (h : policy.initial ≤ policy.cap) (k : Nat)
    : policy.delay k ≤ policy.cap := by
  rw [delay_eq h]
  exact Nat.min_le_right _ _

variable {service now}

/-- Every attempt starts after all the pauses before it. -/
theorem Policy.sum_delay_le_start (k : Nat)
    : now + ((List.range k).map policy.delay).sum ≤ policy.start service now k := by
  induction k with
  | zero => exact le_rfl
  | succ k ih =>
      rw [List.range_succ, List.map_append, List.sum_append, start]
      simp only [List.map_cons, List.map_nil, List.sum_singleton]
      omega

/-- If no attempt takes longer than `timeout`, the schedule is that much late at most. -/
theorem Policy.start_le {timeout : Nat}
    (timely : ∀ attempt clock, (service attempt clock).2 ≤ timeout) (k : Nat)
    : policy.start service now k ≤ now + ((List.range k).map policy.delay).sum + k * timeout := by
  induction k with
  | zero => simp [start]
  | succ k ih =>
      have here := timely (k + 1) (policy.start service now k)
      rw [List.range_succ, List.map_append, List.sum_append, start, Nat.succ_mul]
      simp only [List.map_cons, List.map_nil, List.sum_singleton]
      omega

-----------------------------------------------------------------------------------------
-- The loop follows the schedule
-----------------------------------------------------------------------------------------

/-- After retried attempts the loop goes on with the scheduled pause and time. -/
theorem Policy.run_eq_loop {k : Nat} (within : k < policy.maxAttempts)
    (before : ∀ j < k, policy.Retried service now j)
    : policy.run service now
      = let rest := policy.loop service (List.range' (k + 1) (policy.maxAttempts - k))
          (policy.delay k) (policy.start service now k)
        { rest with starts := (List.range k).map (policy.start service now) ++ rest.starts } := by
  induction k with
  | zero => rfl
  | succ k ih =>
      obtain ⟨more, e, failed, retryable⟩ := before k (Nat.lt_succ_self k)
      have left : policy.maxAttempts - k = policy.maxAttempts - (k + 1) + 1 := by omega
      rw [ih (Nat.lt_of_succ_lt within) (fun j lt => before j (Nat.lt_succ_of_lt lt)), left,
        List.range'_succ, List.range_succ, List.map_append]
      unfold answer at failed
      simp [loop, failed, more, retryable, start, delay]

/-- The first attempt that is not retried is the last one, and its answer is returned. -/
theorem Policy.run_eq {k : Nat} (within : k < policy.maxAttempts)
    (before : ∀ j < k, policy.Retried service now j) (here : ¬ policy.Retried service now k)
    : policy.run service now
      = { result := some (policy.answer service now k)
          finish := policy.start service now k
            + (service (k + 1) (policy.start service now k)).2
          starts := (List.range (k + 1)).map (policy.start service now) } := by
  have left : policy.maxAttempts - k = policy.maxAttempts - (k + 1) + 1 := by omega
  rw [run_eq_loop within before, left, List.range'_succ, List.range_succ, List.map_append]
  cases answered : policy.answer service now k with
  | ok a =>
      unfold answer at answered
      simp [loop, answered]
  | error e =>
      have stops : k + 1 = policy.maxAttempts ∨ policy.retryable e = false := by
        by_contra more
        rw [not_or, Bool.not_eq_false] at more
        exact here ⟨more.1, e, answered, more.2⟩
      unfold answer at answered
      simp [loop, answered, stops]

/-- Some attempt is not retried. -/
theorem Policy.exists_last (some : 0 < policy.maxAttempts)
    : ∃ k < policy.maxAttempts, (∀ j < k, policy.Retried service now j)
        ∧ ¬ policy.Retried service now k := by
  classical
  have last : ¬ policy.Retried service now (policy.maxAttempts - 1) := fun retried =>
    retried.1 (Nat.sub_add_cancel some)
  have found : ∃ k, ¬ policy.Retried service now k := ⟨_, last⟩
  refine ⟨Nat.find found, ?_, ?_, Nat.find_spec found⟩
  · have first := Nat.find_min' found last
    omega
  · intro j lt
    exact not_not.mp (Nat.find_min found lt)

end Backoff
