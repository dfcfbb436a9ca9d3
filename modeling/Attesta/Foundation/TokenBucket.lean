import Mathlib.Algebra.Order.Field.Basic
import Mathlib.Tactic.Linarith
import Mathlib.Tactic.Ring

/-! Token buckets over exact time. A bucket is refilled when it is used, so what a caller sees
is the number of tokens available at the time of the call; two buckets with the same tokens at
all later times are the same limiter.
-/

namespace TokenBucket

structure Bucket (K : Type*) where
  tokens : K
  lastRefill : K

/-- Tokens per unit of time and the ceiling they fill up to. -/
structure Rate (K : Type*) where
  perSec : K
  burst : K

section Windows

variable {K ε : Type*} [LinearOrder K]

/-- The calls admitted in a closed window of time. -/
def granted (first last : K) (calls : List (K × Except ε Unit)) : Nat :=
  calls.countP (fun call => decide (first ≤ call.1 ∧ call.1 ≤ last) && call.2.isOk)

theorem granted_cons (first last : K) (call : K × Except ε Unit)
    (calls : List (K × Except ε Unit))
    : granted first last (call :: calls)
      = granted first last calls
        + if (first ≤ call.1 ∧ call.1 ≤ last) ∧ call.2.isOk = true then 1 else 0 := by
  simp [granted, List.countP_cons]

/-- No call after the window counts. -/
theorem granted_eq_zero {first last : K} {calls : List (K × Except ε Unit)}
    (after : ∀ call ∈ calls, last < call.1)
    : granted first last calls = 0 := by
  rw [granted, List.countP_eq_zero]
  intro call member
  simp [not_le_of_gt (after call member)]

end Windows

namespace Rate

variable {K : Type*} [Field K] [LinearOrder K] (r : Rate K)

/-- The tokens of a bucket at a time; a time before the last refill adds nothing. -/
def refill (b : Bucket K) (now : K) : K :=
  min (b.tokens + max 0 (now - b.lastRefill) * r.perSec) r.burst

/-- The tokens a caller finds; a caller without a bucket finds a full one. -/
def available (b : Option (Bucket K)) (now : K) : K := (b.map (r.refill · now)).getD r.burst

/-- Admission, or else the time until a whole token is there. -/
def verdict (tokens : K) : Except K Unit :=
  if 1 ≤ tokens then .ok () else .error ((1 - tokens) / r.perSec)

/-- What is left after a call that found the given tokens. -/
def spend (tokens : K) : K := if 1 ≤ tokens then tokens - 1 else tokens

/-- The bucket after a call. -/
def next (b : Option (Bucket K)) (now : K) : Bucket K := ⟨spend (r.available b now), now⟩

/-- The calls of one caller at the given times with the verdicts they get. -/
def log : Option (Bucket K) → List K → List (K × Except K Unit)
  | _, [] => []
  | b, now :: rest => (now, r.verdict (r.available b now)) :: log (some (r.next b now)) rest

@[simp]
theorem next_tokens (b : Option (Bucket K)) (now : K)
    : (r.next b now).tokens = spend (r.available b now) :=
  rfl

@[simp]
theorem next_lastRefill (b : Option (Bucket K)) (now : K) : (r.next b now).lastRefill = now := rfl

theorem refill_le_burst (b : Bucket K) (now : K) : r.refill b now ≤ r.burst := min_le_right _ _

theorem available_le_burst (b : Option (Bucket K)) (now : K)
    : r.available b now ≤ r.burst := by
  cases b with
  | none => exact le_rfl
  | some b => exact r.refill_le_burst b now

theorem times_log (b : Option (Bucket K)) (times : List K)
    : (r.log b times).map Prod.fst = times := by
  induction times generalizing b with
  | nil => rfl
  | cons now rest ih => simp [log, ih]

/-- Admission costs one token and refusal none. -/
theorem spend_add_admitted (tokens : K)
    : spend tokens + (if (r.verdict tokens).isOk then 1 else 0) = tokens := by
  unfold spend verdict
  split <;> simp [Except.isOk, Except.toBool]

/-- After the window nothing counts. -/
theorem granted_log_eq_zero (b : Option (Bucket K)) {first last now : K} {rest : List K}
    (after : last < now) (ordered : (now :: rest).Pairwise (· ≤ ·))
    : granted first last (r.log b (now :: rest)) = 0 := by
  apply granted_eq_zero
  intro call member
  have time : call.1 ∈ now :: rest := r.times_log b (now :: rest) ▸ List.mem_map_of_mem member
  rcases List.mem_cons.mp time with same | later
  · rwa [same]
  · exact after.trans_le ((List.pairwise_cons.mp ordered).1 _ later)

variable {r} [IsStrictOrderedRing K]

/-- One call: what is admitted now costs a token, the rest is admitted from what is left. -/
theorem granted_log_le (r : Rate K) (b : Option (Bucket K)) (now : K) (rest : List K)
    (first last : K)
    : (granted first last (r.log b (now :: rest)) : K)
      ≤ granted first last (r.log (some (r.next b now)) rest)
        + (r.available b now - spend (r.available b now)) := by
  have cost := r.spend_add_admitted (r.available b now)
  rw [log, granted_cons, Nat.cast_add]
  have counted : (((if (first ≤ now ∧ now ≤ last)
        ∧ (r.verdict (r.available b now)).isOk = true then 1 else 0 : Nat)) : K)
      ≤ if (r.verdict (r.available b now)).isOk then 1 else 0 := by
    split
    next both => simp [both.2]
    next => split <;> simp
  linarith

/-- Tokens never get fewer by waiting. -/
theorem available_mono (rate : 0 ≤ r.perSec) (b : Option (Bucket K)) {now later : K}
    (h : now ≤ later)
    : r.available b now ≤ r.available b later := by
  cases b with
  | none => exact le_rfl
  | some b =>
      have elapsed : max 0 (now - b.lastRefill) ≤ max 0 (later - b.lastRefill) :=
        max_le_max le_rfl (by linarith)
      have refilled := mul_le_mul_of_nonneg_right elapsed rate
      exact min_le_min (by linarith) le_rfl

/-- A full bucket stays full until it is used, as if it had never been. -/
theorem available_of_full (rate : 0 ≤ r.perSec) {b : Option (Bucket K)} {now later : K}
    (full : r.burst ≤ r.available b now) (h : now ≤ later)
    : r.available b later = r.burst :=
  le_antisymm (r.available_le_burst b later) (full.trans (available_mono rate b h))

theorem available_nonneg (rate : 0 ≤ r.perSec) (ceiling : 0 ≤ r.burst) {b : Option (Bucket K)}
    (tokens : ∀ bucket ∈ b, 0 ≤ bucket.tokens) (now : K)
    : 0 ≤ r.available b now := by
  cases b with
  | none => exact ceiling
  | some b =>
      have refilled : 0 ≤ max 0 (now - b.lastRefill) * r.perSec :=
        mul_nonneg (le_max_left _ _) rate
      exact le_min (by linarith [tokens b rfl]) ceiling

theorem spend_nonneg {tokens : K} (h : 0 ≤ tokens) : 0 ≤ spend tokens := by
  unfold spend
  split <;> linarith

theorem spend_le (tokens : K) : spend tokens ≤ tokens := by
  unfold spend
  split <;> linarith

/-- A bucket has as many tokens as it had, plus what has been refilled since. -/
theorem available_le (b : Bucket K) {now : K} (h : b.lastRefill ≤ now)
    : r.available (some b) now ≤ b.tokens + r.perSec * (now - b.lastRefill) := by
  have elapsed : max 0 (now - b.lastRefill) = now - b.lastRefill := max_eq_right (by linarith)
  have refilled : r.available (some b) now
      ≤ b.tokens + max 0 (now - b.lastRefill) * r.perSec := min_le_left _ _
  rw [elapsed] at refilled
  linarith

/-- From a bucket, no more calls are admitted up to a time than it has tokens and refills. -/
theorem granted_le_tokens (rate : 0 ≤ r.perSec) (ceiling : 0 ≤ r.burst) (first : K) {last : K}
    (b : Bucket K) (tokens : 0 ≤ b.tokens) {times : List K} (started : b.lastRefill ≤ last)
    (ordered : (b.lastRefill :: times).Pairwise (· ≤ ·))
    : (granted first last (r.log (some b) times) : K)
      ≤ b.tokens + r.perSec * (last - b.lastRefill) := by
  induction times generalizing b with
  | nil =>
      have refills := mul_nonneg rate (sub_nonneg.mpr started)
      simp only [log, granted, List.countP_nil, Nat.cast_zero]
      linarith
  | cons now rest ih =>
      obtain ⟨before, later⟩ := List.pairwise_cons.mp ordered
      by_cases inside : now ≤ last
      · have onwards := ih (r.next (some b) now)
          (spend_nonneg (available_nonneg rate ceiling (by simpa using tokens) now)) inside later
        have found := r.available_le b (before now (by simp))
        have cost := r.granted_log_le (some b) now rest first last
        rw [next_tokens, next_lastRefill] at onwards
        linarith
      · rw [granted_log_eq_zero r (some b) (lt_of_not_ge inside) later, Nat.cast_zero]
        have refills := mul_nonneg rate (sub_nonneg.mpr started)
        linarith

/-- In every window of time the calls admitted are at most the ceiling and what is refilled
within the window.
-/
theorem granted_le_window (rate : 0 ≤ r.perSec) (ceiling : 0 ≤ r.burst) {first last : K}
    (window : first ≤ last) (b : Option (Bucket K)) (tokens : ∀ bucket ∈ b, 0 ≤ bucket.tokens)
    {times : List K} (ordered : times.Pairwise (· ≤ ·))
    : (granted first last (r.log b times) : K) ≤ r.burst + r.perSec * (last - first) := by
  have refills := mul_nonneg rate (sub_nonneg.mpr window)
  induction times generalizing b with
  | nil =>
      simp only [log, granted, List.countP_nil, Nat.cast_zero]
      linarith
  | cons now rest ih =>
      have left := spend_nonneg (available_nonneg rate ceiling tokens now)
      rcases lt_or_ge now first with early | started
      · -- A call before the window only empties the bucket.
        rw [log, granted_cons, if_neg (fun both => absurd both.1.1 (not_le_of_gt early)),
          Nat.add_zero]
        exact ih (some (r.next b now)) (by simpa [next] using left) ordered.of_cons
      · rcases lt_or_ge last now with late | inside
        · rw [granted_log_eq_zero r b late ordered, Nat.cast_zero]
          linarith
        · have onwards := r.granted_le_tokens rate ceiling first (r.next b now) left inside
            ordered
          have cost := r.granted_log_le b now rest first last
          have found := r.available_le_burst b now
          have elapsed := mul_le_mul_of_nonneg_left (sub_le_sub_left started last) rate
          rw [next_tokens, next_lastRefill] at onwards
          linarith

end Rate

end TokenBucket
