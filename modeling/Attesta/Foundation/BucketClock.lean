import Attesta.Foundation.TokenBucket

/-! Token buckets under a clock that may run backwards between calls, and how long a refused
caller has to wait.

A bucket remembers the time of its last call, whatever it was. So it is credited for every move
of the clock forwards, also for one over an interval it has been credited for before.
-/

namespace TokenBucket

theorem granted_append {K ε : Type*} [LinearOrder K] (first last : K)
    (calls more : List (K × Except ε Unit))
    : granted first last (calls ++ more) = granted first last calls + granted first last more :=
  List.countP_append

section Clock

variable {K : Type*} [Field K] [LinearOrder K]

/-- The time credited for at calls after a given one: the moves of the clock forwards. -/
def credited : K → List K → K
  | _, [] => 0
  | last, now :: rest => max 0 (now - last) + credited now rest

/-- The sum of the moves of the clock forwards, from each call to the next. -/
def ascent : List K → K
  | [] => 0
  | first :: rest => credited first rest

/-- A call at the time of the one before is credited for nothing. -/
theorem credited_replicate_append (last : K) (n : Nat) (times : List K)
    : credited last (List.replicate n last ++ times) = credited last times := by
  induction n with
  | zero => rfl
  | succ n ih => simp [List.replicate_succ, credited, ih]

/-- Repeating the calls moves the clock no further. -/
theorem credited_flatMap_replicate (last : K) (n : Nat) (times : List K)
    : credited last (times.flatMap (List.replicate (n + 1))) = credited last times := by
  induction times generalizing last with
  | nil => rfl
  | cons now rest ih =>
      rw [List.flatMap_cons, List.replicate_succ, List.cons_append, credited,
        credited_replicate_append, ih, credited]

theorem ascent_flatMap_replicate (n : Nat) (times : List K)
    : ascent (times.flatMap (List.replicate (n + 1))) = ascent times := by
  cases times with
  | nil => rfl
  | cons first rest =>
      rw [List.flatMap_cons, List.replicate_succ, List.cons_append, ascent,
        credited_replicate_append, credited_flatMap_replicate, ascent]

end Clock

namespace Rate

variable {K : Type*} [Field K] [LinearOrder K]

/-- The bucket after calls at the given times. -/
def after (r : Rate K) : Option (Bucket K) → List K → Option (Bucket K)
  | b, [] => b
  | b, now :: rest => after r (some (r.next b now)) rest

theorem log_append (r : Rate K) (b : Option (Bucket K)) (times more : List K)
    : r.log b (times ++ more) = r.log b times ++ r.log (r.after b times) more := by
  induction times generalizing b with
  | nil => rfl
  | cons now rest ih => simp [log, after, ih]

variable {r : Rate K} [IsStrictOrderedRing K]

/-- A bucket has at most the tokens it had and what it is credited for. -/
theorem available_le_credit (b : Bucket K) (now : K)
    : r.available (some b) now ≤ b.tokens + r.perSec * max 0 (now - b.lastRefill) := by
  have refilled : r.available (some b) now
      ≤ b.tokens + max 0 (now - b.lastRefill) * r.perSec := min_le_left _ _
  linarith

/-- From a bucket, no more calls are admitted than it has tokens and is credited for, whichever
way the clock moves.
-/
theorem granted_le_credit (rate : 0 ≤ r.perSec) (ceiling : 0 ≤ r.burst) (first last : K)
    (b : Bucket K) (tokens : 0 ≤ b.tokens) (times : List K)
    : (granted first last (r.log (some b) times) : K)
      ≤ b.tokens + r.perSec * credited b.lastRefill times := by
  induction times generalizing b with
  | nil => simpa [log, granted, credited] using tokens
  | cons now rest ih =>
      have onwards := ih (r.next (some b) now)
        (spend_nonneg (available_nonneg rate ceiling (by simpa using tokens) now))
      have found := r.available_le_credit b now
      have cost := r.granted_log_le (some b) now rest first last
      rw [next_tokens, next_lastRefill] at onwards
      rw [credited]
      linarith

/-- No more calls are admitted than the ceiling and what the clock's moves forwards refill. -/
theorem granted_le_ascent (rate : 0 ≤ r.perSec) (ceiling : 0 ≤ r.burst) (first last : K)
    (b : Option (Bucket K)) (tokens : ∀ bucket ∈ b, 0 ≤ bucket.tokens) (times : List K)
    : (granted first last (r.log b times) : K) ≤ r.burst + r.perSec * ascent times := by
  cases times with
  | nil => simpa [log, granted, ascent] using ceiling
  | cons now rest =>
      have onwards := r.granted_le_credit rate ceiling first last (r.next b now)
        (spend_nonneg (available_nonneg rate ceiling tokens now)) rest
      have found := r.available_le_burst b now
      have cost := r.granted_log_le b now rest first last
      rw [next_tokens, next_lastRefill] at onwards
      rw [ascent]
      linarith

/-! A caller who calls often enough at each time leaves less than one token behind, so that
everything credited is admitted sooner or later.
-/

/-- One call inside the window costs what is admitted. -/
theorem granted_log_eq (r : Rate K) {first last now : K} (inside : first ≤ now ∧ now ≤ last)
    (b : Option (Bucket K)) (rest : List K)
    : (granted first last (r.log b (now :: rest)) : K)
      = granted first last (r.log (some (r.next b now)) rest)
        + (r.available b now - spend (r.available b now)) := by
  have cost := r.spend_add_admitted (r.available b now)
  rw [log, granted_cons, Nat.cast_add]
  simp only [inside, and_self, true_and, Nat.cast_ite, Nat.cast_one, Nat.cast_zero]
  linarith

/-- A second call at the same time finds what the first one left. -/
theorem available_next_self (r : Rate K) (b : Option (Bucket K)) (now : K)
    : r.available (some (r.next b now)) now = spend (r.available b now) := by
  have ceiling := (spend_le _).trans (r.available_le_burst b now)
  simpa [available, refill, next] using ceiling

/-- At one time, calls use up the tokens there are. -/
theorem drain {first last now : K} (inside : first ≤ now ∧ now ≤ last) (n : Nat)
    (b : Option (Bucket K)) (enough : r.available b now ≤ n + 1)
    : ∃ bucket, r.after b (List.replicate (n + 1) now) = some bucket
      ∧ bucket.lastRefill = now ∧ bucket.tokens < 1
      ∧ (granted first last (r.log b (List.replicate (n + 1) now)) : K) + bucket.tokens
        = r.available b now := by
  induction n generalizing b with
  | zero =>
      have left : spend (r.available b now) < 1 := by
        rw [spend]
        push_cast at enough
        split <;> linarith
      have cost := r.granted_log_eq inside b []
      refine ⟨r.next b now, rfl, rfl, left, ?_⟩
      rw [List.replicate_one, cost]
      simp [log, granted]
  | succ n ih =>
      have left := r.available_next_self b now
      have fewer : r.available (some (r.next b now)) now ≤ n + 1 := by
        have unused : (0 : K) ≤ n := Nat.cast_nonneg n
        rw [left, spend]
        push_cast at enough
        split <;> linarith
      obtain ⟨bucket, reached, time, empty, used⟩ := ih (some (r.next b now)) fewer
      have cost := r.granted_log_eq inside b (List.replicate (n + 1) now)
      refine ⟨bucket, reached, time, empty, ?_⟩
      rw [List.replicate_succ, cost]
      linarith

/-- Below the ceiling, the credit since the last call is all there. -/
theorem available_eq_credit (b : Bucket K) (now : K)
    (below : b.tokens + r.perSec * max 0 (now - b.lastRefill) ≤ r.burst)
    : r.available (some b) now = b.tokens + r.perSec * max 0 (now - b.lastRefill) := by
  have room : b.tokens + max 0 (now - b.lastRefill) * r.perSec ≤ r.burst := by linarith
  have refilled : r.available (some b) now
      = b.tokens + max 0 (now - b.lastRefill) * r.perSec := min_eq_left room
  linarith

/-- If the ceiling leaves room for what a window refills, calls that come often enough at each
time of the window are admitted for all they are credited for.
-/
theorem credit_le_granted (rate : 0 ≤ r.perSec) {first last : K}
    (room : 1 + r.perSec * (last - first) ≤ r.burst) {n : Nat} (enough : r.burst ≤ n + 1)
    {times : List K} (inside : ∀ t ∈ times, first ≤ t ∧ t ≤ last)
    (b : Bucket K) (started : first ≤ b.lastRefill ∧ b.lastRefill ≤ last) (empty : b.tokens < 1)
    : b.tokens + r.perSec * credited b.lastRefill times
      < granted first last (r.log (some b) (times.flatMap (List.replicate (n + 1)))) + 1 := by
  induction times generalizing b with
  | nil => simpa [log, granted, credited] using empty
  | cons now rest ih =>
      have here := inside now (by simp)
      have moved : r.perSec * max 0 (now - b.lastRefill) ≤ r.perSec * (last - first) :=
        mul_le_mul_of_nonneg_left (max_le (by linarith) (by linarith)) rate
      have found := r.available_eq_credit b now (by linarith)
      obtain ⟨bucket, reached, time, left, used⟩ :=
        r.drain here n (some b) ((r.available_le_burst _ now).trans enough)
      have onwards := ih (fun t member => inside t (by simp [member])) bucket
        (by rwa [time]) left
      rw [time] at onwards
      rw [List.flatMap_cons, log_append, reached, granted_append, Nat.cast_add, credited]
      linarith

/-- So are all of a caller's calls, with the ceiling to begin with. -/
theorem ascent_le_granted (rate : 0 ≤ r.perSec) {first last : K}
    (room : 1 + r.perSec * (last - first) ≤ r.burst) {n : Nat} (enough : r.burst ≤ n + 1)
    {times : List K} (called : times ≠ []) (inside : ∀ t ∈ times, first ≤ t ∧ t ≤ last)
    : r.burst + r.perSec * ascent times
      < granted first last (r.log none (times.flatMap (List.replicate (n + 1)))) + 1 := by
  cases times with
  | nil => exact absurd rfl called
  | cons now rest =>
      have here := inside now (by simp)
      obtain ⟨bucket, reached, time, left, used⟩ := r.drain here n none enough
      have later (t : K) (member : t ∈ rest) : first ≤ t ∧ t ≤ last := inside t (by simp [member])
      have onwards := credit_le_granted rate room enough later bucket (by rwa [time]) left
      have full : r.available none now = r.burst := rfl
      rw [time] at onwards
      rw [List.flatMap_cons, log_append, reached, granted_append, Nat.cast_add, ascent]
      linarith

/-! What a refused caller has to wait for. -/

/-- Looking at a bucket in between changes no later number of tokens. -/
theorem available_of_available (rate : 0 ≤ r.perSec) {b : Bucket K} {now later : K}
    (started : b.lastRefill ≤ now) (since : now ≤ later)
    : r.available (some ⟨r.available (some b) now, now⟩) later = r.available (some b) later := by
  have first : max 0 (now - b.lastRefill) = now - b.lastRefill := max_eq_right (by linarith)
  have second : max 0 (later - now) = later - now := max_eq_right (by linarith)
  have both : max 0 (later - b.lastRefill) = later - b.lastRefill := max_eq_right (by linarith)
  have more := mul_nonneg (sub_nonneg.mpr since) rate
  simp only [available, refill, Option.map_some, Option.getD_some, first, second, both]
  rw [min_add, min_assoc, min_eq_right (by linarith : r.burst ≤ r.burst + _), add_assoc, ← add_mul]
  congr 3
  ring

/-- A token is there as soon as the missing part of one has been refilled. -/
theorem one_le_available (rate : 0 < r.perSec) (ceiling : 1 ≤ r.burst) {b : Bucket K} {now : K}
    (started : b.lastRefill ≤ now)
    : 1 ≤ r.available (some b) now ↔ (1 - b.tokens) / r.perSec ≤ now - b.lastRefill := by
  have elapsed : max 0 (now - b.lastRefill) = now - b.lastRefill := max_eq_right (by linarith)
  simp only [available, refill, Option.map_some, Option.getD_some, elapsed, le_min_iff,
    div_le_iff₀ rate]
  constructor
  · intro there
    linarith [there.1]
  · intro there
    exact ⟨by linarith, ceiling⟩

end Rate

end TokenBucket
