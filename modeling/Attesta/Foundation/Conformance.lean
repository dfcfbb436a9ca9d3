import Attesta.Foundation.TokenBucket

/-! The other side of a token bucket: traffic that keeps to the rate in every window of time is
never refused. A bucket that is low has calls to show for it, all since a moment at which it
was full.
-/

namespace TokenBucket.Rate

section Windows

variable {K : Type*} [LinearOrder K]

/-- The calls made in a closed window of time, whatever their verdicts. -/
def called (first last : K) (times : List K) : Nat :=
  times.countP (fun time => decide (first ≤ time ∧ time ≤ last))

/-- Where everything is admitted, the admitted calls of a window are all of its calls. -/
theorem granted_eq_called {ε : Type*} {first last : K} {calls : List (K × Except ε Unit)}
    (admitted : ∀ call ∈ calls, call.2.isOk = true)
    : granted first last calls = called first last (calls.map Prod.fst) := by
  rw [called, List.countP_map]
  refine List.countP_congr fun call member => ?_
  simp [admitted call member]

/-- A call within the window counts, besides those before it that are in the window. -/
theorem called_succ_le {first now : K} {earlier rest : List K} (started : first ≤ now)
    (before : ∀ time ∈ earlier, time ≤ now)
    : earlier.countP (fun time => decide (first ≤ time)) + 1
      ≤ called first now (earlier ++ now :: rest) := by
  have same : earlier.countP (fun time => decide (first ≤ time)) = called first now earlier := by
    refine List.countP_congr fun time member => ?_
    simp [before time member]
  have here : called first now (now :: rest) = called first now rest + 1 := by
    simp [called, started]
  have both : called first now (earlier ++ now :: rest)
      = called first now earlier + called first now (now :: rest) :=
    List.countP_append
  omega

end Windows

variable {K : Type*} [Field K] [LinearOrder K] (r : Rate K)

/-- Every window of time has at most as many calls as the ceiling and the refill within it. -/
def Conforms (times : List K) : Prop :=
  ∀ first last, first ≤ last → (called first last times : K) ≤ r.burst + r.perSec * (last - first)

/-- A bucket that has only admitted calls so far: whenever it is looked at, it was full at some
moment and lost no more than the calls made since.
-/
def Backed (earlier : List K) (b : Option (Bucket K)) : Prop :=
  ∀ now, (∀ time ∈ earlier, time ≤ now)
    → ∃ full, full ≤ now
      ∧ r.burst + r.perSec * (now - full)
        ≤ r.available b now + earlier.countP (fun time => decide (full ≤ time))

/-- An unused bucket is full. -/
theorem backed_none : r.Backed [] none := by
  intro now _
  exact ⟨now, le_rfl, by simp [available]⟩

variable {r} [IsStrictOrderedRing K]

/-- The next call of conforming traffic finds a token. -/
theorem Backed.one_le_available {earlier rest : List K} {b : Option (Bucket K)} {now : K}
    (h : r.Backed earlier b) (conforms : r.Conforms (earlier ++ now :: rest))
    (before : ∀ time ∈ earlier, time ≤ now)
    : 1 ≤ r.available b now := by
  obtain ⟨full, started, backed⟩ := h now before
  have window := conforms full now started
  have counted : ((earlier.countP (fun time => decide (full ≤ time)) + 1 : Nat) : K)
      ≤ called full now (earlier ++ now :: rest) :=
    Nat.cast_le.mpr (called_succ_le started before)
  push_cast at counted
  linarith

/-- A call that is admitted is one more to show for the missing tokens. -/
theorem Backed.next {earlier : List K} {b : Option (Bucket K)} {now : K}
    (h : r.Backed earlier b) (before : ∀ time ∈ earlier, time ≤ now)
    (there : 1 ≤ r.available b now)
    : r.Backed (earlier ++ [now]) (some (r.next b now)) := by
  intro later after
  have waited : now ≤ later := after now (by simp)
  have spent : (r.next b now).tokens = r.available b now - 1 := by
    rw [next_tokens, spend, if_pos there]
  have elapsed : max 0 (later - now) = later - now := max_eq_right (by linarith)
  rcases le_total (r.available b now - 1 + (later - now) * r.perSec) r.burst with short | again
  · -- Not full since: the same moment, with one more call.
    obtain ⟨full, started, backed⟩ := h now before
    have found : r.available (some (r.next b now)) later
        = r.available b now - 1 + (later - now) * r.perSec := by
      change min ((r.next b now).tokens + max 0 (later - now) * r.perSec) r.burst = _
      rw [spent, elapsed, min_eq_left short]
    refine ⟨full, started.trans waited, ?_⟩
    have one : ([now].countP fun time => decide (full ≤ time)) = 1 := by simp [started]
    rw [found, List.countP_append, one]
    push_cast
    linarith
  · have found : r.available (some (r.next b now)) later = r.burst := by
      change min ((r.next b now).tokens + max 0 (later - now) * r.perSec) r.burst = _
      rw [spent, elapsed, min_eq_right again]
    refine ⟨later, le_rfl, ?_⟩
    rw [found, sub_self, mul_zero, add_zero]
    exact le_add_of_nonneg_right (Nat.cast_nonneg _)

/-- From a backed bucket on, all of conforming traffic is admitted. -/
theorem Backed.log_isOk {earlier times : List K} {b : Option (Bucket K)} (h : r.Backed earlier b)
    (conforms : r.Conforms (earlier ++ times)) (ordered : (earlier ++ times).Pairwise (· ≤ ·))
    : ∀ call ∈ r.log b times, call.2.isOk = true := by
  induction times generalizing earlier b with
  | nil => simp [log]
  | cons now rest ih =>
      have before : ∀ time ∈ earlier, time ≤ now := fun time member =>
        (List.pairwise_append.mp ordered).2.2 time member now (by simp)
      have there := h.one_le_available conforms before
      have split : earlier ++ now :: rest = (earlier ++ [now]) ++ rest := by simp
      intro call member
      rcases List.mem_cons.mp member with rfl | later
      · simp [verdict, there, Except.isOk, Except.toBool]
      · exact ih (h.next before there) (split ▸ conforms) (split ▸ ordered) call later

/-- A bucket of one's own refuses nothing exactly if the traffic conforms to its rate. -/
theorem log_isOk_iff (rate : 0 ≤ r.perSec) (ceiling : 0 ≤ r.burst) {times : List K}
    (ordered : times.Pairwise (· ≤ ·))
    : (∀ call ∈ r.log none times, call.2.isOk = true) ↔ r.Conforms times := by
  constructor
  · intro admitted first last window
    have bound := granted_le_window rate ceiling window none (by simp) ordered
    rwa [granted_eq_called admitted, times_log] at bound
  · exact fun conforms => r.backed_none.log_isOk conforms ordered

end TokenBucket.Rate
