import Attesta.Foundation.BucketClock
import Attesta.Api.Limits

/-! The `Retry-After` of a refusal. The IP that is refused keeps the tokens it has, and until a
call of it is granted it finds what they have been refilled to; refused calls, other IPs and the
clean-up of the table change nothing about that.
-/

namespace Attesta.Api.IpBuckets

open TokenBucket

variable {Ip : Type} [DecidableEq Ip]

/-- From the given time on, an IP finds what a bucket makes available. -/
def Finds (self : IpBuckets Ip) (ip : Ip) (bucket : Bucket ℚ) (since : ℚ) : Prop :=
  ∀ t, since ≤ t → self.rate.available (self.buckets.lookup ip) t
    = self.rate.available (some bucket) t

/-- A refused caller waits for the missing part of a token, in whole seconds. -/
theorem refused_iff {self : IpBuckets Ip} (on : self.enabled = true) {ip : Ip} {now : ℚ}
    {retry : Nat}
    : (self.tryAcquire ip now).1 = .error retry
      ↔ self.rate.available (self.buckets.lookup ip) now < 1
        ∧ retry = ⌈(1 - self.rate.available (self.buckets.lookup ip) now) / self.perSec⌉₊ := by
  rw [tryAcquire_eq on, Rate.verdict]
  split
  next there => simp [Except.mapError, not_lt.mpr there]
  next missing =>
    have low := not_le.mp missing
    simp only [Except.mapError, Except.error.injEq, low, true_and]
    exact eq_comm

theorem granted_iff {self : IpBuckets Ip} (on : self.enabled = true) {ip : Ip} {now : ℚ}
    : (self.tryAcquire ip now).1 = .ok ()
      ↔ 1 ≤ self.rate.available (self.buckets.lookup ip) now := by
  rw [tryAcquire_eq on, Rate.verdict]
  split
  next there => simp [Except.mapError, there]
  next missing => simp [Except.mapError, missing]

/-- The limiter a call leaves. -/
theorem tryAcquire_snd {self : IpBuckets Ip} (on : self.enabled = true) (ip : Ip) (now : ℚ)
    : (self.tryAcquire ip now).2 = self.afterCall ip now := by
  rw [tryAcquire_eq on]

/-- After its refusal, an IP finds the tokens it was refused with and their refill. -/
theorem finds_afterCall_refused {self : IpBuckets Ip} {ip : Ip} {now : ℚ}
    (refused : self.rate.available (self.buckets.lookup ip) now < 1)
    : (self.afterCall ip now).Finds ip
        ⟨self.rate.available (self.buckets.lookup ip) now, now⟩ now := by
  intro t _
  rw [rate_afterCall, available_afterCall_self, Rate.next, Rate.spend,
    if_neg (not_le.mpr refused)]

/-- A call that is not a granted one of the IP leaves it what it found. -/
theorem Finds.afterCall {self : IpBuckets Ip} {ip : Ip} {bucket : Bucket ℚ} {since : ℚ}
    (h : self.Finds ip bucket since) (started : bucket.lastRefill ≤ since) {caller : Ip} {now : ℚ}
    (later : since ≤ now)
    (refused : caller = ip → self.rate.available (self.buckets.lookup ip) now < 1)
    : (self.afterCall caller now).Finds ip bucket now := by
  intro t after
  rw [rate_afterCall]
  by_cases mine : caller = ip
  · subst mine
    have low := refused rfl
    rw [available_afterCall_self, Rate.next, Rate.spend, if_neg (not_le.mpr low), h now later]
    exact Rate.available_of_available self.rate_nonneg (started.trans later) after
  · rw [available_afterCall_other self (Ne.symm mine) after, h t (later.trans after)]

/-- So do calls in turn none of which is a granted one of the IP. -/
theorem Finds.serve {self : IpBuckets Ip} (on : self.enabled = true) {ip : Ip}
    {bucket : Bucket ℚ} {since stop : ℚ} (h : self.Finds ip bucket since)
    (started : bucket.lastRefill ≤ since) {calls : List (Ip × ℚ)}
    (ordered : (since :: (calls.map Prod.snd ++ [stop])).Pairwise (· ≤ ·))
    (refused : ∀ t, (ip, t, .ok ()) ∉ (self.serve calls).1)
    : (self.serve calls).2.Finds ip bucket stop := by
  induction calls generalizing self since with
  | nil =>
      intro t after
      have waited : since ≤ stop := by simpa using ordered
      exact h t (waited.trans after)
  | cons call rest ih =>
      obtain ⟨caller, now⟩ := call
      obtain ⟨before, later⟩ := List.pairwise_cons.mp ordered
      have now_later : since ≤ now := before now (by simp)
      rw [serve_cons on] at refused ⊢
      have low (mine : caller = ip) : self.rate.available (self.buckets.lookup ip) now < 1 := by
        subst mine
        by_contra there
        refine refused now (List.mem_cons.mpr (Or.inl ?_))
        rw [Rate.verdict, if_pos (not_lt.mp there)]
        rfl
      exact ih on (h.afterCall started now_later low) (started.trans now_later) later
        (fun t member => refused t (List.mem_cons_of_mem _ member))

/-- The log lists the calls. -/
theorem calls_serve (self : IpBuckets Ip) (calls : List (Ip × ℚ))
    : (self.serve calls).1.map (fun call => (call.1, call.2.1)) = calls := by
  induction calls generalizing self with
  | nil => rfl
  | cons call rest ih =>
      obtain ⟨ip, now⟩ := call
      simp [serve, ih]

/-- A limiter that refuses is switched on. -/
theorem enabled_of_refused {self : IpBuckets Ip} {ip : Ip} {now : ℚ} {retry : Nat}
    (refused : (self.tryAcquire ip now).1 = .error retry)
    : self.enabled = true := by
  by_contra off
  rw [Bool.not_eq_true] at off
  simp [tryAcquire, off] at refused

/-- How long an IP that has been refused is to be refused again: until the rest of a token has
been refilled, in whole seconds exactly until the announced one.
-/
theorem granted_after_refusal {self : IpBuckets Ip} (ceiling : 1 ≤ self.burst) {ip : Ip} {t : ℚ}
    {retry : Nat} (refused : (self.tryAcquire ip t).1 = .error retry)
    {between : List (Ip × ℚ)} {stop : ℚ}
    (ordered : (t :: (between.map Prod.snd ++ [stop])).Pairwise (· ≤ ·))
    (without : ∀ u, (ip, u, .ok ()) ∉ ((self.tryAcquire ip t).2.serve between).1)
    : (((self.tryAcquire ip t).2.serve between).2.tryAcquire ip stop).1 = .ok ()
      ↔ (1 - self.rate.available (self.buckets.lookup ip) t) / self.perSec ≤ stop - t := by
  have on := enabled_of_refused refused
  rw [tryAcquire_snd on] at without ⊢
  have low := ((refused_iff on).mp refused).1
  have still : (self.afterCall ip t).enabled = true := on
  have found := (finds_afterCall_refused low).serve still le_rfl ordered without stop le_rfl
  have running : ((self.afterCall ip t).serve between).2.enabled = true := by
    rw [enabled_serve, still]
  have waited : t ≤ stop := (List.pairwise_cons.mp ordered).1 stop (by simp)
  have positive : (0 : ℚ) < self.perSec := by simpa [enabled] using on
  rw [granted_iff running, found, rate_serve, rate_afterCall]
  exact Rate.one_le_available positive (Nat.one_le_cast.mpr ceiling) waited

/-- No refusal sends a caller back at once. -/
theorem one_le_retry {self : IpBuckets Ip} {ip : Ip} {t : ℚ} {retry : Nat}
    (refused : (self.tryAcquire ip t).1 = .error retry)
    : 1 ≤ retry := by
  have on := enabled_of_refused refused
  obtain ⟨low, rfl⟩ := (refused_iff on).mp refused
  have positive : (0 : ℚ) < self.perSec := by simpa [enabled] using on
  exact Nat.one_le_ceil_iff.mpr (div_pos (sub_pos.mpr low) positive)

theorem granted_once_waited {self : IpBuckets Ip} (ceiling : 1 ≤ self.burst) {ip : Ip} {t : ℚ}
    {retry : Nat} (refused : (self.tryAcquire ip t).1 = .error retry)
    {between : List (Ip × ℚ)} {stop : ℚ}
    (ordered : (t :: (between.map Prod.snd ++ [stop])).Pairwise (· ≤ ·))
    (without : ∀ u, (ip, u, .ok ()) ∉ ((self.tryAcquire ip t).2.serve between).1)
    (waited : t + retry ≤ stop)
    : (((self.tryAcquire ip t).2.serve between).2.tryAcquire ip stop).1 = .ok () := by
  obtain ⟨_, seconds⟩ := (refused_iff (enabled_of_refused refused)).mp refused
  refine (granted_after_refusal ceiling refused ordered without).mpr ?_
  refine (Nat.ceil_le.mp seconds.ge).trans ?_
  linarith

theorem refused_before {self : IpBuckets Ip} (ceiling : 1 ≤ self.burst) {ip : Ip} {t : ℚ}
    {retry : Nat} (refused : (self.tryAcquire ip t).1 = .error retry)
    {between : List (Ip × ℚ)} {early : Nat} (before : early < retry)
    (ordered : (t :: (between.map Prod.snd ++ [t + early])).Pairwise (· ≤ ·))
    (without : ∀ u, (ip, u) ∉ between)
    : ∃ more, (((self.tryAcquire ip t).2.serve between).2.tryAcquire ip (t + early)).1
        = .error more := by
  obtain ⟨_, seconds⟩ := (refused_iff (enabled_of_refused refused)).mp refused
  have silent (u : ℚ) : (ip, u, Except.ok ()) ∉ ((self.tryAcquire ip t).2.serve between).1 := by
    intro member
    refine without u ?_
    rw [← calls_serve (self.tryAcquire ip t).2 between]
    exact List.mem_map_of_mem member
  have missing : ¬ (1 - self.rate.available (self.buckets.lookup ip) t) / self.perSec
      ≤ t + early - t := by
    rw [add_sub_cancel_left, not_le]
    exact Nat.lt_ceil.mp (seconds ▸ before)
  have short := (granted_after_refusal ceiling refused ordered silent).not.mpr missing
  cases answer : (((self.tryAcquire ip t).2.serve between).2.tryAcquire ip (t + early)).1 with
  | ok _ => exact absurd answer short
  | error more => exact ⟨more, rfl⟩

/-- The waiting time of a refusal is honest and tight. It is at least one second. Once it is
over, a call of the IP succeeds, if none of its calls has been granted in the meantime; and a
whole second earlier it would still have been refused.
-/
theorem retry_after_honest_and_tight {perSec burst : Nat} {earlier : List (Ip × ℚ)} {ip : Ip}
    {t : ℚ} {retry : Nat}
    (refused : (((new perSec burst).serve earlier).2.tryAcquire ip t).1 = .error retry)
    : 1 ≤ retry
      ∧ (∀ (between : List (Ip × ℚ)) (t' : ℚ),
          (t :: (between.map Prod.snd ++ [t'])).Pairwise (· ≤ ·)
          → (∀ u, (ip, u, .ok ()) ∉
              ((((new perSec burst).serve earlier).2.tryAcquire ip t).2.serve between).1)
          → t + retry ≤ t'
          → (((((new perSec burst).serve earlier).2.tryAcquire ip t).2.serve between).2.tryAcquire
              ip t').1 = .ok ())
      ∧ ∀ (between : List (Ip × ℚ)) (early : Nat), early < retry
          → (t :: (between.map Prod.snd ++ [t + early])).Pairwise (· ≤ ·)
          → (∀ u, (ip, u) ∉ between)
          → ∃ more,
            (((((new perSec burst).serve earlier).2.tryAcquire ip t).2.serve between).2.tryAcquire
              ip (t + early)).1 = .error more := by
  have on := enabled_of_refused refused
  have ceiling : 1 ≤ ((new perSec burst : IpBuckets Ip).serve earlier).2.burst := by
    rw [enabled_serve] at on
    have same := congrArg Rate.burst (rate_serve (new perSec burst : IpBuckets Ip) earlier)
    simp only [rate, Nat.cast_inj] at same
    have positive : 0 < perSec := by simpa [enabled, new] using on
    rw [same]
    exact le_max_of_le_right positive
  refine ⟨one_le_retry refused, ?_, ?_⟩
  · intro between t' ordered without waited
    exact granted_once_waited ceiling refused ordered without waited
  · intro between early before ordered without
    exact refused_before ceiling refused before ordered without

theorem retry_after_honest_and_tight_one_per_second
    : (((((new 1 1).serve [(1, 0)]).2.tryAcquire 1 (1 / 2)).2.serve
          [(1, 3 / 4), (2, 1)]).2.tryAcquire 1 (3 / 2)).1 = .ok ()
      ∧ ∃ more,
        (((((new 1 1).serve [(1, 0)]).2.tryAcquire 1 (1 / 2)).2.serve []).2.tryAcquire
          1 (1 / 2 + (0 : Nat))).1 = .error more := by
  have refused : (((new 1 1).serve [((1 : Nat), (0 : ℚ))]).2.tryAcquire 1 (1 / 2)).1
      = .error 1 := by
    decide +kernel
  obtain ⟨_, granted, early⟩ := retry_after_honest_and_tight refused
  refine ⟨granted _ _ (by norm_num) ?_ (by norm_num), early [] 0 Nat.one_pos (by norm_num) ?_⟩
  · have log : ((((new 1 1).serve [((1 : Nat), (0 : ℚ))]).2.tryAcquire 1 (1 / 2)).2.serve
        [(1, 3 / 4), (2, 1)]).1 = [(1, 3 / 4, .error 1), (2, 1, .ok ())] := by
      decide +kernel
    rw [log]
    simp
  · simp

end Attesta.Api.IpBuckets
