import Mathlib.Data.Rat.Floor
import Attesta.Foundation.HashTable
import Attesta.Foundation.TokenBucket

/-! The per-IP rate limiter, with tokens and seconds as exact rationals. The table of buckets
is cleaned up when it has grown large; what it forgets are full buckets, so each IP is served
as by a bucket of its own that is never evicted.
-/

namespace Attesta.Api

open TokenBucket

structure IpBuckets (Ip : Type) where
  perSec : Nat
  burst : Nat
  buckets : HashTable Ip (Bucket ℚ)

namespace IpBuckets

variable {Ip : Type}

/-- A burst below the sustained rate is clamped up to it. -/
def new (perSec burst : Nat) : IpBuckets Ip := ⟨perSec, max burst perSec, ∅⟩

def enabled (self : IpBuckets Ip) : Bool := self.perSec > 0

/-- `now.duration_since(earlier)`, zero if `earlier` is in fact later. -/
def durationSince (now earlier : ℚ) : ℚ := max 0 (now - earlier)

/-- The lazy refill, up to the burst. -/
def refilled (self : IpBuckets Ip) (bucket : Bucket ℚ) (now : ℚ) : ℚ :=
  min (bucket.tokens + durationSince now bucket.lastRefill * self.perSec) self.burst

/-- The opportunistic clean-up: a large table forgets its full buckets. -/
def cleanUp (self : IpBuckets Ip) (now : ℚ) : HashTable Ip (Bucket ℚ) :=
  if HashTable.size self.buckets > 10000 then
    HashTable.retain self.buckets (fun _ bucket => decide (self.refilled bucket now < self.burst))
  else self.buckets

/-- The configured rate of a limiter. -/
def rate (self : IpBuckets Ip) : Rate ℚ := ⟨self.perSec, self.burst⟩

theorem rate_nonneg (self : IpBuckets Ip) : 0 ≤ self.rate.perSec := Nat.cast_nonneg self.perSec

theorem burst_nonneg (self : IpBuckets Ip) : 0 ≤ self.rate.burst := Nat.cast_nonneg self.burst

theorem enabled_new {perSec burst : Nat} (positive : 1 ≤ perSec)
    : (new perSec burst : IpBuckets Ip).enabled = true := by
  simpa [enabled, new] using Nat.lt_of_lt_of_le Nat.zero_lt_one positive

variable [DecidableEq Ip]

/-- Take one token for an IP; a refusal says how many whole seconds to wait. -/
def tryAcquire (self : IpBuckets Ip) (ip : Ip) (now : ℚ) : Except Nat Unit × IpBuckets Ip :=
  if !self.enabled then (.ok (), self)
  else
    let buckets := self.cleanUp now
    let bucket := (buckets.lookup ip).getD ⟨self.burst, now⟩
    let tokens := self.refilled bucket now
    if tokens ≥ 1 then (.ok (), { self with buckets := buckets.insert ip ⟨tokens - 1, now⟩ })
    else
      (.error ⌈(1 - tokens) / self.perSec⌉₊,
        { self with buckets := buckets.insert ip ⟨tokens, now⟩ })

/-- Serve calls in turn: the calls with their answers, and the limiter afterwards. -/
def serve : IpBuckets Ip → List (Ip × ℚ) → List (Ip × ℚ × Except Nat Unit) × IpBuckets Ip
  | self, [] => ([], self)
  | self, (ip, now) :: rest =>
      let (answer, next) := self.tryAcquire ip now
      let (log, last) := serve next rest
      ((ip, now, answer) :: log, last)

/-- No call changes the configured rate. -/
theorem rate_serve (self : IpBuckets Ip) (calls : List (Ip × ℚ))
    : (self.serve calls).2.rate = self.rate := by
  induction calls generalizing self with
  | nil => rfl
  | cons call rest ih =>
      obtain ⟨ip, now⟩ := call
      refine (ih (self.tryAcquire ip now).2).trans ?_
      simp only [tryAcquire]
      split
      · rfl
      · split <;> rfl

theorem enabled_serve (self : IpBuckets Ip) (calls : List (Ip × ℚ))
    : (self.serve calls).2.enabled = self.enabled := by
  have same := congrArg Rate.perSec (self.rate_serve calls)
  simp only [rate, Nat.cast_inj] at same
  rw [enabled, enabled, same]

/-- The calls of one IP in a log, with their times and answers. -/
def ofIp {ι : Type} (ip : Ip) (log : List (Ip × ι)) : List ι :=
  log.filterMap (fun call => if call.1 = ip then some call.2 else none)

/-- The ideal bucket of one IP: full before its first call, filled at the configured rate, and
never evicted. Waiting times are rounded up to whole seconds.
-/
def ideal (rate : Rate ℚ) (times : List ℚ) : List (ℚ × Except Nat Unit) :=
  (rate.log none times).map (fun call => (call.1, call.2.mapError Nat.ceil))

/-- What survives the clean-up was there before. -/
theorem lookup_of_cleanUp {self : IpBuckets Ip} {now : ℚ} {ip : Ip} {bucket : Bucket ℚ}
    (h : (self.cleanUp now).lookup ip = some bucket)
    : self.buckets.lookup ip = some bucket := by
  unfold cleanUp at h
  split at h
  · rw [HashTable.lookup_retain] at h
    exact (Option.filter_eq_some_iff.mp h).1
  · exact h

/-- The clean-up changes no number of available tokens, now or later. -/
theorem available_cleanUp (self : IpBuckets Ip) {now later : ℚ} (h : now ≤ later) (ip : Ip)
    : self.rate.available ((self.cleanUp now).lookup ip) later
      = self.rate.available (self.buckets.lookup ip) later := by
  unfold cleanUp
  split
  next large =>
    rw [HashTable.lookup_retain]
    cases self.buckets.lookup ip with
    | none => rfl
    | some bucket =>
        rw [Option.filter_some]
        split
        next => rfl
        next full =>
          have forgotten : self.rate.burst ≤ self.rate.available (some bucket) now := by
            rw [decide_eq_true_eq] at full
            exact not_lt.mp full
          exact (Rate.available_of_full self.rate_nonneg forgotten h).symm
  next => rfl

/-- The limiter after a call of an IP: the bucket of the caller is the one its available tokens
leave, the others are as the clean-up left them.
-/
def afterCall (self : IpBuckets Ip) (ip : Ip) (now : ℚ) : IpBuckets Ip :=
  { self with
    buckets := (self.cleanUp now).insert ip (self.rate.next (self.buckets.lookup ip) now) }

@[simp]
theorem rate_afterCall (self : IpBuckets Ip) (ip : Ip) (now : ℚ)
    : (self.afterCall ip now).rate = self.rate :=
  rfl

/-- One call of an enabled limiter answers by the tokens available to the IP alone. -/
theorem tryAcquire_eq {self : IpBuckets Ip} (on : self.enabled = true) (ip : Ip) (now : ℚ)
    : self.tryAcquire ip now
      = ((self.rate.verdict (self.rate.available (self.buckets.lookup ip) now)).mapError Nat.ceil,
          self.afterCall ip now) := by
  have found : self.refilled (((self.cleanUp now).lookup ip).getD ⟨self.burst, now⟩) now
      = self.rate.available (self.buckets.lookup ip) now := by
    rw [← self.available_cleanUp le_rfl ip]
    cases (self.cleanUp now).lookup ip with
    | none => simp [refilled, durationSince, Rate.available, rate]
    | some bucket => rfl
  simp only [tryAcquire, on, Bool.not_true, Bool.false_eq_true, if_false, found, Rate.verdict,
    afterCall, Rate.next, Rate.spend]
  split <;> rfl

theorem serve_cons {self : IpBuckets Ip} (on : self.enabled = true) (ip : Ip) (now : ℚ)
    (rest : List (Ip × ℚ))
    : self.serve ((ip, now) :: rest)
      = ((ip, now, (self.rate.verdict (self.rate.available (self.buckets.lookup ip) now)).mapError
            Nat.ceil) :: ((self.afterCall ip now).serve rest).1,
          ((self.afterCall ip now).serve rest).2) := by
  rw [serve, tryAcquire_eq on]

/-- The caller finds the bucket its call left behind. -/
theorem available_afterCall_self (self : IpBuckets Ip) (ip : Ip) (now later : ℚ)
    : self.rate.available ((self.afterCall ip now).buckets.lookup ip) later
      = self.rate.available (some (self.rate.next (self.buckets.lookup ip) now)) later := by
  rw [afterCall, AList.lookup_insert]

/-- A call changes nothing for the other IPs. -/
theorem available_afterCall_other (self : IpBuckets Ip) {ip other : Ip} (h : other ≠ ip)
    {now later : ℚ} (since : now ≤ later)
    : self.rate.available ((self.afterCall ip now).buckets.lookup other) later
      = self.rate.available (self.buckets.lookup other) later := by
  rw [afterCall, AList.lookup_insert_ne h, self.available_cleanUp since]

/-- Every IP is served as by its own bucket, by induction on the calls. The table and the
ideal bucket may differ, but from `since` on they make the same tokens available.
-/
theorem ofIp_serve {self : IpBuckets Ip} (on : self.enabled = true) {ip : Ip} {since : ℚ}
    {own : Option (Bucket ℚ)} {calls : List (Ip × ℚ)}
    (ordered : (since :: calls.map Prod.snd).Pairwise (· ≤ ·))
    (agree : ∀ t, since ≤ t →
      self.rate.available (self.buckets.lookup ip) t = self.rate.available own t)
    : ofIp ip (self.serve calls).1
      = (self.rate.log own (ofIp ip calls)).map
          (fun call => (call.1, call.2.mapError Nat.ceil)) := by
  induction calls generalizing self since own with
  | nil => rfl
  | cons call rest ih =>
      obtain ⟨caller, now⟩ := call
      obtain ⟨before, later⟩ := List.pairwise_cons.mp ordered
      have started : since ≤ now := before now (by simp)
      have next : (self.afterCall caller now).enabled = true := on
      rw [serve_cons on]
      by_cases mine : caller = ip
      · subst mine
        have here := agree now started
        have same : self.rate.next (self.buckets.lookup caller) now = self.rate.next own now := by
          rw [Rate.next, Rate.next, here]
        have kept (t : ℚ) (_ : now ≤ t)
            : self.rate.available ((self.afterCall caller now).buckets.lookup caller) t
              = self.rate.available (some (self.rate.next own now)) t := by
          rw [available_afterCall_self, same]
        simpa [ofIp, here, Rate.log] using ih next later kept
      · have kept (t : ℚ) (after : now ≤ t)
            : self.rate.available ((self.afterCall caller now).buckets.lookup ip) t
              = self.rate.available own t := by
          rw [available_afterCall_other self (Ne.symm mine) after]
          exact agree t (started.trans after)
        simpa [ofIp, mine] using ih next later kept

/-- Every bucket holds between no tokens and the burst. -/
def TokensWithin (self : IpBuckets Ip) : Prop :=
  ∀ ip bucket, self.buckets.lookup ip = some bucket
    → 0 ≤ bucket.tokens ∧ bucket.tokens ≤ self.burst

theorem tokensWithin_new (perSec burst : Nat)
    : (new perSec burst : IpBuckets Ip).TokensWithin := by
  intro ip bucket found
  simp [new] at found

theorem TokensWithin.afterCall {self : IpBuckets Ip} (h : self.TokensWithin) (ip : Ip) (now : ℚ)
    : (self.afterCall ip now).TokensWithin := by
  intro other bucket found
  rw [IpBuckets.afterCall] at found
  by_cases mine : other = ip
  · subst mine
    rw [AList.lookup_insert] at found
    obtain rfl := Option.some.inj found
    have tokens := Rate.available_nonneg self.rate_nonneg self.burst_nonneg
      (fun bucket found => (h other bucket found).1) now
    have ceiling := self.rate.available_le_burst (self.buckets.lookup other) now
    exact ⟨Rate.spend_nonneg tokens, (Rate.spend_le _).trans ceiling⟩
  · rw [AList.lookup_insert_ne mine] at found
    exact h other bucket (lookup_of_cleanUp found)

theorem TokensWithin.serve {self : IpBuckets Ip} (h : self.TokensWithin)
    (on : self.enabled = true) (calls : List (Ip × ℚ))
    : (self.serve calls).2.TokensWithin ∧ (self.serve calls).2.burst = self.burst := by
  induction calls generalizing self with
  | nil => exact ⟨h, rfl⟩
  | cons call rest ih =>
      obtain ⟨ip, now⟩ := call
      rw [serve_cons on]
      exact ih (h.afterCall ip now) on

/-- Rounding the waiting times admits nothing else. -/
theorem granted_map_mapError {ε δ : Type} (f : ε → δ) (first last : ℚ)
    (log : List (ℚ × Except ε Unit))
    : granted first last (log.map (fun call => (call.1, call.2.mapError f)))
      = granted first last log := by
  rw [granted, granted, List.countP_map]
  refine List.countP_congr fun call _ => ?_
  obtain ⟨time, answer⟩ := call
  cases answer <;> rfl

theorem granted_ideal (rate : Rate ℚ) (times : List ℚ) (first last : ℚ)
    : granted first last (ideal rate times) = granted first last (rate.log none times) :=
  granted_map_mapError _ first last _

theorem ofIp_sublist {ι : Type} (ip : Ip) (log : List (Ip × ι))
    : (ofIp ip log).Sublist (log.map Prod.snd) := by
  induction log with
  | nil => exact List.Sublist.refl _
  | cons call rest ih =>
      by_cases mine : call.1 = ip
      · simpa [ofIp, mine] using ih
      · simpa [ofIp, mine] using ih.cons _

/-- The limiter is an ideal token bucket for every IP. Whatever the other IPs do and whenever
the table is cleaned up, an IP is answered as by a bucket that sees only its own calls; tokens
stay between zero and the burst; and a window of time admits no more calls than the burst and
what is refilled within the window.
-/
theorem limiter_is_token_bucket {perSec : Nat} (burst : Nat) (positive : 1 ≤ perSec)
    {calls : List (Ip × ℚ)} (ordered : (calls.map Prod.snd).Pairwise (· ≤ ·))
    : (∀ ip, ofIp ip ((new perSec burst).serve calls).1
          = ideal ⟨perSec, max burst perSec⟩ (ofIp ip calls))
      ∧ (∀ ip bucket, ((new perSec burst).serve calls).2.buckets.lookup ip = some bucket
          → 0 ≤ bucket.tokens ∧ bucket.tokens ≤ max burst perSec)
      ∧ ∀ ip (first last : ℚ), first ≤ last
          → (granted first last (ofIp ip ((new perSec burst).serve calls).1) : ℚ)
            ≤ max burst perSec + perSec * (last - first) := by
  have on : (new perSec burst : IpBuckets Ip).enabled = true := enabled_new positive
  have served (ip : Ip) : ofIp ip ((new perSec burst).serve calls).1
      = ideal ⟨perSec, max burst perSec⟩ (ofIp ip calls) := by
    cases calls with
    | nil => rfl
    | cons call rest =>
        have started : (call.2 :: (call :: rest).map Prod.snd).Pairwise (· ≤ ·) := by
          refine List.pairwise_cons.mpr ⟨fun later member => ?_, ordered⟩
          rcases List.mem_cons.mp member with rfl | inRest
          · exact le_rfl
          · exact (List.pairwise_cons.mp ordered).1 later inRest
        have run : ofIp ip ((new perSec burst).serve (call :: rest)).1 = _ :=
          ofIp_serve on started (fun t _ => rfl)
        rw [ideal, run]
        simp [rate, new]
  obtain ⟨tokens, same⟩ := (tokensWithin_new perSec burst).serve on calls
  refine ⟨served, ?_, ?_⟩
  · intro ip bucket found
    obtain ⟨nonneg, ceiling⟩ := tokens ip bucket found
    rw [same] at ceiling
    exact ⟨nonneg, by simpa [new] using ceiling⟩
  · intro ip first last window
    rw [served, granted_ideal]
    have ordered' := ordered.sublist (ofIp_sublist ip calls)
    simpa using Rate.granted_le_window (Nat.cast_nonneg _) (by positivity) window none
      (by simp) ordered'

theorem limiter_is_token_bucket_two_ips
    : ofIp 1 ((new 1 1).serve [(1, 0), (2, 0), (1, 1 / 2), (1, 3 / 2)]).1
        = ideal ⟨(1 : Nat), max (1 : Nat) (1 : Nat)⟩
            (ofIp 1 [(1, 0), (2, 0), (1, 1 / 2), (1, 3 / 2)])
      ∧ (granted 0 1 (ofIp 1 ((new 1 1).serve [(1, 0), (2, 0), (1, 1 / 2), (1, 3 / 2)]).1) : ℚ)
        ≤ max (1 : Nat) (1 : Nat) + (1 : Nat) * (1 - 0) := by
  have ordered : (([(1, 0), (2, 0), (1, 1 / 2), (1, 3 / 2)] : List (Nat × ℚ)).map
      Prod.snd).Pairwise (· ≤ ·) := by
    norm_num
  have served := limiter_is_token_bucket 1 le_rfl ordered
  exact ⟨served.1 1, served.2.2 1 0 1 (by norm_num)⟩

end IpBuckets

end Attesta.Api
