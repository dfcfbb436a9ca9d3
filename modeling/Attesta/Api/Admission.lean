import Mathlib.Data.List.Dedup
import Attesta.Api.RetryAfter
import Attesta.Foundation.Conformance

/-! What the limiter promises to those who keep to its rate, and what it remembers. An IP whose
traffic conforms to the configured rate is never refused, whatever the others do; and apart from
the first ten thousand entries the table holds only IPs that called a short while ago.
-/

namespace Attesta.Api.IpBuckets

open TokenBucket

variable {Ip : Type} [DecidableEq Ip]

--------------------------------------------------------------------------------
-- Conforming traffic
--------------------------------------------------------------------------------

/-- A limiter that is switched off lets everything through and remembers nothing. -/
theorem serve_off {self : IpBuckets Ip} (off : self.enabled = false) (calls : List (Ip × ℚ))
    : self.serve calls = (calls.map (fun call => (call.1, call.2, .ok ())), self) := by
  induction calls with
  | nil => rfl
  | cons call rest ih =>
      obtain ⟨ip, now⟩ := call
      have passed : self.tryAcquire ip now = (.ok (), self) := by simp [tryAcquire, off]
      rw [serve, passed]
      simp only [ih, List.map_cons]

theorem mem_ofIp {ι : Type} {ip : Ip} {log : List (Ip × ι)} {entry : ι}
    : entry ∈ ofIp ip log ↔ (ip, entry) ∈ log := by
  simp only [ofIp, List.mem_filterMap, Option.ite_none_right_eq_some, Option.some.injEq]
  constructor
  · rintro ⟨call, member, rfl, rfl⟩
    exact member
  · exact fun member => ⟨(ip, entry), member, rfl, rfl⟩

/-- Rounding the waiting times refuses nothing else. -/
theorem ideal_isOk_iff (rate : Rate ℚ) (times : List ℚ)
    : (∀ call ∈ ideal rate times, call.2 = .ok ())
      ↔ ∀ call ∈ rate.log none times, call.2.isOk = true := by
  simp only [ideal, List.forall_mem_map]
  refine forall₂_congr fun call _ => ?_
  obtain ⟨time, answer⟩ := call
  cases answer <;> simp [Except.mapError, Except.isOk, Except.toBool]

/-- From the start, every IP is served as by its own bucket. -/
theorem ofIp_serve_new {perSec : Nat} (burst : Nat) (positive : 1 ≤ perSec)
    {calls : List (Ip × ℚ)} (ordered : (calls.map Prod.snd).Pairwise (· ≤ ·)) (ip : Ip)
    : ofIp ip ((new perSec burst).serve calls).1
      = ideal ⟨perSec, max burst perSec⟩ (ofIp ip calls) := by
  cases calls with
  | nil => rfl
  | cons call rest =>
      have started : ∀ later ∈ (call :: rest).map Prod.snd, call.2 ≤ later := by
        intro later member
        rcases List.mem_cons.mp member with rfl | inRest
        · exact le_rfl
        · exact (List.pairwise_cons.mp ordered).1 later inRest
      have run := @ofIp_serve _ _ (new perSec burst) (enabled_new positive) ip _ _ _
        (List.pairwise_cons.mpr ⟨started, ordered⟩) (fun t _ => rfl)
      rw [ideal, run]
      simp [rate, new]

theorem called_ofIp (ip : Ip) (first last : ℚ) (calls : List (Ip × ℚ))
    : Rate.called first last (ofIp ip calls)
      = calls.countP (fun call => decide (call.1 = ip ∧ first ≤ call.2 ∧ call.2 ≤ last)) := by
  rw [Rate.called, ofIp, List.countP_filterMap]
  refine List.countP_congr fun call _ => ?_
  by_cases mine : call.1 = ip <;> simp [mine]

/-- With the refill taken in exact rationals, an IP is never refused exactly if its calls conform
to the configured rate: no window of time, of any length and wherever it starts, has more of them
than the burst and what is refilled within it. The calls of the other IPs and the clean-ups of the
table make no difference. The `f64` of the code can round such a call away at the very limit.
-/
theorem never_refused_iff (perSec burst : Nat) {calls : List (Ip × ℚ)}
    (ordered : (calls.map Prod.snd).Pairwise (· ≤ ·)) (ip : Ip)
    : (∀ t answer, (ip, t, answer) ∈ ((new perSec burst).serve calls).1 → answer = .ok ())
      ↔ perSec = 0
        ∨ ∀ first last : ℚ, first ≤ last
          → (calls.countP (fun call => decide (call.1 = ip ∧ first ≤ call.2 ∧ call.2 ≤ last)) : ℚ)
            ≤ max burst perSec + perSec * (last - first) := by
  rcases Nat.eq_zero_or_pos perSec with off | positive
  · subst off
    have all
        : (new 0 burst : IpBuckets Ip).serve calls
          = (calls.map (fun call => (call.1, call.2, .ok ())), new 0 burst) :=
      serve_off rfl calls
    refine iff_of_true (fun t answer member => ?_) (Or.inl rfl)
    rw [all] at member
    obtain ⟨call, _, same⟩ := List.mem_map.mp member
    cases same
    rfl
  · have answers : (∀ t answer, (ip, t, answer) ∈ ((new perSec burst).serve calls).1
          → answer = .ok ())
        ↔ ∀ call ∈ ofIp ip ((new perSec burst).serve calls).1, call.2 = .ok () := by
      simp only [mem_ofIp, Prod.forall]
    have own := ordered.sublist (ofIp_sublist ip calls)
    have rate : (0 : ℚ) ≤ perSec := Nat.cast_nonneg perSec
    have ceiling : (0 : ℚ) ≤ max (burst : ℚ) perSec := le_max_of_le_right rate
    rw [answers, ofIp_serve_new burst positive ordered, ideal_isOk_iff,
      Rate.log_isOk_iff rate ceiling own]
    simp only [Rate.Conforms, called_ofIp, Nat.pos_iff_ne_zero.mp positive, Nat.cast_max,
      false_or]

theorem never_refused_iff_beside_a_greedy_ip
    : (∀ t answer, (1, t, answer) ∈ ((new 1 1).serve [(1, 0), (2, 0), (2, 0), (1, 1)]).1
        → answer = .ok ())
      ∧ ¬ ∀ t answer, (2, t, answer) ∈ ((new 1 1).serve [(1, 0), (2, 0), (2, 0), (1, 1)]).1
        → answer = .ok () := by
  have ordered : (([(1, 0), (2, 0), (2, 0), (1, 1)] : List (Nat × ℚ)).map
      Prod.snd).Pairwise (· ≤ ·) := by
    norm_num
  constructor
  · refine (never_refused_iff 1 1 ordered 1).mpr (Or.inr fun first last window => ?_)
    simp only [List.countP_cons, List.countP_nil, decide_eq_true_eq]
    norm_num
    split_ifs with atOne atZero <;> norm_num <;> linarith
  · intro all
    rcases (never_refused_iff 1 1 ordered 2).mp all with off | conforms
    · cases off
    · have window := conforms 0 0 le_rfl
      norm_num at window

--------------------------------------------------------------------------------
-- The size of the table
--------------------------------------------------------------------------------

/-- The IPs that called less than `span` before `now`. -/
def activeIps (calls : List (Ip × ℚ)) (now span : ℚ) : List Ip :=
  ((calls.filter (fun call => decide (now - call.2 < span))).map Prod.fst).dedup

theorem mem_activeIps {calls : List (Ip × ℚ)} {now span : ℚ} {ip : Ip}
    : ip ∈ activeIps calls now span ↔ ∃ t, (ip, t) ∈ calls ∧ now - t < span := by
  rw [activeIps, List.mem_dedup]
  simp

/-- Every bucket was last used by one of the calls. -/
def Remembered (self : IpBuckets Ip) (calls : List (Ip × ℚ)) : Prop :=
  ∀ ip bucket, self.buckets.lookup ip = some bucket → (ip, bucket.lastRefill) ∈ calls

theorem Remembered.afterCall {self : IpBuckets Ip} {calls : List (Ip × ℚ)}
    (h : self.Remembered calls) (ip : Ip) (now : ℚ)
    : (self.afterCall ip now).Remembered (calls ++ [(ip, now)]) := by
  intro other bucket found
  rw [IpBuckets.afterCall] at found
  by_cases mine : other = ip
  · subst mine
    rw [AList.lookup_insert] at found
    obtain rfl := Option.some.inj found
    simp
  · rw [AList.lookup_insert_ne mine] at found
    exact List.mem_append_left _ (h other bucket (lookup_of_cleanUp found))

theorem Remembered.serve {self : IpBuckets Ip} {earlier : List (Ip × ℚ)}
    (h : self.Remembered earlier) (on : self.enabled = true) (calls : List (Ip × ℚ))
    : (self.serve calls).2.Remembered (earlier ++ calls) := by
  induction calls generalizing self earlier with
  | nil => simpa [IpBuckets.serve] using h
  | cons call rest ih =>
      obtain ⟨ip, now⟩ := call
      rw [serve_cons on]
      simpa using ih (h.afterCall ip now) on

theorem serve_concat (self : IpBuckets Ip) (calls : List (Ip × ℚ)) (ip : Ip) (now : ℚ)
    : (self.serve (calls ++ [(ip, now)])).2 = ((self.serve calls).2.tryAcquire ip now).2 := by
  induction calls generalizing self with
  | nil => rfl
  | cons call rest ih => exact ih (self.tryAcquire call.1 call.2).2

/-- A bucket that is not full again was used less than a whole refill ago. -/
theorem recent_of_not_full {self : IpBuckets Ip} (on : self.enabled = true)
    (tokens : self.TokensWithin) {ip : Ip} {bucket : Bucket ℚ} {now : ℚ}
    (found : self.buckets.lookup ip = some bucket)
    (notFull : self.refilled bucket now < self.burst)
    : now - bucket.lastRefill < self.burst / self.perSec := by
  have positive : (0 : ℚ) < self.perSec := by simpa [enabled] using on
  have nonneg := (tokens ip bucket found).1
  rw [refilled, min_lt_iff, or_iff_left (lt_irrefl _), durationSince] at notFull
  have elapsed := mul_le_mul_of_nonneg_right (le_max_right 0 (now - bucket.lastRefill))
    positive.le
  rw [lt_div_iff₀ positive]
  linarith

/-- After a call the table has at most one entry above the threshold of the clean-up, or else
only entries of IPs that called recently.
-/
theorem size_afterCall_le {self : IpBuckets Ip} (on : self.enabled = true)
    (clamped : self.perSec ≤ self.burst) (tokens : self.TokensWithin) {calls : List (Ip × ℚ)}
    (remembered : self.Remembered calls) (ip : Ip) (now : ℚ)
    : (self.afterCall ip now).buckets.size
      ≤ max 10001
          (activeIps (calls ++ [(ip, now)]) now (self.burst / self.perSec)).length := by
  by_cases large : self.buckets.size > 10000
  · refine le_max_of_le_right (HashTable.size_le_length fun other bucket found => ?_)
    rw [mem_activeIps]
    by_cases mine : other = ip
    · have positive : (0 : ℚ) < self.perSec := by simpa [enabled] using on
      have ceiling : (0 : ℚ) < self.burst := positive.trans_le (Nat.cast_le.mpr clamped)
      exact ⟨now, by simp [mine], by simpa using div_pos ceiling positive⟩
    · rw [afterCall, AList.lookup_insert_ne mine, cleanUp, if_pos large,
        HashTable.lookup_retain] at found
      obtain ⟨before, notFull⟩ := Option.filter_eq_some_iff.mp found
      have recent := recent_of_not_full on tokens before (of_decide_eq_true notFull)
      exact ⟨bucket.lastRefill, List.mem_append_left _ (remembered other bucket before), recent⟩
  · have inserted := HashTable.size_insert_le (self.cleanUp now) ip
      (self.rate.next (self.buckets.lookup ip) now)
    rw [cleanUp, if_neg large] at inserted
    have small : self.buckets.size + 1 ≤ 10001 := by omega
    rw [afterCall, cleanUp, if_neg large]
    exact le_max_of_le_left (inserted.trans small)

/-- The table does not grow with the number of IPs ever seen. After any calls it has at most
10,001 entries, or at most as many as there are IPs that called within the time in which an empty
bucket fills up; so a flood of addresses is forgotten that long after it ends.
-/
theorem table_bounded (perSec burst : Nat) {calls : List (Ip × ℚ)} {ip : Ip} {now : ℚ}
    : ((new perSec burst).serve (calls ++ [(ip, now)])).2.buckets.size
      ≤ max 10001
          (activeIps (calls ++ [(ip, now)]) now (max burst perSec / perSec)).length := by
  rw [serve_concat]
  rcases Nat.eq_zero_or_pos perSec with off | positive
  · subst off
    have off : (new 0 burst : IpBuckets Ip).enabled = false := rfl
    have untouched : ((new 0 burst : IpBuckets Ip).tryAcquire ip now).2 = new 0 burst := by
      simp [tryAcquire, off]
    rw [serve_off off, untouched]
    exact le_max_of_le_left (Nat.zero_le _)
  · have on : (new perSec burst : IpBuckets Ip).enabled = true := enabled_new positive
    have running := on
    rw [← enabled_serve (new perSec burst) calls] at running
    have same := rate_serve (new perSec burst : IpBuckets Ip) calls
    have perSec_same := congrArg Rate.perSec same
    have burst_same := congrArg Rate.burst same
    simp only [rate, Nat.cast_inj] at perSec_same burst_same
    have clamped : ((new perSec burst).serve calls).2.perSec
        ≤ ((new perSec burst).serve calls).2.burst := by
      rw [perSec_same, burst_same]
      exact le_max_right burst perSec
    have tokens := ((tokensWithin_new perSec burst).serve on calls).1
    have remembered : ((new perSec burst).serve calls).2.Remembered ([] ++ calls) :=
      Remembered.serve (fun ip bucket found => by simp [new] at found) on calls
    have bound := size_afterCall_le running clamped tokens remembered ip now
    rw [burst_same, perSec_same] at bound
    rw [tryAcquire_snd running]
    simpa [new] using bound

end Attesta.Api.IpBuckets
