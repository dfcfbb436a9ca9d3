import Mathlib.Algebra.Order.Archimedean.Basic
import Attesta.Foundation.BucketClock
import Attesta.Api.Limits

/-! The rate limiter under concurrent callers. A request reads the clock before it gets to the
table of buckets, so the times an IP's bucket sees need not be in order. A bucket is credited
for every move of its clock forwards, and for the same interval again after a move back.
-/

namespace Attesta.Api.IpBuckets

open TokenBucket

variable {Ip : Type}

/-- The calls of one IP at the given readings of the clock, each read by so many requests. -/
def callsAt (ip : Ip) (readings : List ℚ) (n : Nat) : List (Ip × ℚ) :=
  (readings.flatMap (List.replicate n)).map (Prod.mk ip)

variable [DecidableEq Ip]

/-- Calls of one IP alone are served from its bucket, in whatever order the clock was read. -/
theorem ofIp_serve_alone {self : IpBuckets Ip} (on : self.enabled = true) (ip : Ip)
    (times : List ℚ)
    : ofIp ip (self.serve (times.map (Prod.mk ip))).1
      = (self.rate.log (self.buckets.lookup ip) times).map
          (fun call => (call.1, call.2.mapError Nat.ceil)) := by
  induction times generalizing self with
  | nil => rfl
  | cons now rest ih =>
      have next : (self.afterCall ip now).enabled = true := on
      have left : (self.afterCall ip now).buckets.lookup ip
          = some (self.rate.next (self.buckets.lookup ip) now) := AList.lookup_insert _
      have onwards := ih next
      rw [left, rate_afterCall] at onwards
      rw [List.map_cons, serve_cons on, Rate.log, List.map_cons, ← onwards]
      simp [ofIp]

theorem granted_serve_alone {self : IpBuckets Ip} (on : self.enabled = true) (ip : Ip)
    (first last : ℚ) (times : List ℚ)
    : granted first last (ofIp ip (self.serve (times.map (Prod.mk ip))).1)
      = granted first last (self.rate.log (self.buckets.lookup ip) times) := by
  rw [ofIp_serve_alone on, granted_map_mapError]

/-- From every state, the calls of an IP are admitted within the burst and the rate times the
moves of its clock forwards.
-/
theorem granted_alone_le {perSec : Nat} (burst : Nat) (positive : 1 ≤ perSec)
    (earlier : List (Ip × ℚ)) (ip : Ip) (first last : ℚ) (times : List ℚ)
    : (granted first last
          (ofIp ip (((new perSec burst).serve earlier).2.serve (times.map (Prod.mk ip))).1) : ℚ)
      ≤ max burst perSec + perSec * ascent times := by
  have on : (new perSec burst : IpBuckets Ip).enabled = true := enabled_new positive
  have same := rate_serve (new perSec burst) earlier
  have still : ((new perSec burst).serve earlier).2.enabled = true := by
    rw [enabled_serve, on]
  obtain ⟨tokens, _⟩ := (tokensWithin_new perSec burst).serve on earlier
  rw [granted_serve_alone still, same]
  have bound := Rate.granted_le_ascent (new perSec burst : IpBuckets Ip).rate_nonneg
    (burst_nonneg _) first last (((new perSec burst).serve earlier).2.buckets.lookup ip)
    (fun bucket found => (tokens ip bucket found).1) times
  simpa [rate, new] using bound

/-- One IP at the readings 1, 0, 1, 0, 1 of a clock: the second between them is credited for
twice, and three requests are admitted where burst and rate together allow two.
-/
theorem readings_out_of_order_exceed_burst
    : granted 0 1 (ofIp 1 ((new 1 1).serve (callsAt 1 [1, 0, 1, 0, 1] 1)).1) = 3
      ∧ ¬ (3 : ℚ) ≤ max (1 : Nat) (1 : Nat) + (1 : Nat) * (1 - 0) := by
  constructor
  · decide +kernel
  · norm_num

/-- A rate at which the time beyond a window is worth a token. -/
theorem exists_rate_of_gap {short long : ℚ} (h : short < long)
    : ∃ perSec : Nat, 1 ≤ perSec ∧ perSec * short + 1 ≤ perSec * long := by
  have gap : 0 < long - short := sub_pos.mpr h
  obtain ⟨perSec, large⟩ := exists_nat_gt (1 / (long - short))
  have worth := (div_lt_iff₀ gap).mp large
  have positive : (0 : ℚ) < perSec := lt_trans (by positivity) large
  exact ⟨perSec, Nat.cast_pos.mp positive, by linarith⟩

/-- The readings of the clock within a window keep every limiter to its bound, with any number
of requests at each of them, exactly if together they move forwards by no more than the window
is long.
-/
theorem window_bound_iff_ascent {first last : ℚ} (window : first ≤ last) (ip : Ip)
    {readings : List ℚ} (inside : ∀ t ∈ readings, first ≤ t ∧ t ≤ last)
    : (∀ perSec burst n : Nat, 1 ≤ perSec → ∀ earlier : List (Ip × ℚ),
        (granted first last (ofIp ip
            (((new perSec burst).serve earlier).2.serve (callsAt ip readings n)).1) : ℚ)
          ≤ max burst perSec + perSec * (last - first))
      ↔ ascent readings ≤ last - first := by
  constructor
  · intro bounded
    by_contra long
    rw [not_le] at long
    obtain ⟨perSec, positive, steep⟩ := exists_rate_of_gap long
    obtain ⟨burst, room⟩ := exists_nat_ge (1 + (perSec : ℚ) * (last - first))
    have called : readings ≠ [] := by
      rintro rfl
      exact absurd long (not_lt.mpr (by simpa [ascent] using window))
    have all := Rate.ascent_le_granted (r := (new perSec burst : IpBuckets Ip).rate)
      (rate_nonneg _) (room.trans (by simp [rate, new])) (n := max burst perSec)
      (by simp [rate, new]) called inside
    have admitted := bounded perSec burst (max burst perSec + 1) positive []
    rw [callsAt, serve, granted_serve_alone (enabled_new positive)] at admitted
    have fresh : (new perSec burst : IpBuckets Ip).buckets.lookup ip = none := rfl
    rw [fresh] at admitted
    simp only [rate, new, Nat.cast_max] at all admitted
    linarith
  · intro short perSec burst n positive earlier
    have bound := granted_alone_le burst positive earlier ip first last
      (readings.flatMap (List.replicate n))
    have moved : ascent (readings.flatMap (List.replicate n)) ≤ last - first := by
      cases n with
      | zero =>
          have silent : readings.flatMap (List.replicate 0) = [] := by simp
          rw [silent]
          exact sub_nonneg.mpr window
      | succ n => rwa [ascent_flatMap_replicate]
    have refilled := mul_le_mul_of_nonneg_left moved (Nat.cast_nonneg (α := ℚ) perSec)
    rw [callsAt]
    linarith

theorem window_bound_iff_ascent_in_order
    : (granted 0 2 (ofIp 1
        (((new 1 2).serve ([] : List (Nat × ℚ))).2.serve (callsAt 1 [0, 1 / 2, 2] 3)).1) : ℚ)
      ≤ 4 := by
  have inOrder : ascent [0, 1 / 2, 2] ≤ (2 : ℚ) - 0 := by norm_num [ascent, credited]
  have bound := (window_bound_iff_ascent (by norm_num) 1 (by norm_num)).mpr inOrder 1 2 3 le_rfl
    []
  norm_num at bound ⊢
  exact bound

end Attesta.Api.IpBuckets
