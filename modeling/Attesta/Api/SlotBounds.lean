import Attesta.Api.SseSlots

/-! How far the global cap of SSE connections can be exceeded. The check of the global counter
and its increment are apart, so acquires that overlap can pass the check together; the excess is
one less than the greatest number of them that do, and no better bound holds.
-/

namespace Attesta.Api.SseSlots

open Machine

variable {Ip : Type} [DecidableEq Ip]

/-- An acquire passes the check of the global counter only while fewer than `k` others are between
their check and their increment.
-/
def Overlap (k : Nat) (s : State Ip) (action : Action Ip) : Prop :=
  ∀ ip, action = .load ip → s.slots.underGlobalCap = true → s.pending < k

instance (k : Nat) (s : State Ip) (action : Action Ip) : Decidable (Overlap k s action) :=
  match action with
  | .load ip =>
      decidable_of_iff (s.slots.underGlobalCap = true → s.pending < k) (by simp [Overlap])
  | .count _ | .add _ | .sub _ | .release _ => isTrue (fun ip other => by cases other)

-----------------------------------------------------------------------------------------
-- The bound
-----------------------------------------------------------------------------------------

/-- Slots that are held or may still come to be held. -/
theorem step_claimed {k : Nat} {s t : State Ip} {action : Action Ip}
    (capped : 0 < s.slots.globalCap) (overlap : Overlap k s action) (balanced : s.Balanced)
    (h : s.live + s.pending < s.slots.globalCap + k) (stepped : step s action = some t)
    : t.live + t.pending < s.slots.globalCap + k := by
  cases step_effect stepped with
  | refused ip => exact h
  | loaded ip passed =>
      have room := (balanced.underGlobalCap_iff capped).mp passed
      have few := overlap ip rfl passed
      have live : State.live { s with tasks := s.tasks ++ [⟨ip, .checked⟩] } = s.live := by
        simp [State.live, List.countP_append]
      have pending : State.pending { s with tasks := s.tasks ++ [⟨ip, .checked⟩] }
          = s.pending + 1 := by
        simp [State.pending, List.countP_append, Phase.pending]
      omega
  | @counted i task found phase =>
      have live := live_move found (s.slots.countIp task.ip).1
        (if (s.slots.countIp task.ip).2 then .counted else .ended)
      have pending := pending_move found (s.slots.countIp task.ip).1
        (if (s.slots.countIp task.ip).2 then .counted else .ended)
      have other : (if (s.slots.countIp task.ip).2 then Phase.counted else .ended) ≠ .live := by
        split <;> simp
      have checked : Phase.checked.pending.toNat = 1 := rfl
      have bound := Bool.toNat_le
        (if (s.slots.countIp task.ip).2 then Phase.counted else .ended).pending
      rw [phase, checked] at pending
      simp only [phase, other, decide_false, Bool.toNat_false, reduceCtorEq] at live
      omega
  | added found phase =>
      have live := live_move found s.slots.fetchAdd .live
      have pending := pending_move found s.slots.fetchAdd .live
      simp only [phase, Phase.pending, decide_true, decide_false, reduceCtorEq, Bool.toNat_true,
        Bool.toNat_false] at live pending
      omega
  | dropped found phase =>
      have live := live_move found s.slots.fetchSub .releasing
      have pending := pending_move found s.slots.fetchSub .releasing
      simp only [phase, Phase.pending, decide_true, decide_false, reduceCtorEq, Bool.toNat_true,
        Bool.toNat_false] at live pending
      omega
  | @released i task found phase =>
      have live := live_move found (s.slots.releaseIp task.ip) .ended
      have pending := pending_move found (s.slots.releaseIp task.ip) .ended
      simp only [phase, Phase.pending, decide_false, reduceCtorEq, Bool.toNat_false]
        at live pending
      omega

theorem live_lt {perIpCap globalCap k : Nat} (capped : 0 < globalCap) {actions : List (Action Ip)}
    {s : State Ip} (overlap : Along step (Overlap k) (State.init perIpCap globalCap) actions)
    (ran : run step (State.init perIpCap globalCap) actions = some s)
    : s.live < globalCap + k := by
  have kept (s : State Ip) (action : Action Ip) (t : State Ip) (overlap : Overlap k s action)
      (h
        : s.Balanced ∧ s.slots.globalCap = globalCap
          ∧ s.live + s.pending < s.slots.globalCap + k)
      (stepped : step s action = some t)
      : t.Balanced ∧ t.slots.globalCap = globalCap
        ∧ t.live + t.pending < t.slots.globalCap + k := by
    obtain ⟨balanced, cap, bound⟩ := h
    have same := (step_caps stepped).2
    refine ⟨step_balanced balanced stepped, same.trans cap, ?_⟩
    rw [same]
    exact step_claimed (cap ▸ capped) overlap balanced bound stepped
  have initially : (State.init perIpCap globalCap : State Ip).live
        + (State.init perIpCap globalCap : State Ip).pending
      < globalCap + k :=
    Nat.add_pos_left capped k
  obtain ⟨_, cap, bound⟩ := invariant_along kept
    ⟨balanced_init perIpCap globalCap, rfl, initially⟩ overlap ran
  omega

-----------------------------------------------------------------------------------------
-- The bound is attained
-----------------------------------------------------------------------------------------

/-- One IP holds `held` slots and has `checked` acquires past the global check. -/
structure Stage (ip : Ip) (globalCap held checked : Nat) (s : State Ip) : Prop where
  perIpCap : s.slots.perIpCap = 0
  globalCap : s.slots.globalCap = globalCap
  global : s.slots.global = held
  tasks
    : s.tasks = List.replicate held ⟨ip, .live⟩ ++ List.replicate checked ⟨ip, .checked⟩

namespace Stage

variable {ip : Ip} {globalCap held checked : Nat} {s : State Ip}

omit [DecidableEq Ip] in
theorem live (h : Stage ip globalCap held checked s) : s.live = held := by
  simp [State.live, h.tasks, List.countP_append, List.countP_replicate]

omit [DecidableEq Ip] in
theorem pending (h : Stage ip globalCap held checked s) : s.pending = checked := by
  simp [State.pending, h.tasks, List.countP_append, List.countP_replicate, Phase.pending]

/-- Below the cap an acquire passes the global check. -/
theorem load (h : Stage ip globalCap held checked s) (room : held < globalCap)
    : ∃ t, step s (.load ip) = some t ∧ Stage ip globalCap held (checked + 1) t := by
  have under : s.slots.underGlobalCap = true := by
    simp [underGlobalCap, h.globalCap, h.global, room]
  refine ⟨_, rfl, ?_⟩
  rw [if_pos under]
  exact { h with tasks := by simp [h.tasks, List.replicate_succ'] }

/-- Without a cap for each IP, an acquire past the global check goes on to hold its slot. -/
theorem acquire (h : Stage ip globalCap held (checked + 1) s) (k : Nat)
    : ∃ t, ReachableAlong step (Overlap k) s t ∧ Stage ip globalCap (held + 1) checked t := by
  have placed (phase : Phase)
      : s.tasks.set held ⟨ip, phase⟩
        = List.replicate held ⟨ip, .live⟩
          ++ ⟨ip, phase⟩ :: List.replicate checked ⟨ip, .checked⟩ := by
    simp [h.tasks, List.replicate_succ]
  have found : s.taskIn held .checked = some ⟨ip, .checked⟩ := by
    simp [taskIn_eq_some, h.tasks]
  obtain ⟨slots, counted, perIpCap, cap, global⟩
      : ∃ slots, s.slots.countIp ip = (slots, true)
          ∧ slots.perIpCap = 0 ∧ slots.globalCap = globalCap ∧ slots.global = held := by
    simp [countIp, h.perIpCap, h.globalCap, h.global]
  have first : step s (.count held) = some (s.move slots held ⟨ip, .checked⟩ .counted) := by
    simp [step, found, counted]
  have again
      : (s.move slots held ⟨ip, .checked⟩ .counted).taskIn held .counted
        = some ⟨ip, .counted⟩ := by
    simp [taskIn_eq_some, State.move, placed]
  have second : step (s.move slots held ⟨ip, .checked⟩ .counted) (.add held)
      = some ⟨slots.fetchAdd, List.replicate held ⟨ip, .live⟩
          ++ ⟨ip, .live⟩ :: List.replicate checked ⟨ip, .checked⟩⟩ := by
    simp only [step]
    rw [again]
    simp [State.move, placed]
  have counts : Overlap k s (.count held) := by simp [Overlap]
  have adds : Overlap k (s.move slots held ⟨ip, .checked⟩ .counted) (.add held) := by
    simp [Overlap]
  refine ⟨_, (ReachableAlong.of_step counts first).trans (.of_step adds second), ?_⟩
  exact ⟨perIpCap, cap, by simp [fetchAdd, global], by simp [List.replicate_succ']⟩

/-- All of them do. -/
theorem acquire_all (h : Stage ip globalCap held checked s) (k : Nat)
    : ∃ t, ReachableAlong step (Overlap k) s t ∧ Stage ip globalCap (held + checked) 0 t := by
  induction checked generalizing held s with
  | zero => exact ⟨s, .refl _ s, h⟩
  | succ checked ih =>
      obtain ⟨middle, first, next⟩ := h.acquire k
      obtain ⟨t, rest, done⟩ := ih next
      exact ⟨t, first.trans rest, by rwa [Nat.add_right_comm] at done⟩

/-- Acquires pass the check together as long as the overlap allows it. -/
theorem load_all (h : Stage ip globalCap held 0 s) (room : held < globalCap) {k : Nat}
    : ∃ t, ReachableAlong step (Overlap k) s t ∧ Stage ip globalCap held k t := by
  have some_of_them (n : Nat) (few : n ≤ k)
      : ∃ t, ReachableAlong step (Overlap k) s t ∧ Stage ip globalCap held n t := by
    induction n with
    | zero => exact ⟨s, .refl _ s, h⟩
    | succ n ih =>
        obtain ⟨middle, reached, stage⟩ := ih (Nat.le_of_succ_le few)
        obtain ⟨t, stepped, next⟩ := stage.load room
        have overlap : Overlap k middle (.load ip) := fun _ _ _ => stage.pending ▸ few
        exact ⟨t, reached.trans (.of_step overlap stepped), next⟩
  exact some_of_them k le_rfl

end Stage

/-- One acquire after the other fills the slots up to the cap. -/
theorem reach_held (ip : Ip) {globalCap k : Nat} (positive : 0 < k) {held : Nat}
    (room : held ≤ globalCap)
    : ∃ t, ReachableAlong step (Overlap k) (State.init 0 globalCap) t
        ∧ Stage ip globalCap held 0 t := by
  induction held with
  | zero => exact ⟨_, .refl _ _, rfl, rfl, rfl, rfl⟩
  | succ held ih =>
      obtain ⟨before, reached, stage⟩ := ih (Nat.le_of_succ_le room)
      obtain ⟨loaded, stepped, checked⟩ := stage.load room
      obtain ⟨t, acquired, next⟩ := checked.acquire k
      have overlap : Overlap k before (.load ip) := fun _ _ _ => stage.pending ▸ positive
      exact ⟨t, (reached.trans (.of_step overlap stepped)).trans acquired, next⟩

/-- The worst case of the global cap. If at most `k` acquires are ever past the check of the global
counter and before its increment, fewer than `globalCap + k` slots are held at any moment, in
every interleaving with drops and whatever the cap for each IP; and some interleaving holds all
but one of them.
-/
theorem overshoot_exact [Nonempty Ip] {globalCap k : Nat} (capped : 0 < globalCap)
    (positive : 0 < k)
    : (∀ (perIpCap : Nat) (actions : List (Action Ip)) (s : State Ip),
        Along step (Overlap k) (State.init perIpCap globalCap) actions
        → run step (State.init perIpCap globalCap) actions = some s
        → s.live < globalCap + k)
      ∧ ∃ (actions : List (Action Ip)) (s : State Ip),
          Along step (Overlap k) (State.init 0 globalCap) actions
          ∧ run step (State.init 0 globalCap) actions = some s
          ∧ s.live + 1 = globalCap + k := by
  refine ⟨fun perIpCap actions s overlap ran => live_lt capped overlap ran, ?_⟩
  obtain ⟨ip⟩ := ‹Nonempty Ip›
  obtain ⟨nearly, reached, stage⟩ := reach_held ip positive (globalCap.sub_le 1)
  obtain ⟨passed, loads, checked⟩ := stage.load_all (Nat.sub_lt capped Nat.one_pos)
  obtain ⟨full, acquires, done⟩ := checked.acquire_all k
  obtain ⟨actions, overlap, ran⟩ := (reached.trans loads).trans acquires
  refine ⟨actions, full, overlap, ran, ?_⟩
  rw [done.live]
  omega

theorem overshoot_exact_three
    : (∀ (perIpCap : Nat) (actions : List (Action Nat)) (s : State Nat),
        Along step (Overlap 3) (State.init perIpCap 2) actions
        → run step (State.init perIpCap 2) actions = some s
        → s.live < 5)
      ∧ ∃ (actions : List (Action Nat)) (s : State Nat),
          Along step (Overlap 3) (State.init 0 2) actions
          ∧ run step (State.init 0 2) actions = some s
          ∧ s.live + 1 = 5 :=
  overshoot_exact (by decide) (by decide)

end Attesta.Api.SseSlots
