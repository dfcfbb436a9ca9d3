import Mathlib.Data.Set.Card
import Mathlib.Order.Interval.Finset.Nat
import Attesta.Api.MailboxDurability
import Attesta.Api.Quota

/-! How far the hourly quota of an issuer can be exceeded. The count and the insert of a delivery
are apart, so requests of one issuer that overlap can pass the check together; the excess is one
less than the greatest number of them that do, and no better bound holds.
-/

namespace Attesta.Api.MailboxService

open Machine Issuer
open Attesta.Api.Retention (Mailbox Kind Batch)

variable {env : Env}

/-- The requests of an issuer that have passed the check and are not visible yet. -/
def State.pastCount (s : State) (issuerId : String) : Set Nat :=
  {i | ∃ phase, s.deliveries i = some phase ∧ phase.Counted issuerId}

/-- A request passes its count only while fewer than `k` others of its issuer are past theirs. -/
def Overlap (env : Env) (k : Nat) (s : State) (action : Action) : Prop :=
  ∀ i delivery, action = .count i true → s.deliveries i = some (.counting delivery)
    → checkQuota env (delivered s.mailbox delivery.issuerId s.now) = .ok ()
    → (s.pastCount delivery.issuerId).encard < k

theorem overlap_of_ne {k : Nat} {s : State} {action : Action}
    (other : ∀ i, action ≠ .count i true)
    : Overlap env k s action :=
  fun i _ same => absurd same (other i)

-----------------------------------------------------------------------------------------
-- The bound
-----------------------------------------------------------------------------------------

/-- The recent rows of an issuer and those that may still become visible. -/
noncomputable def State.claimedQuota (s : State) (issuerId : String) : ℕ∞ :=
  delivered s.mailbox issuerId s.now + (s.pastCount issuerId).encard

theorem pastCount_setDelivery_subset {s : State} {i : Nat} {phase : DeliverPhase}
    {issuerId : String} (before : ¬ phase.Counted issuerId)
    : (s.setDelivery i phase).pastCount issuerId ⊆ s.pastCount issuerId := by
  intro j member
  obtain ⟨found, here, counted⟩ := member
  rcases setDelivery_cases here with new | old
  · exact absurd (new.2 ▸ counted) before
  · exact ⟨found, old.2, counted⟩

/-- A step lets at most one request get past its count, and only after a count that succeeds. -/
theorem step_pastCount (limited : env.issuerDeliveriesPerHour ≠ 0) {s t : State}
    {action : Action} (stepped : step env s action = some t) (issuerId : String)
    : t.pastCount issuerId ⊆ s.pastCount issuerId
      ∨ ∃ i delivery, action = .count i true ∧ s.deliveries i = some (.counting delivery)
          ∧ delivery.issuerId = issuerId
          ∧ delivered s.mailbox issuerId s.now < env.issuerDeliveriesPerHour.toNat
          ∧ t.pastCount issuerId ⊆ insert i (s.pastCount issuerId) := by
  by_cases grown : t.pastCount issuerId ⊆ s.pastCount issuerId
  · exact Or.inl grown
  -- Of the ways a request can advance, only a count leads past it from before it.
  have advanced {i : Nat} (after : i ∈ t.pastCount issuerId) (before : i ∉ s.pastCount issuerId)
      : ∃ delivery, action = .count i true ∧ s.deliveries i = some (.counting delivery)
          ∧ delivery.issuerId = issuerId
          ∧ delivered s.mailbox issuerId s.now < env.issuerDeliveriesPerHour.toNat := by
    obtain ⟨phase, here, counted⟩ := after
    rcases step_advances stepped i with same | moved
    · exact absurd ⟨phase, same.symm.trans here, counted⟩ before
    · obtain ⟨phase', there, advance⟩ := moved
      obtain rfl := Option.some.inj (here.symm.trans there)
      cases advance with
      | refused | validated | committed => cases counted
      | vetted _ _ onwards =>
          rcases onwards with rfl | unlimited
          · cases counted
          · exact absurd unlimited.1 limited
      | @counted delivery waiting room =>
          obtain rfl : delivery.issuerId = issuerId := counted
          exact ⟨delivery, rfl, waiting, rfl, checkQuota_eq_ok.mp room⟩
      | inserted _ waiting => exact absurd ⟨_, waiting, counted⟩ before
  obtain ⟨i, after, before⟩ := Set.not_subset.mp grown
  obtain ⟨delivery, rfl, waiting, issuer, room⟩ := advanced after before
  refine Or.inr ⟨i, delivery, rfl, waiting, issuer, room, fun j later => ?_⟩
  by_cases earlier : j ∈ s.pastCount issuerId
  · exact Or.inr earlier
  · obtain ⟨_, same, _⟩ := advanced later earlier
    cases same
    exact Or.inl rfl

/-- Only a commit adds a row, and its request is past its count no longer. -/
theorem step_delivered {s t : State} {action : Action} (stepped : step env s action = some t)
    (issuerId : String)
    : delivered t.mailbox issuerId t.now ≤ delivered s.mailbox issuerId s.now
      ∨ ∃ i, action = .commit i true ∧ i ∈ s.pastCount issuerId ∧ i ∉ t.pastCount issuerId
          ∧ delivered t.mailbox issuerId t.now = delivered s.mailbox issuerId s.now + 1 := by
  cases step_effect stepped with
  | @committed i row phase admits =>
      have count
          : delivered (insertDelivery s.mailbox row admits.2.1) issuerId s.now
            = delivered s.mailbox issuerId s.now + if recent issuerId s.now row then 1 else 0 :=
        delivered_insertDelivery admits.2.1 issuerId s.now
      by_cases isRecent : recent issuerId s.now row = true
      · rw [if_pos isRecent] at count
        simp only [recent, Bool.and_eq_true, beq_iff_eq] at isRecent
        refine Or.inr ⟨i, rfl, ⟨_, phase, isRecent.1⟩, ?_, count⟩
        intro after
        obtain ⟨other, here, counted⟩ := after
        rcases setDelivery_cases here with new | old
        · obtain ⟨_, rfl⟩ := new
          cases counted
        · exact old.1 rfl
      · rw [if_neg isRecent] at count
        exact Or.inl count.le
  | claimed => exact Or.inl (delivered_claimDelivery _ _ _ _ _).le
  | @swept kind cutoff chosen => exact Or.inl (delivered_delete_le _ chosen _ _)
  | ticked later => exact Or.inl (delivered_later_le _ _ later)
  | delivering | inserted | claimStarted | claimAuthorized | claimRefused | paged | mirrored =>
      exact Or.inl le_rfl

/-- A count claims a place, a commit turns the place into a row, and nothing else adds to either.
-/
theorem step_claimedQuota {k : Nat} (limited : env.issuerDeliveriesPerHour ≠ 0) {s t : State}
    {action : Action} (overlap : Overlap env k s action) {issuerId : String}
    (h : s.claimedQuota issuerId < (env.issuerDeliveriesPerHour.toNat + k : ℕ))
    (stepped : step env s action = some t)
    : t.claimedQuota issuerId < (env.issuerDeliveriesPerHour.toNat + k : ℕ) := by
  rcases step_delivered stepped issuerId with rows | commits
  · rcases step_pastCount limited stepped issuerId with past | counts
    · exact (add_le_add (Nat.cast_le.mpr rows) (Set.encard_le_encard past)).trans_lt h
    · obtain ⟨i, delivery, rfl, waiting, rfl, room, past⟩ := counts
      have few : (s.pastCount delivery.issuerId).encard + 1 ≤ k :=
        Order.add_one_le_of_lt (overlap i delivery rfl waiting (checkQuota_eq_ok.mpr room))
      have places : (t.pastCount delivery.issuerId).encard ≤ k :=
        ((Set.encard_le_encard past).trans (Set.encard_insert_le _ _)).trans few
      calc t.claimedQuota delivery.issuerId
          ≤ (delivered s.mailbox delivery.issuerId s.now + k : ℕ) := by
            rw [Nat.cast_add]
            exact add_le_add (Nat.cast_le.mpr rows) places
        _ < (env.issuerDeliveriesPerHour.toNat + k : ℕ) :=
            Nat.cast_lt.mpr (Nat.add_lt_add_right room k)
  · obtain ⟨i, rfl, before, after, rows⟩ := commits
    have past : t.pastCount issuerId ⊆ s.pastCount issuerId \ {i} := by
      rcases step_pastCount limited stepped issuerId with past | counts
      · refine fun j member => ⟨past member, ?_⟩
        rintro rfl
        exact after member
      · obtain ⟨_, _, other, _⟩ := counts
        cases other
    calc t.claimedQuota issuerId
        ≤ (delivered s.mailbox issuerId s.now + 1 : ℕ) + (s.pastCount issuerId \ {i}).encard :=
          add_le_add (Nat.cast_le.mpr rows.le) (Set.encard_le_encard past)
      _ = delivered s.mailbox issuerId s.now + ((s.pastCount issuerId \ {i}).encard + 1) := by
          rw [Nat.cast_add, add_assoc, add_comm _ (Set.encard _), Nat.cast_one]
      _ = s.claimedQuota issuerId := by
          rw [Set.encard_sdiff_singleton_add_one before, State.claimedQuota]
      _ < (env.issuerDeliveriesPerHour.toNat + k : ℕ) := h

theorem pastCount_init (hints : Nat → String) (start : Int) (issuerId : String)
    : (State.init hints start).pastCount issuerId = ∅ := by
  refine Set.eq_empty_of_forall_notMem fun i member => ?_
  obtain ⟨phase, here, _⟩ := member
  cases here

theorem delivered_lt {k : Nat} (limited : env.issuerDeliveriesPerHour ≠ 0)
    {hints : Nat → String} {start : Int} {actions : List Action} {s : State}
    (overlap : Along (step env) (Overlap env k) (State.init hints start) actions)
    (ran : run (step env) (State.init hints start) actions = some s) (issuerId : String)
    : delivered s.mailbox issuerId s.now < env.issuerDeliveriesPerHour.toNat + k := by
  have positive : 0 < env.issuerDeliveriesPerHour.toNat :=
    Nat.pos_of_ne_zero fun zero => limited (UInt32.toNat_inj.mp zero)
  have initially
      : (State.init hints start).claimedQuota issuerId
        < (env.issuerDeliveriesPerHour.toNat + k : ℕ) := by
    rw [State.claimedQuota, pastCount_init, Set.encard_empty, add_zero]
    exact Nat.cast_lt.mpr (Nat.add_pos_left positive k)
  have claimed := invariant_along
    (fun _ _ _ overlap h stepped => step_claimedQuota limited overlap h stepped)
    initially overlap ran
  exact Nat.cast_lt.mp (le_self_add.trans_lt claimed)

-----------------------------------------------------------------------------------------
-- The bound is attained
-----------------------------------------------------------------------------------------

theorem issuerId_mem_of_checkIssuer {issuers : List IssuerRow} {issuerId : String}
    (active : checkIssuer issuers issuerId = .ok ())
    : issuerId ∈ issuers.map IssuerRow.issuerId := by
  obtain ⟨issuer, found⟩ := Option.isSome_iff_exists.mp (checkIssuer_eq_ok.mp active)
  have named := List.find?_some found
  simp only [Bool.and_eq_true, beq_iff_eq] at named
  exact List.mem_map.mpr ⟨issuer, List.mem_of_find?_eq_some found, named.1⟩

/-- The first `held` requests have stored the delivery, and the next `checked` are past their
count with it.
-/
structure Stage (delivery : Delivery) (held checked : Nat) (s : State) : Prop where
  active : checkIssuer s.issuers delivery.issuerId = .ok ()
  rows
    : s.mailbox.rows
      = (List.range held).map (fun i => deliveryRow (i + 1 : Nat) i s.now delivery)
  lastSeq : s.lastSeq = held
  answered : ∀ i, i < held → s.deliveries i = some (.answered (.ok i))
  inserting
    : ∀ i, held ≤ i → i < held + checked → s.deliveries i = some (.inserting delivery)
  free : ∀ i, held + checked ≤ i → s.deliveries i = none

namespace Stage

variable {delivery : Delivery} {held checked : Nat} {s : State}

theorem delivered (h : Stage delivery held checked s)
    : delivered s.mailbox delivery.issuerId s.now = held := by
  have all : ∀ row ∈ s.mailbox.rows, recent delivery.issuerId s.now row = true := by
    intro row member
    rw [h.rows] at member
    obtain ⟨i, _, rfl⟩ := List.mem_map.mp member
    simp [recent, deliveryRow, hourMicros]
  rw [Issuer.delivered, List.countP_eq_length.mpr all, h.rows]
  simp

theorem pastCount (h : Stage delivery held checked s)
    : s.pastCount delivery.issuerId = Set.Ico held (held + checked) := by
  ext i
  constructor
  · intro member
    obtain ⟨phase, here, counted⟩ := member
    by_contra outside
    rw [Set.mem_Ico, not_and_or, not_le, not_lt] at outside
    rcases outside with before | after
    · cases (h.answered i before).symm.trans here
      cases counted
    · cases (h.free i after).symm.trans here
  · intro inside
    exact ⟨_, h.inserting i inside.1 inside.2, rfl⟩

theorem encard_pastCount (h : Stage delivery held checked s)
    : (s.pastCount delivery.issuerId).encard = checked := by
  rw [h.pastCount, ← Finset.coe_Ico, Set.encard_coe_eq_coe_finsetCard, Nat.card_Ico,
    Nat.add_sub_cancel_left]

/-- Below the quota a further request passes its count. -/
theorem count (h : Stage delivery held checked s)
    (limited : env.issuerDeliveriesPerHour ≠ 0) {req : DeliverCredentialRequest}
    (valid : validateDelivery env req = .ok delivery)
    (room : held < env.issuerDeliveriesPerHour.toNat) {k : Nat} (few : checked < k)
    : ∃ t, ReachableAlong (step env) (Overlap env k) s t ∧ Stage delivery held (checked + 1) t := by
  let i := held + checked
  have first : step env s (.deliver i req)
      = some (s.setDelivery i (.checkingIssuer delivery)) := by
    simp [step, h.free i le_rfl, valid]
  have second : step env (s.setDelivery i (.checkingIssuer delivery)) (.checkIssuer i true)
      = some ((s.setDelivery i (.checkingIssuer delivery)).setDelivery i
          (.counting delivery)) := by
    simp [step, State.setDelivery, h.active, limited, proceed]
  let waiting := (s.setDelivery i (.checkingIssuer delivery)).setDelivery i (.counting delivery)
  have third : step env waiting (.count i true)
      = some (waiting.setDelivery i (.inserting delivery)) := by
    have passed
        : checkQuota env (Issuer.delivered s.mailbox delivery.issuerId s.now) = .ok () := by
      rw [h.delivered]
      exact checkQuota_eq_ok.mpr room
    simp [step, waiting, State.setDelivery, passed, proceed]
  have overlap : Overlap env k waiting (.count i true) := by
    intro j other same here _
    cases same
    obtain rfl : delivery = other := by
      simpa [waiting, State.setDelivery] using here
    have past : waiting.pastCount delivery.issuerId ⊆ s.pastCount delivery.issuerId :=
      calc waiting.pastCount delivery.issuerId
          ⊆ (s.setDelivery i (.checkingIssuer delivery)).pastCount delivery.issuerId :=
            pastCount_setDelivery_subset id
        _ ⊆ s.pastCount delivery.issuerId := pastCount_setDelivery_subset id
    exact (Set.encard_le_encard past).trans_lt (h.encard_pastCount ▸ Nat.cast_lt.mpr few)
  refine ⟨waiting.setDelivery i (.inserting delivery),
    ((ReachableAlong.of_step (overlap_of_ne (by simp)) first).trans
      (.of_step (overlap_of_ne (by simp)) second)).trans (.of_step overlap third), ?_⟩
  have moved (j : Nat)
      : (waiting.setDelivery i (.inserting delivery)).deliveries j
        = if j = i then some (.inserting delivery) else s.deliveries j := by
    simp only [waiting, State.setDelivery]
    split <;> rfl
  refine ⟨h.active, h.rows, h.lastSeq, fun j before => ?_, fun j from_ below => ?_,
    fun j past => ?_⟩
  · rw [moved, if_neg (by omega), h.answered j before]
  · rw [moved]
    split
    · rfl
    · exact h.inserting j from_ (by omega)
  · rw [moved, if_neg (by omega), h.free j (by omega)]

/-- A request past its count goes on to store the delivery. -/
theorem store (env : Env) (h : Stage delivery held (checked + 1) s) (fits : held + 1 < 2 ^ 63)
    (k : Nat)
    : ∃ t, ReachableAlong (step env) (Overlap env k) s t ∧ Stage delivery (held + 1) checked t := by
  let row := deliveryRow (held + 1 : Nat) held s.now delivery
  let drawn := (s.draw held).setDelivery held (.committing row)
  have first : step env s (.insert held held) = some drawn := by
    have seq : s.lastSeq + 1 = (held + 1 : Nat) := by
      rw [h.lastSeq, Nat.cast_succ]
    have room : ((held + 1 : Nat) : Int) < 2 ^ 63 := by exact_mod_cast fits
    simp only [step, h.inserting held le_rfl (by omega), seq]
    rw [if_pos room]
  have admits : Admits s.issuers s.mailbox row := by
    refine ⟨?_, ?_, ?_⟩
    · exact issuerId_mem_of_checkIssuer h.active
    · simp [h.rows, row, deliveryRow]
    · simp [h.rows, row, deliveryRow]
  have second : step env drawn (.commit held true)
      = some ((drawn.accept row admits.2.1).setDelivery held (.answered (.ok held))) := by
    have found : drawn.deliveries held = some (.committing row) := by
      simp [drawn, State.setDelivery]
    simp only [step, found]
    exact congrArg some (dif_pos ⟨trivial, admits⟩)
  refine ⟨_, (ReachableAlong.of_step (overlap_of_ne (by simp)) first).trans
    (.of_step (overlap_of_ne (by simp)) second), ?_⟩
  have moved (j : Nat)
      : ((drawn.accept row admits.2.1).setDelivery held (.answered (.ok held))).deliveries j
        = if j = held then some (.answered (.ok held)) else s.deliveries j := by
    simp only [drawn, State.accept, State.setDelivery, State.draw]
    split <;> rfl
  refine ⟨h.active, ?_, ?_, fun j before => ?_, fun j from_ below => ?_, fun j past => ?_⟩
  · change s.mailbox.rows ++ [row]
      = (List.range (held + 1)).map (fun i => deliveryRow (i + 1 : Nat) i s.now delivery)
    rw [h.rows, List.range_succ, List.map_append, List.map_singleton]
  · change s.lastSeq + 1 = _
    rw [h.lastSeq, Nat.cast_succ]
  · rw [moved]
    split
    next same => rw [same]
    next other => exact h.answered j (by omega)
  · rw [moved, if_neg (by omega), h.inserting j (by omega) (by omega)]
  · rw [moved, if_neg (by omega), h.free j (by omega)]

/-- All of them do. -/
theorem store_all (env : Env) (h : Stage delivery held checked s)
    (fits : held + checked < 2 ^ 63) (k : Nat)
    : ∃ t, ReachableAlong (step env) (Overlap env k) s t ∧ Stage delivery (held + checked) 0 t := by
  induction checked generalizing held s with
  | zero => exact ⟨s, .refl _ s, h⟩
  | succ checked ih =>
      obtain ⟨middle, first, next⟩ := h.store env (by omega) k
      obtain ⟨t, rest, done⟩ := ih next (by omega)
      exact ⟨t, first.trans rest, by rwa [Nat.add_right_comm] at done⟩

/-- Requests pass their count together as long as the overlap allows it. -/
theorem count_all (h : Stage delivery held 0 s) (limited : env.issuerDeliveriesPerHour ≠ 0)
    {req : DeliverCredentialRequest} (valid : validateDelivery env req = .ok delivery)
    (room : held < env.issuerDeliveriesPerHour.toNat) {k : Nat}
    : ∃ t, ReachableAlong (step env) (Overlap env k) s t ∧ Stage delivery held k t := by
  have some_of_them (n : Nat) (few : n ≤ k)
      : ∃ t, ReachableAlong (step env) (Overlap env k) s t ∧ Stage delivery held n t := by
    induction n with
    | zero => exact ⟨s, .refl _ s, h⟩
    | succ n ih =>
        obtain ⟨middle, reached, stage⟩ := ih (Nat.le_of_succ_le few)
        obtain ⟨t, more, next⟩ := stage.count limited valid room few
        exact ⟨t, reached.trans more, next⟩
  exact some_of_them k le_rfl

end Stage

/-- One delivery after the other fills the quota. -/
theorem reach_held (limited : env.issuerDeliveriesPerHour ≠ 0) {req : DeliverCredentialRequest}
    {delivery : Delivery} (valid : validateDelivery env req = .ok delivery) {k : Nat}
    (positive : 0 < k) (hints : Nat → String) (start : Int) {held : Nat}
    (room : held ≤ env.issuerDeliveriesPerHour.toNat)
    : ∃ t, ReachableAlong (step env) (Overlap env k) (State.init hints start) t
        ∧ Stage delivery held 0 t := by
  induction held with
  | zero =>
      let issuer : IssuerRow := ⟨delivery.issuerId, "", [], [], "active", 0⟩
      have active : checkIssuer [issuer] delivery.issuerId = .ok () := by
        simp [checkIssuer, selectActiveIssuer, issuer]
      have mirrors : Overlap env k (State.init hints start) (.mirror [issuer]) :=
        overlap_of_ne (by simp)
      refine ⟨{ State.init hints start with issuers := [issuer] }, .of_step mirrors rfl,
        active, rfl, rfl, ?_, ?_, fun _ _ => rfl⟩
      · intro i before
        omega
      · intro i _ before
        omega
  | succ held ih =>
      obtain ⟨before, reached, stage⟩ := ih (Nat.le_of_succ_le room)
      obtain ⟨counted, counts, checked⟩ := stage.count limited valid room positive
      have bound := env.issuerDeliveriesPerHour.toNat_lt
      obtain ⟨t, stores, next⟩ := checked.store env (by omega) k
      exact ⟨t, (reached.trans counts).trans stores, next⟩

/-- The worst case of the hourly quota. If at most `k` requests of an issuer are ever past their
count and before their commit, every issuer has fewer than `quota + k` recent rows at any moment,
in every interleaving with claims, pickups and retention; and some interleaving stores all but
one of them.
-/
theorem quota_overshoot_exact {k : Nat} (limited : env.issuerDeliveriesPerHour ≠ 0)
    (positive : 0 < k) (fits : env.issuerDeliveriesPerHour.toNat + k ≤ 2 ^ 63)
    {req : DeliverCredentialRequest} {delivery : Delivery}
    (valid : validateDelivery env req = .ok delivery) (hints : Nat → String) (start : Int)
    : (∀ (actions : List Action) (s : State),
        Along (step env) (Overlap env k) (State.init hints start) actions
        → run (step env) (State.init hints start) actions = some s
        → ∀ issuerId,
          delivered s.mailbox issuerId s.now < env.issuerDeliveriesPerHour.toNat + k)
      ∧ ∃ (actions : List Action) (s : State),
          Along (step env) (Overlap env k) (State.init hints start) actions
          ∧ run (step env) (State.init hints start) actions = some s
          ∧ delivered s.mailbox delivery.issuerId s.now + 1
            = env.issuerDeliveriesPerHour.toNat + k := by
  refine ⟨fun actions s overlap ran => delivered_lt limited overlap ran, ?_⟩
  have quota : 0 < env.issuerDeliveriesPerHour.toNat :=
    Nat.pos_of_ne_zero fun zero => limited (UInt32.toNat_inj.mp zero)
  obtain ⟨nearly, reached, stage⟩ :=
    reach_held limited valid positive hints start (Nat.sub_le _ 1)
  obtain ⟨passed, counts, checked⟩
      : ∃ t, ReachableAlong (step env) (Overlap env k) nearly t
          ∧ Stage delivery (env.issuerDeliveriesPerHour.toNat - 1) k t :=
    stage.count_all limited valid (Nat.sub_lt quota Nat.one_pos)
  obtain ⟨full, stores, done⟩ := checked.store_all env (by omega) k
  obtain ⟨actions, overlap, ran⟩ := (reached.trans counts).trans stores
  refine ⟨actions, full, overlap, ran, ?_⟩
  rw [done.delivered]
  omega

theorem quota_overshoot_exact_three
    : (∀ (actions : List Action) (s : State),
        Along (step (sampleEnv 2)) (Overlap (sampleEnv 2) 3) (State.init (fun _ => "hint") 0)
            actions
        → run (step (sampleEnv 2)) (State.init (fun _ => "hint") 0) actions = some s
        → ∀ issuerId, delivered s.mailbox issuerId s.now < 5)
      ∧ ∃ (actions : List Action) (s : State),
          Along (step (sampleEnv 2)) (Overlap (sampleEnv 2) 3) (State.init (fun _ => "hint") 0)
              actions
          ∧ run (step (sampleEnv 2)) (State.init (fun _ => "hint") 0) actions = some s
          ∧ delivered s.mailbox "issuer" s.now + 1 = 5 := by
  have valid
      : validateDelivery (sampleEnv 2) sampleRequest
        = .ok ⟨"issuer", "hint", [1], [1], some sampleHash⟩ := by
    decide
  exact quota_overshoot_exact (by decide) (by decide) (by decide) valid (fun _ => "hint") 0

end Attesta.Api.MailboxService
