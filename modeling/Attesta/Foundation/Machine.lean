import Mathlib.Data.List.Induction
import Mathlib.Data.List.Basic

/-! Runs of a machine given by a partial step function. Every choice that is not up to the
machine (scheduling, faults, inputs) is an action, so a run is a list of actions and an
action that is not enabled makes the run undefined.
-/

namespace Machine

variable {σ α : Type*} (step : σ → α → Option σ)

/-- Execute the actions from left to right. -/
def run (start : σ) (actions : List α) : Option σ := actions.foldlM step start

/-- Every step of the run meets a condition on the state before it and its action. -/
def Along (condition : σ → α → Prop) : σ → List α → Prop
  | _, [] => True
  | s, action :: rest =>
      condition s action ∧ ∀ t, step s action = some t → Along condition t rest

instance Along.decidable (condition : σ → α → Prop) [∀ s a, Decidable (condition s a)]
    : (s : σ) → (actions : List α) → Decidable (Along step condition s actions)
  | _, [] => isTrue trivial
  | s, action :: rest =>
      match h : step s action with
      | none =>
          decidable_of_iff (condition s action)
            ⟨fun here => ⟨here, fun t stepped => by cases h.symm.trans stepped⟩, And.left⟩
      | some t =>
          have := Along.decidable condition t rest
          decidable_of_iff (condition s action ∧ Along step condition t rest)
            ⟨fun both => ⟨both.1, fun u stepped =>
                Option.some.inj (h.symm.trans stepped) ▸ both.2⟩,
              fun both => ⟨both.1, both.2 t h⟩⟩

/-- A property holds in every state of the run, the first and the last included. -/
def Always (good : σ → Prop) : σ → List α → Prop
  | s, [] => good s
  | s, action :: rest => good s ∧ ∀ t, step s action = some t → Always good t rest

/-- Some step of the run meets a condition on the state before it and its action. -/
def Once (event : σ → α → Prop) : σ → List α → Prop
  | _, [] => False
  | s, action :: rest => event s action ∨ ∃ t, step s action = some t ∧ Once event t rest

/-- Some run from `start` ends in `finish`. -/
def Reachable (start finish : σ) : Prop := ∃ actions, run step start actions = some finish

/-- Some run from `start` whose steps all meet a condition ends in `finish`. -/
def ReachableAlong (condition : σ → α → Prop) (start finish : σ) : Prop :=
  ∃ actions, Along step condition start actions ∧ run step start actions = some finish

variable {step}

@[simp]
theorem run_nil (start : σ) : run step start [] = some start := rfl

theorem run_cons {start finish : σ} {action : α} {actions : List α}
    : run step start (action :: actions) = some finish
      ↔ ∃ middle, step start action = some middle
          ∧ run step middle actions = some finish := by
  simp [run, Option.bind_eq_some_iff]

theorem run_append {start finish : σ} {first second : List α}
    : run step start (first ++ second) = some finish
      ↔ ∃ middle, run step start first = some middle
          ∧ run step middle second = some finish := by
  simp [run, Option.bind_eq_some_iff]

theorem run_concat {start finish : σ} {actions : List α} {action : α}
    : run step start (actions ++ [action]) = some finish
      ↔ ∃ middle, run step start actions = some middle
          ∧ step middle action = some finish := by
  simp [run_append, run_cons]

/-- A condition on actions alone holds along every run of such actions. -/
theorem along_of_forall {allowed : α → Prop} {actions : List α}
    (all : ∀ a ∈ actions, allowed a) (start : σ)
    : Along step (fun _ a => allowed a) start actions := by
  induction actions generalizing start with
  | nil => trivial
  | cons action rest ih =>
      have later : ∀ a ∈ rest, allowed a := fun a member =>
        all a (List.mem_cons_of_mem action member)
      exact ⟨all action (by simp), fun t _ => ih later t⟩

theorem along_forall {ι : Sort*} {condition : ι → σ → α → Prop} {start : σ} {actions : List α}
    : Along step (fun s a => ∀ i, condition i s a) start actions
      ↔ ∀ i, Along step (condition i) start actions := by
  induction actions generalizing start with
  | nil => simp [Along]
  | cons action rest ih =>
      simp only [Along, ih]
      exact ⟨fun h i => ⟨h.1 i, fun t stepped => h.2 t stepped i⟩,
        fun h => ⟨fun i => (h i).1, fun t stepped i => (h i).2 t stepped⟩⟩

theorem along_and {first second : σ → α → Prop} {start : σ} {actions : List α}
    : Along step (fun s a => first s a ∧ second s a) start actions
      ↔ Along step first start actions ∧ Along step second start actions := by
  induction actions generalizing start with
  | nil => simp [Along]
  | cons action rest ih =>
      simp only [Along, ih]
      exact ⟨fun h => ⟨⟨h.1.1, fun t stepped => (h.2 t stepped).1⟩,
          ⟨h.1.2, fun t stepped => (h.2 t stepped).2⟩⟩,
        fun h => ⟨⟨h.1.1, h.2.1⟩, fun t stepped => ⟨h.1.2 t stepped, h.2.2 t stepped⟩⟩⟩

theorem Along.mono {first second : σ → α → Prop} (weaker : ∀ s a, first s a → second s a)
    {start : σ} {actions : List α} (h : Along step first start actions)
    : Along step second start actions := by
  induction actions generalizing start with
  | nil => trivial
  | cons action rest ih => exact ⟨weaker start action h.1, fun t stepped => ih (h.2 t stepped)⟩

/-- What holds along a run holds along its beginning and along what follows. -/
theorem along_append {condition : σ → α → Prop} {start : σ} {first second : List α}
    : Along step condition start (first ++ second)
      ↔ Along step condition start first
        ∧ ∀ middle, run step start first = some middle → Along step condition middle second := by
  induction first generalizing start with
  | nil => simp [Along]
  | cons action rest ih =>
      simp only [List.cons_append, Along, ih, run_cons, and_assoc]
      refine and_congr_right fun _ => ?_
      constructor
      · intro h
        refine ⟨fun t stepped => (h t stepped).1, fun middle ran => ?_⟩
        obtain ⟨t, stepped, later⟩ := ran
        exact (h t stepped).2 middle later
      · intro h t stepped
        exact ⟨h.1 t stepped, fun middle later => h.2 middle ⟨t, stepped, later⟩⟩

theorem ReachableAlong.refl (condition : σ → α → Prop) (s : σ)
    : ReachableAlong step condition s s :=
  ⟨[], trivial, rfl⟩

theorem ReachableAlong.trans {condition : σ → α → Prop} {first second third : σ}
    (h : ReachableAlong step condition first second)
    (h' : ReachableAlong step condition second third)
    : ReachableAlong step condition first third := by
  obtain ⟨before, met, ran⟩ := h
  obtain ⟨after, metAfter, ranAfter⟩ := h'
  refine ⟨before ++ after, along_append.mpr ⟨met, fun middle reached => ?_⟩,
    run_append.mpr ⟨second, ran, ranAfter⟩⟩
  exact Option.some.inj (ran.symm.trans reached) ▸ metAfter

theorem ReachableAlong.of_step {condition : σ → α → Prop} {start finish : σ} {action : α}
    (met : condition start action) (stepped : step start action = some finish)
    : ReachableAlong step condition start finish :=
  ⟨[action], ⟨met, fun _ _ => trivial⟩, run_cons.mpr ⟨finish, stepped, rfl⟩⟩

/-- What has happened in a run has happened in its beginning or in what follows. -/
theorem once_append {event : σ → α → Prop} {start : σ} {first second : List α}
    : Once step event start (first ++ second)
      ↔ Once step event start first
        ∨ ∃ middle, run step start first = some middle ∧ Once step event middle second := by
  induction first generalizing start with
  | nil => simp [Once]
  | cons action rest ih =>
      simp only [List.cons_append, Once, ih, run_cons, or_assoc]
      refine or_congr_right ?_
      constructor
      · intro h
        obtain ⟨t, stepped, here | later⟩ := h
        · exact Or.inl ⟨t, stepped, here⟩
        · obtain ⟨middle, ran, onwards⟩ := later
          exact Or.inr ⟨middle, ⟨t, stepped, ran⟩, onwards⟩
      · intro h
        rcases h with here | later
        · obtain ⟨t, stepped, onwards⟩ := here
          exact ⟨t, stepped, Or.inl onwards⟩
        · obtain ⟨middle, ⟨t, stepped, ran⟩, onwards⟩ := later
          exact ⟨t, stepped, Or.inr ⟨middle, ran, onwards⟩⟩

theorem Once.mono {first second : σ → α → Prop} (weaker : ∀ s a, first s a → second s a)
    {start : σ} {actions : List α} (h : Once step first start actions)
    : Once step second start actions := by
  induction actions generalizing start with
  | nil => exact h
  | cons action rest ih =>
      rcases h with here | later
      · exact Or.inl (weaker start action here)
      · obtain ⟨t, stepped, onwards⟩ := later
        exact Or.inr ⟨t, stepped, ih onwards⟩

/-- What has happened stays so, whatever follows. -/
theorem Once.concat {event : σ → α → Prop} {start : σ} {actions : List α}
    (h : Once step event start actions) (action : α)
    : Once step event start (actions ++ [action]) :=
  once_append.mpr (Or.inl h)

/-- The last step of a run has happened. -/
theorem once_last {event : σ → α → Prop} {start middle : σ} {actions : List α} {action : α}
    (ran : run step start actions = some middle) (here : event middle action)
    : Once step event start (actions ++ [action]) :=
  once_append.mpr (Or.inr ⟨middle, ran, Or.inl here⟩)

/-- Conditions that agree on the steps an invariant allows agree along the whole run. -/
theorem along_congr {inv : σ → Prop} {first second : σ → α → Prop}
    (preserved : ∀ s a t, inv s → step s a = some t → inv t)
    (same : ∀ s a t, inv s → step s a = some t → (first s a ↔ second s a))
    {start finish : σ} {actions : List α} (initially : inv start)
    (h : run step start actions = some finish)
    : Along step first start actions ↔ Along step second start actions := by
  induction actions generalizing start with
  | nil => exact Iff.rfl
  | cons action rest ih =>
      obtain ⟨middle, stepped, ran⟩ := run_cons.mp h
      simp only [Along, same start action middle initially stepped, stepped, Option.some.injEq,
        forall_eq']
      exact and_congr_right fun _ => ih (preserved start action middle initially stepped) ran

/-- A property kept by every step that meets a condition holds at the end of every run that
meets the condition all along.
-/
theorem invariant_along {condition : σ → α → Prop} {inv : σ → Prop}
    (preserved : ∀ s a t, condition s a → inv s → step s a = some t → inv t)
    {start finish : σ} {actions : List α} (initially : inv start)
    (along : Along step condition start actions) (h : run step start actions = some finish)
    : inv finish := by
  induction actions generalizing start with
  | nil => exact Option.some.inj h ▸ initially
  | cons action rest ih =>
      obtain ⟨middle, first, later⟩ := run_cons.mp h
      have next := preserved start action middle along.1 initially first
      exact ih next (along.2 middle first) later

/-- A property kept by every step whose action is allowed holds at the end of every run of
allowed actions.
-/
theorem invariant_of_allowed {allowed : α → Prop} {inv : σ → Prop}
    (preserved : ∀ s a t, allowed a → inv s → step s a = some t → inv t)
    {start finish : σ} {actions : List α} (initially : inv start)
    (all : ∀ a ∈ actions, allowed a) (h : run step start actions = some finish)
    : inv finish :=
  invariant_along preserved initially (along_of_forall all start) h

/-- A property kept by every step holds at the end of every run. -/
theorem invariant {inv : σ → Prop} (preserved : ∀ s a t, inv s → step s a = some t → inv t)
    {start finish : σ} {actions : List α} (initially : inv start)
    (h : run step start actions = some finish)
    : inv finish := by
  refine invariant_of_allowed ?_ initially (fun _ _ => trivial) h
  exact fun s a t (_ : True) => preserved s a t

/-- A property of the actions so far and the state they lead to, kept by every step, holds at
the end of every run.
-/
theorem invariant_of_history {inv : List α → σ → Prop} {start finish : σ}
    (preserved
      : ∀ past s a t, run step start past = some s → inv past s → step s a = some t
          → inv (past ++ [a]) t)
    (initially : inv [] start) {actions : List α} (h : run step start actions = some finish)
    : inv actions finish := by
  induction actions using List.reverseRecOn generalizing finish with
  | nil => exact Option.some.inj h ▸ initially
  | append_singleton past action ih =>
      obtain ⟨middle, ran, last⟩ := run_concat.mp h
      exact preserved past middle action finish ran (ih ran) last

/-- If each step of a machine is one of a coarser machine, or nothing to it, each run of the one
leads to a state that the other can reach.
-/
theorem reachable_of_refines {τ β : Type*} {coarse : τ → β → Option τ} (abstracted : σ → τ)
    (refines
      : ∀ s a t, step s a = some t
          → abstracted t = abstracted s
            ∨ ∃ b, coarse (abstracted s) b = some (abstracted t))
    {start finish : σ} {actions : List α} (h : run step start actions = some finish)
    : Reachable coarse (abstracted start) (abstracted finish) := by
  have onwards (s : σ) (a : α) (t : σ)
      (reached : Reachable coarse (abstracted start) (abstracted s)) (stepped : step s a = some t)
      : Reachable coarse (abstracted start) (abstracted t) := by
    obtain ⟨actions, ran⟩ := reached
    rcases refines s a t stepped with same | moved
    · exact ⟨actions, same ▸ ran⟩
    · obtain ⟨b, went⟩ := moved
      exact ⟨actions ++ [b], run_concat.mpr ⟨abstracted s, ran, went⟩⟩
  exact invariant onwards ⟨[], rfl⟩ h

/-- A property that each step keeps exactly when it meets a condition holds at the end of a
run exactly if it held at the start and every step met the condition.
-/
theorem along_iff (allowed : σ → α → Prop) {inv : σ → Prop} (good : σ → Prop)
    (condition : σ → α → Prop)
    (preserved : ∀ s a t, allowed s a → inv s → step s a = some t → inv t)
    (exactly
      : ∀ s a t, allowed s a → inv s → step s a = some t → (good t ↔ good s ∧ condition s a))
    {start finish : σ} {actions : List α} (initially : inv start)
    (all : Along step allowed start actions) (h : run step start actions = some finish)
    : good finish ↔ good start ∧ Along step condition start actions := by
  induction actions generalizing start with
  | nil => simp [Along, Option.some.inj h]
  | cons action rest ih =>
      obtain ⟨middle, first, later⟩ := run_cons.mp h
      have here := exactly start action middle all.1 initially first
      have onwards := ih (preserved start action middle all.1 initially first)
        (all.2 middle first) later
      rw [onwards, here, Along, and_assoc]
      simp [first]

/-- If a step that misses a condition does a harm that no later step mends, a run that ends
without it has met the condition all along.
-/
theorem along_of_harmless (allowed : σ → α → Prop) {inv : σ → Prop} (harmed : σ → Prop)
    (condition : σ → α → Prop)
    (preserved : ∀ s a t, allowed s a → inv s → step s a = some t → inv t)
    (kept : ∀ s a t, allowed s a → inv s → harmed s → step s a = some t → harmed t)
    (caused : ∀ s a t, allowed s a → inv s → ¬ condition s a → step s a = some t → harmed t)
    {start finish : σ} {actions : List α} (initially : inv start)
    (all : Along step allowed start actions) (h : run step start actions = some finish)
    (harmless : ¬ harmed finish)
    : Along step condition start actions := by
  induction actions generalizing start with
  | nil => trivial
  | cons action rest ih =>
      obtain ⟨middle, first, later⟩ := run_cons.mp h
      have next := preserved start action middle all.1 initially first
      have onwards : ∀ t, step start action = some t → t = middle := fun t stepped =>
        Option.some.inj (stepped.symm.trans first)
      constructor
      · by_contra missed
        have harm := caused start action middle all.1 initially missed first
        have both (s : σ) (a : α) (t : σ) (here : allowed s a) (h : inv s ∧ harmed s)
            (stepped : step s a = some t)
            : inv t ∧ harmed t :=
          ⟨preserved s a t here h.1 stepped, kept s a t here h.1 h.2 stepped⟩
        exact harmless (invariant_along both ⟨next, harm⟩ (all.2 middle first) later).2
      · intro t stepped
        obtain rfl := onwards t stepped
        exact ih next (all.2 t first) later

/-- Every moment of a run is the end of one of its beginnings. -/
theorem always_iff_forall {good : σ → Prop} {start : σ} {actions : List α}
    : Always step good start actions
      ↔ ∀ earlier later middle, actions = earlier ++ later
          → run step start earlier = some middle → good middle := by
  induction actions generalizing start with
  | nil =>
      constructor
      · intro here earlier later middle split ran
        obtain ⟨rfl, rfl⟩ := List.append_eq_nil_iff.mp split.symm
        exact Option.some.inj ran ▸ here
      · exact fun all => all [] [] start rfl rfl
  | cons action rest ih =>
      simp only [Always, ih]
      constructor
      · intro h earlier later middle split ran
        cases earlier with
        | nil => exact Option.some.inj ran ▸ h.1
        | cons first more =>
            obtain ⟨rfl, shape⟩ := List.cons.inj split
            obtain ⟨t, stepped, onwards⟩ := run_cons.mp ran
            exact h.2 t stepped more later middle shape onwards
      · intro all
        refine ⟨all [] _ start rfl rfl, fun t stepped earlier later middle split ran => ?_⟩
        exact all (action :: earlier) later middle (by rw [split]; rfl)
          (run_cons.mpr ⟨t, stepped, ran⟩)

theorem Always.last {good : σ → Prop} {start finish : σ} {actions : List α}
    (h : Always step good start actions) (ran : run step start actions = some finish)
    : good finish :=
  always_iff_forall.mp h actions [] finish (List.append_nil _).symm ran

/-- What follows from an invariant holds at every moment of a run that keeps it. -/
theorem always_of_invariant {condition : σ → α → Prop} {inv good : σ → Prop}
    (preserved : ∀ s a t, condition s a → inv s → step s a = some t → inv t)
    (implied : ∀ s, inv s → good s)
    {start : σ} {actions : List α} (initially : inv start)
    (along : Along step condition start actions)
    : Always step good start actions := by
  rw [always_iff_forall]
  rintro earlier later middle rfl ran
  have kept := (along_append.mp along).1
  exact implied middle (invariant_along preserved initially kept ran)

/-- A property that a step keeps exactly if it meets a condition holds at every moment of a run
exactly if every step meets the condition.
-/
theorem always_iff_along (allowed : σ → α → Prop) {inv : σ → Prop} (good : σ → Prop)
    (condition : σ → α → Prop)
    (preserved : ∀ s a t, allowed s a → inv s → step s a = some t → inv t)
    (exactly
      : ∀ s a t, allowed s a → inv s → good s → step s a = some t → (good t ↔ condition s a))
    {start finish : σ} {actions : List α} (initially : inv start) (first : good start)
    (all : Along step allowed start actions) (h : run step start actions = some finish)
    : Always step good start actions ↔ Along step condition start actions := by
  induction actions generalizing start with
  | nil => simp [Always, Along, first]
  | cons action rest ih =>
      obtain ⟨middle, stepped, later⟩ := run_cons.mp h
      have here := exactly start action middle all.1 initially first stepped
      have next := preserved start action middle all.1 initially stepped
      have unique (t : σ) : step start action = some t ↔ t = middle := by
        rw [stepped, Option.some.injEq, eq_comm]
      simp only [Always, Along, first, true_and, unique, forall_eq]
      constructor
      · intro always
        have kept : good middle := by
          cases rest with
          | nil => exact always
          | cons => exact always.1
        exact ⟨here.mp kept, (ih next kept (all.2 middle stepped) later).mp always⟩
      · intro along
        have kept := here.mpr along.1
        exact (ih next kept (all.2 middle stepped) later).mpr along.2

/-- The same for a condition that leaves every step free. -/
theorem always_iff_along_of_step {inv : σ → Prop} (good : σ → Prop) (condition : σ → α → Prop)
    (preserved : ∀ s a t, inv s → step s a = some t → inv t)
    (exactly : ∀ s a t, inv s → good s → step s a = some t → (good t ↔ condition s a))
    {start finish : σ} {actions : List α} (initially : inv start) (first : good start)
    (h : run step start actions = some finish)
    : Always step good start actions ↔ Along step condition start actions := by
  have free : Along step (fun _ _ => True) start actions :=
    along_of_forall (fun _ _ => trivial) start
  refine always_iff_along (fun _ _ => True) good condition ?_ ?_ initially first free h
  · exact fun s a t _ => preserved s a t
  · exact fun s a t _ => exactly s a t

end Machine
