import Mathlib.Order.Interval.Set.Basic

/-! A write-behind log: entries are numbered from one and counted in memory first, then
persisted in one batch that may get lost. The memory never returns to a batch it has given
up, so a lost entry stays lost.
-/

namespace WriteBehind

/-- The entries past `settled` wait in the batch; those up to `settled` were given up or
persisted, and `stored` tells which entries are persisted.
-/
@[ext]
structure Log where
  appended : Nat
  settled : Nat
  stored : Set Nat

namespace Log

/-- No batch is waiting. -/
def Idle (log : Log) : Prop := log.settled = log.appended

/-- The entries of the waiting batch. -/
def waiting (log : Log) : Set Nat := Set.Ioc log.settled log.appended

/-- Every counted entry is persisted. -/
def Complete (log : Log) : Prop := ∀ k ∈ Set.Ioc 0 log.appended, k ∈ log.stored

/-- Every counted entry is persisted or still waiting to be. -/
def Covered (log : Log) : Prop :=
  ∀ k ∈ Set.Ioc 0 log.appended, k ∈ log.stored ∨ k ∈ log.waiting

/-- Count `n` more entries and put them into the batch. -/
def advance (log : Log) (n : Nat) : Log :=
  { log with appended := log.appended + n, settled := log.appended }

/-- Give up the batch, persisted or not. -/
def flush (log : Log) (persisted : Prop) : Log where
  appended := log.appended
  settled := log.appended
  stored := {k | k ∈ log.stored ∨ persisted ∧ k ∈ log.waiting}

theorem Idle.covered_iff {log : Log} (idle : log.Idle) : log.Covered ↔ log.Complete := by
  simp [Covered, Complete, waiting, show log.settled = log.appended from idle]

/-- Counting further entries neither loses an entry nor brings a lost one back. -/
theorem covered_advance_iff {log : Log} (idle : log.Idle) (n : Nat)
    : (log.advance n).Covered ↔ log.Covered := by
  rw [idle.covered_iff]
  constructor
  · intro covered k bounds
    obtain ⟨positive, counted⟩ := bounds
    rcases covered k ⟨positive, Nat.le_trans counted (Nat.le_add_right _ n)⟩ with stored | new
    · exact stored
    · exact absurd counted (Nat.not_le_of_lt new.1)
  · intro complete k bounds
    obtain ⟨positive, counted⟩ := bounds
    rcases Nat.lt_or_ge log.appended k with new | old
    · exact Or.inr ⟨new, counted⟩
    · exact Or.inl (complete k ⟨positive, old⟩)

/-- Giving up the batch loses an entry exactly if the batch was not persisted and one of its
entries was not stored before.
-/
theorem covered_flush_iff (log : Log) (persisted : Prop)
    : (log.flush persisted).Covered
      ↔ log.Covered ∧ ¬(¬persisted ∧ ∃ k ∈ log.waiting, k ∉ log.stored) := by
  have idle : (log.flush persisted).Idle := rfl
  rw [idle.covered_iff]
  constructor
  · intro complete
    constructor
    · intro k counted
      exact (complete k counted).imp_right And.right
    · intro lost
      obtain ⟨unpersisted, k, waiting, missing⟩ := lost
      rcases complete k ⟨Nat.zero_lt_of_lt waiting.1, waiting.2⟩ with stored | fresh
      · exact missing stored
      · exact unpersisted fresh.1
  · rintro ⟨covered, kept⟩ k counted
    rcases covered k counted with stored | waiting
    · exact Or.inl stored
    · by_contra lost
      obtain ⟨missing, unpersisted⟩ := not_or.mp lost
      exact kept ⟨fun persisted => unpersisted ⟨persisted, waiting⟩, k, waiting, missing⟩

end Log

end WriteBehind
