import Mathlib.Algebra.BigOperators.Group.List.Basic
import Mathlib.Algebra.Ring.Int.Defs
import Mathlib.Data.List.Nodup
import Mathlib.Data.List.Perm.Subperm

/-! A consumer of a numbered stream that resumes from a checkpoint. It handles an item again
whenever it resumes at or before it. The log of what it has done is compared with what the
stream asks for, so counts and multiplicities are those of lists up to permutation.
-/

namespace Checkpoint

/-- The numbers of the items done so far and of the item to be done next. -/
structure Consumer where
  done : List Nat
  next : Nat

/-- No item has been done twice, and none will be if the consumer goes on from here. -/
def Consumer.Once (c : Consumer) : Prop := c.done.Nodup ∧ ∀ i ∈ c.done, i < c.next

/-- Doing the next item and moving past it. -/
theorem once_apply_iff {done : List Nat} {next : Nat}
    : Consumer.Once ⟨done ++ [next], next + 1⟩ ↔ Consumer.Once ⟨done, next⟩ := by
  constructor
  · intro h
    obtain ⟨distinct, before⟩ := h
    obtain ⟨earlier, _, apart⟩ := List.nodup_append.mp distinct
    refine ⟨earlier, fun i member => ?_⟩
    have bound := before i (List.mem_append_left _ member)
    have other := apart i member next (List.mem_singleton_self next)
    change i < next + 1 at bound
    change i < next
    omega
  · intro h
    obtain ⟨distinct, before⟩ := h
    refine ⟨List.nodup_append.mpr ⟨distinct, List.nodup_singleton next, ?_⟩, ?_⟩
    · intro i member j last
      obtain rfl := List.mem_singleton.mp last
      exact (before i member).ne
    · intro i member
      rcases List.mem_append.mp member with old | new
      · exact Nat.lt_succ_of_lt (before i old)
      · exact List.mem_singleton.mp new ▸ Nat.lt_succ_self next

/-- Moving past items that have never been done. -/
theorem once_skip_iff {done : List Nat} {next later : Nat} (ahead : next ≤ later)
    (skipped : ∀ i ∈ done, i < next ∨ later ≤ i)
    : Consumer.Once ⟨done, later⟩ ↔ Consumer.Once ⟨done, next⟩ := by
  constructor
  · intro h
    refine ⟨h.1, fun i member => ?_⟩
    rcases skipped i member with before | after
    · exact before
    · exact absurd (h.2 i member) (Nat.not_lt.mpr after)
  · intro h
    exact ⟨h.1, fun i member => (h.2 i member).trans_le ahead⟩

/-- Going back is harmless as long as nothing has been done from there on. -/
theorem once_restart_iff {done : List Nat} {next back : Nat} (earlier : back ≤ next)
    : Consumer.Once ⟨done, back⟩
      ↔ Consumer.Once ⟨done, next⟩ ∧ ¬ ∃ i ∈ done, back ≤ i := by
  constructor
  · intro h
    refine ⟨⟨h.1, fun i member => (h.2 i member).trans_le earlier⟩, ?_⟩
    intro exposed
    obtain ⟨i, member, after⟩ := exposed
    exact absurd (h.2 i member) (Nat.not_lt.mpr after)
  · intro h
    obtain ⟨once, hidden⟩ := h
    exact ⟨once.1, fun i member => Nat.lt_of_not_le fun after => hidden ⟨i, member, after⟩⟩

variable {α β : Type*} (item : α → Option β)

/-- What is to be done for the elements of a stream, with their numbers. -/
def due (stream : List α) : List (Nat × β) :=
  stream.zipIdx.filterMap (fun entry => (item entry.1).map (fun b => (entry.2, b)))

variable {item}

theorem mem_due {stream : List α} {i : Nat} {b : β}
    : (i, b) ∈ due item stream ↔ ∃ a, stream[i]? = some a ∧ item a = some b := by
  simp only [due, List.mem_filterMap, Prod.exists, List.mem_zipIdx_iff_getElem?,
    Option.map_eq_some_iff, Prod.mk.injEq]
  constructor
  · intro h
    obtain ⟨a, j, found, c, asked, rfl, rfl⟩ := h
    exact ⟨a, found, asked⟩
  · intro h
    obtain ⟨a, found, asked⟩ := h
    exact ⟨a, i, found, b, asked, rfl, rfl⟩

theorem due_map_snd (stream : List α)
    : (due item stream).map Prod.snd = stream.filterMap item := by
  rw [due, List.map_filterMap]
  conv_rhs => rw [← List.zipIdx_map_fst 0 stream, List.filterMap_map]
  refine congrArg (fun f => List.filterMap f stream.zipIdx) ?_
  funext entry
  cases asked : item entry.1 <;> simp [asked]

/-- What is to be done comes in the order of the stream. -/
theorem increasing_due (stream : List α)
    : (due item stream).Pairwise (fun left right => left.1 < right.1) := by
  have numbers : ((due item stream).map Prod.fst).Sublist (stream.zipIdx.map Prod.snd) := by
    rw [due, List.map_filterMap]
    induction stream.zipIdx with
    | nil => exact List.Sublist.slnil
    | cons entry rest ih =>
        rw [List.map_cons, List.filterMap_cons]
        cases item entry.1 with
        | none => exact ih.cons _
        | some b => exact ih.cons_cons _
  rw [List.zipIdx_map_snd] at numbers
  exact List.pairwise_map.mp (List.Pairwise.sublist numbers List.pairwise_lt_range')

/-- Every element has its own number. -/
theorem nodup_due (stream : List α) : ((due item stream).map Prod.fst).Nodup :=
  List.pairwise_map.mpr ((increasing_due stream).imp Nat.ne_of_lt)

-----------------------------------------------------------------------------------------
-- Logs that hold all and only what a stream asks for
-----------------------------------------------------------------------------------------

variable {stream : List α} {log : List (Nat × β)}

theorem due_subperm (complete : due item stream ⊆ log) : (due item stream).Subperm log :=
  List.subperm_of_subset (nodup_due stream).of_map complete

/-- Without repetitions the log is what the stream asks for. -/
theorem perm_due (complete : due item stream ⊆ log) (sound : log ⊆ due item stream)
    (distinct : (log.map Prod.fst).Nodup)
    : (due item stream).Perm log :=
  (List.perm_ext_iff_of_nodup (nodup_due stream).of_map distinct.of_map).mpr
    (fun _ => ⟨fun member => complete member, fun member => sound member⟩)

/-- If it was written in the order of the stream it is exactly that. -/
theorem eq_due (complete : due item stream ⊆ log) (sound : log ⊆ due item stream)
    (increasing : log.Pairwise (fun left right => left.1 < right.1))
    : log = due item stream := by
  have distinct : (log.map Prod.fst).Nodup :=
    List.pairwise_map.mpr (increasing.imp Nat.ne_of_lt)
  refine List.Perm.eq_of_pairwise (fun a b _ _ before after => ?_) increasing
    (increasing_due stream) (perm_due complete sound distinct).symm
  exact absurd (before.trans after) (Nat.lt_irrefl _)

/-- Nothing has been done twice exactly if the log asks for as much as the stream. -/
theorem nodup_iff_perm (complete : due item stream ⊆ log) (sound : log ⊆ due item stream)
    : (log.map Prod.fst).Nodup ↔ (log.map Prod.snd).Perm (stream.filterMap item) := by
  constructor
  · intro distinct
    rw [← due_map_snd]
    exact ((perm_due complete sound distinct).map Prod.snd).symm
  · intro same
    have lengths := same.length_eq
    rw [← due_map_snd, List.length_map, List.length_map] at lengths
    have perm := (due_subperm complete).perm_of_length_le (le_of_eq lengths)
    exact (perm.map Prod.fst).nodup_iff.mp (nodup_due stream)

theorem sum_le_of_sublist {part whole : List β} {weight : β → Int}
    (sublist : part.Sublist whole) (positive : ∀ b ∈ whole, 0 < weight b)
    : (part.map weight).sum ≤ (whole.map weight).sum := by
  induction sublist with
  | slnil => exact Int.le_refl _
  | @cons part whole b _ ih =>
      have rest := ih (fun c member => positive c (List.mem_cons_of_mem b member))
      have extra := positive b (by simp)
      simp only [List.map_cons, List.sum_cons]
      omega
  | @cons_cons part whole b _ ih =>
      have rest := ih (fun c member => positive c (List.mem_cons_of_mem b member))
      simp only [List.map_cons, List.sum_cons]
      omega

/-- A part of a list with the same total of positive weights is the whole list. -/
theorem eq_of_sum_eq {part whole : List β} {weight : β → Int} (sublist : part.Sublist whole)
    (positive : ∀ b ∈ whole, 0 < weight b)
    (same : (whole.map weight).sum = (part.map weight).sum)
    : part = whole := by
  induction sublist with
  | slnil => rfl
  | @cons part whole b sub ih =>
      have smaller := sum_le_of_sublist sub
        (fun c member => positive c (List.mem_cons_of_mem b member))
      have extra := positive b (by simp)
      simp only [List.map_cons, List.sum_cons] at same
      omega
  | @cons_cons part whole b sub ih =>
      simp only [List.map_cons, List.sum_cons] at same
      rw [ih (fun c member => positive c (List.mem_cons_of_mem b member)) (by omega)]

/-- The same for sums, if every entry weighs something. -/
theorem nodup_of_sum_eq (weight : β → Int) (complete : due item stream ⊆ log)
    (positive : ∀ entry ∈ log, 0 < weight entry.2)
    (same : ((log.map Prod.snd).map weight).sum = ((stream.filterMap item).map weight).sum)
    : (log.map Prod.fst).Nodup := by
  obtain ⟨part, perm, sublist⟩ := due_subperm complete
  have sums : (log.map (fun entry => weight entry.2)).sum
      = (part.map (fun entry => weight entry.2)).sum := by
    rw [(perm.map (fun entry => weight entry.2)).sum_eq]
    rw [← due_map_snd, List.map_map, List.map_map] at same
    exact same
  obtain rfl := eq_of_sum_eq sublist positive sums
  exact (perm.map Prod.fst).nodup_iff.mpr (nodup_due stream)

end Checkpoint
