import Mathlib.Logic.Relation
import Attesta.Foundation.Checkpoint
import Attesta.Foundation.KeyedRows

/-! A consumer that may go back in a growing stream and do items again. What it has done is
compared with one pass over the stream, for consumers that keep the first of conflicting items
and for consumers that keep the last item of a kind.
-/

namespace Replay

open Checkpoint KeyedRows

variable {α β : Type*}

/-- A stream, what has been done for its items so far, and the number of the next item. -/
structure Progress (α β : Type*) where
  stream : List α
  log : List (Nat × β)
  next : Nat

/-- One move of a consumer that asks `item` what to do for an element. -/
inductive Move (item : α → Option β) : Progress α β → Progress α β → Prop
  | grow (p : Progress α β) (more : List α)
    : Move item p { p with stream := p.stream ++ more }
  | apply {p : Progress α β} {a : α} {b : β} (found : p.stream[p.next]? = some a)
    (asked : item a = some b)
    : Move item p { p with log := p.log ++ [(p.next, b)], next := p.next + 1 }
  | skip {p : Progress α β} {a : α} (found : p.stream[p.next]? = some a)
    (nothing : item a = none)
    : Move item p { p with next := p.next + 1 }
  | back {p : Progress α β} {earlier : Nat} (before : earlier ≤ p.next)
    : Move item p { p with next := earlier }

/-- Any number of moves. -/
def Moves (item : α → Option β) : Progress α β → Progress α β → Prop :=
  Relation.ReflTransGen (Move item)

/-- A consumer that has started with nothing. -/
def Run (item : α → Option β) (p : Progress α β) : Prop := Moves item ⟨[], [], 0⟩ p

variable {item : α → Option β} {p q : Progress α β}

theorem Run.moves (h : Run item p) (more : Moves item p q) : Run item q := h.trans more

theorem Moves.of_eq (same : p = q) : Moves item p q := same ▸ Relation.ReflTransGen.refl

/-- The consumer stands inside the stream and has only done what its items ask for. -/
theorem Run.inside (h : Run item p)
    : p.next ≤ p.stream.length ∧ p.log ⊆ due item p.stream := by
  induction h with
  | refl => simp
  | tail _ move ih =>
      obtain ⟨within, sound⟩ := ih
      cases move with
      | grow more =>
          refine ⟨within.trans (by simp), fun entry member => ?_⟩
          obtain ⟨a, found, asked⟩ := mem_due.mp (sound member)
          have inside := (List.getElem?_eq_some_iff.mp found).1
          exact mem_due.mpr ⟨a, by rwa [List.getElem?_append_left inside], asked⟩
      | apply found asked =>
          refine ⟨(List.getElem?_eq_some_iff.mp found).1, fun entry member => ?_⟩
          rcases List.mem_append.mp member with old | new
          · exact sound old
          · obtain rfl := List.mem_singleton.mp new
            exact mem_due.mpr ⟨_, found, asked⟩
      | skip found => exact ⟨(List.getElem?_eq_some_iff.mp found).1, sound⟩
      | back before => exact ⟨before.trans within, sound⟩

theorem take_succ_filterMap {stream : List α} {i : Nat} {a : α} (found : stream[i]? = some a)
    : (stream.take (i + 1)).filterMap item
      = (stream.take i).filterMap item ++ (item a).toList := by
  rw [List.take_add_one, found, List.filterMap_append]
  cases asked : item a <;> simp [asked]

/-- However often a consumer goes back, keeping the first of conflicting items leaves what one
pass over some beginning of the stream leaves. That beginning reaches at least to the consumer.
-/
theorem Run.first_wins {conflict : β → β → Bool} (reflexive : ∀ b, conflict b b = true)
    (h : Run item p)
    : ∃ k, p.next ≤ k ∧ k ≤ p.stream.length
        ∧ insertAllIgnore conflict [] (p.log.map Prod.snd)
          = insertAllIgnore conflict [] ((p.stream.take k).filterMap item) := by
  induction h with
  | refl => exact ⟨0, by simp⟩
  | tail _ move ih =>
      obtain ⟨k, reached, within, same⟩ := ih
      cases move with
      | grow more =>
          refine ⟨k, reached, within.trans (by simp), ?_⟩
          rw [List.take_append_of_le_length within, same]
      | @apply a b found asked =>
          have inside := (List.getElem?_eq_some_iff.mp found).1
          rcases Nat.lt_or_eq_of_le reached with before | here
          · refine ⟨k, before, within, ?_⟩
            have done : b ∈ (List.take k _).filterMap item :=
              List.mem_filterMap.mpr ⟨a, List.mem_of_getElem? (by
                rwa [List.getElem?_take_of_lt before]), asked⟩
            rw [List.map_append, List.map_singleton, insertAllIgnore_concat, same,
              insertIgnore_of_mem [] (reflexive b) done]
          · subst here
            refine ⟨_, le_rfl, inside, ?_⟩
            rw [List.map_append, List.map_singleton, insertAllIgnore_concat, same,
              take_succ_filterMap found, asked]
            simp
      | @skip a found nothing =>
          have inside := (List.getElem?_eq_some_iff.mp found).1
          rcases Nat.lt_or_eq_of_le reached with before | here
          · exact ⟨k, before, within, same⟩
          · subst here
            refine ⟨_, le_rfl, inside, ?_⟩
            rw [same, take_succ_filterMap found, nothing]
            simp
      | back before => exact ⟨k, before.trans reached, within, same⟩

/-- At the end of the stream the whole of it has been passed. -/
theorem Run.first_wins_finished {conflict : β → β → Bool}
    (reflexive : ∀ b, conflict b b = true) (h : Run item p)
    (finished : p.next = p.stream.length)
    : insertAllIgnore conflict [] (p.log.map Prod.snd)
      = insertAllIgnore conflict [] (p.stream.filterMap item) := by
  obtain ⟨k, reached, within, same⟩ := h.first_wins reflexive
  obtain rfl : k = p.stream.length := Nat.le_antisymm within (finished ▸ reached)
  rw [same, List.take_length]

-----------------------------------------------------------------------------------------
-- The last item of a kind
-----------------------------------------------------------------------------------------

/-- The last item of a kind in the log is no earlier than any the consumer has passed. -/
theorem Run.last_reaches (mine : β → Bool) (h : Run item p) {i : Nat} {b : β}
    (member : (i, b) ∈ due item p.stream) (own : mine b = true) (before : i < p.next)
    : ∃ entry, (p.log.filter (fun entry => mine entry.2)).getLast? = some entry
        ∧ i ≤ entry.1 := by
  induction h with
  | refl => cases before
  | @tail q _ earlier move ih =>
      have within := (Run.inside earlier).1
      obtain ⟨a, found, asked⟩ := mem_due.mp member
      cases move with
      | grow more =>
          rw [List.getElem?_append_left (before.trans_le within)] at found
          exact ih (mem_due.mpr ⟨a, found, asked⟩) before
      | @apply a' b' next asked' =>
          simp only [List.filter_append, List.filter_cons, List.filter_nil]
          by_cases latest : mine b' = true
          · exact ⟨(q.next, b'), by simp [latest], Nat.le_of_lt_succ before⟩
          · rcases Nat.lt_succ_iff_lt_or_eq.mp before with passed | rfl
            · simpa [latest] using ih member passed
            · obtain rfl := Option.some.inj (next.symm.trans found)
              obtain rfl := Option.some.inj (asked'.symm.trans asked)
              exact absurd own latest
      | skip next nothing =>
          rcases Nat.lt_succ_iff_lt_or_eq.mp before with passed | rfl
          · exact ih member passed
          · obtain rfl := Option.some.inj (next.symm.trans found)
            rw [nothing] at asked
            cases asked
      | back back => exact ih member (before.trans_le back)

/-- At the end of the stream the last item of a kind is the last one of the stream. -/
theorem Run.last_wins_finished (mine : β → Bool) (h : Run item p)
    (finished : p.next = p.stream.length)
    : ((p.log.map Prod.snd).filter mine).getLast?
      = ((p.stream.filterMap item).filter mine).getLast? := by
  have sound := h.inside.2
  rw [← due_map_snd, List.filter_map, List.filter_map, List.getLast?_map, List.getLast?_map]
  refine congrArg (Option.map Prod.snd) ?_
  change (p.log.filter (fun entry => mine entry.2)).getLast?
    = ((due item p.stream).filter (fun entry => mine entry.2)).getLast?
  cases last : ((due item p.stream).filter (fun entry => mine entry.2)).getLast? with
  | none =>
      rw [List.getLast?_eq_none_iff] at last ⊢
      rw [List.filter_eq_nil_iff] at last ⊢
      exact fun entry member => last entry (sound member)
  | some newest =>
      obtain ⟨earlier, shape⟩ := List.getLast?_eq_some_iff.mp last
      have listed : newest ∈ (due item p.stream).filter (fun entry => mine entry.2) := by
        rw [shape]
        simp
      obtain ⟨wanted, own⟩ := List.mem_filter.mp listed
      obtain ⟨a, found, _⟩ := mem_due.mp wanted
      have inside := (List.getElem?_eq_some_iff.mp found).1
      obtain ⟨entry, atEnd, after⟩ := h.last_reaches mine wanted own (finished ▸ inside)
      have logged := List.mem_of_getLast? atEnd
      rw [List.mem_filter] at logged
      have asked : entry ∈ (due item p.stream).filter (fun entry => mine entry.2) :=
        List.mem_filter.mpr ⟨sound logged.1, logged.2⟩
      have increasing
          : ((due item p.stream).filter (fun entry => mine entry.2)).Pairwise
              (fun left right => left.1 < right.1) :=
        (increasing_due p.stream).filter _
      rw [shape] at asked increasing
      rw [atEnd]
      rcases List.mem_append.mp asked with old | same
      · have below := (List.pairwise_append.mp increasing).2.2 entry old newest (by simp)
        omega
      · rw [List.mem_singleton.mp same]

end Replay
