import Mathlib.Data.List.Induction
import Mathlib.Order.ConditionallyCompleteLattice.Basic
import Mathlib.Order.Basic

/-! Feeds ordered by a strictly increasing key, read from a cursor on. A reader takes a
snapshot and then follows a live tail that may overlap with it; keys tell it what it has
already seen.
-/

namespace Feed

variable {α κ : Type*} [LinearOrder κ] (key : α → κ)

def Increasing (feed : List α) : Prop := feed.Pairwise (fun a b => key a < key b)

/-- The selected items with a key past the cursor. -/
def since (select : α → Bool) (cursor : κ) (feed : List α) : List α :=
  feed.filter (fun a => select a && decide (cursor < key a))

/-- The selected items with a key past the cursor and up to a bound. -/
def between (select : α → Bool) (cursor bound : κ) (feed : List α) : List α :=
  feed.filter (fun a => select a && decide (cursor < key a) && decide (key a ≤ bound))

/-- Where a reader stands that has read these items after the cursor. -/
def last (cursor : κ) (items : List α) : κ := (items.getLast?.map key).getD cursor

variable {key} {select : α → Bool} {cursor : κ} {feed : List α}

omit [LinearOrder κ] in
@[simp]
theorem last_nil (cursor : κ) : last key cursor [] = cursor := rfl

omit [LinearOrder κ] in
@[simp]
theorem last_concat (cursor : κ) (items : List α) (a : α)
    : last key cursor (items ++ [a]) = key a := by
  simp [last]

theorem mem_since {a : α} : a ∈ since key select cursor feed
    ↔ a ∈ feed ∧ select a = true ∧ cursor < key a := by
  simp [since]

theorem since_append (first second : List α)
    : since key select cursor (first ++ second)
      = since key select cursor first ++ since key select cursor second :=
  List.filter_append ..

theorem Increasing.since (h : Increasing key feed) (select : α → Bool) (cursor : κ)
    : Increasing key (since key select cursor feed) :=
  List.Pairwise.filter _ h

/-- Items read in order end with the greatest key. -/
theorem Increasing.le_last {items : List α} (h : Increasing key items) {a : α}
    (member : a ∈ items) (cursor : κ)
    : key a ≤ last key cursor items := by
  induction items using List.reverseRecOn with
  | nil => cases member
  | append_singleton items b _ =>
      rw [last_concat]
      rcases List.mem_append.mp member with earlier | here
      · exact ((List.pairwise_append.mp h).2.2 a earlier b (by simp)).le
      · rw [List.mem_singleton.mp here]

theorem cursor_le_last {items : List α} (after : ∀ a ∈ items, cursor < key a)
    : cursor ≤ last key cursor items := by
  induction items using List.reverseRecOn with
  | nil => exact le_rfl
  | append_singleton items b _ =>
      rw [last_concat]
      exact (after b (by simp)).le

/-- What follows in the feed lies past the last item read. -/
theorem Increasing.last_lt {items rest : List α} (h : Increasing key (items ++ rest))
    (after : ∀ a ∈ items ++ rest, cursor < key a) {a : α} (member : a ∈ rest)
    : last key cursor items < key a := by
  have apart := (List.pairwise_append.mp h).2.2
  induction items using List.reverseRecOn with
  | nil => exact after a member
  | append_singleton items b _ =>
      rw [last_concat]
      exact apart b (by simp) a member

/-- What lies past the last item read is what has not been read. -/
theorem since_last {items rest : List α} (h : Increasing key (items ++ rest))
    (after : ∀ a ∈ items ++ rest, cursor < key a)
    : since key (fun _ => true) (last key cursor items) (items ++ rest) = rest := by
  have sorted : Increasing key items := (List.pairwise_append.mp h).1
  have read : since key (fun _ => true) (last key cursor items) items = [] := by
    refine List.filter_eq_nil_iff.mpr ?_
    intro a member
    simpa using sorted.le_last member cursor
  have unread : since key (fun _ => true) (last key cursor items) rest = rest := by
    refine List.filter_eq_self.mpr ?_
    intro a member
    simpa using h.last_lt after member
  rw [since_append, read, unread, List.nil_append]

/-- A prefix of the selection is everything selected up to its last item. -/
theorem prefix_eq_between {items : List α} (h : Increasing key feed)
    (part : items <+: since key select cursor feed)
    : items = between key select cursor (last key cursor items) feed := by
  have split : between key select cursor (last key cursor items) feed
      = (since key select cursor feed).filter
          (fun a => decide (key a ≤ last key cursor items)) := by
    simp only [between, since, List.filter_filter]
    refine List.filter_congr ?_
    intro a _
    rw [Bool.and_comm]
  obtain ⟨rest, shape⟩ := part
  have sorted : Increasing key (items ++ rest) := shape ▸ h.since select cursor
  have after : ∀ a ∈ items ++ rest, cursor < key a := by
    intro a member
    rw [shape] at member
    exact (mem_since.mp member).2.2
  have first : Increasing key items := (List.pairwise_append.mp sorted).1
  have read : items.filter (fun a => decide (key a ≤ last key cursor items)) = items := by
    refine List.filter_eq_self.mpr ?_
    intro a member
    simpa using first.le_last member cursor
  have unread : rest.filter (fun a => decide (key a ≤ last key cursor items)) = [] := by
    refine List.filter_eq_nil_iff.mpr ?_
    intro a member
    simpa using sorted.last_lt after member
  rw [split, ← shape, List.filter_append, read, unread, List.append_nil]

/-- What does not fit on the first page lies past everything on it. -/
theorem Increasing.mem_take_or_lt {items : List α} (h : Increasing key items) (size : Nat)
    {a : α} (member : a ∈ items)
    : a ∈ items.take size ∨ ∀ b ∈ items.take size, key b < key a := by
  rw [← List.take_append_drop size items] at h member
  obtain ⟨_, _, apart⟩ := List.pairwise_append.mp h
  rcases List.mem_append.mp member with here | later
  · exact Or.inl here
  · exact Or.inr fun b first => apart b first a later

/-- An item of the tail that has been seen before is dropped. -/
theorem since_cons_old {a : α} {tail : List α} (seen : key a ≤ cursor)
    : since key select cursor (a :: tail) = since key select cursor tail := by
  unfold since
  refine List.filter_cons_of_neg ?_
  simp [seen]

/-- A new item of the tail is delivered if it is selected, and seen either way. -/
theorem since_cons_new {a : α} {tail : List α} (h : Increasing key (a :: tail))
    (fresh : cursor < key a)
    : since key select cursor (a :: tail)
      = (if select a then [a] else []) ++ since key select (key a) tail := by
  have rest : since key select cursor tail = since key select (key a) tail := by
    refine List.filter_congr ?_
    intro b member
    have later : key a < key b := List.rel_of_pairwise_cons h member
    simp [later, fresh.trans later]
  rw [← rest]
  cases chosen : select a <;> simp [since, chosen, fresh]

/-- What lies up to a cursor and what is read after it are together what is selected. -/
theorem perm_since (select : α → Bool) (cursor : κ) (feed : List α)
    : (feed.filter (fun a => select a && decide (key a ≤ cursor))
        ++ since key select cursor feed).Perm (feed.filter select) := by
  have split := List.filter_append_perm (fun a => decide (key a ≤ cursor)) (feed.filter select)
  have first
      : (fun a => decide (key a ≤ cursor) && select a)
        = (fun a => select a && decide (key a ≤ cursor)) :=
    funext fun a => Bool.and_comm _ _
  have second
      : (fun a => !decide (key a ≤ cursor) && select a)
        = (fun a => select a && decide (cursor < key a)) := by
    funext a
    by_cases before : key a ≤ cursor
    · simp [before]
    · simp [not_le.mp before]
  rwa [List.filter_filter, List.filter_filter, first, second] at split

/-- In an ordered feed, two selections of which one lies before the other follow each other. -/
theorem Increasing.filter_append_filter (h : Increasing key feed) {first second : α → Bool}
    (before : ∀ a b, first a = true → second b = true → key a < key b)
    : feed.filter first ++ feed.filter second = feed.filter (fun a => first a || second a) := by
  induction feed with
  | nil => rfl
  | cons a rest ih =>
      obtain ⟨head, tail⟩ := List.pairwise_cons.mp h
      have joined := ih tail
      by_cases early : first a = true
      · have late : second a = false := by
          by_contra both
          exact lt_irrefl _ (before a a early (Bool.not_eq_false _ ▸ both))
        simp [early, late, joined]
      · by_cases late : second a = true
        · -- Whatever follows lies past `a`, so nothing of it is in the first selection.
          have none : rest.filter first = [] := by
            refine List.filter_eq_nil_iff.mpr ?_
            intro b member chosen
            exact lt_asymm (before b a chosen late) (head b member)
          have whole : rest.filter second = rest.filter (fun b => first b || second b) := by
            rw [← joined, none, List.nil_append]
          simp [early, late, none, whole]
        · simp [early, late, joined]

theorem between_append_between (h : Increasing key feed) {bound top : κ}
    (low : cursor ≤ bound) (high : bound ≤ top)
    : between key select cursor bound feed ++ between key select bound top feed
      = between key select cursor top feed := by
  unfold between
  rw [h.filter_append_filter]
  · refine List.filter_congr ?_
    intro a _
    rw [Bool.eq_iff_iff]
    simp only [Bool.or_eq_true, Bool.and_eq_true, decide_eq_true_eq]
    constructor
    · rintro (⟨⟨chosen, past⟩, upto⟩ | ⟨⟨chosen, past⟩, upto⟩)
      · exact ⟨⟨chosen, past⟩, upto.trans high⟩
      · exact ⟨⟨chosen, low.trans_lt past⟩, upto⟩
    · rintro ⟨⟨chosen, past⟩, upto⟩
      rcases le_or_gt (key a) bound with early | late
      · exact Or.inl ⟨⟨chosen, past⟩, early⟩
      · exact Or.inr ⟨⟨chosen, late⟩, upto⟩
  · simp only [Bool.and_eq_true, decide_eq_true_eq]
    rintro a b ⟨_, upto⟩ ⟨⟨_, past⟩, _⟩
    exact upto.trans_lt past

theorem between_append_since (h : Increasing key feed) {bound : κ}
    (low : cursor ≤ bound)
    : between key select cursor bound feed ++ since key select bound feed
      = since key select cursor feed := by
  unfold between since
  rw [h.filter_append_filter]
  · refine List.filter_congr ?_
    intro a _
    rw [Bool.eq_iff_iff]
    simp only [Bool.or_eq_true, Bool.and_eq_true, decide_eq_true_eq]
    constructor
    · rintro (⟨⟨chosen, past⟩, _⟩ | ⟨chosen, past⟩)
      · exact ⟨chosen, past⟩
      · exact ⟨chosen, low.trans_lt past⟩
    · rintro ⟨chosen, past⟩
      rcases le_or_gt (key a) bound with early | late
      · exact Or.inl ⟨⟨chosen, past⟩, early⟩
      · exact Or.inr ⟨chosen, late⟩
  · simp only [Bool.and_eq_true, decide_eq_true_eq]
    rintro a b ⟨_, upto⟩ ⟨_, past⟩
    exact upto.trans_lt past

/-- What is appended past the bound does not show. -/
theorem between_append_of_past {bound : κ} {more : List α}
    (past : ∀ a ∈ more, cursor < key a → bound < key a)
    : between key select cursor bound (feed ++ more) = between key select cursor bound feed := by
  unfold between
  rw [List.filter_append]
  have none : more.filter
      (fun a => select a && decide (cursor < key a) && decide (key a ≤ bound)) = [] := by
    refine List.filter_eq_nil_iff.mpr ?_
    intro a member
    simp only [Bool.and_eq_true, decide_eq_true_eq, not_and, not_le]
    rintro ⟨_, after⟩
    exact past a member after
  rw [none, List.append_nil]

omit [LinearOrder κ] in
/-- Two feeds are equal if every tail of one holds what the same tail of the other holds. -/
theorem eq_of_drop_perm {left right : List α} (same : ∀ k, (left.drop k).Perm (right.drop k))
    : left = right := by
  induction left generalizing right with
  | nil => exact (same 0).nil_eq
  | cons a rest ih =>
      cases right with
      | nil => exact absurd (same 0).length_eq (by simp)
      | cons b others =>
          have tails : rest = others := ih fun k => same (k + 1)
          subst tails
          have heads : [a].Perm [b] := (List.perm_append_right_iff rest).mp (same 0)
          rw [List.singleton_perm_singleton.mp heads]

end Feed
