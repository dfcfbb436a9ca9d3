import Mathlib.Data.List.DropRight

/-! Lists written with a separator between their entries. Blanks around an entry are trimmed and
empty entries are dropped, so many texts stand for one list; each of them is well formed.
-/

namespace SeparatedList

variable {α : Type*}

/-- Drop the blanks at both ends. -/
def trim (blank : α → Bool) (text : List α) : List α :=
  (text.dropWhile blank).rdropWhile blank

/-- The entries of a text. -/
def entries [BEq α] (separator : α) (blank : α → Bool) (text : List α) : List (List α) :=
  ((text.splitOn separator).map (trim blank)).filter (fun entry => !entry.isEmpty)

/-- Something that reads back as one entry when it stands between separators. -/
structure Entry (separator : α) (blank : α → Bool) (entry : List α) : Prop where
  nonempty : entry ≠ []
  unseparated : separator ∉ entry
  first : ∀ a ∈ entry.head?, blank a = false
  last : ∀ a ∈ entry.getLast?, blank a = false

section Trim

variable {blank : α → Bool} {text : List α}

@[simp]
theorem trim_nil : trim blank [] = [] := rfl

theorem trim_sublist : (trim blank text).Sublist text :=
  (List.rdropWhile_prefix blank _).sublist.trans (List.dropWhile_suffix blank).sublist

theorem trim_eq_nil_iff : trim blank text = [] ↔ ∀ a ∈ text, blank a = true := by
  rw [trim, List.rdropWhile_eq_nil_iff]
  constructor
  · intro h
    have front : text.dropWhile blank = [] := by
      cases shape : text.dropWhile blank with
      | nil => rfl
      | cons a rest =>
          have kept := List.head?_dropWhile_not blank text
          simp only [shape, List.head?_cons] at kept
          have dropped := h a (by simp [shape])
          simp [kept] at dropped
    exact List.dropWhile_eq_nil_iff.mp front
  · intro h
    rw [List.dropWhile_eq_nil_iff.mpr h]
    exact fun _ member => nomatch member

/-- What is trimmed already stays as it is. -/
theorem trim_eq_self (first : ∀ a ∈ text.head?, blank a = false)
    (last : ∀ a ∈ text.getLast?, blank a = false)
    : trim blank text = text := by
  have front : text.dropWhile blank = text := by
    cases text with
    | nil => rfl
    | cons a rest => exact List.dropWhile_cons_of_neg (by simpa using first a rfl)
  rw [trim, front, List.rdropWhile_eq_self_iff]
  intro nonempty
  simpa using last _ (List.getLast?_eq_some_getLast nonempty)

theorem head?_trim {a : α} (h : a ∈ (trim blank text).head?) : blank a = false := by
  have start : trim blank text <+: text.dropWhile blank := List.rdropWhile_prefix blank _
  obtain ⟨rest, whole⟩ := start
  cases shape : trim blank text with
  | nil => simp [shape] at h
  | cons b more =>
      obtain rfl : b = a := by simpa [shape] using h
      have front := List.head?_dropWhile_not blank text
      rw [← whole, shape] at front
      simpa using front

theorem getLast?_trim {a : α} (h : a ∈ (trim blank text).getLast?) : blank a = false := by
  have nonempty : trim blank text ≠ [] := by
    rintro empty
    simp [empty] at h
  have last : ¬ blank ((trim blank text).getLast nonempty) :=
    List.rdropWhile_last_not blank (text.dropWhile blank) nonempty
  obtain rfl : (trim blank text).getLast nonempty = a := by
    simpa [List.getLast?_eq_some_getLast nonempty] using h
  exact Bool.eq_false_iff.mpr last

end Trim

variable [DecidableEq α] {separator : α} {blank : α → Bool}

/-- What stands between separators holds none. -/
theorem notMem_of_mem_splitOn {text segment : List α} (h : segment ∈ text.splitOn separator)
    : separator ∉ segment := by
  induction text generalizing segment with
  | nil =>
      obtain rfl : segment = [] := by simpa using h
      exact List.not_mem_nil
  | cons a rest ih =>
      rw [List.splitOn_cons_eq_if_modifyHead] at h
      split at h
      · rcases List.mem_cons.mp h with rfl | later
        · exact List.not_mem_nil
        · exact ih later
      next other =>
        cases shape : rest.splitOn separator with
        | nil => exact absurd shape (List.splitOn_ne_nil separator rest)
        | cons head more =>
            rw [shape, List.modifyHead_cons] at h
            rcases List.mem_cons.mp h with rfl | later
            · have apart : separator ∉ head := ih (by simp [shape])
              simp only [beq_iff_eq] at other
              simp [apart, Ne.symm other]
            · exact ih (by simp [shape, later])

/-- Whatever a text holds, its entries are well formed. -/
theorem entry_of_mem_entries {text entry : List α} (h : entry ∈ entries separator blank text)
    : Entry separator blank entry := by
  obtain ⟨trimmed, nonempty⟩ := List.mem_filter.mp h
  obtain ⟨segment, member, rfl⟩ := List.mem_map.mp trimmed
  refine ⟨by simpa using nonempty, ?_, fun _ => head?_trim, fun _ => getLast?_trim⟩
  exact fun inside => notMem_of_mem_splitOn member (trim_sublist.subset inside)

/-- Well-formed entries read back from the text that joins them. -/
theorem entries_intercalate {list : List (List α)}
    (wellFormed : ∀ entry ∈ list, Entry separator blank entry)
    : entries separator blank ([separator].intercalate list) = list := by
  by_cases empty : list = []
  · simp [empty, entries]
  · have split : ([separator].intercalate list).splitOn separator = list :=
      List.splitOn_intercalate separator (fun entry member => (wellFormed entry member).unseparated)
        empty
    have trimmed : list.map (trim blank) = list := by
      refine (List.map_congr_left fun entry member => ?_).trans (List.map_id list)
      exact trim_eq_self (wellFormed entry member).first (wellFormed entry member).last
    rw [entries, split, trimmed, List.filter_eq_self]
    exact fun entry member => by simpa using (wellFormed entry member).nonempty

end SeparatedList
