import Mathlib.Data.List.Basic

/-! Paths of a Unix file system as texts, and what they name without a look at the file system:
separators and single dots vanish, and two dots go back by one name.
-/

namespace LexicalPath

/-- The path reached from `path` by a further path; a rooted one takes its place. -/
def push (path more : List Char) : List Char :=
  if more.head? = some '/' then more
  else if path = [] ∨ path.getLast? = some '/' then path ++ more
  else path ++ '/' :: more

/-- What stands between the separators. -/
def segments (path : List Char) : List (List Char) :=
  (path.splitOn '/').filter (fun segment => !segment.isEmpty)

/-- The names that a path comes to. A path that is not rooted may start with double dots. -/
structure Resolved where
  rooted : Bool
  names : List (List Char)
  deriving DecidableEq

/-- Follow one segment. -/
def enter (rooted : Bool) (names : List (List Char)) (segment : List Char) : List (List Char) :=
  if segment = ['.'] then names
  else if segment = ['.', '.'] then
    match names.getLast? with
    | some last => if last = ['.', '.'] then names ++ [segment] else names.dropLast
    | none => if rooted then names else [segment]
  else names ++ [segment]

def resolve (path : List Char) : Resolved :=
  let rooted := decide (path.head? = some '/')
  ⟨rooted, (segments path).foldl (enter rooted) []⟩

/-- What is reached by further names. -/
def Resolved.below (base : Resolved) (names : List (List Char)) : Resolved :=
  ⟨base.rooted, base.names ++ names⟩

/-- At least one name further. -/
def Resolved.StrictlyInside (inner base : Resolved) : Prop :=
  ∃ names, names ≠ [] ∧ inner = base.below names

/-- A segment of a path that does not go back. -/
structure Plain (segment : List Char) : Prop where
  nonempty : segment ≠ []
  whole : '/' ∉ segment
  forward : segment ≠ ['.', '.']

theorem segments_of_plain {segment : List Char} (plain : Plain segment)
    : segments segment = [segment] := by
  simp [segments, List.splitOn_eq_singleton plain.whole, plain.nonempty]

theorem segments_append_separator (path more : List Char)
    : segments (path ++ '/' :: more) = segments path ++ segments more := by
  simp [segments, List.splitOn_append_cons_self]

/-- A trailing separator adds no segment. -/
theorem segments_concat_separator (path : List Char)
    : segments (path ++ ['/']) = segments path := by
  rw [segments_append_separator]
  simp [segments]

theorem Plain.not_rooted {segment : List Char} (plain : Plain segment)
    : segment.head? ≠ some '/' :=
  fun rooted => plain.whole (List.mem_of_head? rooted)

theorem segments_push {segment : List Char} (plain : Plain segment) (path : List Char)
    : segments (push path segment) = segments path ++ [segment] := by
  rw [push, if_neg plain.not_rooted]
  split
  next ended =>
    rcases ended with rfl | last
    · rw [List.nil_append, segments_of_plain plain]
      simp [segments]
    · obtain ⟨front, rfl⟩ := List.getLast?_eq_some_iff.mp last
      rw [List.append_assoc, List.singleton_append, segments_append_separator,
        segments_concat_separator, segments_of_plain plain]
  next => rw [segments_append_separator, segments_of_plain plain]

theorem head?_push {segment : List Char} (plain : Plain segment) (path : List Char)
    : (push path segment).head? = some '/' ↔ path.head? = some '/' := by
  rw [push, if_neg plain.not_rooted]
  cases path with
  | nil => simpa using plain.not_rooted
  | cons first rest => split <;> simp

/-- A plain segment is one name further, and a dot is no step at all. -/
theorem resolve_push {segment : List Char} (plain : Plain segment) (path : List Char)
    : resolve (push path segment)
      = (resolve path).below (if segment = ['.'] then [] else [segment]) := by
  simp only [resolve, head?_push plain, segments_push plain, List.foldl_append, List.foldl_cons,
    List.foldl_nil, enter, if_neg plain.forward, Resolved.below]
  split <;> simp

@[simp]
theorem Resolved.below_below (base : Resolved) (first second : List (List Char))
    : (base.below first).below second = base.below (first ++ second) := by
  simp [below]

theorem Resolved.below_injective (base : Resolved) : Function.Injective base.below := by
  intro first second same
  exact List.append_cancel_left (congrArg Resolved.names same)

theorem Resolved.below_strictlyInside (base : Resolved) {names : List (List Char)}
    : (base.below names).StrictlyInside base ↔ names ≠ [] := by
  constructor
  · rintro ⟨others, some, same⟩
    exact base.below_injective same ▸ some
  · exact fun some => ⟨names, some, rfl⟩

end LexicalPath
