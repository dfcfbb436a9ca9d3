import Mathlib.Data.List.DropRight
import Mathlib.Data.List.Induction
import Mathlib.Data.List.Sort

/-! Tables as lists of rows: inserts that skip conflicting rows, inserts that update the row
of the same key, and queries that pick the first row in some order. Row types, conflict
rules and orders are arbitrary.
-/

namespace KeyedRows

variable {ρ : Type*}

/-- Insert a row unless it conflicts with a stored one. -/
def insertIgnore (conflict : ρ → ρ → Bool) (rows : List ρ) (row : ρ) : List ρ :=
  if rows.any (conflict row) then rows else rows ++ [row]

/-- Insert the rows of a batch one after the other, skipping each conflicting one. -/
def insertAllIgnore (conflict : ρ → ρ → Bool) (rows batch : List ρ) : List ρ :=
  batch.foldl (insertIgnore conflict) rows

/-- No two stored rows conflict. -/
def NoConflict (conflict : ρ → ρ → Bool) (rows : List ρ) : Prop :=
  rows.Pairwise (fun a b => conflict b a = false)

theorem prefix_insertIgnore (conflict : ρ → ρ → Bool) (rows : List ρ) (row : ρ)
    : rows <+: insertIgnore conflict rows row := by
  unfold insertIgnore
  split
  · exact List.prefix_rfl
  · exact List.prefix_append rows [row]

theorem mem_insertIgnore {conflict : ρ → ρ → Bool} {rows : List ρ} {row r : ρ}
    (h : r ∈ insertIgnore conflict rows row)
    : r ∈ rows ∨ r = row := by
  unfold insertIgnore at h
  split at h
  · exact Or.inl h
  · simpa using h

/-- Afterwards the row itself or one that conflicts with it is stored. -/
theorem exists_of_insertIgnore (conflict : ρ → ρ → Bool) (rows : List ρ) (row : ρ)
    : ∃ r ∈ insertIgnore conflict rows row, r = row ∨ conflict row r = true := by
  unfold insertIgnore
  split
  next taken =>
    obtain ⟨r, member, clash⟩ := List.any_eq_true.mp taken
    exact ⟨r, member, Or.inr clash⟩
  next => exact ⟨row, by simp, Or.inl rfl⟩

/-- A selection that holds every row in conflict with the inserted one sees the whole insert. -/
theorem filter_insertIgnore {conflict : ρ → ρ → Bool} {mine : ρ → Bool} (rows : List ρ) {row : ρ}
    (own : mine row = true) (clash : ∀ r, conflict row r = true → mine r = true)
    : (insertIgnore conflict rows row).filter mine
      = insertIgnore conflict (rows.filter mine) row := by
  have found : (rows.filter mine).any (conflict row) = rows.any (conflict row) := by
    rw [List.any_filter]
    refine congrArg (fun p => List.any rows p) (funext fun r => ?_)
    cases hit : conflict row r with
    | false => simp
    | true => simp [clash r hit]
  unfold insertIgnore
  rw [found]
  split
  · rfl
  · simp [own]

/-- A selection without the inserted row stays as it is. -/
theorem filter_insertIgnore_of_not {conflict : ρ → ρ → Bool} {other : ρ → Bool} (rows : List ρ)
    {row : ρ} (apart : other row = false)
    : (insertIgnore conflict rows row).filter other = rows.filter other := by
  unfold insertIgnore
  split
  · rfl
  · simp [apart]

theorem NoConflict.insertIgnore {conflict : ρ → ρ → Bool} {rows : List ρ}
    (h : NoConflict conflict rows) (row : ρ)
    : NoConflict conflict (insertIgnore conflict rows row) := by
  unfold KeyedRows.insertIgnore
  split
  next => exact h
  next free =>
    refine List.pairwise_append.mpr ⟨h, List.pairwise_singleton _ _, ?_⟩
    intro a member b last
    rw [List.mem_singleton.mp last]
    simpa using fun clash => free (List.any_eq_true.mpr ⟨a, member, clash⟩)

/-- Two stored rows that conflict are the same row, by induction on the table. -/
theorem NoConflict.eq_of_conflict {conflict : ρ → ρ → Bool} {rows : List ρ}
    (h : NoConflict conflict rows) (symm : ∀ a b, conflict a b = conflict b a) {a b : ρ}
    (ha : a ∈ rows) (hb : b ∈ rows) (clash : conflict a b = true)
    : a = b := by
  induction rows with
  | nil => cases ha
  | cons head rest ih =>
      obtain ⟨apart, later⟩ := List.pairwise_cons.mp h
      rcases List.mem_cons.mp ha with rfl | inRest
      · rcases List.mem_cons.mp hb with rfl | other
        · rfl
        · rw [symm, apart b other] at clash
          cases clash
      · rcases List.mem_cons.mp hb with rfl | other
        · rw [apart a inRest] at clash
          cases clash
        · exact ih later inRest other

theorem prefix_insertAllIgnore (conflict : ρ → ρ → Bool) (rows batch : List ρ)
    : rows <+: insertAllIgnore conflict rows batch := by
  induction batch generalizing rows with
  | nil => exact List.prefix_rfl
  | cons row rest ih => exact (prefix_insertIgnore conflict rows row).trans (ih _)

theorem mem_insertAllIgnore {conflict : ρ → ρ → Bool} {rows batch : List ρ} {r : ρ}
    (h : r ∈ insertAllIgnore conflict rows batch)
    : r ∈ rows ∨ r ∈ batch := by
  induction batch generalizing rows with
  | nil => exact Or.inl h
  | cons row rest ih =>
      rcases ih h with earlier | later
      · rcases mem_insertIgnore earlier with old | new
        · exact Or.inl old
        · exact Or.inr (by simp [new])
      · exact Or.inr (List.mem_cons_of_mem row later)

theorem NoConflict.insertAllIgnore {conflict : ρ → ρ → Bool} {rows : List ρ}
    (h : NoConflict conflict rows) (batch : List ρ)
    : NoConflict conflict (insertAllIgnore conflict rows batch) := by
  induction batch generalizing rows with
  | nil => exact h
  | cons row rest ih => exact ih (h.insertIgnore row)

/-- Every row of the batch is stored or shadowed by a conflicting stored row. -/
theorem exists_of_insertAllIgnore (conflict : ρ → ρ → Bool) {batch : List ρ} (rows : List ρ)
    {row : ρ} (h : row ∈ batch)
    : ∃ r ∈ insertAllIgnore conflict rows batch, r = row ∨ conflict row r = true := by
  induction batch generalizing rows with
  | nil => cases h
  | cons head rest ih =>
      rcases List.mem_cons.mp h with same | later
      · obtain ⟨r, member, cases⟩ := exists_of_insertIgnore conflict rows head
        exact ⟨r, (prefix_insertAllIgnore conflict _ rest).subset member, same ▸ cases⟩
      · exact ih _ later

@[simp]
theorem insertAllIgnore_concat (conflict : ρ → ρ → Bool) (rows batch : List ρ) (row : ρ)
    : insertAllIgnore conflict rows (batch ++ [row])
      = insertIgnore conflict (insertAllIgnore conflict rows batch) row := by
  simp [insertAllIgnore]

/-- A row that has been in the batch already changes nothing when it comes again. -/
theorem insertIgnore_of_mem {conflict : ρ → ρ → Bool} {batch : List ρ} (rows : List ρ) {row : ρ}
    (reflexive : conflict row row = true) (h : row ∈ batch)
    : insertIgnore conflict (insertAllIgnore conflict rows batch) row
      = insertAllIgnore conflict rows batch := by
  obtain ⟨r, member, same⟩ := exists_of_insertAllIgnore conflict rows h
  have clash : conflict row r = true := by
    rcases same with rfl | clash
    · exact reflexive
    · exact clash
  exact if_pos (List.any_eq_true.mpr ⟨r, member, clash⟩)

/-- Rows that do not conflict are all inserted. -/
theorem NoConflict.insertAllIgnore_nil {conflict : ρ → ρ → Bool} {batch : List ρ}
    (h : NoConflict conflict batch)
    : KeyedRows.insertAllIgnore conflict [] batch = batch := by
  induction batch using List.reverseRecOn with
  | nil => rfl
  | append_singleton batch row ih =>
      obtain ⟨earlier, _, apart⟩ := List.pairwise_append.mp h
      rw [insertAllIgnore_concat, ih earlier, KeyedRows.insertIgnore, if_neg]
      intro clash
      obtain ⟨old, member, conflicting⟩ := List.any_eq_true.mp clash
      rw [apart old member row (by simp)] at conflicting
      cases conflicting

-----------------------------------------------------------------------------------------
-- Insert, update on conflict
-----------------------------------------------------------------------------------------

/-- Update every row with the key of `fresh`, or insert `fresh` when there is none. -/
def upsert (same : ρ → Bool) (fresh : ρ) (update : ρ → ρ) (rows : List ρ) : List ρ :=
  if rows.any same then rows.map (fun r => if same r then update r else r)
  else rows ++ [fresh]

/-- The upserted key reads back as the update of its old row, or as the fresh row. -/
theorem find?_upsert {same : ρ → Bool} {fresh : ρ} {update : ρ → ρ} (rows : List ρ)
    (hf : same fresh = true) (hu : ∀ r, same r = true → same (update r) = true)
    : (upsert same fresh update rows).find? same
      = some (((rows.find? same).map update).getD fresh) := by
  unfold upsert
  split
  next found =>
    induction rows with
    | nil => simp at found
    | cons head rest ih =>
        by_cases here : same head = true
        · simp [here, hu head here]
        · have later : rest.any same = true := by simpa [here] using found
          simpa [here] using ih later
  next absent =>
    have none : rows.find? same = none := by
      rw [List.find?_eq_none]
      intro r member hit
      exact absent (List.any_eq_true.mpr ⟨r, member, hit⟩)
    simp [List.find?_append, none, hf]

/-- Updating rows a query never matches, before or after, does not change its answer. -/
theorem find?_map_of_disjoint {same other : ρ → Bool} {update : ρ → ρ} (rows : List ρ)
    (hu : ∀ r, same r = true → other r = false ∧ other (update r) = false)
    : (rows.map (fun r => if same r then update r else r)).find? other = rows.find? other := by
  induction rows with
  | nil => rfl
  | cons head rest ih =>
      rw [List.map_cons, List.find?_cons, List.find?_cons, ih]
      by_cases here : same head = true
      · simp [here, hu head here]
      · simp [here]

/-- A query that never matches the upserted key is not affected. -/
theorem find?_upsert_of_disjoint {same other : ρ → Bool} {fresh : ρ} {update : ρ → ρ}
    (rows : List ρ) (hf : other fresh = false)
    (hu : ∀ r, same r = true → other r = false ∧ other (update r) = false)
    : (upsert same fresh update rows).find? other = rows.find? other := by
  unfold upsert
  split
  next => exact find?_map_of_disjoint rows hu
  next => simp [List.find?_append, hf]

/-- A selection that holds every row with the upserted key is upserted like the whole table. -/
theorem filter_upsert {same mine : ρ → Bool} {fresh : ρ} {update : ρ → ρ} (rows : List ρ)
    (hf : mine fresh = true) (hu : ∀ r, same r = true → mine r = true ∧ mine (update r) = true)
    : (upsert same fresh update rows).filter mine
      = upsert same fresh update (rows.filter mine) := by
  have found : (rows.filter mine).any same = rows.any same := by
    rw [List.any_filter]
    refine congrArg (fun p => List.any rows p) (funext fun r => ?_)
    cases hit : same r with
    | false => simp
    | true => simp [(hu r hit).1]
  unfold upsert
  rw [found]
  split
  · rw [List.filter_map]
    refine congrArg _ (List.filter_congr fun r _ => ?_)
    cases hit : same r with
    | false => simp [hit]
    | true => simp [hit, hu r hit]
  · simp [hf]

/-- Updating rows outside a selection, before and after, does not change it. -/
theorem filter_map_of_disjoint {same other : ρ → Bool} {update : ρ → ρ} (rows : List ρ)
    (hu : ∀ r, same r = true → other r = false ∧ other (update r) = false)
    : (rows.map (fun r => if same r then update r else r)).filter other = rows.filter other := by
  induction rows with
  | nil => rfl
  | cons head rest ih =>
      rw [List.map_cons, List.filter_cons, List.filter_cons, ih]
      by_cases here : same head = true
      · simp [here, hu head here]
      · simp [here]

/-- An upsert that replaces the old row leaves the other rows and the fresh one. -/
theorem mem_upsert_replace {same : ρ → Bool} {fresh row : ρ} {rows : List ρ}
    : row ∈ upsert same fresh (fun _ => fresh) rows
      ↔ row = fresh ∨ row ∈ rows ∧ same row = false := by
  unfold upsert
  split
  next found =>
    simp only [List.mem_map]
    constructor
    · intro h
      obtain ⟨old, member, rfl⟩ := h
      cases hit : same old with
      | true => exact Or.inl rfl
      | false => exact Or.inr ⟨member, hit⟩
    · intro h
      rcases h with rfl | ⟨member, miss⟩
      · obtain ⟨old, member, hit⟩ := List.any_eq_true.mp found
        exact ⟨old, member, if_pos hit⟩
      · exact ⟨row, member, by simp [miss]⟩
  next absent =>
    rw [List.any_eq_true, not_exists] at absent
    simp only [List.mem_append, List.mem_singleton]
    constructor
    · intro h
      rcases h with member | rfl
      · exact Or.inr ⟨member, by simpa using fun hit => absent row ⟨member, hit⟩⟩
      · exact Or.inl rfl
    · exact fun h => h.elim Or.inr (fun kept => Or.inl kept.1)

/-- A selection without the upserted key stays as it is. -/
theorem filter_upsert_of_disjoint {same other : ρ → Bool} {fresh : ρ} {update : ρ → ρ}
    (rows : List ρ) (hf : other fresh = false)
    (hu : ∀ r, same r = true → other r = false ∧ other (update r) = false)
    : (upsert same fresh update rows).filter other = rows.filter other := by
  unfold upsert
  split
  next => exact filter_map_of_disjoint rows hu
  next => simp [hf]

/-- Insert a row, or merge it with the stored row of its key. -/
def upsertRow {κ : Type*} [BEq κ] (key : ρ → κ) (merge : ρ → ρ → ρ) (rows : List ρ) (row : ρ)
    : List ρ :=
  upsert (fun old => key old == key row) row (merge row) rows

/-- Merging keeps the key and some columns of the old row, and takes all others from the new
one.
-/
structure LastWins {κ : Type*} (key : ρ → κ) (merge : ρ → ρ → ρ) : Prop where
  key : ∀ new old, key new = key old → key (merge new old) = key old
  self : ∀ row, merge row row = row
  absorb : ∀ new middle old, merge new (merge middle old) = merge new old

/-- A table of upserted rows keeps one row for each key. -/
theorem NoConflict.upsertRow {κ : Type*} [BEq κ] [LawfulBEq κ] {key : ρ → κ} {merge : ρ → ρ → ρ}
    (kept : ∀ new old, key new = key old → key (merge new old) = key old) {rows : List ρ}
    (h : NoConflict (fun a b => key a == key b) rows) (row : ρ)
    : NoConflict (fun a b => key a == key b) (upsertRow key merge rows row) := by
  have keys (r : ρ) : key (if key r == key row then merge row r else r) = key r := by
    split
    next same => exact kept row r (beq_iff_eq.mp same).symm
    next => rfl
  unfold KeyedRows.upsertRow upsert
  split
  next =>
    refine List.pairwise_map.mpr (h.imp fun apart => ?_)
    dsimp only
    rw [keys, keys]
    exact apart
  next absent =>
    refine List.pairwise_append.mpr ⟨h, List.pairwise_singleton _ _, ?_⟩
    intro a member b last
    obtain rfl := List.mem_singleton.mp last
    refine Bool.eq_false_iff.mpr fun clash => absent (List.any_eq_true.mpr ⟨a, member, ?_⟩)
    exact (BEq.comm).trans clash

/-- The last row of the batch with the key of the given one. -/
def lastOf {κ : Type*} [BEq κ] (key : ρ → κ) (batch : List ρ) (first : ρ) : ρ :=
  (batch.filter (fun row => key row == key first)).getLast?.getD first

theorem key_lastOf {κ : Type*} [BEq κ] [LawfulBEq κ] (key : ρ → κ) (batch : List ρ) (first : ρ)
    : key (lastOf key batch first) = key first := by
  unfold lastOf
  cases last : (batch.filter (fun row => key row == key first)).getLast? with
  | none => rfl
  | some row => simpa using (List.mem_filter.mp (List.mem_of_getLast? last)).2

theorem lastOf_concat {κ : Type*} [BEq κ] [LawfulBEq κ] {key : ρ → κ} (batch : List ρ)
    (row first : ρ)
    : lastOf key (batch ++ [row]) first
      = if key row == key first then row else lastOf key batch first := by
  by_cases same : key row = key first
  · simp [lastOf, same]
  · simp [lastOf, same]

/-- A table of upserted rows has a row for the first row of each key, merged with the last. -/
theorem foldl_upsertRow {κ : Type*} [BEq κ] [LawfulBEq κ] {key : ρ → κ} {merge : ρ → ρ → ρ}
    (laws : LastWins key merge) (batch : List ρ)
    : batch.foldl (upsertRow key merge) []
      = (insertAllIgnore (fun row old => key row == key old) [] batch).map
          (fun first => merge (lastOf key batch first) first) := by
  induction batch using List.reverseRecOn with
  | nil => rfl
  | append_singleton batch row ih =>
      have keys (first : ρ) : key (merge (lastOf key batch first) first) = key first :=
        laws.key _ _ (key_lastOf key batch first)
      rw [List.foldl_concat, ih, insertAllIgnore_concat, upsertRow, upsert, insertIgnore]
      simp only [List.any_map, Function.comp_def, keys, lastOf_concat]
      have sameKeys (first : ρ) : (key first == key row) = (key row == key first) := BEq.comm
      simp only [sameKeys]
      split
      next taken =>
        rw [List.map_map]
        refine List.map_congr_left (fun first _ => ?_)
        simp only [Function.comp_apply, keys]
        split
        next => rw [laws.absorb]
        next => rfl
      next free =>
        rw [List.map_append, List.map_singleton]
        congr 1
        · refine List.map_congr_left (fun first member => ?_)
          rw [if_neg]
          exact fun same => free (List.any_eq_true.mpr ⟨first, member, same⟩)
        · simp [laws.self]

/-- `ORDER BY key LIMIT 1`: a row no other selected row precedes. -/
def firstBy (before : ρ → ρ → Prop) [DecidableRel before] (rows : List ρ) : Option ρ :=
  (rows.insertionSort before).head?

theorem firstBy_eq_none_iff {before : ρ → ρ → Prop} [DecidableRel before] {rows : List ρ}
    : firstBy before rows = none ↔ rows = [] := by
  rw [firstBy, List.head?_eq_none_iff, ← List.length_eq_zero_iff, List.length_insertionSort,
    List.length_eq_zero_iff]

theorem mem_of_firstBy {before : ρ → ρ → Prop} [DecidableRel before] {rows : List ρ} {row : ρ}
    (h : firstBy before rows = some row)
    : row ∈ rows :=
  (List.mem_insertionSort before).mp (List.mem_of_mem_head? h)

theorem firstBy_spec {before : ρ → ρ → Prop} [DecidableRel before] [Std.Total before]
    [IsTrans ρ before] {rows : List ρ} {row : ρ} (h : firstBy before rows = some row)
    : row ∈ rows ∧ ∀ r ∈ rows, before row r ∨ r = row := by
  have sorted := List.pairwise_insertionSort before rows
  have members (r : ρ) := List.mem_insertionSort before (l := rows) (x := r)
  unfold firstBy at h
  obtain ⟨rest, shape⟩ := List.head?_eq_some_iff.mp h
  rw [shape] at sorted members
  refine ⟨mem_of_firstBy h, ?_⟩
  intro r member
  rcases List.mem_cons.mp ((members r).mpr member) with same | later
  · exact Or.inr same
  · exact Or.inl (List.rel_of_pairwise_cons sorted later)

/-- Where rows can only lose a property along the list, the rows that have it come first. -/
theorem filter_eq_rdropWhile {property : ρ → Bool} {rows : List ρ}
    (downward : rows.Pairwise (fun a b => property b = true → property a = true))
    : rows.filter property = rows.rdropWhile (fun row => !property row) := by
  induction rows using List.reverseRecOn with
  | nil => rfl
  | append_singleton rows last ih =>
      obtain ⟨earlier, _, before⟩ := List.pairwise_append.mp downward
      cases has : property last with
      | true =>
          rw [List.rdropWhile_concat_neg _ _ _ (by simp [has])]
          refine List.filter_eq_self.mpr fun row member => ?_
          rcases List.mem_append.mp member with old | new
          · exact before row old last (List.mem_singleton_self last) has
          · exact List.mem_singleton.mp new ▸ has
      | false => rw [List.rdropWhile_concat_pos _ _ _ (by simp [has]), ← ih earlier]; simp [has]

/-- Rows that are dropped leave no trace. -/
theorem rdropWhile_append_of_all {dropped : ρ → Bool} {rows more : List ρ}
    (all : ∀ row ∈ more, dropped row = true)
    : (rows ++ more).rdropWhile dropped = rows.rdropWhile dropped := by
  induction more using List.reverseRecOn with
  | nil => rw [List.append_nil]
  | append_singleton more last ih =>
      rw [← List.append_assoc, List.rdropWhile_concat_pos _ _ _ (all last (by simp))]
      exact ih fun row member => all row (List.mem_append_left _ member)

/-- A further row that is not dropped keeps all the rows before it. -/
theorem length_lt_rdropWhile_append {dropped : ρ → Bool} {rows more : List ρ} {row : ρ}
    (member : row ∈ more) (kept : dropped row = false)
    : rows.length < ((rows ++ more).rdropWhile dropped).length := by
  induction more using List.reverseRecOn with
  | nil => cases member
  | append_singleton more last ih =>
      rw [← List.append_assoc]
      cases here : dropped last with
      | false =>
          rw [List.rdropWhile_concat_neg _ _ _ (by simp [here])]
          simp only [List.length_append, List.length_singleton]
          omega
      | true =>
          rw [List.rdropWhile_concat_pos _ _ _ here]
          rcases List.mem_append.mp member with old | new
          · exact ih old
          · obtain rfl := List.mem_singleton.mp new
            cases kept.symm.trans here

/-- Two tables that list their groups in the same order and agree on each group agree. -/
theorem map_eq_of_groups {β ι : Type*} [DecidableEq ι] (group : ρ → ι) (rank : ι → Nat)
    (shown : ρ → β) {left right : List ρ}
    (leftSorted : left.Pairwise (fun a b => rank (group a) ≤ rank (group b)))
    (rightSorted : right.Pairwise (fun a b => rank (group a) ≤ rank (group b)))
    (apart : ∀ a ∈ left, ∀ b ∈ right, rank (group a) = rank (group b) → group a = group b)
    (same
      : ∀ i, (left.filter (fun row => group row = i)).map shown
        = (right.filter (fun row => group row = i)).map shown)
    : left.map shown = right.map shown := by
  -- a group that occurs on one side has a row on the other
  have occurs {first second : List ρ}
      (same
        : ∀ i, (first.filter (fun row => group row = i)).map shown
          = (second.filter (fun row => group row = i)).map shown)
      (row : ρ) (member : row ∈ first)
      : ∃ other ∈ second, group other = group row := by
    have shows : shown row ∈ (second.filter (fun old => group old = group row)).map shown :=
      same (group row)
        ▸ List.mem_map_of_mem (List.mem_filter.mpr ⟨member, decide_eq_true rfl⟩)
    obtain ⟨other, found, _⟩ := List.mem_map.mp shows
    exact ⟨other, (List.mem_filter.mp found).1, by simpa using (List.mem_filter.mp found).2⟩
  have least {row : ρ} {rest : List ρ}
      (sorted : (row :: rest).Pairwise (fun a b => rank (group a) ≤ rank (group b)))
      {other : ρ} (member : other ∈ row :: rest)
      : rank (group row) ≤ rank (group other) := by
    rcases List.mem_cons.mp member with rfl | later
    · exact le_rfl
    · exact List.rel_of_pairwise_cons sorted later
  induction left generalizing right with
  | nil =>
      cases right with
      | nil => rfl
      | cons b _ =>
          obtain ⟨_, member, _⟩ := occurs (fun i => (same i).symm) b (by simp)
          cases member
  | cons a rest ih =>
      cases right with
      | nil =>
          obtain ⟨_, member, _⟩ := occurs same a (by simp)
          cases member
      | cons b others =>
          have together : group a = group b := by
            obtain ⟨other, inRight, groupRight⟩ := occurs same a (by simp)
            obtain ⟨row, inLeft, groupLeft⟩ :=
              occurs (fun i => (same i).symm) b (by simp)
            refine apart a (by simp) b (by simp) (Nat.le_antisymm ?_ ?_)
            · exact groupLeft ▸ least leftSorted inLeft
            · exact groupRight ▸ least rightSorted inRight
          have heads := same (group a)
          rw [List.filter_cons_of_pos (by simp), List.filter_cons_of_pos (by simp [together]),
            List.map_cons, List.map_cons, List.cons.injEq] at heads
          rw [List.map_cons, List.map_cons, heads.1]
          refine congrArg (shown b :: ·) (ih leftSorted.of_cons rightSorted.of_cons
            (fun row member other found => apart row (List.mem_cons_of_mem a member) other
              (List.mem_cons_of_mem b found)) fun i => ?_)
          by_cases here : group a = i
          · exact here ▸ heads.2
          · have there : group b ≠ i := together ▸ here
            have rows := same i
            rwa [List.filter_cons_of_neg (by simpa using here),
              List.filter_cons_of_neg (by simpa using there)] at rows

end KeyedRows
