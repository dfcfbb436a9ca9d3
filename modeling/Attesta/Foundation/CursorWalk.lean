import Mathlib.Data.Finset.Card
import Mathlib.Data.List.Sort
import Mathlib.Data.Nat.Find
import Attesta.Foundation.Feed

/-! Paging through a changing collection by key. Each page lists matching items past a cursor
in the order of their keys and names the next cursor exactly if it is full; the items may
change in any way between two requests.
-/

namespace CursorWalk

open Feed

structure Page (α κ : Type*) where
  items : List α
  next : Option κ

variable {α κ : Type*}

section Walk

variable (fetch : Nat → Option κ → Page α κ) (start : Option κ)

/-- The cursor of request `k` of the client that follows `next` until it is absent. -/
def request : Nat → Option (Option κ)
  | 0 => some start
  | k + 1 => (request k).bind (fun cursor => (fetch k cursor).next.map some)

/-- The items on page `k`, none once the walk is over. -/
def items (k : Nat) : List α :=
  ((request fetch start k).map (fun cursor => (fetch k cursor).items)).getD []

/-- All the items of the first `n` pages. -/
def walked (n : Nat) : List α := (List.range n).flatMap (items fetch start)

/-- Page `n` is requested and is the last one. -/
def LastPage (n : Nat) : Prop :=
  request fetch start n ≠ none ∧ request fetch start (n + 1) = none

end Walk

variable {fetch : Nat → Option κ → Page α κ} {start : Option κ}

theorem walked_succ (n : Nat)
    : walked fetch start (n + 1) = walked fetch start n ++ items fetch start n := by
  simp [walked, List.range_succ, List.flatMap_append]

theorem items_of_request {k : Nat} {cursor : Option κ}
    (asked : request fetch start k = some cursor)
    : items fetch start k = (fetch k cursor).items := by
  rw [items, asked]
  rfl

theorem request_of_succ {k : Nat} {cursor : Option κ}
    (asked : request fetch start (k + 1) = some cursor)
    : ∃ before next, request fetch start k = some before
        ∧ (fetch k before).next = some next ∧ cursor = some next := by
  obtain ⟨before, earlier, follows⟩ := Option.bind_eq_some_iff.mp asked
  obtain ⟨next, found, rfl⟩ := Option.map_eq_some_iff.mp follows
  exact ⟨before, next, earlier, found, rfl⟩

/-- Collect page after page until one names no next cursor; none if the fuel runs out. -/
def follow (fetch : Nat → Option κ → Page α κ) : Nat → Nat → Option κ → List α → Option (List α)
  | 0, _, _, _ => none
  | fuel + 1, k, cursor, read =>
      let page := fetch k cursor
      match page.next with
      | some next => follow fetch fuel (k + 1) (some next) (read ++ page.items)
      | none => some (read ++ page.items)

/-- A walk that is over stays so. -/
theorem request_none_of_le {k m : Nat} (ended : request fetch start k = none) (later : k ≤ m)
    : request fetch start m = none := by
  induction m, later using Nat.le_induction with
  | base => exact ended
  | succ m _ ih => simp [request, ih]

/-- From any request on, the loop collects the rest of the walk. By induction on the fuel. -/
theorem follow_from {k fuel : Nat} {cursor : Option κ}
    (asked : request fetch start k = some cursor) {read : List α}
    : follow fetch fuel k cursor (walked fetch start k) = some read
      ↔ ∃ n, k ≤ n ∧ n < k + fuel ∧ LastPage fetch start n
          ∧ read = walked fetch start (n + 1) := by
  induction fuel generalizing k cursor with
  | zero =>
      refine iff_of_false (by simp [follow]) ?_
      rintro ⟨n, from_k, below, _⟩
      omega
  | succ fuel ih =>
      have grown : walked fetch start k ++ (fetch k cursor).items = walked fetch start (k + 1) := by
        rw [walked_succ, items_of_request asked]
      simp only [follow, grown]
      cases named : (fetch k cursor).next with
      | some next =>
          have asked' : request fetch start (k + 1) = some (some next) := by
            simp [request, asked, named]
          refine (ih asked').trans ?_
          constructor
          · rintro ⟨n, after, below, last⟩
            exact ⟨n, by omega, by omega, last⟩
          · rintro ⟨n, after, below, last, rfl⟩
            have apart : n ≠ k := by
              rintro rfl
              simp [last.2] at asked'
            exact ⟨n, by omega, by omega, last, rfl⟩
      | none =>
          have ended : request fetch start (k + 1) = none := by simp [request, asked, named]
          rw [Option.some.injEq]
          constructor
          · rintro rfl
            exact ⟨k, le_rfl, by omega, ⟨by simp [asked], ended⟩, rfl⟩
          · rintro ⟨n, after, _, last, rfl⟩
            have here : n = k := by
              by_contra apart
              exact last.1 (request_none_of_le ended (by omega))
            rw [here]

theorem follow_eq_some_iff {fuel : Nat} {read : List α}
    : follow fetch fuel 0 start [] = some read
      ↔ ∃ n < fuel, LastPage fetch start n ∧ read = walked fetch start (n + 1) := by
  have asked : request fetch start 0 = some start := rfl
  have nothing : walked fetch start 0 = [] := rfl
  rw [← nothing, follow_from asked]
  simp

variable [LinearOrder κ]

/-- What every page promises, where `Matches k` are the items that match at request `k` and
`origin` is where a request without a cursor starts.
-/
structure Serves (key : α → κ) (size : Nat) (origin : κ) (Matches : Nat → α → Prop)
    (fetch : Nat → Option κ → Page α κ)
    : Prop where
  increasing : ∀ k cursor, Increasing key (fetch k cursor).items
  sound : ∀ k cursor, ∀ a ∈ (fetch k cursor).items, Matches k a ∧ cursor.getD origin < key a
  complete : ∀ k cursor a, Matches k a → cursor.getD origin < key a
    → a ∈ (fetch k cursor).items
      ∨ (fetch k cursor).items.length = size ∧ ∀ b ∈ (fetch k cursor).items, key b < key a
  next : ∀ k cursor, (fetch k cursor).next
    = if (fetch k cursor).items.length = size then (fetch k cursor).items.getLast?.map key
      else none

/-- What a client can rely on that follows the cursors from `start` until there is none: the
walk reads increasing keys past the start, only items that match when they are read, every item
that matches at all its requests exactly once, and it ends if finitely many keys ever match.
-/
structure Complete [DecidableEq α] (key : α → κ) (size : Nat) (origin : κ)
    (Matches : Nat → α → Prop) (fetch : Nat → Option κ → Page α κ) (start : Option κ)
    : Prop where
  increasing : ∀ n, Increasing key (walked fetch start n)
  past : ∀ n, ∀ a ∈ walked fetch start n, start.getD origin < key a
  sound : ∀ k, ∀ a ∈ items fetch start k, Matches k a
  complete : ∀ n, LastPage fetch start n → ∀ a, start.getD origin < key a
    → (∀ k ≤ n, Matches k a) → (walked fetch start (n + 1)).count a = 1
  ends : ∀ ever : Finset κ, (∀ k a, Matches k a → start.getD origin < key a → key a ∈ ever)
    → ∃ n ≤ ever.card / size, LastPage fetch start n

variable {key : α → κ} {size : Nat} {origin : κ} {Matches : Nat → α → Prop}

namespace Serves

variable (serves : Serves key size origin Matches fetch)
include serves

/-- A page that names a next cursor is full and ends there. -/
theorem of_next {k : Nat} {cursor : Option κ} {next : κ} (h : (fetch k cursor).next = some next)
    : (fetch k cursor).items.length = size
      ∧ (∀ a ∈ (fetch k cursor).items, key a ≤ next)
      ∧ ∃ a ∈ (fetch k cursor).items, key a = next := by
  rw [serves.next] at h
  split at h
  next full =>
    obtain ⟨last, found, rfl⟩ := Option.map_eq_some_iff.mp h
    refine ⟨full, fun a member => ?_, last, List.mem_of_getLast? found, rfl⟩
    have bound := (serves.increasing k cursor).le_last member (key last)
    simpa [Feed.last, found] using bound
  next => cases h

/-- What has been read lies past the start and up to the cursor of the next request, strictly
increasing. By induction on the number of pages.
-/
theorem walked_upto (n : Nat)
    : Increasing key (walked fetch start n)
      ∧ (∀ a ∈ walked fetch start n, start.getD origin < key a)
      ∧ ∀ cursor, request fetch start n = some cursor
          → start.getD origin ≤ cursor.getD origin
            ∧ ∀ a ∈ walked fetch start n, key a ≤ cursor.getD origin := by
  induction n with
  | zero =>
      refine ⟨List.Pairwise.nil, by simp [walked], fun cursor asked => ?_⟩
      obtain rfl := Option.some.inj asked
      exact ⟨le_rfl, by simp [walked]⟩
  | succ n ih =>
      obtain ⟨sorted, past, upto⟩ := ih
      rw [walked_succ]
      cases asked : request fetch start n with
      | none =>
          have nothing : items fetch start n = [] := by simp [items, asked]
          rw [nothing, List.append_nil]
          refine ⟨sorted, past, fun cursor later => ?_⟩
          simp [request, asked] at later
      | some before =>
          obtain ⟨from_start, read⟩ := upto before asked
          rw [items_of_request asked]
          have after : ∀ a ∈ (fetch n before).items, before.getD origin < key a := fun a member =>
            (serves.sound n before a member).2
          refine ⟨?_, ?_, ?_⟩
          · refine List.pairwise_append.mpr ⟨sorted, serves.increasing n before, ?_⟩
            intro a old b new
            exact (read a old).trans_lt (after b new)
          · intro a member
            rcases List.mem_append.mp member with old | new
            · exact past a old
            · exact from_start.trans_lt (after a new)
          · intro cursor later
            obtain ⟨same, next, found, named, rfl⟩ := request_of_succ later
            obtain rfl := Option.some.inj (asked.symm.trans found)
            obtain ⟨_, ends, last, member, rfl⟩ := serves.of_next named
            have advanced := after last member
            refine ⟨from_start.trans advanced.le, fun a inside => ?_⟩
            rcases List.mem_append.mp inside with old | new
            · exact (read a old).trans advanced.le
            · exact ends a new

/-- An item that matches at every request is read, or the walk has not got to it yet. -/
theorem read_or_ahead {a : α} (past : start.getD origin < key a) {n : Nat}
    (present : ∀ k < n, Matches k a) {cursor : Option κ}
    (asked : request fetch start n = some cursor)
    : a ∈ walked fetch start n ∨ cursor.getD origin < key a := by
  induction n generalizing cursor with
  | zero =>
      obtain rfl := Option.some.inj asked
      exact Or.inr past
  | succ n ih =>
      obtain ⟨before, next, earlier, named, rfl⟩ := request_of_succ asked
      rw [walked_succ, List.mem_append, items_of_request earlier]
      rcases ih (fun k bound => present k (Nat.lt_succ_of_lt bound)) earlier with read | ahead
      · exact Or.inl (Or.inl read)
      · rcases serves.complete n before a (present n (Nat.lt_succ_self n)) ahead with here | later
        · exact Or.inl (Or.inr here)
        · obtain ⟨_, _, last, member, rfl⟩ := serves.of_next named
          exact Or.inr (later.2 last member)

/-- The last page is not full. -/
theorem not_full_of_last (positive : 0 < size) {n : Nat} {cursor : Option κ}
    (asked : request fetch start n = some cursor)
    (ended : request fetch start (n + 1) = none)
    : (fetch n cursor).items.length ≠ size := by
  intro full
  simp only [request, asked, Option.bind_some, Option.map_eq_none_iff, serves.next, full,
    if_true, List.getLast?_eq_none_iff] at ended
  rw [ended, List.length_nil] at full
  omega

/-- A finished walk has read every item that matched at all of its requests. -/
theorem mem_walked (positive : 0 < size) {n : Nat} (last : LastPage fetch start n) {a : α}
    (past : start.getD origin < key a) (present : ∀ k ≤ n, Matches k a)
    : a ∈ walked fetch start (n + 1) := by
  obtain ⟨cursor, asked⟩ := Option.ne_none_iff_exists'.mp last.1
  rw [walked_succ, List.mem_append, items_of_request asked]
  rcases serves.read_or_ahead past (fun k bound => present k bound.le) asked with read | ahead
  · exact Or.inl read
  · rcases serves.complete n cursor a (present n le_rfl) ahead with here | full
    · exact Or.inr here
    · exact absurd full.1 (serves.not_full_of_last positive asked last.2)

theorem matches_of_mem_items {k : Nat} {a : α} (h : a ∈ items fetch start k) : Matches k a := by
  cases asked : request fetch start k with
  | none => simp [items, asked] at h
  | some cursor =>
      rw [items_of_request asked] at h
      exact (serves.sound k cursor a h).1

/-- As long as the walk goes on, its pages are full. -/
theorem length_walked {n : Nat} (goesOn : request fetch start n ≠ none)
    : (walked fetch start n).length = n * size := by
  induction n with
  | zero => simp [walked]
  | succ n ih =>
      obtain ⟨cursor, asked⟩ := Option.ne_none_iff_exists'.mp goesOn
      obtain ⟨before, next, earlier, named, _⟩ := request_of_succ asked
      rw [walked_succ, List.length_append, items_of_request earlier, (serves.of_next named).1,
        ih (by simp [earlier]), Nat.succ_mul]

/-- If only finitely many keys ever match, the walk ends, and after no more full pages than the
keys fill.
-/
theorem exists_lastPage (positive : 0 < size) (ever : Finset κ)
    (finite : ∀ k a, Matches k a → start.getD origin < key a → key a ∈ ever)
    : ∃ n ≤ ever.card / size, LastPage fetch start n := by
  have ended : request fetch start (ever.card / size + 1) = none := by
    by_contra goesOn
    obtain ⟨sorted, past, _⟩ := serves.walked_upto (ever.card / size + 1)
    have length := serves.length_walked goesOn
    have apart : ((walked fetch start (ever.card / size + 1)).map key).Nodup :=
      List.pairwise_map.mpr (sorted.imp ne_of_lt)
    have inside : ((walked fetch start (ever.card / size + 1)).map key).toFinset ⊆ ever := by
      intro value member
      obtain ⟨a, read, rfl⟩ := List.mem_map.mp (List.mem_toFinset.mp member)
      obtain ⟨k, _, onPage⟩ := List.mem_flatMap.mp read
      exact finite k a (serves.matches_of_mem_items onPage) (past a read)
    have bound := Finset.card_le_card inside
    rw [List.toFinset_card_of_nodup apart, List.length_map, length] at bound
    have division := Nat.div_add_mod ever.card size
    have remainder := Nat.mod_lt ever.card positive
    rw [Nat.add_mul, Nat.mul_comm] at bound
    omega
  -- The first request that is never made comes right after the last page.
  have some : ∃ n, request fetch start (n + 1) = none := ⟨_, ended⟩
  classical
  refine ⟨Nat.find some, Nat.find_min' some ended, ?_, Nat.find_spec some⟩
  cases first : Nat.find some with
  | zero => simp [request]
  | succ n => exact Nat.find_min some (first ▸ Nat.lt_succ_self n)

/-- Pages that keep their promises make every walk complete. -/
theorem walk [DecidableEq α] (positive : 0 < size) (start : Option κ)
    : Complete key size origin Matches fetch start where
  increasing n := (serves.walked_upto n).1
  past n := (serves.walked_upto n).2.1
  sound _ _ member := serves.matches_of_mem_items member
  complete n last a past present := by
    have apart : (walked fetch start (n + 1)).Nodup :=
      (serves.walked_upto (n + 1)).1.imp (fun less same => absurd (same ▸ less) (lt_irrefl _))
    exact List.count_eq_one_of_mem apart (serves.mem_walked positive last past present)
  ends ever finite := serves.exists_lastPage positive ever finite

end Serves

-----------------------------------------------------------------------------------------
-- Collections that only grow
-----------------------------------------------------------------------------------------

/-- Items only come, and in the order of their keys. -/
structure Grows (key : α → κ) (Matches : Nat → α → Prop) : Prop where
  kept : ∀ k a, Matches k a → Matches (k + 1) a
  ordered : ∀ k a b, Matches k a → ¬ Matches k b → Matches (k + 1) b → key a < key b

theorem Grows.kept_of_le (grows : Grows key Matches) {k m : Nat} (order : k ≤ m) {a : α}
    (here : Matches k a)
    : Matches m a := by
  induction m, order using Nat.le_induction with
  | base => exact here
  | succ m _ ih => exact grows.kept m a ih

namespace Serves

variable (serves : Serves key size origin Matches fetch)
include serves

/-- The start of a walk can be put at any of its requests. -/
theorem read_or_ahead_from {a : α} {m n : Nat} (order : m ≤ n) {first cursor : Option κ}
    (asked : request fetch start m = some first) (past : first.getD origin < key a)
    (present : ∀ k, m ≤ k → k < n → Matches k a)
    (askedLast : request fetch start n = some cursor)
    : a ∈ walked fetch start n ∨ cursor.getD origin < key a := by
  induction n, order using Nat.le_induction generalizing cursor with
  | base =>
      obtain rfl := Option.some.inj (asked.symm.trans askedLast)
      exact Or.inr past
  | succ n after ih =>
      obtain ⟨before, next, earlier, named, rfl⟩ := request_of_succ askedLast
      rw [walked_succ, List.mem_append, items_of_request earlier]
      rcases ih (fun k low high => present k low (Nat.lt_succ_of_lt high)) earlier with read | ahead
      · exact Or.inl (Or.inl read)
      · rcases serves.complete n before a (present n after (Nat.lt_succ_self n)) ahead with
          here | later
        · exact Or.inl (Or.inr here)
        · obtain ⟨_, _, last, member, rfl⟩ := serves.of_next named
          exact Or.inr (later.2 last member)

variable (grows : Grows key Matches) (positive : 0 < size)
include grows positive

/-- A finished walk has read exactly what there is at its last request. -/
theorem mem_walked_iff {n : Nat} (last : LastPage fetch start n) {a : α}
    : a ∈ walked fetch start (n + 1) ↔ Matches n a ∧ start.getD origin < key a := by
  constructor
  · intro read
    obtain ⟨k, within, onPage⟩ := List.mem_flatMap.mp read
    have bound : k ≤ n := Nat.lt_succ_iff.mp (List.mem_range.mp within)
    exact ⟨grows.kept_of_le bound (serves.matches_of_mem_items onPage),
      (serves.walked_upto (n + 1)).2.1 a read⟩
  · rintro ⟨here, past⟩
    classical
    obtain ⟨cursor, asked⟩ := Option.ne_none_iff_exists'.mp last.1
    -- The item comes at some request, past all that the walk has read before.
    have comes : ∃ m, Matches m a := ⟨n, here⟩
    have first := Nat.find_spec comes
    have bound : Nat.find comes ≤ n := Nat.find_min' comes here
    obtain ⟨cursorAt, askedAt⟩ := Option.ne_none_iff_exists'.mp
      (fun ended => last.1 (request_none_of_le ended bound))
    have behind : cursorAt.getD origin < key a := by
      cases when : Nat.find comes with
      | zero =>
          rw [when] at askedAt
          exact Option.some.inj askedAt ▸ past
      | succ m =>
          rw [when] at askedAt first
          obtain ⟨before, next, _, named, rfl⟩ := request_of_succ askedAt
          obtain ⟨_, _, b, onPage, rfl⟩ := serves.of_next named
          have missing : ¬ Matches m a := Nat.find_min comes (when ▸ Nat.lt_succ_self m)
          exact grows.ordered m b a (serves.sound m before b onPage).1 missing first
    have present : ∀ k, Nat.find comes ≤ k → Matches k a := fun k after =>
      grows.kept_of_le after first
    rw [walked_succ, List.mem_append, items_of_request asked]
    rcases serves.read_or_ahead_from bound askedAt behind (fun k low _ => present k low) asked with
      read | ahead
    · exact Or.inl read
    · rcases serves.complete n cursor a here ahead with now | full
      · exact Or.inr now
      · exact absurd full.1 (serves.not_full_of_last positive asked last.2)

variable {all : Nat → List α} (sorted : ∀ k, Increasing key (all k))
  (listed : ∀ k a, a ∈ all k ↔ Matches k a ∧ start.getD origin < key a)
include sorted listed

theorem walked_eq {n : Nat} (last : LastPage fetch start n)
    : walked fetch start (n + 1) = all n := by
  have : Std.Irrefl (fun a b : α => key a < key b) := ⟨fun a => lt_irrefl (key a)⟩
  have : Std.Antisymm (fun a b : α => key a < key b) := ⟨fun _ _ less more =>
    absurd (less.trans more) (lt_irrefl _)⟩
  refine (serves.walked_upto (n + 1)).1.eq_of_mem_iff (sorted n) ?_
  intro a
  rw [serves.mem_walked_iff grows positive last, listed]

variable (bounded : ∀ k cursor, (fetch k cursor).items.length ≤ size)
include bounded

/-- A page that is asked for is full exactly if there is enough for all the pages so far. -/
theorem full_iff {n : Nat} (goesOn : request fetch start n ≠ none)
    : request fetch start (n + 1) ≠ none ↔ (n + 1) * size ≤ (all n).length := by
  constructor
  · intro further
    have apart : (walked fetch start (n + 1)).Nodup :=
      (serves.walked_upto (n + 1)).1.imp (fun less same => absurd (same ▸ less) (lt_irrefl _))
    have inside : walked fetch start (n + 1) ⊆ all n := by
      intro a read
      obtain ⟨k, within, onPage⟩ := List.mem_flatMap.mp read
      have bound : k ≤ n := Nat.lt_succ_iff.mp (List.mem_range.mp within)
      exact (listed n a).mpr ⟨grows.kept_of_le bound (serves.matches_of_mem_items onPage),
        (serves.walked_upto (n + 1)).2.1 a read⟩
    rw [← serves.length_walked further]
    exact (apart.subperm inside).length_le
  · intro enough ended
    obtain ⟨cursor, asked⟩ := Option.ne_none_iff_exists'.mp goesOn
    have short := lt_of_le_of_ne (bounded n cursor)
      (serves.not_full_of_last positive asked ended)
    have read := serves.walked_eq grows positive sorted listed ⟨goesOn, ended⟩
    rw [← read, walked_succ, List.length_append, serves.length_walked goesOn,
      items_of_request asked, Nat.succ_mul] at enough
    omega

/-- The walk ends at the first request at which there is too little for another full page. -/
theorem lastPage_iff {n : Nat}
    : LastPage fetch start n
      ↔ (∀ k < n, (k + 1) * size ≤ (all k).length) ∧ (all n).length < (n + 1) * size := by
  have asked : ∀ m, request fetch start m ≠ none ↔ ∀ k < m, (k + 1) * size ≤ (all k).length := by
    intro m
    induction m with
    | zero => simp [request]
    | succ m ih =>
        rw [Nat.forall_lt_succ_right, ← ih]
        constructor
        · intro further
          have goesOn : request fetch start m ≠ none := fun ended =>
            further (request_none_of_le ended m.le_succ)
          exact ⟨goesOn,
            (serves.full_iff grows positive sorted listed bounded goesOn).mp further⟩
        · rintro ⟨goesOn, enough⟩
          exact (serves.full_iff grows positive sorted listed bounded goesOn).mpr enough
  rw [← asked n]
  refine and_congr_right fun goesOn => ?_
  rw [← not_le, ← serves.full_iff grows positive sorted listed bounded goesOn, not_not]

/-- What the loop collects, and when it comes to an end. -/
theorem follow_iff {fuel : Nat} {read : List α}
    : follow fetch fuel 0 start [] = some read
      ↔ ∃ n < fuel, (∀ k < n, (k + 1) * size ≤ (all k).length)
          ∧ (all n).length < (n + 1) * size ∧ read = all n := by
  rw [follow_eq_some_iff]
  refine exists_congr fun n => and_congr_right fun _ => ?_
  rw [← and_assoc, ← serves.lastPage_iff grows positive sorted listed bounded]
  refine and_congr_right fun last => ?_
  rw [serves.walked_eq grows positive sorted listed last]

end Serves

/-- `SELECT ... WHERE filter ORDER BY key LIMIT size`. -/
def select (key : α → κ) (filter : α → Bool) (size : Nat) (rows : List α) : List α :=
  ((rows.filter filter).insertionSort (fun a b => key a ≤ key b)).take size

section Select

variable {key : α → κ} {filter : α → Bool} {size : Nat} {rows : List α}

theorem of_mem_select {a : α} (h : a ∈ select key filter size rows)
    : a ∈ rows ∧ filter a = true := by
  have member := List.mem_of_mem_take h
  rwa [List.mem_insertionSort, List.mem_filter] at member

theorem increasing_sorted (distinct : (rows.map key).Nodup)
    : Increasing key ((rows.filter filter).insertionSort (fun a b => key a ≤ key b)) := by
  have sorted := List.pairwise_insertionSort (fun a b => key a ≤ key b) (rows.filter filter)
  have perm := List.perm_insertionSort (fun a b => key a ≤ key b) (rows.filter filter)
  have apart := (perm.map key).nodup_iff.mpr (distinct.sublist (List.filter_sublist.map key))
  refine sorted.imp₂ ?_ (List.pairwise_map.mp apart)
  exact fun _ _ le ne => lt_of_le_of_ne le ne

theorem increasing_select (distinct : (rows.map key).Nodup)
    : Increasing key (select key filter size rows) :=
  (increasing_sorted distinct).sublist (List.take_sublist _ _)

/-- A row that does not fit is past all of a full page. -/
theorem select_covers (size : Nat) (distinct : (rows.map key).Nodup) {a : α}
    (stored : a ∈ rows) (passes : filter a = true)
    : a ∈ select key filter size rows
      ∨ (select key filter size rows).length = size
        ∧ ∀ b ∈ select key filter size rows, key b < key a := by
  have member : a ∈ (rows.filter filter).insertionSort (fun a b => key a ≤ key b) := by
    rw [List.mem_insertionSort, List.mem_filter]
    exact ⟨stored, passes⟩
  rcases (increasing_sorted distinct).mem_take_or_lt size member with here | later
  · exact Or.inl here
  · by_cases full : size ≤ ((rows.filter filter).insertionSort (fun a b => key a ≤ key b)).length
    · exact Or.inr ⟨List.length_take_of_le full, later⟩
    · rw [select, List.take_of_length_le (Nat.le_of_not_le full)]
      exact Or.inl member

end Select

end CursorWalk
