import Mathlib.Data.List.AList

/-! Hash maps as association lists with distinct keys. The order of the entries stands for
the iteration order of a hash map, on which no lookup depends.
-/

/-- A map from keys to values, at most one entry per key. -/
abbrev HashTable (κ ν : Type*) := AList (fun _ : κ => ν)

namespace HashTable

variable {κ ν : Type*}

/-- The number of entries. -/
def size (table : HashTable κ ν) : Nat := table.entries.length

/-- Keep the entries that pass a test. -/
def retain (table : HashTable κ ν) (keep : κ → ν → Bool) : HashTable κ ν where
  entries := table.entries.filter (fun entry => keep entry.1 entry.2)
  nodupKeys := table.nodupKeys.sublist List.filter_sublist

theorem length_keys (table : HashTable κ ν) : (AList.keys table).length = table.size :=
  List.length_map _

variable [DecidableEq κ]

theorem mem_entries_iff {table : HashTable κ ν} {key : κ} {value : ν}
    : ⟨key, value⟩ ∈ table.entries ↔ table.lookup key = some value :=
  AList.mem_lookup_iff.symm

/-- A lookup after cleaning up finds what it found before if that passes the test. -/
theorem lookup_retain (table : HashTable κ ν) (keep : κ → ν → Bool) (key : κ)
    : (table.retain keep).lookup key = (table.lookup key).filter (keep key) := by
  apply Option.ext
  intro value
  rw [← mem_entries_iff, retain, List.mem_filter, mem_entries_iff, Option.filter_eq_some_iff]

theorem size_insert_le (table : HashTable κ ν) (key : κ) (value : ν)
    : HashTable.size (table.insert key value) ≤ table.size + 1 := by
  have erased : (table.keys.erase key).length ≤ table.keys.length := List.length_erase_le
  rw [← length_keys, AList.keys_insert, List.length_cons]
  rw [length_keys] at erased
  omega

/-- A table is no larger than a list that contains its keys. -/
theorem size_le_length {table : HashTable κ ν} {candidates : List κ}
    (among : ∀ key value, table.lookup key = some value → key ∈ candidates)
    : table.size ≤ candidates.length := by
  have subset : table.keys ⊆ candidates := by
    intro key member
    obtain ⟨value, found⟩ := Option.isSome_iff_exists.mp (AList.lookup_isSome.mpr member)
    exact among key value found
  have length := (List.subperm_of_subset table.keys_nodup subset).length_le
  rwa [length_keys] at length

end HashTable
