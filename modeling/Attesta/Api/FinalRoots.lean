import Attesta.Api.Convergence
import Attesta.Api.HistoricalRoots

/-! How final historical answers are. What `get_root` says about a ledger it says again at every
later moment and on every replica, until a leaf of that ledger or an earlier one is indexed; and
what it says about a leaf count, if that many leaves have been indexed.
-/

namespace Attesta.Api

/-- All leaves of a pool at a later moment continue those at an earlier one. -/
theorem AllLeaves.prefix_of_grows {db next : Db} {pool : String} {leaves more : List Leaf}
    (now : AllLeaves db pool leaves) (later : AllLeaves next pool more)
    (grows : db.commitments <+: next.commitments)
    : leaves <+: more := by
  have stored := now.stored.mono grows
  rw [later.eq_take stored]
  exact List.take_prefix _ _

end Attesta.Api

namespace Attesta.Api.TreeService

open Attesta.Merkle Attesta.Indexer KeyedRows

/-- Answers for beginnings of different lengths differ. -/
theorem length_eq_of_prefixAnswer {hasher : TreeHasher} {pool : String} {leaves others : List Leaf}
    (same : prefixAnswer hasher pool leaves = prefixAnswer hasher pool others)
    : leaves.length = others.length := by
  have count (leaves : List Leaf)
      : (prefixAnswer hasher pool leaves).toOption.elim 0 RootResponse.leafCount
        = leaves.length := by
    cases last : leaves.getLast? with
    | none => simp [prefixAnswer, List.getLast?_eq_none_iff.mp last, Except.toOption]
    | some newest => simp [prefixAnswer, last, Except.toOption]
  have lengths := count leaves
  rw [same, count others] at lengths
  exact_mod_cast lengths.symm

/-- A further leaf counts for a ledger unless it is past it. -/
theorem prefixAnswer_upToLedger_iff {hasher : TreeHasher} {pool : String}
    {leaves more : List Leaf} (grows : leaves <+: more) (ledger : Int)
    : prefixAnswer hasher pool (upToLedger more ledger)
          = prefixAnswer hasher pool (upToLedger leaves ledger)
        ↔ ∀ leaf ∈ more.drop leaves.length, ledger < leaf.ledger := by
  obtain ⟨rest, rfl⟩ := grows
  rw [List.drop_left]
  constructor
  · intro same leaf member
    by_contra early
    have longer : leaves.length < (upToLedger (leaves ++ rest) ledger).length :=
      length_lt_rdropWhile_append member (by simpa using Int.not_lt.mp early)
    have within : (upToLedger leaves ledger).length ≤ leaves.length :=
      (List.rdropWhile_prefix _ leaves).length_le
    have lengths := length_eq_of_prefixAnswer same
    omega
  · intro past
    have dropped : upToLedger (leaves ++ rest) ledger = upToLedger leaves ledger :=
      rdropWhile_append_of_all fun leaf member => by simpa using past leaf member
    rw [dropped]

/-- A further leaf counts for the leaf counts past the earlier ones. -/
theorem prefixAnswer_take_iff {hasher : TreeHasher} {pool : String} {leaves more : List Leaf}
    (grows : leaves <+: more) (count : Int)
    : prefixAnswer hasher pool (more.take (min count more.length).toNat)
          = prefixAnswer hasher pool (leaves.take (min count leaves.length).toNat)
        ↔ count ≤ leaves.length ∨ more = leaves := by
  obtain ⟨rest, rfl⟩ := grows
  constructor
  · intro same
    have lengths := length_eq_of_prefixAnswer same
    simp only [List.length_take, List.length_append] at lengths
    by_contra neither
    obtain ⟨past, grown⟩ := not_or.mp neither
    have positive : 0 < rest.length :=
      List.length_pos_iff.mpr fun none => grown (by rw [none, List.append_nil])
    omega
  · rintro (within | same)
    · have taken : (min count ((leaves ++ rest).length : Int)).toNat
          = (min count (leaves.length : Int)).toNat := by
        rw [List.length_append]
        omega
      have short : (min count (leaves.length : Int)).toNat ≤ leaves.length := by omega
      rw [taken, List.take_append_of_le_length short]
    · rw [same]

/-- How far historical roots are final. Between two moments of a run the leaves of a pool only
grow. The answer for a ledger stays the same exactly if no leaf indexed in between is of that
ledger or an earlier one, and the answer for a leaf count exactly if that many leaves were there
or none has been added; any two replicas that have their history on record agree in this.
-/
theorem historical_roots_final (codec : Codec) (hasher : TreeHasher) {s t : State}
    {earlier later : List Action}
    (reached : Machine.run (step codec hasher) State.init earlier = some s)
    (ran : Machine.run (step codec hasher) s later = some t) {r r' : Nat} {pool : String}
    {leaves more : List Leaf} (before : Recorded hasher s r pool leaves)
    (after : Recorded hasher t r' pool more)
    : leaves <+: more
      ∧ (∀ ledger : Int,
        getRoot hasher t.db (t.replicas r').trees pool
              { atLedger := some ledger, atLeafCount := none }
            = getRoot hasher s.db (s.replicas r).trees pool
              { atLedger := some ledger, atLeafCount := none }
          ↔ ∀ leaf ∈ more.drop leaves.length, ledger < leaf.ledger)
      ∧ ∀ count : Int,
        getRoot hasher t.db (t.replicas r').trees pool
              { atLedger := none, atLeafCount := some count }
            = getRoot hasher s.db (s.replicas r).trees pool
              { atLedger := none, atLeafCount := some count }
          ↔ count ≤ leaves.length ∨ more = leaves := by
  have sound := run_sound reached
  obtain ⟨soundLater, grows, _⟩ := run_grows sound ran
  have continued := before.all.prefix_of_grows after.all grows
  obtain ⟨db, poolTree, consulted, answers⟩ := before.consulted sound
  obtain ⟨laterDb, laterTree, laterConsulted, laterAnswers⟩ := after.consulted soundLater
  refine ⟨continued, fun ledger => ?_, fun count => ?_⟩
  · rw [answers _ rfl, laterAnswers _ rfl, consulted.at_ledger ledger,
      laterConsulted.at_ledger ledger, Option.some_inj]
    exact prefixAnswer_upToLedger_iff continued ledger
  · rw [answers _ rfl, laterAnswers _ rfl, consulted.at_leaf_count count,
      laterConsulted.at_leaf_count count, Option.some_inj]
    exact prefixAnswer_take_iff continued count

/-- A second leaf of ledger 43 leaves the answer for ledger 42 as it was and changes that for
ledger 43; asked are two replicas.
-/
theorem historical_roots_final_batch
    : ∃ s t,
        Machine.run (step (sampleCodec 3) sampleHasher) State.init
            [sampleStore 0 42, sampleStore 1 43]
          = some s
        ∧ Machine.run (step (sampleCodec 3) sampleHasher) s [sampleStore 2 43] = some t
        ∧ getRoot sampleHasher t.db (t.replicas 1).trees "CPOOL"
            { atLedger := some 42, atLeafCount := none }
          = getRoot sampleHasher s.db (s.replicas 0).trees "CPOOL"
            { atLedger := some 42, atLeafCount := none }
        ∧ getRoot sampleHasher t.db (t.replicas 1).trees "CPOOL"
            { atLedger := some 43, atLeafCount := none }
          ≠ getRoot sampleHasher s.db (s.replicas 0).trees "CPOOL"
            { atLedger := some 43, atLeafCount := none } := by
  have observed
      : (Machine.run (step (sampleCodec 3) sampleHasher) State.init
            [sampleStore 0 42, sampleStore 1 43]).bind
          (fun s => (Machine.run (step (sampleCodec 3) sampleHasher) s [sampleStore 2 43]).map
            (fun t => ((List.range 3).map (leaf? s.db "CPOOL"),
              ((s.replicas 0).trees.entry sampleHasher "CPOOL").tree.len,
              (List.range 4).map (leaf? t.db "CPOOL"),
              ((t.replicas 1).trees.entry sampleHasher "CPOOL").tree.len)))
        = some ([some ⟨sampleLeaf 0, 42⟩, some ⟨sampleLeaf 1, 43⟩, none], 0,
            [some ⟨sampleLeaf 0, 42⟩, some ⟨sampleLeaf 1, 43⟩, some ⟨sampleLeaf 2, 43⟩, none],
            0) := by
    decide +kernel
  obtain ⟨s, ran, rest⟩ := Option.bind_eq_some_iff.mp observed
  obtain ⟨t, ranLater, shape⟩ := Option.map_eq_some_iff.mp rest
  obtain ⟨table, shape⟩ := Prod.mk.inj shape
  obtain ⟨length, shape⟩ := Prod.mk.inj shape
  obtain ⟨tableLater, lengthLater⟩ := Prod.mk.inj shape
  have before : Recorded sampleHasher s 0 "CPOOL" [⟨sampleLeaf 0, 42⟩, ⟨sampleLeaf 1, 43⟩] :=
    ⟨allLeaves_of_range table, by simp, fun k positive cached => by omega⟩
  have after : Recorded sampleHasher t 1 "CPOOL"
      [⟨sampleLeaf 0, 42⟩, ⟨sampleLeaf 1, 43⟩, ⟨sampleLeaf 2, 43⟩] :=
    ⟨allLeaves_of_range tableLater, by simp, fun k positive cached => by omega⟩
  obtain ⟨_, byLedger, _⟩ := historical_roots_final (sampleCodec 3) sampleHasher ran ranLater
    before after
  refine ⟨s, t, ran, ranLater, (byLedger 42).mpr (by simp), fun same => ?_⟩
  have past := (byLedger 43).mp same ⟨sampleLeaf 2, 43⟩ (by simp)
  exact absurd past (by simp)

end Attesta.Api.TreeService
