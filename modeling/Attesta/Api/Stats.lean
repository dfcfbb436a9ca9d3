import Mathlib
import Attesta.Indexer.PoolTotals

/-! The public protocol stats, and when the TVL they report for a pool is the one of the asset
they name. `pool_totals` has one row for each pool, so payments in a second asset are added to
amounts of the first, and a deposit that names no asset is not added to anything.
-/

namespace Attesta.Api.Stats

open Attesta.Indexer

structure PoolStats where
  pool : String
  asset : String
  /-- TVL as a decimal string: deposits minus withdrawals. -/
  tvl : String
  deriving DecidableEq

structure ProtocolStats where
  pools : List PoolStats
  totalCommitments : Int
  totalNullifiers : Int
  activeIssuers : Int
  credentialsDelivered : Int
  deriving DecidableEq

def poolStats (row : PoolTotalRow) : PoolStats :=
  ⟨row.pool, row.asset, toString (row.totalIn - row.totalOut)⟩

/-- `SELECT pool, asset, (total_in - total_out)::text AS tvl FROM pool_totals ORDER BY pool`. -/
def selectPools (db : Db) : List PoolStats :=
  (db.poolTotals.insertionSort (fun a b => a.pool ≤ b.pool)).map poolStats

/-- `compute_stats`, when all its queries succeed. -/
def computeStats (db : Db) : ProtocolStats where
  pools := selectPools db
  totalCommitments := db.commitments.length
  totalNullifiers := db.nullifiers.length
  activeIssuers := db.issuers.countP (fun row => row.status == "active")
  credentialsDelivered := db.credentialDeliveries.length

-----------------------------------------------------------------------------------------
-- TVL per pool and asset
-----------------------------------------------------------------------------------------

/-- The deposits of a pool in one asset. -/
def depositsIn (events : List StoredEvent) (pool asset : String) : Int :=
  (((payments events pool).filter (fun payment => payment.asset = asset)).map
    Payment.inflow).sum

/-- The withdrawals of a pool in one asset. -/
def withdrawalsIn (events : List StoredEvent) (pool asset : String) : Int :=
  (((payments events pool).filter (fun payment => payment.asset = asset)).map
    Payment.outflow).sum

/-- Every entry reports the deposits minus the withdrawals of its pool in its asset, and every
event with a deposit amount has an entry of its pool and its asset.
-/
structure TvlPerAsset (events : List StoredEvent) (pools : List PoolStats) : Prop where
  entries
    : ∀ entry ∈ pools,
        entry.tvl
          = toString (depositsIn events entry.pool entry.asset
              - withdrawalsIn events entry.pool entry.asset)
  deposits
    : ∀ e ∈ events, ∀ commitment leafIndex amount asset,
        e.event = .newCommitment commitment leafIndex (some amount) asset
        → ∃ entry ∈ pools, entry.pool = e.contractId ∧ asset = some entry.asset

/-- Every deposit names the asset of the first payment of its pool, and the withdrawals of a
pool in other assets add up to zero.
-/
structure MainAssetOnly (events : List StoredEvent) : Prop where
  deposits
    : ∀ e ∈ events, ∀ commitment leafIndex amount asset,
        e.event = .newCommitment commitment leafIndex (some amount) asset
        → asset ≠ none ∧ mainAsset events e.contractId = asset
  withdrawals
    : ∀ pool asset, mainAsset events pool = some asset
        → (((payments events pool).filter (fun payment => payment.asset ≠ asset)).map
            Payment.outflow).sum = 0

/-- The entries are the pools with a payment, under its asset and with the sums over all. -/
theorem mem_selectPools {events : List StoredEvent} {db : Db}
    (h : storeAll Db.empty events = .ok db) {entry : PoolStats}
    : entry ∈ selectPools db
      ↔ mainAsset events entry.pool = some entry.asset
        ∧ entry.tvl
          = toString (((payments events entry.pool).map Payment.inflow).sum
              - ((payments events entry.pool).map Payment.outflow).sum) := by
  simp only [selectPools, List.mem_map, List.mem_insertionSort, storeAll_mem h,
    storeAll_poolRow h, Option.map_eq_some_iff]
  constructor
  · rintro ⟨row, ⟨asset, first, shape⟩, rfl⟩
    have named := congrArg PoolTotalRow.asset shape
    have totalIn := congrArg PoolTotalRow.totalIn shape
    have totalOut := congrArg PoolTotalRow.totalOut shape
    simp only at named totalIn totalOut
    simp only [poolStats]
    exact ⟨named ▸ first, by rw [totalIn, totalOut]⟩
  · rintro ⟨first, shown⟩
    obtain ⟨pool, asset, tvl⟩ := entry
    simp only at first shown
    subst shown
    refine ⟨⟨pool, asset, _, _⟩, ⟨asset, first, rfl⟩, rfl⟩

/-- A pool with a payment has an entry. -/
theorem exists_entry {events : List StoredEvent} {db : Db}
    (h : storeAll Db.empty events = .ok db) {pool asset : String}
    (first : mainAsset events pool = some asset)
    : ∃ entry ∈ selectPools db, entry.pool = pool ∧ entry.asset = asset := by
  let entry : PoolStats :=
    ⟨pool, asset, toString (((payments events pool).map Payment.inflow).sum
      - ((payments events pool).map Payment.outflow).sum)⟩
  exact ⟨entry, (mem_selectPools h).mpr ⟨first, rfl⟩, rfl, rfl⟩

/-- A sum over all payments is the sum over those in an asset and the one over the others. -/
theorem sum_payments (events : List StoredEvent) (pool asset : String) (amount : Payment → Int)
    : ((payments events pool).map amount).sum
      = (((payments events pool).filter (fun payment => payment.asset = asset)).map amount).sum
        + (((payments events pool).filter (fun payment => payment.asset ≠ asset)).map
            amount).sum :=
  (List.sum_map_filter_add_sum_map_filter_not (fun payment : Payment => payment.asset = asset)
    amount (payments events pool)).symm

/-- If all deposits are in the main asset, nothing comes in in another one. -/
theorem foreign_inflow {events : List StoredEvent}
    (deposits
      : ∀ e ∈ events, ∀ commitment leafIndex amount asset,
          e.event = .newCommitment commitment leafIndex (some amount) asset
          → asset ≠ none ∧ mainAsset events e.contractId = asset)
    {pool asset : String} (first : mainAsset events pool = some asset)
    : (((payments events pool).filter (fun payment => payment.asset ≠ asset)).map
        Payment.inflow).sum = 0 := by
  refine List.sum_eq_zero ?_
  intro amount listed
  obtain ⟨payment, kept, rfl⟩ := List.mem_map.mp listed
  obtain ⟨member, foreign⟩ := List.mem_filter.mp kept
  obtain ⟨e, stored, paid⟩ := List.mem_filterMap.mp member
  unfold StoredEvent.payment at paid
  split at paid
  next commitment leafIndex amount named shape =>
    split at paid
    next here =>
      obtain rfl := Option.some.inj paid
      have same := (deposits e stored _ _ _ _ shape).2
      rw [here, first] at same
      exact absurd (Option.some.inj same).symm (by simpa using foreign)
    next => cases paid
  next =>
    split at paid
    next => exact Option.some.inj paid ▸ rfl
    next => cases paid
  next => cases paid

/-- An entry reports the TVL of its asset exactly if the payments of its pool in other assets
cancel out.
-/
theorem entry_iff {events : List StoredEvent} {entry : PoolStats}
    (shown
      : entry.tvl
        = toString (((payments events entry.pool).map Payment.inflow).sum
            - ((payments events entry.pool).map Payment.outflow).sum))
    : entry.tvl
        = toString (depositsIn events entry.pool entry.asset
            - withdrawalsIn events entry.pool entry.asset)
      ↔ (((payments events entry.pool).filter (fun payment => payment.asset ≠ entry.asset)).map
            Payment.inflow).sum
          = (((payments events entry.pool).filter
              (fun payment => payment.asset ≠ entry.asset)).map Payment.outflow).sum := by
  rw [shown, sum_payments events entry.pool entry.asset Payment.inflow,
    sum_payments events entry.pool entry.asset Payment.outflow, depositsIn, withdrawalsIn]
  constructor
  · intro same
    have values := Int.repr_injective same
    omega
  · intro cancel
    rw [cancel]
    refine congrArg toString ?_
    omega

/-- After any list of decoded events of any pools has been stored, the reported TVL is per pool
and per asset exactly if every deposit names the asset of the first payment of its pool and the
withdrawals in other assets add up to zero.
-/
theorem tvl_per_asset_iff {events : List StoredEvent} {db : Db}
    (h : storeAll Db.empty events = .ok db)
    : TvlPerAsset events (computeStats db).pools ↔ MainAssetOnly events := by
  constructor
  · intro claim
    have deposits
        : ∀ e ∈ events, ∀ commitment leafIndex amount asset,
            e.event = .newCommitment commitment leafIndex (some amount) asset
            → asset ≠ none ∧ mainAsset events e.contractId = asset := by
      intro e stored commitment leafIndex amount asset shape
      obtain ⟨entry, listed, samePool, rfl⟩ :=
        claim.deposits e stored commitment leafIndex amount asset shape
      exact ⟨Option.some_ne_none _, samePool ▸ ((mem_selectPools h).mp listed).1⟩
    refine ⟨deposits, fun pool asset first => ?_⟩
    obtain ⟨entry, listed, rfl, rfl⟩ := exists_entry h first
    have shown := ((mem_selectPools h).mp listed).2
    have cancel := (entry_iff shown).mp (claim.entries entry listed)
    exact cancel.symm.trans (foreign_inflow deposits first)
  · intro only
    constructor
    · intro entry listed
      obtain ⟨first, shown⟩ := (mem_selectPools h).mp listed
      rw [entry_iff shown, foreign_inflow only.deposits first, only.withdrawals _ _ first]
    · intro e stored commitment leafIndex amount asset shape
      obtain ⟨named, first⟩ := only.deposits e stored commitment leafIndex amount asset shape
      obtain ⟨paid, rfl⟩ := Option.ne_none_iff_exists'.mp named
      obtain ⟨entry, listed, samePool, rfl⟩ := exists_entry h first
      exact ⟨entry, listed, samePool, rfl⟩

/-- A deposit and a withdrawal in one asset. -/
def usdcOnly : List StoredEvent :=
  [⟨"CPOOL", 42, "t1", .newCommitment (sampleLeaf 0) 0 (some 100) (some "USDC")⟩,
    ⟨"CPOOL", 43, "t2", .withdrawal 30 "USDC"⟩]

theorem tvl_per_asset_iff_usdc
    : ∃ db, storeAll Db.empty usdcOnly = .ok db
      ∧ (computeStats db).pools = [⟨"CPOOL", "USDC", "70"⟩]
      ∧ TvlPerAsset usdcOnly (computeStats db).pools := by
  have observed
      : (storeAll Db.empty usdcOnly).toOption.map (fun db => (computeStats db).pools)
        = some [⟨"CPOOL", "USDC", "70"⟩] := by
    decide +kernel
  have only : MainAssetOnly usdcOnly := by
    constructor
    · intro e listed commitment leafIndex amount asset shape
      rcases List.mem_cons.mp listed with rfl | later
      · cases shape
        exact ⟨Option.some_ne_none _, by decide⟩
      · cases List.mem_singleton.mp later
        cases shape
    · intro pool asset first
      by_cases same : "CPOOL" = pool
      · subst same
        obtain rfl : "USDC" = asset := Option.some.inj first
        decide
      · simp [payments, usdcOnly, StoredEvent.payment, same]
  cases stored : storeAll Db.empty usdcOnly with
  | error e =>
      rw [stored] at observed
      cases observed
  | ok db =>
      rw [stored] at observed
      exact ⟨db, rfl, Option.some.inj observed, (tvl_per_asset_iff stored).mpr only⟩

/-- Deposits in two assets, and one that names none. -/
def mixedAssets : List StoredEvent :=
  [⟨"CPOOL", 42, "t1", .newCommitment (sampleLeaf 0) 0 (some 100) (some "USDC")⟩,
    ⟨"CPOOL", 43, "t2", .newCommitment (sampleLeaf 1) 1 (some 5) (some "XLM")⟩,
    ⟨"CPOOL", 44, "t3", .newCommitment (sampleLeaf 2) 2 (some 7) none⟩]

/-- The five XLM are reported as USDC, and the seven of the last deposit not at all. -/
theorem xlm_reported_as_usdc
    : ∃ db, storeAll Db.empty mixedAssets = .ok db
      ∧ (computeStats db).pools = [⟨"CPOOL", "USDC", "105"⟩]
      ∧ ¬ TvlPerAsset mixedAssets (computeStats db).pools := by
  have observed
      : (storeAll Db.empty mixedAssets).toOption.map (fun db => (computeStats db).pools)
        = some [⟨"CPOOL", "USDC", "105"⟩] := by
    decide +kernel
  cases stored : storeAll Db.empty mixedAssets with
  | error e =>
      rw [stored] at observed
      cases observed
  | ok db =>
      rw [stored] at observed
      have shown : (computeStats db).pools = [⟨"CPOOL", "USDC", "105"⟩] :=
        Option.some.inj observed
      refine ⟨db, rfl, shown, fun claim => ?_⟩
      have usdc := claim.entries ⟨"CPOOL", "USDC", "105"⟩ (by rw [shown]; simp)
      exact absurd usdc (by decide +kernel)

end Attesta.Api.Stats
