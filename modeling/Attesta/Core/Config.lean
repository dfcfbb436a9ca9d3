import Attesta.Api.Retention
import Attesta.Foundation.SeparatedList
import Attesta.Indexer.Run

/-! The configuration both services read from their environment. Everything but the database has
a default; numbers that do not parse fall back to it, and lists are separated by commas.
-/

namespace Attesta.Core

open Attesta.Indexer (parseDigits)
open Attesta.Api.Retention (parseU32 envU32)

structure RateLimits where
  readPerSec : UInt32
  readBurst : UInt32
  writePerSec : UInt32
  writeBurst : UInt32
  ssePerIp : UInt32
  sseGlobal : UInt32
  issuerDeliveriesPerHour : UInt32
  deriving DecidableEq

structure Config where
  databaseUrl : String
  bindAddr : String
  sorobanRpcUrl : String
  networkPassphrase : String
  poolContractIds : List String
  registryContractId : Option String
  indexerPollSecs : UInt64
  artifactsDir : String
  credentialRetentionClaimedDays : UInt32
  credentialRetentionUnclaimedDays : UInt32
  rateLimits : RateLimits
  corsAllowedOrigins : List String
  readyMaxIndexerStalenessSecs : UInt32
  statsCacheTtlSecs : UInt32
  deriving DecidableEq

namespace Config

/-- `char::is_whitespace`: the characters with the Unicode property `White_Space`. -/
def isWhitespace (c : Char) : Bool :=
  let code := c.toNat
  (9 ≤ code && code ≤ 13) || (0x2000 ≤ code && code ≤ 0x200a)
    || [0x20, 0x85, 0xa0, 0x1680, 0x2028, 0x2029, 0x202f, 0x205f, 0x3000].contains code

/-- The digits of an unsigned number after an optional sign. -/
def parseUnsigned (s : String) : Option Nat :=
  match s.toList with
  | '+' :: digits => parseDigits digits
  | digits => parseDigits digits

/-- `str::parse::<u64>`. -/
def parseU64 (s : String) : Option UInt64 :=
  ((parseUnsigned s).filter (fun n => decide (n < 2 ^ 64))).map UInt64.ofNat

/-- `.split(',').map(str::trim).filter(|s| !s.is_empty())`. -/
def commaList (value : String) : List String :=
  (SeparatedList.entries ',' isWhitespace value.toList).map String.ofList

/-- `!s.trim().is_empty()`. -/
def isBlank (s : String) : Bool := (SeparatedList.trim isWhitespace s.toList).isEmpty

/-- `Config::from_env`; a variable that is unset or not Unicode has no value. -/
def fromEnv (env : String → Option String) : Except String Config :=
  match env "DATABASE_URL" with
  | none => .error "DATABASE_URL must be set"
  | some databaseUrl => .ok {
      databaseUrl
      bindAddr := (env "BIND_ADDR").getD "0.0.0.0:8080"
      sorobanRpcUrl := (env "SOROBAN_RPC_URL").getD "https://soroban-testnet.stellar.org"
      networkPassphrase :=
        (env "STELLAR_NETWORK_PASSPHRASE").getD "Test SDF Network ; September 2015"
      poolContractIds := commaList ((env "POOL_CONTRACT_IDS").getD "")
      registryContractId := (env "REGISTRY_CONTRACT_ID").filter (fun s => !isBlank s)
      indexerPollSecs := ((env "INDEXER_POLL_SECS").bind parseU64).getD 5
      artifactsDir := (env "ARTIFACTS_DIR").getD "./artifacts"
      credentialRetentionClaimedDays := envU32 (env "CREDENTIAL_RETENTION_CLAIMED_DAYS") 30
      credentialRetentionUnclaimedDays := envU32 (env "CREDENTIAL_RETENTION_UNCLAIMED_DAYS") 180
      rateLimits := {
        readPerSec := envU32 (env "RATE_LIMIT_READ_PER_SEC") 50
        readBurst := envU32 (env "RATE_LIMIT_READ_BURST") 200
        writePerSec := envU32 (env "RATE_LIMIT_WRITE_PER_SEC") 2
        writeBurst := envU32 (env "RATE_LIMIT_WRITE_BURST") 20
        ssePerIp := envU32 (env "RATE_LIMIT_SSE_PER_IP") 10
        sseGlobal := envU32 (env "RATE_LIMIT_SSE_GLOBAL") 1000
        issuerDeliveriesPerHour := envU32 (env "RATE_LIMIT_ISSUER_DELIVERIES_PER_HOUR") 600 }
      corsAllowedOrigins := commaList ((env "CORS_ALLOWED_ORIGINS").getD "")
      readyMaxIndexerStalenessSecs := envU32 (env "READY_MAX_INDEXER_STALENESS_SECS") 0
      statsCacheTtlSecs := envU32 (env "STATS_CACHE_TTL_SECS") 10 }

/-- What the retention sweeper reads of it. -/
def retention (config : Config) : Api.Retention.Config where
  credentialRetentionClaimedDays := config.credentialRetentionClaimedDays
  credentialRetentionUnclaimedDays := config.credentialRetentionUnclaimedDays

/-- What the indexer reads of it. -/
def indexer (config : Config) : Indexer.Run.Config where
  poolContractIds := config.poolContractIds
  registryContractId := config.registryContractId

theorem fromEnv_retention {env : String → Option String} {config : Config}
    (h : fromEnv env = .ok config)
    : config.retention
      = .fromEnv (env "CREDENTIAL_RETENTION_CLAIMED_DAYS")
          (env "CREDENTIAL_RETENTION_UNCLAIMED_DAYS") := by
  unfold fromEnv at h
  split at h
  · cases h
  · cases h
    rfl

-----------------------------------------------------------------------------------------
-- Numbers
-----------------------------------------------------------------------------------------

/-- The digits of a number read back, by the library's fact about its own rendering. -/
theorem parseDigits_toDigits (n : Nat) : parseDigits (Nat.toDigits 10 n) = some n := by
  have digits : (Nat.toDigits 10 n).all Char.isDigit = true :=
    List.all_eq_true.mpr fun c member =>
      Nat.isDigit_of_mem_toDigits (by decide) (by decide) member
  rw [parseDigits, if_pos ⟨Nat.toDigits_ne_nil, digits⟩]
  exact congrArg some Nat.ofDigitChars_ten_toDigits

theorem parseUnsigned_repr (n : Nat) : parseUnsigned n.repr = some n := by
  unfold parseUnsigned
  split
  next rest shape =>
    rw [Nat.toList_repr] at shape
    have digit : '+'.isDigit = true :=
      Nat.isDigit_of_mem_toDigits (b := 10) (n := n) (by decide) (by decide) (by simp [shape])
    cases digit
  next => rw [Nat.toList_repr, parseDigits_toDigits]

theorem parseU32_repr (n : UInt32) : parseU32 n.toNat.repr = some n := by
  have bound := n.toNat_lt
  change ((parseUnsigned n.toNat.repr).filter (fun n => decide (n < 2 ^ 32))).map UInt32.ofNat = _
  rw [parseUnsigned_repr, Option.filter_some_pos (by simpa using bound), Option.map_some,
    UInt32.ofNat_toNat]

theorem parseU64_repr (n : UInt64) : parseU64 n.toNat.repr = some n := by
  have bound := n.toNat_lt
  rw [parseU64, parseUnsigned_repr, Option.filter_some_pos (by simpa using bound),
    Option.map_some, UInt64.ofNat_toNat]

theorem envU32_repr (n fallback : UInt32) : envU32 (some n.toNat.repr) fallback = n := by
  rw [envU32, Option.bind_some, parseU32_repr, Option.getD_some]

-----------------------------------------------------------------------------------------
-- Lists
-----------------------------------------------------------------------------------------

/-- An entry that can stand in a list: not empty, without a comma, and without whitespace at
either end.
-/
def IsEntry (s : String) : Prop := SeparatedList.Entry ',' isWhitespace s.toList

/-- The text of a list. -/
def joined (list : List String) : String :=
  String.ofList ([','].intercalate (list.map String.toList))

theorem isEntry_of_mem_commaList {value s : String} (h : s ∈ commaList value) : IsEntry s := by
  obtain ⟨entry, member, rfl⟩ := List.mem_map.mp h
  rw [IsEntry, String.toList_ofList]
  exact SeparatedList.entry_of_mem_entries member

theorem commaList_joined {list : List String} (wellFormed : ∀ s ∈ list, IsEntry s)
    : commaList (joined list) = list := by
  have entries : ∀ entry ∈ list.map String.toList, SeparatedList.Entry ',' isWhitespace entry := by
    intro entry member
    obtain ⟨s, listed, rfl⟩ := List.mem_map.mp member
    exact wellFormed s listed
  rw [commaList, joined, String.toList_ofList, SeparatedList.entries_intercalate entries,
    List.map_map]
  exact (List.map_congr_left fun s _ => String.ofList_toList).trans (List.map_id list)

theorem isBlank_iff {s : String} : isBlank s = true ↔ ∀ c ∈ s.toList, isWhitespace c = true := by
  rw [isBlank, List.isEmpty_iff, SeparatedList.trim_eq_nil_iff]

-----------------------------------------------------------------------------------------
-- The whole configuration
-----------------------------------------------------------------------------------------

/-- What every configuration read from an environment has. -/
structure WellFormed (config : Config) : Prop where
  poolContractIds : ∀ id ∈ config.poolContractIds, IsEntry id
  registryContractId
    : ∀ id, config.registryContractId = some id → ∃ c ∈ id.toList, isWhitespace c = false
  corsAllowedOrigins : ∀ origin ∈ config.corsAllowedOrigins, IsEntry origin

/-- A configuration written out as variables. -/
def settings (config : Config) : List (String × String) :=
  [("DATABASE_URL", config.databaseUrl),
    ("BIND_ADDR", config.bindAddr),
    ("SOROBAN_RPC_URL", config.sorobanRpcUrl),
    ("STELLAR_NETWORK_PASSPHRASE", config.networkPassphrase),
    ("POOL_CONTRACT_IDS", joined config.poolContractIds),
    ("INDEXER_POLL_SECS", config.indexerPollSecs.toNat.repr),
    ("ARTIFACTS_DIR", config.artifactsDir),
    ("CREDENTIAL_RETENTION_CLAIMED_DAYS", config.credentialRetentionClaimedDays.toNat.repr),
    ("CREDENTIAL_RETENTION_UNCLAIMED_DAYS", config.credentialRetentionUnclaimedDays.toNat.repr),
    ("RATE_LIMIT_READ_PER_SEC", config.rateLimits.readPerSec.toNat.repr),
    ("RATE_LIMIT_READ_BURST", config.rateLimits.readBurst.toNat.repr),
    ("RATE_LIMIT_WRITE_PER_SEC", config.rateLimits.writePerSec.toNat.repr),
    ("RATE_LIMIT_WRITE_BURST", config.rateLimits.writeBurst.toNat.repr),
    ("RATE_LIMIT_SSE_PER_IP", config.rateLimits.ssePerIp.toNat.repr),
    ("RATE_LIMIT_SSE_GLOBAL", config.rateLimits.sseGlobal.toNat.repr),
    ("RATE_LIMIT_ISSUER_DELIVERIES_PER_HOUR",
      config.rateLimits.issuerDeliveriesPerHour.toNat.repr),
    ("CORS_ALLOWED_ORIGINS", joined config.corsAllowedOrigins),
    ("READY_MAX_INDEXER_STALENESS_SECS", config.readyMaxIndexerStalenessSecs.toNat.repr),
    ("STATS_CACHE_TTL_SECS", config.statsCacheTtlSecs.toNat.repr)]
  ++ config.registryContractId.toList.map (fun id => ("REGISTRY_CONTRACT_ID", id))

/-- The environment those variables make up. -/
def environment (config : Config) (key : String) : Option String := config.settings.lookup key

theorem lookup_registry (config : Config)
    : config.environment "REGISTRY_CONTRACT_ID" = config.registryContractId := by
  cases registry : config.registryContractId <;>
    simp [environment, settings, List.lookup_cons, registry]

theorem wellFormed_of_fromEnv {env : String → Option String} {config : Config}
    (h : fromEnv env = .ok config)
    : config.WellFormed := by
  unfold fromEnv at h
  split at h
  · cases h
  · cases h
    refine ⟨fun _ => isEntry_of_mem_commaList, fun id registry => ?_,
      fun _ => isEntry_of_mem_commaList⟩
    have kept : isBlank id = false := by
      simpa using (Option.filter_eq_some_iff.mp registry).2
    by_contra blank
    simp only [not_exists, not_and, Bool.not_eq_false] at blank
    rw [isBlank_iff.mpr blank] at kept
    cases kept

/-- Written out and read back, a well-formed configuration is as it was. -/
theorem fromEnv_environment {config : Config} (wellFormed : config.WellFormed)
    : fromEnv config.environment = .ok config := by
  have registry
      : (config.environment "REGISTRY_CONTRACT_ID").filter (fun s => !isBlank s)
        = config.registryContractId := by
    rw [lookup_registry]
    cases named : config.registryContractId with
    | none => rfl
    | some id =>
        obtain ⟨c, member, solid⟩ := wellFormed.registryContractId id named
        have kept : isBlank id ≠ true := fun blank =>
          Bool.false_ne_true (solid.symm.trans (isBlank_iff.mp blank c member))
        exact Option.filter_some_pos (by simpa using kept)
  have pools := commaList_joined wellFormed.poolContractIds
  have origins := commaList_joined wellFormed.corsAllowedOrigins
  -- Every other variable is looked up among those written out.
  simp only [fromEnv, registry]
  simp [environment, settings, List.lookup_cons, envU32_repr, pools, origins, parseU64_repr]

/-- A configuration is well formed exactly if writing it out and reading it back gives it again,
and exactly if some environment gives it.
-/
theorem round_trip (config : Config)
    : (config.WellFormed ↔ fromEnv config.environment = .ok config)
      ∧ (config.WellFormed ↔ ∃ env, fromEnv env = .ok config) :=
  ⟨⟨fromEnv_environment, wellFormed_of_fromEnv⟩,
    ⟨fun wellFormed => ⟨_, fromEnv_environment wellFormed⟩,
      fun ⟨_, read⟩ => wellFormed_of_fromEnv read⟩⟩

end Config

end Attesta.Core
