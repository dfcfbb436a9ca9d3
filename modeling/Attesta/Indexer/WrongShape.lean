import Attesta.Indexer.EventLayout
import Attesta.Indexer.Store

/-! Payloads of a wrong shape. The tables here say what each field of an event accepts and what
it then holds, apart from how the decoders read it. A decoded event is faithful to its payload
if every entry under the name of one of its fields says what the event holds.
-/

namespace Attesta.Indexer

open Attesta.Merkle

/-- The events the decoder recognises. -/
inductive EventKind
  | newCommitment
  | nullifier
  | note
  | withdrawal
  | issuer
  deriving DecidableEq

def EventKind.name : EventKind → String
  | newCommitment => "new_commitment"
  | nullifier => "nullifier"
  | note => "note"
  | withdrawal => "withdrawal"
  | issuer => "issuer"

inductive FieldType
  | bytes32
  | int64
  | int128
  | bytes
  | text
  | textVec
  deriving DecidableEq

/-- What a field of an event holds. -/
inductive FieldValue
  | node (node : Node)
  | int (n : Int)
  | bytes (bytes : List UInt8)
  | text (text : String)
  | texts (texts : List String)
  deriving DecidableEq

/-- A field of an event, under its name in the payload map. -/
structure FieldRule where
  name : String
  type : FieldType
  required : Bool

/-- The field tables. -/
def EventKind.rules : EventKind → List FieldRule
  | newCommitment =>
      [⟨"commitment", .bytes32, true⟩, ⟨"leaf_index", .int64, true⟩,
        ⟨"deposit_amount", .int128, false⟩, ⟨"asset", .text, false⟩]
  | nullifier => [⟨"nullifier", .bytes32, true⟩]
  | note =>
      [⟨"commitment", .bytes32, true⟩, ⟨"ephemeral_pubkey", .bytes, true⟩,
        ⟨"ciphertext", .bytes, true⟩]
  | withdrawal => [⟨"amount", .int128, true⟩, ⟨"asset", .text, true⟩]
  | issuer =>
      [⟨"issuer_id", .text, true⟩, ⟨"name", .text, true⟩, ⟨"public_key", .bytes, true⟩,
        ⟨"claim_types", .textVec, true⟩, ⟨"status", .text, true⟩]

/-- What an event holds under the name of a field. -/
def PoolEvent.field : PoolEvent → String → Option FieldValue
  | newCommitment commitment leafIndex depositAmount asset, name =>
      if name = "commitment" then some (.node commitment)
      else if name = "leaf_index" then some (.int leafIndex)
      else if name = "deposit_amount" then depositAmount.map .int
      else if name = "asset" then asset.map .text
      else none
  | nullifierSpent nullifier, name =>
      if name = "nullifier" then some (.node nullifier) else none
  | encryptedNote commitment ephemeralPubkey ciphertext, name =>
      if name = "commitment" then some (.node commitment)
      else if name = "ephemeral_pubkey" then some (.bytes ephemeralPubkey)
      else if name = "ciphertext" then some (.bytes ciphertext)
      else none
  | withdrawal amount asset, name =>
      if name = "amount" then some (.int amount)
      else if name = "asset" then some (.text asset)
      else none
  | issuerUpdated issuerId label publicKey claimTypes status, name =>
      if name = "issuer_id" then some (.text issuerId)
      else if name = "name" then some (.text label)
      else if name = "public_key" then some (.bytes publicKey)
      else if name = "claim_types" then some (.texts claimTypes)
      else if name = "status" then some (.text status)
      else none

namespace Codec

inductive AcceptsText (codec : Codec) : ScVal → String → Prop
  | string (bytes : List UInt8) : AcceptsText codec (.string bytes) (codec.display bytes)
  | symbol (bytes : List UInt8) : AcceptsText codec (.symbol bytes) (codec.display bytes)

/-- The values of accepted type and range for a field, and what each of them says. -/
inductive Accepts (codec : Codec) : FieldType → ScVal → FieldValue → Prop
  | bytes32 (node : Node) : Accepts codec .bytes32 (.bytes node.bytes) (.node node)
  | indexU32 (n : UInt32) : Accepts codec .int64 (.u32 n) (.int n.toNat)
  | indexU64 (n : UInt64) (signed : n.toNat < 2 ^ 63) : Accepts codec .int64 (.u64 n) (.int n.toNat)
  | indexI64 (n : Int64) : Accepts codec .int64 (.i64 n) (.int n.toInt)
  | amountI128 (hi : Int64) (lo : UInt64)
    : Accepts codec .int128 (.i128 hi lo) (.int (2 ^ 64 * hi.toInt + lo.toNat))
  | amountU64 (n : UInt64) : Accepts codec .int128 (.u64 n) (.int n.toNat)
  | amountI64 (n : Int64) : Accepts codec .int128 (.i64 n) (.int n.toInt)
  | amountU32 (n : UInt32) : Accepts codec .int128 (.u32 n) (.int n.toNat)
  | bytes (bytes : List UInt8) : Accepts codec .bytes (.bytes bytes) (.bytes bytes)
  | text (v : ScVal) (text : String) (each : AcceptsText codec v text)
    : Accepts codec .text v (.text text)
  | textVec (items : List ScVal) (texts : List String)
    (each : List.Forall₂ (AcceptsText codec) items texts)
    : Accepts codec .textVec (.vec (some items)) (.texts texts)

/-- An event is what its payload map says: each entry under the name of a field has an accepted
type and range and says exactly what the event holds, and only an optional field is absent.
-/
def Faithful (codec : Codec) (kind : EventKind) (map : List (ScVal × ScVal)) (event : PoolEvent)
    : Prop :=
  ∀ rule ∈ kind.rules,
    (∀ entry ∈ map, codec.Names rule.name entry →
      ∃ value, event.field rule.name = some value ∧ codec.Accepts rule.type entry.2 value)
    ∧ ((∀ entry ∈ map, codec.OtherKey rule.name entry.1) →
      rule.required = false ∧ event.field rule.name = none)

/-- The first entry under the name of a field has an accepted type and range, and says this. -/
def FirstSays (codec : Codec) (map : List (ScVal × ScVal)) (rule : FieldRule) (value : FieldValue)
    : Prop :=
  ∃ v, codec.mapGet map rule.name = some v ∧ codec.Accepts rule.type v value

/-- An entry under the name of a field is of no accepted type and range, or says something else
than the first entry under that name.
-/
def Overlooked (codec : Codec) (map : List (ScVal × ScVal)) (rule : FieldRule) : Prop :=
  ∃ entry ∈ map, codec.Names rule.name entry
    ∧ ¬ ∃ value, codec.FirstSays map rule value ∧ codec.Accepts rule.type entry.2 value

-----------------------------------------------------------------------------------------
-- The readers accept what the tables say
-----------------------------------------------------------------------------------------

/-- The typed reader of a field. -/
def read (codec : Codec) : FieldType → ScVal → Option FieldValue
  | .bytes32, v => (Indexer.bytes32 v).map .node
  | .int64, v => (Indexer.int64 v).map .int
  | .int128, v => (Indexer.int128 v).map .int
  | .bytes, v => (Indexer.bytes v).map .bytes
  | .text, v => (codec.text v).map .text
  | .textVec, v => (codec.textVec v).map .texts

theorem text_eq_some_iff {codec : Codec} {v : ScVal} {text : String}
    : codec.text v = some text ↔ codec.AcceptsText v text := by
  constructor
  · intro read
    cases v <;> simp only [Codec.text, reduceCtorEq, Option.some.injEq] at read
    · exact read ▸ .string _
    · exact read ▸ .symbol _
  · intro accepted
    cases accepted <;> rfl

theorem texts_eq_some_iff {codec : Codec} {items : List ScVal} {texts : List String}
    : items.mapM codec.text = some texts ↔ List.Forall₂ (AcceptsText codec) items texts := by
  induction items generalizing texts with
  | nil =>
      cases texts <;> simp
  | cons item items ih =>
      constructor
      · intro read
        simp only [List.mapM_cons, Option.bind_eq_bind, Option.bind_eq_some_iff, Option.pure_def,
          Option.some.injEq] at read
        obtain ⟨text, first, rest, others, rfl⟩ := read
        exact .cons (text_eq_some_iff.mp first) (ih.mp others)
      · intro accepted
        obtain ⟨⟩ := accepted
        next text rest first others =>
          simp [List.mapM_cons, text_eq_some_iff.mpr first, ih.mpr others]

theorem accepts_of_int64 {codec : Codec} {v : ScVal} {n : Int} (read : Indexer.int64 v = some n)
    : codec.Accepts .int64 v (.int n) := by
  cases v <;> simp only [Indexer.int64, reduceCtorEq, Option.some.injEq] at read
  · exact read ▸ .indexU32 _
  · split at read
    next signed => exact Option.some.inj read ▸ .indexU64 _ signed
    next => cases read
  · exact read ▸ .indexI64 _

theorem accepts_of_int128 {codec : Codec} {v : ScVal} {n : Int} (read : Indexer.int128 v = some n)
    : codec.Accepts .int128 v (.int n) := by
  cases v <;> simp only [Indexer.int128, reduceCtorEq, Option.some.injEq] at read
  · exact read ▸ .amountU32 _
  · exact read ▸ .amountU64 _
  · exact read ▸ .amountI64 _
  · rw [int128Parts_eq] at read
    exact read ▸ .amountI128 _ _

theorem eq_bytes_of_bytes {v : ScVal} {b : List UInt8} (read : Indexer.bytes v = some b)
    : v = .bytes b := by
  cases v <;> simp only [Indexer.bytes, reduceCtorEq, Option.some.injEq] at read
  rw [read]

/-- What a typed reader reads is what the table says, by the type of the field. -/
theorem accepts_of_read {codec : Codec} {type : FieldType} {v : ScVal} {value : FieldValue}
    (h : codec.read type v = some value)
    : codec.Accepts type v value := by
  cases type with
  | bytes32 =>
      obtain ⟨node, found, rfl⟩ := Option.map_eq_some_iff.mp h
      obtain ⟨b, isBytes, sized⟩ := Option.bind_eq_some_iff.mp found
      rw [eq_bytes_of_bytes isBytes, ← Node.bytes_of_ofBytes? sized]
      exact .bytes32 node
  | int64 =>
      obtain ⟨n, found, rfl⟩ := Option.map_eq_some_iff.mp h
      exact accepts_of_int64 found
  | int128 =>
      obtain ⟨n, found, rfl⟩ := Option.map_eq_some_iff.mp h
      exact accepts_of_int128 found
  | bytes =>
      obtain ⟨b, found, rfl⟩ := Option.map_eq_some_iff.mp h
      exact eq_bytes_of_bytes found ▸ .bytes b
  | text =>
      obtain ⟨text, found, rfl⟩ := Option.map_eq_some_iff.mp h
      exact .text v text (text_eq_some_iff.mp found)
  | textVec =>
      obtain ⟨texts, found, rfl⟩ := Option.map_eq_some_iff.mp h
      unfold Codec.textVec at found
      split at found
      next items => exact .textVec items texts (texts_eq_some_iff.mp found)
      next => cases found

theorem read_eq_some_iff {codec : Codec} {type : FieldType} {v : ScVal} {value : FieldValue}
    : codec.read type v = some value ↔ codec.Accepts type v value := by
  refine ⟨accepts_of_read, fun accepted => ?_⟩
  cases accepted with
  | bytes32 node => simp [read, Indexer.bytes32, Indexer.bytes]
  | indexU64 n signed => simp only [read, Indexer.int64, if_pos signed, Option.map_some]
  | amountI128 hi lo => simp [read, Indexer.int128, int128Parts_eq]
  | text v text each => simp [read, text_eq_some_iff.mpr each]
  | textVec items texts each => simp [read, Codec.textVec, texts_eq_some_iff.mpr each]
  | indexU32 | indexI64 | amountU64 | amountI64 | amountU32 | bytes => rfl

/-- What the reader of a field makes of the first entry under its name. -/
def readFirst (codec : Codec) (map : List (ScVal × ScVal)) (name : String)
    : FieldType → Option FieldValue
  | .bytes32 => ((codec.mapGet map name).bind Indexer.bytes32).map .node
  | .int64 => ((codec.mapGet map name).bind Indexer.int64).map .int
  | .int128 => ((codec.mapGet map name).bind Indexer.int128).map .int
  | .bytes => ((codec.mapGet map name).bind Indexer.bytes).map .bytes
  | .text => ((codec.mapGet map name).bind codec.text).map .text
  | .textVec => ((codec.mapGet map name).bind codec.textVec).map .texts

theorem firstSays_iff {codec : Codec} {map : List (ScVal × ScVal)} {rule : FieldRule}
    {value : FieldValue}
    : codec.FirstSays map rule value ↔ codec.readFirst map rule.name rule.type = some value := by
  have first : codec.readFirst map rule.name rule.type
      = (codec.mapGet map rule.name).bind (codec.read rule.type) := by
    cases rule.type <;> simp only [readFirst] <;> cases codec.mapGet map rule.name <;> rfl
  simp only [first, FirstSays, Option.bind_eq_some_iff, read_eq_some_iff]

-----------------------------------------------------------------------------------------
-- Decoding reads the first entries
-----------------------------------------------------------------------------------------

section Decoders

variable {codec : Codec} {raw : RawEvent} {map : List (ScVal × ScVal)}

/-- What decoding a payload map comes to: it succeeds exactly if the reader of each required
field reads the first entry under its name, and the event then holds what the readers have read.
-/
def ReadsFirst (codec : Codec) (kind : EventKind) (map : List (ScVal × ScVal))
    (decoded : Option PoolEvent)
    : Prop :=
  (decoded.isSome = true
      ↔ ∀ rule ∈ kind.rules, rule.required = true →
          (codec.readFirst map rule.name rule.type).isSome = true)
    ∧ ∀ event ∈ decoded, ∀ rule ∈ kind.rules,
        event.field rule.name = codec.readFirst map rule.name rule.type

theorem decodeNewCommitment_readsFirst (entries : codec.valueMap raw = some map)
    : codec.ReadsFirst .newCommitment map (codec.decodeNewCommitment raw) := by
  simp only [ReadsFirst, EventKind.rules, List.forall_mem_cons, readFirst, decodeNewCommitment,
    entries]
  cases codec.mapGet map "commitment" with
  | none => simp
  | some commitment =>
      cases codec.mapGet map "leaf_index" with
      | none => cases node : bytes32 commitment <;> simp [node]
      | some leafIndex =>
          cases node : bytes32 commitment <;> cases index : int64 leafIndex
            <;> simp [node, index, PoolEvent.field]

theorem decodeNullifier_readsFirst
    (payload : codec.fromXdrBase64 raw.value = some (.map (some map)))
    : codec.ReadsFirst .nullifier map (codec.decodeNullifier raw) := by
  simp only [ReadsFirst, EventKind.rules, List.forall_mem_cons, readFirst, decodeNullifier,
    payload]
  cases codec.mapGet map "nullifier" with
  | none => simp
  | some nullifier => cases node : bytes32 nullifier <;> simp [node, PoolEvent.field]

theorem decodeNote_readsFirst (entries : codec.valueMap raw = some map)
    : codec.ReadsFirst .note map (codec.decodeNote raw) := by
  simp only [ReadsFirst, EventKind.rules, List.forall_mem_cons, readFirst, decodeNote, entries]
  cases codec.mapGet map "commitment" with
  | none => simp
  | some commitment =>
      cases codec.mapGet map "ephemeral_pubkey" with
      | none => cases node : bytes32 commitment <;> simp [node]
      | some key =>
          cases codec.mapGet map "ciphertext" with
          | none => cases node : bytes32 commitment <;> cases read : bytes key <;> simp [node, read]
          | some ciphertext =>
              cases node : bytes32 commitment <;> cases read : bytes key
                <;> cases sealed : bytes ciphertext <;> simp [node, read, sealed, PoolEvent.field]

theorem decodeWithdrawal_readsFirst (entries : codec.valueMap raw = some map)
    : codec.ReadsFirst .withdrawal map (codec.decodeWithdrawal raw) := by
  simp only [ReadsFirst, EventKind.rules, List.forall_mem_cons, readFirst, decodeWithdrawal,
    entries]
  cases codec.mapGet map "amount" with
  | none => simp
  | some amount =>
      cases codec.mapGet map "asset" with
      | none => cases paid : int128 amount <;> simp [paid]
      | some asset =>
          cases paid : int128 amount <;> cases label : codec.text asset
            <;> simp [paid, label, PoolEvent.field]

/-- The decoder of issuer events as a chain of readings of first entries. -/
theorem decodeIssuer_eq (entries : codec.valueMap raw = some map)
    : codec.decodeIssuer raw
      = ((codec.mapGet map "issuer_id").bind codec.text).bind (fun issuerId =>
          ((codec.mapGet map "name").bind codec.text).bind (fun name =>
            ((codec.mapGet map "public_key").bind Indexer.bytes).bind (fun publicKey =>
              ((codec.mapGet map "claim_types").bind codec.textVec).bind (fun claimTypes =>
                ((codec.mapGet map "status").bind codec.text).bind (fun status =>
                  some (.issuerUpdated issuerId name publicKey claimTypes status)))))) := by
  simp only [decodeIssuer, entries, Option.bind_eq_bind, Option.bind_assoc]

theorem decodeIssuer_readsFirst (entries : codec.valueMap raw = some map)
    : codec.ReadsFirst .issuer map (codec.decodeIssuer raw) := by
  rw [decodeIssuer_eq entries]
  simp only [ReadsFirst, EventKind.rules, List.forall_mem_cons, readFirst]
  generalize (codec.mapGet map "issuer_id").bind codec.text = issuerId
  generalize (codec.mapGet map "name").bind codec.text = name
  generalize (codec.mapGet map "public_key").bind Indexer.bytes = publicKey
  generalize (codec.mapGet map "claim_types").bind codec.textVec = claimTypes
  generalize (codec.mapGet map "status").bind codec.text = status
  -- The first reader that fails decides; behind it nothing is looked at.
  rcases issuerId with _ | issuerId
  · simp
  rcases name with _ | name
  · simp
  rcases publicKey with _ | publicKey
  · simp
  rcases claimTypes with _ | claimTypes
  · simp
  rcases status with _ | status
  · simp
  · simp [PoolEvent.field]

/-- Decoding reads the first entry of each field, by the kind of the event. -/
theorem decode_readsFirst {kind : EventKind} (named : codec.eventName raw = some kind.name)
    (payload : codec.fromXdrBase64 raw.value = some (.map (some map)))
    : codec.ReadsFirst kind map (codec.decode raw) := by
  have entries : codec.valueMap raw = some map := by simp [valueMap, payload]
  simp only [decode, named, Option.bind_eq_bind, Option.bind_some]
  cases kind with
  | newCommitment => exact decodeNewCommitment_readsFirst entries
  | nullifier => exact decodeNullifier_readsFirst payload
  | note => exact decodeNote_readsFirst entries
  | withdrawal => exact decodeWithdrawal_readsFirst entries
  | issuer => exact decodeIssuer_readsFirst entries

end Decoders

-----------------------------------------------------------------------------------------
-- When decoded events are faithful
-----------------------------------------------------------------------------------------

/-- When a payload of a wrong shape is rejected. For every recognised event with a payload map,
what `decode` returns is faithful to the map exactly if no entry under the name of a field is
overlooked where the first entries of all required fields are accepted.
-/
theorem decode_faithful_iff {codec : Codec} {kind : EventKind} {raw : RawEvent}
    {map : List (ScVal × ScVal)} (named : codec.eventName raw = some kind.name)
    (payload : codec.fromXdrBase64 raw.value = some (.map (some map)))
    : (∀ event, codec.decode raw = some event → codec.Faithful kind map event)
      ↔ ((∀ rule ∈ kind.rules, rule.required = true → ∃ value, codec.FirstSays map rule value)
        → ∀ rule ∈ kind.rules, ¬ codec.Overlooked map rule) := by
  obtain ⟨succeeds, holds⟩ := decode_readsFirst named payload
  have required : (∀ rule ∈ kind.rules, rule.required = true →
        ∃ value, codec.FirstSays map rule value)
      ↔ (codec.decode raw).isSome = true := by
    simp only [succeeds, firstSays_iff, Option.isSome_iff_exists]
  rw [required]
  constructor
  · intro faithful decodes rule member overlooked
    obtain ⟨event, decoded⟩ := Option.isSome_iff_exists.mp decodes
    obtain ⟨entry, inside, names, missed⟩ := overlooked
    obtain ⟨value, held, accepted⟩ := (faithful event decoded rule member).1 entry inside names
    refine missed ⟨value, ?_, accepted⟩
    rw [firstSays_iff, ← holds event decoded rule member, held]
  · intro clean event decoded rule member
    have decodes : (codec.decode raw).isSome = true := Option.isSome_iff_exists.mpr ⟨event, decoded⟩
    have reads := holds event decoded rule member
    constructor
    · intro entry inside names
      by_contra missed
      refine clean decodes rule member ⟨entry, inside, names, ?_⟩
      rintro ⟨value, first, accepted⟩
      exact missed ⟨value, reads.trans (firstSays_iff.mp first), accepted⟩
    · intro absent
      have unread (value : FieldValue) : ¬ codec.FirstSays map rule value := by
        rintro ⟨v, found, _⟩
        rw [mapGet_of_otherKeys absent] at found
        cases found
      constructor
      · by_contra needed
        obtain ⟨value, first⟩ := required.mpr decodes rule member (by simpa using needed)
        exact unread value first
      · rw [reads, Option.eq_none_iff_forall_ne_some]
        intro value first
        exact unread value (firstSays_iff.mpr first)

/-- The codec as it behaves on the topic of a leaf, on one payload map, and on printable texts. -/
def leafXdr (payload : String) (map : List (ScVal × ScVal)) : Codec :=
  { sampleXdr with
    fromXdrBase64 := fun s =>
      if s = "AAAADwAAAA5uZXdfY29tbWl0bWVudAAA" then some (.symbol (utf8 "new_commitment"))
      else if s = payload then some (.map (some map))
      else none }

/-- A deposit of 100 USDC, under keys in the order of the ledger. -/
def depositMap : List (ScVal × ScVal) :=
  [(.symbol (utf8 "asset"), .symbol (utf8 "USDC")),
    (.symbol (utf8 "commitment"), .bytes (sampleLeaf 0).bytes),
    (.symbol (utf8 "deposit_amount"), .i128 0 100),
    (.symbol (utf8 "leaf_index"), .u32 0)]

def depositXdr : String :=
  "AAAAEQAAAAEAAAAEAAAADwAAAAVhc3NldAAAAAAAAA8AAAAEVVNEQwAAAA8AAAAKY29tbWl0bWVudAAAAAAADQAAACAB"
    ++ "AQEBAQEBAQEBAQEBAQEBAQEBAQEBAQEBAQEBAQEBAQAAAA8AAAAOZGVwb3NpdF9hbW91bnQAAAAAAAoAAAAAAAAA"
    ++ "AAAAAAAAAABkAAAADwAAAApsZWFmX2luZGV4AAAAAAADAAAAAA=="

theorem fromXdrBase64_leafXdr {payload : String} (map : List (ScVal × ScVal))
    (other : payload ≠ "AAAADwAAAA5uZXdfY29tbWl0bWVudAAA")
    : (leafXdr payload map).fromXdrBase64 payload = some (.map (some map)) := by
  simp only [leafXdr, if_neg other, if_true]

theorem decode_faithful_deposit
    : ∃ event,
        (leafXdr depositXdr depositMap).decode
            ⟨"evt-1", 42, "abc", ["AAAADwAAAA5uZXdfY29tbWl0bWVudAAA"], depositXdr⟩ = some event
        ∧ (event.field "deposit_amount", event.field "asset")
          = (some (.int 100), some (.text "USDC"))
        ∧ (leafXdr depositXdr depositMap).Faithful .newCommitment depositMap event := by
  have decoded
      : (leafXdr depositXdr depositMap).decode
            ⟨"evt-1", 42, "abc", ["AAAADwAAAA5uZXdfY29tbWl0bWVudAAA"], depositXdr⟩
        = some (.newCommitment (sampleLeaf 0) 0 (some 100) (some "USDC")) := by
    decide +kernel
  refine ⟨_, decoded, rfl, (decode_faithful_iff (by decide +kernel)
    (fromXdrBase64_leafXdr depositMap (by decide +kernel))).mpr ?_ _ decoded⟩
  have displays
      : ∀ name ∈ ["asset", "commitment", "deposit_amount", "leaf_index"],
          (leafXdr depositXdr depositMap).display (utf8 name) = name := by
    decide +kernel
  simp only [List.forall_mem_cons, List.not_mem_nil, false_implies, implies_true, and_true]
    at displays
  obtain ⟨asset, commitment, amount, index⟩ := displays
  rintro _ rule member ⟨entry, inside, ⟨sym, key, shown⟩, missed⟩
  have said (value : FieldValue)
      (first
        : (leafXdr depositXdr depositMap).readFirst depositMap rule.name rule.type = some value)
      (read : (leafXdr depositXdr depositMap).read rule.type entry.2 = some value)
      : False :=
    missed ⟨value, firstSays_iff.mpr first, read_eq_some_iff.mp read⟩
  simp only [EventKind.rules, List.mem_cons, List.not_mem_nil, or_false] at member
  simp only [depositMap, List.mem_cons, List.not_mem_nil, or_false] at inside
  -- Each key is the name of one field, whose reader takes the value beside it.
  rcases inside with rfl | rfl | rfl | rfl <;> obtain rfl := ScVal.symbol.inj key
  · rcases member with rfl | rfl | rfl | rfl <;> rw [asset] at shown
    on_goal 4 => exact said (.text "USDC") (by decide +kernel) (by decide +kernel)
    all_goals simp at shown
  · rcases member with rfl | rfl | rfl | rfl <;> rw [commitment] at shown
    on_goal 1 => exact said (.node (sampleLeaf 0)) (by decide +kernel) (by decide +kernel)
    all_goals simp at shown
  · rcases member with rfl | rfl | rfl | rfl <;> rw [amount] at shown
    on_goal 3 => exact said (.int 100) (by decide +kernel) (by decide +kernel)
    all_goals simp at shown
  · rcases member with rfl | rfl | rfl | rfl <;> rw [index] at shown
    on_goal 2 => exact said (.int 0) (by decide +kernel) (by decide +kernel)
    all_goals simp at shown

/-- A deposit of 100 USDC whose amount is a `U128`, under keys in the order of the ledger. -/
def unsignedDeposit : List (ScVal × ScVal) :=
  [(.symbol (utf8 "asset"), .symbol (utf8 "USDC")),
    (.symbol (utf8 "commitment"), .bytes (sampleLeaf 0).bytes),
    (.symbol (utf8 "deposit_amount"), .u128 0 100),
    (.symbol (utf8 "leaf_index"), .u32 0)]

def unsignedDepositXdr : String :=
  "AAAAEQAAAAEAAAAEAAAADwAAAAVhc3NldAAAAAAAAA8AAAAEVVNEQwAAAA8AAAAKY29tbWl0bWVudAAAAAAADQAAACAB"
    ++ "AQEBAQEBAQEBAQEBAQEBAQEBAQEBAQEBAQEBAQEBAQAAAA8AAAAOZGVwb3NpdF9hbW91bnQAAAAAAAkAAAAAAAAA"
    ++ "AAAAAAAAAABkAAAADwAAAApsZWFmX2luZGV4AAAAAAADAAAAAA=="

def unsignedDepositEvent : RawEvent :=
  ⟨"evt-1", 42, "abc", ["AAAADwAAAA5uZXdfY29tbWl0bWVudAAA"], unsignedDepositXdr⟩

/-- The deposit is not rejected: it is stored as a leaf without an amount. -/
theorem unsigned_deposit_stored_as_output
    : ∃ event,
        (leafXdr unsignedDepositXdr unsignedDeposit).decode unsignedDepositEvent = some event
        ∧ ¬ (leafXdr unsignedDepositXdr unsignedDeposit).Faithful .newCommitment unsignedDeposit
            event
        ∧ storeRaw (leafXdr unsignedDepositXdr unsignedDeposit) "CPOOL" unsignedDepositEvent
          = [.insertCommitment ⟨"CPOOL", 0, (sampleLeaf 0).bytes, 42, "abc"⟩] := by
  refine ⟨.newCommitment (sampleLeaf 0) 0 none (some "USDC"), by decide +kernel, ?_, ?_⟩
  · intro faithful
    obtain ⟨value, held, _⟩ := (faithful ⟨"deposit_amount", .int128, false⟩
      (by simp [EventKind.rules])).1 (.symbol (utf8 "deposit_amount"), .u128 0 100)
      (by simp [unsignedDeposit]) ⟨_, rfl, by decide +kernel⟩
    simp [PoolEvent.field] at held
  · decide +kernel

end Codec

end Attesta.Indexer
