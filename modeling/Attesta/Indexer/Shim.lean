import Attesta.Foundation.Base64
import Attesta.Indexer.EventLayout

/-! The JSON shim of the event decoder and the texts that can reach it. The encoding of an
`ScVal` begins with the four bytes of its discriminant, so its base64 text begins with an upper
case letter, which neither a plain event name nor JSON of a struct does.
-/

namespace Attesta.Indexer

/-- A word as XDR writes it. -/
def bigEndian (n : UInt32) : List UInt8 :=
  [(n >>> 24).toUInt8, (n >>> 16).toUInt8, (n >>> 8).toUInt8, n.toUInt8]

/-- The discriminants of the union. -/
def ScVal.discriminant : ScVal → UInt32
  | .bool _ => 0
  | .void => 1
  | .error _ => 2
  | .u32 _ => 3
  | .i32 _ => 4
  | .u64 _ => 5
  | .i64 _ => 6
  | .timepoint _ => 7
  | .duration _ => 8
  | .u128 _ _ => 9
  | .i128 _ _ => 10
  | .u256 _ => 11
  | .i256 _ => 12
  | .bytes _ => 13
  | .string _ => 14
  | .symbol _ => 15
  | .vec _ => 16
  | .map _ => 17
  | .address _ => 18
  | .contractInstance _ => 19
  | .ledgerKeyContractInstance => 20
  | .ledgerKeyNonce _ => 21

/-- `to_xdr` of the XDR library. -/
structure Encoder where
  toXdr : ScVal → List UInt8
  discriminant : ∀ v, bigEndian v.discriminant <+: toXdr v

/-- `to_xdr_base64`. -/
def Encoder.toXdrBase64 (encoder : Encoder) (v : ScVal) : String :=
  String.ofList (Base64.encode (encoder.toXdr v))

def isJsonSpace (c : Char) : Bool := c == ' ' || c == '\t' || c == '\n' || c == '\r'

/-- After whitespace, an object or an array opens. -/
def opensStruct (text : String) : Bool :=
  match text.toList.dropWhile isJsonSpace with
  | first :: _ => first == '\x7b' || first == '['
  | [] => false

namespace Codec

/-- `serde_json` parses a struct from nothing but an object or an array. -/
structure ParsesStructs (codec : Codec) : Prop where
  newCommitment : ∀ text v, codec.newCommitmentShim text = some v → opensStruct text = true
  nullifier : ∀ text v, codec.nullifierShim text = some v → opensStruct text = true
  note : ∀ text v, codec.noteShim text = some v → opensStruct text = true
  withdrawal : ∀ text v, codec.withdrawalShim text = some v → opensStruct text = true
  issuer : ∀ text v, codec.issuerShim text = some v → opensStruct text = true

variable (codec : Codec)

-----------------------------------------------------------------------------------------
-- The decoder with the shim removed
-----------------------------------------------------------------------------------------

/-- `decode_shim` gives way to `None`. -/
def withoutShim : Codec :=
  { codec with
    newCommitmentShim := fun _ => none
    nullifierShim := fun _ => none
    noteShim := fun _ => none
    withdrawalShim := fun _ => none
    issuerShim := fun _ => none }

/-- `event_name` with the branch for symbols only. -/
def symbolName (raw : RawEvent) : Option String := do
  let first ← raw.topic.head?
  match codec.fromXdrBase64 first with
  | some (.symbol sym) => some (codec.display sym)
  | _ => none

/-- `decode` with both fallbacks removed. -/
def decodeXdr (raw : RawEvent) : Option PoolEvent := do
  let name ← codec.symbolName raw
  if name = "new_commitment" then codec.withoutShim.decodeNewCommitment raw
  else if name = "nullifier" then codec.withoutShim.decodeNullifier raw
  else if name = "note" then codec.withoutShim.decodeNote raw
  else if name = "withdrawal" then codec.withoutShim.decodeWithdrawal raw
  else if name = "issuer" then codec.withoutShim.decodeIssuer raw
  else none

-----------------------------------------------------------------------------------------
-- Where the shim is out of reach
-----------------------------------------------------------------------------------------

variable {codec} {raw : RawEvent}

/-- No struct of the shim is parsed from the payload. -/
structure Unshimmed (codec : Codec) (value : String) : Prop where
  newCommitment : codec.newCommitmentShim value = none
  nullifier : codec.nullifierShim value = none
  note : codec.noteShim value = none
  withdrawal : codec.withdrawalShim value = none
  issuer : codec.issuerShim value = none

theorem ParsesStructs.unshimmed (parses : codec.ParsesStructs) {value : String}
    (closed : opensStruct value = false)
    : codec.Unshimmed value := by
  have refused {α : Type} {parse : String → Option α}
      (structs : ∀ text v, parse text = some v → opensStruct text = true)
      : parse value = none := by
    rw [Option.eq_none_iff_forall_ne_some]
    intro v parsed
    exact Bool.false_ne_true (closed.symm.trans (structs value v parsed))
  exact ⟨refused parses.newCommitment, refused parses.nullifier, refused parses.note,
    refused parses.withdrawal, refused parses.issuer⟩

theorem decodeNewCommitment_withoutShim (h : codec.Unshimmed raw.value)
    : codec.withoutShim.decodeNewCommitment raw = codec.decodeNewCommitment raw := by
  simp only [decodeNewCommitment, h.newCommitment]
  rfl

theorem decodeNullifier_withoutShim (h : codec.Unshimmed raw.value)
    : codec.withoutShim.decodeNullifier raw = codec.decodeNullifier raw := by
  simp only [decodeNullifier, h.nullifier]
  rfl

theorem decodeNote_withoutShim (h : codec.Unshimmed raw.value)
    : codec.withoutShim.decodeNote raw = codec.decodeNote raw := by
  simp only [decodeNote, h.note]
  rfl

theorem decodeWithdrawal_withoutShim (h : codec.Unshimmed raw.value)
    : codec.withoutShim.decodeWithdrawal raw = codec.decodeWithdrawal raw := by
  simp only [decodeWithdrawal, h.withdrawal]
  rfl

theorem decodeIssuer_withoutShim (h : codec.Unshimmed raw.value)
    : codec.withoutShim.decodeIssuer raw = codec.decodeIssuer raw := by
  simp only [decodeIssuer, h.issuer]
  rfl

/-- A topic with any other character is a name only as a symbol. -/
theorem eventName_of_foreign {first : String} {rest : List String}
    (topic : raw.topic = first :: rest)
    (foreign : ∃ c ∈ first.toList, c.isLower = false ∧ c ≠ '_')
    : codec.eventName raw = codec.symbolName raw := by
  cases parsed : codec.fromXdrBase64 first with
  | none => simpa [eventName, symbolName, topic, parsed] using foreign
  | some value =>
      cases value with
      | symbol sym => simp [eventName, symbolName, topic, parsed]
      | _ => simpa [eventName, symbolName, topic, parsed] using foreign

theorem decode_of_unshimmed (value : codec.Unshimmed raw.value)
    (name : codec.eventName raw = codec.symbolName raw)
    : codec.decode raw = codec.decodeXdr raw := by
  simp only [decode, decodeXdr, name, decodeNewCommitment_withoutShim value,
    decodeNullifier_withoutShim value, decodeNote_withoutShim value,
    decodeWithdrawal_withoutShim value, decodeIssuer_withoutShim value]

end Codec

theorem ScVal.discriminant_lt (v : ScVal) : v.discriminant.toNat < 22 := by
  cases v <;> simp [discriminant]

theorem bigEndian_of_small {n : UInt32} (small : n.toNat < 2 ^ 24)
    : ∃ rest, bigEndian n = 0 :: rest := by
  have zero : (n >>> 24).toUInt8 = 0 := by
    have top : (n >>> 24).toUInt8.toNat = n.toNat / 2 ^ 24 % 256 := by
      simp [UInt32.toNat_shiftRight, Nat.shiftRight_eq_div_pow]
    apply UInt8.toNat_inj.mp
    rw [top, Nat.div_eq_of_lt small]
    rfl
  exact ⟨_, by rw [bigEndian, zero]⟩

/-- The first byte of a discriminant is zero. -/
theorem Encoder.toXdrBase64_head (encoder : Encoder) (v : ScVal)
    : ∃ chars, (encoder.toXdrBase64 v).toList = 'A' :: chars := by
  obtain ⟨body, written⟩ := encoder.discriminant v
  have small : v.discriminant.toNat < 2 ^ 24 := Nat.lt_trans v.discriminant_lt (by decide)
  obtain ⟨word, zero⟩ := bigEndian_of_small small
  obtain ⟨chars, text⟩ := Base64.encode_cons 0 (word ++ body)
  refine ⟨chars, ?_⟩
  rw [toXdrBase64, String.toList_ofList, ← written, zero, List.cons_append]
  exact text

/-- On a raw event that carries XDR, whatever values it carries and whether or not these can be
decoded, `decode` does what it does with both fallbacks removed.
-/
theorem Codec.decode_eq_decodeXdr {codec : Codec} (parses : codec.ParsesStructs)
    (encoder : Encoder) {raw : RawEvent} {topic value : ScVal} {others : List String}
    (topics : raw.topic = encoder.toXdrBase64 topic :: others)
    (payload : raw.value = encoder.toXdrBase64 value)
    : codec.decode raw = codec.decodeXdr raw := by
  obtain ⟨nameChars, name⟩ := encoder.toXdrBase64_head topic
  obtain ⟨valueChars, text⟩ := encoder.toXdrBase64_head value
  have closed : opensStruct raw.value = false := by
    rw [payload, opensStruct, text]
    rfl
  refine Codec.decode_of_unshimmed (parses.unshimmed closed)
    (Codec.eventName_of_foreign topics ⟨'A', ?_, by decide, by decide⟩)
  rw [name]
  exact List.mem_cons_self

/-- The encoding as it is for byte strings, which are padded to whole words. -/
def bytesXdr : Encoder where
  toXdr v :=
    bigEndian v.discriminant ++
      match v with
      | .bytes b | .string b | .symbol b =>
          bigEndian b.length.toUInt32 ++ b ++ List.replicate ((4 - b.length % 4) % 4) 0
      | _ => []
  discriminant _ := List.prefix_append _ _

/-- A nullifier that is published without a map around it. -/
def bareNullifier : RawEvent :=
  ⟨"evt-1", 42, "abc", [bytesXdr.toXdrBase64 (.symbol (utf8 "nullifier"))],
    bytesXdr.toXdrBase64 (.bytes (sampleLeaf 0).bytes)⟩

/-- The codec as it behaves on the two values of that event and on one JSON payload. -/
def nullifierCodec : Codec :=
  { Codec.sampleXdr with
    fromXdrBase64 := fun s =>
      if s = "AAAADwAAAAludWxsaWZpZXIAAAA=" then some (.symbol (utf8 "nullifier"))
      else if s = "AAAADQAAACABAQEBAQEBAQEBAQEBAQEBAQEBAQEBAQEBAQEBAQEBAQ==" then
        some (.bytes (sampleLeaf 0).bytes)
      else none
    nullifierShim := fun text =>
      if text = "\x7b\"nullifier\":\"0x11\"\x7d" then some ⟨"0x11"⟩ else none }

theorem Codec.decode_eq_decodeXdr_bare
    : nullifierCodec.decode bareNullifier = some (.nullifierSpent (sampleLeaf 0))
      ∧ nullifierCodec.decodeXdr bareNullifier = some (.nullifierSpent (sampleLeaf 0)) := by
  have parses : nullifierCodec.ParsesStructs := by
    constructor
    case nullifier =>
      intro text v parsed
      obtain ⟨rfl, _⟩ := Option.ite_none_right_eq_some.mp parsed
      decide +kernel
    all_goals
      intro text v parsed
      cases parsed
  have same : nullifierCodec.decode bareNullifier = nullifierCodec.decodeXdr bareNullifier :=
    Codec.decode_eq_decodeXdr parses bytesXdr rfl rfl
  have decoded
      : nullifierCodec.decode bareNullifier = some (.nullifierSpent (sampleLeaf 0)) := by
    decide +kernel
  exact ⟨decoded, same ▸ decoded⟩

end Attesta.Indexer
