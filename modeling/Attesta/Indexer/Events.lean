import Attesta.Core.Hex

/-! Decoding of contract events. The XDR and JSON libraries are a parameter (`Codec`); the
field tables, the typed readers and both fallbacks to the JSON shim are the source's.
-/

namespace Attesta.Indexer

open Attesta.Merkle

/-- One contract event as returned by `getEvents`, still in base64 XDR. -/
structure RawEvent where
  id : String
  ledger : UInt64
  txHash : String
  topic : List String
  value : String
  deriving DecidableEq

/-- The XDR union `ScVal`. Payloads the decoder never looks into stay raw XDR. -/
inductive ScVal
  | bool (b : Bool)
  | void
  | error (xdr : List UInt8)
  | u32 (n : UInt32)
  | i32 (n : Int32)
  | u64 (n : UInt64)
  | i64 (n : Int64)
  | timepoint (n : UInt64)
  | duration (n : UInt64)
  | u128 (hi lo : UInt64)
  | i128 (hi : Int64) (lo : UInt64)
  | u256 (xdr : List UInt8)
  | i256 (xdr : List UInt8)
  | bytes (bytes : List UInt8)
  | string (bytes : List UInt8)
  | symbol (bytes : List UInt8)
  | vec (items : Option (List ScVal))
  | map (entries : Option (List (ScVal × ScVal)))
  | address (xdr : List UInt8)
  | contractInstance (xdr : List UInt8)
  | ledgerKeyContractInstance
  | ledgerKeyNonce (nonce : Int64)

/-- The events of the pool and registry contracts. -/
inductive PoolEvent
  /-- A commitment appended to the pool's tree; deposits carry a public amount. -/
  | newCommitment (commitment : Node) (leafIndex : Int) (depositAmount : Option Int)
      (asset : Option String)
  /-- A nullifier revealed by a transfer or withdrawal. -/
  | nullifierSpent (nullifier : Node)
  /-- A note blob for the recipient to trial-decrypt. -/
  | encryptedNote (commitment : Node) (ephemeralPubkey ciphertext : List UInt8)
  /-- A public amount leaving the pool. -/
  | withdrawal (amount : Int) (asset : String)
  /-- An issuer registry change. -/
  | issuerUpdated (issuerId name : String) (publicKey : List UInt8)
      (claimTypes : List String) (status : String)
  deriving DecidableEq

structure NewCommitmentShim where
  commitment : String
  leafIndex : Int
  depositAmount : Option String
  asset : Option String

structure NullifierShim where
  nullifier : String

structure NoteShim where
  commitment : String
  ephemeralPubkey : String
  ciphertext : String

structure WithdrawalShim where
  amount : String
  asset : String

structure IssuerShim where
  issuerId : String
  name : String
  publicKey : String
  claimTypes : List String
  status : String

/-- The libraries the decoder calls: `ScVal::from_xdr_base64`, the `Display` of XDR strings,
and `serde_json::from_str` at each of the five shim types.
-/
structure Codec where
  fromXdrBase64 : String → Option ScVal
  display : List UInt8 → String
  newCommitmentShim : String → Option NewCommitmentShim
  nullifierShim : String → Option NullifierShim
  noteShim : String → Option NoteShim
  withdrawalShim : String → Option WithdrawalShim
  issuerShim : String → Option IssuerShim

namespace Codec

variable (codec : Codec)

/-- `value_map`: the payload if it is an XDR map. -/
def valueMap (raw : RawEvent) : Option (List (ScVal × ScVal)) :=
  match codec.fromXdrBase64 raw.value with
  | some (.map (some entries)) => some entries
  | _ => none

/-- `map_get`: the value of the first entry whose key is the given symbol. -/
def mapGet (map : List (ScVal × ScVal)) (key : String) : Option ScVal :=
  map.findSome? (fun entry =>
    match entry.1 with
    | .symbol sym => if codec.display sym = key then some entry.2 else none
    | _ => none)

def text : ScVal → Option String
  | .string s => some (codec.display s)
  | .symbol s => some (codec.display s)
  | _ => none

def textVec : ScVal → Option (List String)
  | .vec (some items) => items.mapM codec.text
  | _ => none

end Codec

def bytes : ScVal → Option (List UInt8)
  | .bytes b => some b
  | _ => none

def bytes32 (v : ScVal) : Option Node := (bytes v).bind Node.ofBytes?

/-- `int64`: a `U64` past the signed range is refused. -/
def int64 : ScVal → Option Int
  | .u32 n => some n.toNat
  | .u64 n => if n.toNat < 2 ^ 63 then some n.toNat else none
  | .i64 n => some n.toInt
  | _ => none

/-- `(i128::from(hi) << 64) | i128::from(lo)`. -/
def int128Parts (hi : Int64) (lo : UInt64) : Int :=
  ((hi.toBitVec.signExtend 128 <<< 64) ||| lo.toBitVec.setWidth 128).toInt

def int128 : ScVal → Option Int
  | .i128 hi lo => some (int128Parts hi lo)
  | .u64 n => some n.toNat
  | .i64 n => some n.toInt
  | .u32 n => some n.toNat
  | _ => none

/-- `hex32` of the shim. -/
def hex32 (s : String) : Option Node := (Hex.hexBytes s).bind Node.ofBytes?

/-- The value of a run of decimal digits, or none if it is empty or holds anything else. -/
def parseDigits (chars : List Char) : Option Nat :=
  if chars ≠ [] ∧ chars.all Char.isDigit then
    some (chars.foldl (fun n c => 10 * n + (c.toNat - 48)) 0)
  else none

/-- `str::parse::<i128>`: an optional sign, decimal digits, and the range of the type. -/
def parseI128 (s : String) : Option Int :=
  let value : Option Int :=
    match s.toList with
    | '-' :: digits => (parseDigits digits).map (fun n => -(n : Int))
    | '+' :: digits => (parseDigits digits).map Int.ofNat
    | digits => (parseDigits digits).map Int.ofNat
  value.filter (fun n => decide (-2 ^ 127 ≤ n ∧ n < 2 ^ 127))

-----------------------------------------------------------------------------------------
-- Decoders
-----------------------------------------------------------------------------------------

namespace Codec

variable (codec : Codec)

/-- `event_name`: the first topic as a symbol, else as plain shim text. -/
def eventName (raw : RawEvent) : Option String := do
  let first ← raw.topic.head?
  match codec.fromXdrBase64 first with
  | some (.symbol sym) => some (codec.display sym)
  | _ =>
      if first.toList.all (fun c => c.isLower || c == '_') then some first
      else none

def decodeNewCommitment (raw : RawEvent) : Option PoolEvent :=
  match codec.valueMap raw with
  | some map => do
      let commitment ← (← codec.mapGet map "commitment") |> bytes32
      let leafIndex ← (← codec.mapGet map "leaf_index") |> int64
      some (.newCommitment commitment leafIndex
        ((codec.mapGet map "deposit_amount").bind int128)
        ((codec.mapGet map "asset").bind codec.text))
  | none => do
      let v ← codec.newCommitmentShim raw.value
      let commitment ← hex32 v.commitment
      some (.newCommitment commitment v.leafIndex (v.depositAmount.bind parseI128) v.asset)

def decodeNullifier (raw : RawEvent) : Option PoolEvent :=
  match codec.fromXdrBase64 raw.value with
  -- A contract may publish the single field without a map around it.
  | some (.bytes b) => (Node.ofBytes? b).map .nullifierSpent
  | some (.map (some map)) => do
      let nullifier ← (← codec.mapGet map "nullifier") |> bytes32
      some (.nullifierSpent nullifier)
  | _ => do
      let v ← codec.nullifierShim raw.value
      let nullifier ← hex32 v.nullifier
      some (.nullifierSpent nullifier)

def decodeNote (raw : RawEvent) : Option PoolEvent :=
  match codec.valueMap raw with
  | some map => do
      let commitment ← (← codec.mapGet map "commitment") |> bytes32
      let ephemeralPubkey ← (← codec.mapGet map "ephemeral_pubkey") |> bytes
      let ciphertext ← (← codec.mapGet map "ciphertext") |> bytes
      some (.encryptedNote commitment ephemeralPubkey ciphertext)
  | none => do
      let v ← codec.noteShim raw.value
      let commitment ← hex32 v.commitment
      let ephemeralPubkey ← Hex.hexBytes v.ephemeralPubkey
      let ciphertext ← Hex.hexBytes v.ciphertext
      some (.encryptedNote commitment ephemeralPubkey ciphertext)

def decodeWithdrawal (raw : RawEvent) : Option PoolEvent :=
  match codec.valueMap raw with
  | some map => do
      let amount ← (← codec.mapGet map "amount") |> int128
      let asset ← (← codec.mapGet map "asset") |> codec.text
      some (.withdrawal amount asset)
  | none => do
      let v ← codec.withdrawalShim raw.value
      let amount ← parseI128 v.amount
      some (.withdrawal amount v.asset)

def decodeIssuer (raw : RawEvent) : Option PoolEvent :=
  match codec.valueMap raw with
  | some map => do
      let issuerId ← (← codec.mapGet map "issuer_id") |> codec.text
      let name ← (← codec.mapGet map "name") |> codec.text
      let publicKey ← (← codec.mapGet map "public_key") |> bytes
      let claimTypes ← (← codec.mapGet map "claim_types") |> codec.textVec
      let status ← (← codec.mapGet map "status") |> codec.text
      some (.issuerUpdated issuerId name publicKey claimTypes status)
  | none => do
      let v ← codec.issuerShim raw.value
      let publicKey ← Hex.hexBytes v.publicKey
      some (.issuerUpdated v.issuerId v.name publicKey v.claimTypes v.status)

/-- `decode`: dispatch on the event name; unknown names and wrong shapes are skipped. -/
def decode (raw : RawEvent) : Option PoolEvent := do
  let name ← codec.eventName raw
  if name = "new_commitment" then codec.decodeNewCommitment raw
  else if name = "nullifier" then codec.decodeNullifier raw
  else if name = "note" then codec.decodeNote raw
  else if name = "withdrawal" then codec.decodeWithdrawal raw
  else if name = "issuer" then codec.decodeIssuer raw
  else none

/-- The codec as it behaves on plain-text events: no topic or payload is XDR, and the JSON
parser accepts the listed payloads.
-/
def plainText (newCommitments : List (String × NewCommitmentShim))
    (notes : List (String × NoteShim))
    : Codec where
  fromXdrBase64 _ := none
  display _ := ""
  newCommitmentShim value := newCommitments.lookup value
  nullifierShim _ := none
  noteShim value := notes.lookup value
  withdrawalShim _ := none
  issuerShim _ := none

end Codec

def sampleLeaf (i : Nat) : Node := ⟨List.replicate 32 (UInt8.ofNat (i + 1)), by simp⟩

/-- The payload of a deposit of 100 USDC that becomes leaf `i`. -/
def sampleDeposit (i : Nat) : String :=
  "\x7b\"commitment\":\"" ++ Hex.hex0x (sampleLeaf i) ++ "\",\"leaf_index\":" ++ toString i
    ++ ",\"deposit_amount\":\"100\",\"asset\":\"USDC\"\x7d"

/-- The payload of a note for leaf `i`. -/
def sampleNote (i : Nat) : String :=
  "\x7b\"commitment\":\"" ++ Hex.hex0x (sampleLeaf i)
    ++ "\",\"ephemeral_pubkey\":\"0x02\",\"ciphertext\":\"0x03\"\x7d"

/-- The codec as it behaves on the sample payloads below `n`. -/
def sampleCodec (n : Nat) : Codec :=
  .plainText
    ((List.range n).map (fun i =>
      (sampleDeposit i, ⟨Hex.hex0x (sampleLeaf i), i, some "100", some "USDC"⟩)))
    ((List.range n).map (fun i =>
      (sampleNote i, ⟨Hex.hex0x (sampleLeaf i), "0x02", "0x03"⟩)))

def sampleEvent (name payload : String) (ledger : UInt64) : RawEvent :=
  ⟨"evt-" ++ toString ledger ++ name, ledger, "abc", [name], payload⟩

end Attesta.Indexer
