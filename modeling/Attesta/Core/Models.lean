import Attesta.Foundation.KeyedRows

/-! The tables shared by the indexer and the API, after `models.rs` and the migrations.
`BIGINT` and `NUMERIC` columns are integers, `BYTEA` columns byte lists and timestamps
microseconds. Columns that no query reads are left out.
-/

namespace Attesta

/-- `indexer_cursors`, keyed by contract. -/
structure CursorRow where
  contractId : String
  lastLedger : Int
  lastCursor : Option String
  deriving DecidableEq

/-- `commitments`: a tree leaf mirrored from chain events. -/
structure CommitmentRow where
  pool : String
  leafIndex : Int
  commitment : List UInt8
  ledger : Int
  txHash : String
  deriving DecidableEq

/-- `nullifiers`: a spent-note nullifier mirrored from chain events. -/
structure NullifierRow where
  pool : String
  nullifier : List UInt8
  ledger : Int
  txHash : String
  deriving DecidableEq

/-- `encrypted_notes`: a ciphertext blob; `id` doubles as the pagination cursor. -/
structure EncryptedNoteRow where
  id : Int
  pool : String
  commitment : List UInt8
  ephemeralPubkey : List UInt8
  ciphertext : List UInt8
  ledger : Int
  txHash : String
  deriving DecidableEq

/-- `issuers`: mirror of the on-chain issuer registry. -/
structure IssuerRow where
  issuerId : String
  name : String
  publicKey : List UInt8
  claimTypes : List String
  status : String
  registeredLedger : Int
  deriving DecidableEq

/-- `pool_totals`, keyed by pool alone. -/
structure PoolTotalRow where
  pool : String
  asset : String
  totalIn : Int
  totalOut : Int
  deriving DecidableEq

/-- `tree_roots`: the root after one append, unique for each pool and leaf count. -/
structure TreeRootRow where
  pool : String
  leafCount : Int
  root : List UInt8
  ledger : Int
  deriving DecidableEq

/-- `credential_deliveries`: an encrypted credential waiting for its recipient. -/
structure CredentialDeliveryRow where
  seq : Int
  deliveryId : Nat
  issuerId : String
  recipientHint : String
  ciphertext : List UInt8
  issuerSignature : List UInt8
  createdAt : Int
  claimedAt : Option Int
  claimTokenHash : Option (List UInt8)
  deriving DecidableEq

/-- One database. `lastNoteId` is the last value drawn from the id sequence of
`encrypted_notes`.
-/
structure Db where
  indexerCursors : List CursorRow
  commitments : List CommitmentRow
  nullifiers : List NullifierRow
  encryptedNotes : List EncryptedNoteRow
  lastNoteId : Int
  issuers : List IssuerRow
  poolTotals : List PoolTotalRow
  treeRoots : List TreeRootRow
  credentialDeliveries : List CredentialDeliveryRow

/-- The database right after the migrations. -/
def Db.empty : Db where
  indexerCursors := []
  commitments := []
  nullifiers := []
  encryptedNotes := []
  lastNoteId := 0
  issuers := []
  poolTotals := []
  treeRoots := []
  credentialDeliveries := []

/-- The two unique keys of `commitments`. -/
def CommitmentRow.conflict (a b : CommitmentRow) : Bool :=
  a.pool == b.pool && (a.leafIndex == b.leafIndex || a.commitment == b.commitment)

/-- The unique key of `nullifiers`. -/
def NullifierRow.conflict (a b : NullifierRow) : Bool :=
  a.pool == b.pool && a.nullifier == b.nullifier

/-- The unique key of `tree_roots`. -/
def TreeRootRow.conflict (a b : TreeRootRow) : Bool :=
  a.pool == b.pool && a.leafCount == b.leafCount

end Attesta
