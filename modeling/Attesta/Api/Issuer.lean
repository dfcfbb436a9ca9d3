import Attesta.Api.Error
import Attesta.Api.Retention
import Attesta.Foundation.Feed

/-! The issuer gateway: the handlers of `routes/issuer.rs`, cut at their awaits, and the
mailbox they share as a machine. Any number of deliveries, claims and recipients are under
way at once, beside the retention sweeper and the indexer that mirrors the issuers.
-/

namespace Attesta.Api.Issuer

open Attesta.Api.Retention (Mailbox Kind asI32 cutoffAt Batch)

/-- The two crates and the part of the configuration the handlers rely on. -/
structure Env where
  base64Decode : String → Option (List UInt8)
  sha256 : List UInt8 → List UInt8
  issuerDeliveriesPerHour : UInt32
  retention : Retention.Config

-----------------------------------------------------------------------------------------
-- deliver_credential
-----------------------------------------------------------------------------------------

/-- `MAX_CIPHERTEXT_BYTES`. -/
def maxCiphertextBytes : Nat := 64 * 1024

structure DeliverCredentialRequest where
  issuerId : String
  recipientHint : String
  ciphertext : String
  issuerSignature : String
  claimTokenHash : Option String
  deriving DecidableEq

/-- The columns of a delivery that its request supplies. -/
structure Delivery where
  issuerId : String
  recipientHint : String
  ciphertext : List UInt8
  issuerSignature : List UInt8
  claimTokenHash : Option (List UInt8)
  deriving DecidableEq

variable (env : Env)

/-- Decode a base64 field or name it in the error. -/
def decodeField (field value : String) : Except ApiError (List UInt8) :=
  match env.base64Decode value with
  | some bytes => .ok bytes
  | none => .error (.badRequest (field ++ " must be base64"))

/-- The checks of `deliver_credential` on the optional hash. -/
def decodeClaimTokenHash : Option String → Except ApiError (Option (List UInt8))
  | none => .ok none
  | some value => do
      let hash ← decodeField env "claim_token_hash" value
      if hash.length ≠ 32 then .error (.badRequest "claim_token_hash must be 32 bytes")
      else .ok (some hash)

/-- The checks of `deliver_credential` before its first query. -/
def validateDelivery (req : DeliverCredentialRequest) : Except ApiError Delivery := do
  let ciphertext ← decodeField env "ciphertext" req.ciphertext
  if ciphertext.isEmpty ∨ maxCiphertextBytes < ciphertext.length then
    .error (.badRequest "ciphertext size out of bounds")
  else
    let signature ← decodeField env "issuer_signature" req.issuerSignature
    if req.recipientHint.isEmpty ∨ 128 < req.recipientHint.utf8ByteSize then
      .error (.badRequest "recipient_hint size out of bounds")
    else
      let hash ← decodeClaimTokenHash env req.claimTokenHash
      .ok ⟨req.issuerId, req.recipientHint, ciphertext, signature, hash⟩

/-- `SELECT ... FROM issuers WHERE issuer_id = $1 AND status = 'active'`. -/
def selectActiveIssuer (issuers : List IssuerRow) (issuerId : String) : Option IssuerRow :=
  issuers.find? (fun row => row.issuerId == issuerId && row.status == "active")

/-- What `deliver_credential` makes of the issuer it has read. -/
def checkIssuer (issuers : List IssuerRow) (issuerId : String) : Except ApiError Unit :=
  match selectActiveIssuer issuers issuerId with
  | some _ => .ok ()
  | none => .error (.badRequest "unknown or inactive issuer")

def hourMicros : Int := 3600000000

/-- The row is from the hour before `now`. -/
def recent (issuerId : String) (now : Int) (row : CredentialDeliveryRow) : Bool :=
  row.issuerId == issuerId && decide (now - hourMicros < row.createdAt)

/-- `SELECT count(*) ... WHERE issuer_id = $1 AND created_at > now() - interval '1 hour'`. -/
def delivered (mailbox : Mailbox) (issuerId : String) (now : Int) : Nat :=
  mailbox.rows.countP (recent issuerId now)

/-- What `deliver_credential` makes of the count. -/
def checkQuota (count : Nat) : Except ApiError Unit :=
  if env.issuerDeliveriesPerHour.toNat ≤ count then
    .error (.tooManyRequests "issuer hourly delivery quota exceeded")
  else .ok ()

def deliveryRow (seq : Int) (deliveryId : Nat) (createdAt : Int) (delivery : Delivery)
    : CredentialDeliveryRow where
  seq := seq
  deliveryId := deliveryId
  issuerId := delivery.issuerId
  recipientHint := delivery.recipientHint
  ciphertext := delivery.ciphertext
  issuerSignature := delivery.issuerSignature
  createdAt := createdAt
  claimedAt := none
  claimTokenHash := delivery.claimTokenHash

/-- The foreign key, the primary key and the unique index a new row has to respect. -/
def Admits (issuers : List IssuerRow) (mailbox : Mailbox) (row : CredentialDeliveryRow) : Prop :=
  row.issuerId ∈ issuers.map IssuerRow.issuerId
  ∧ row.deliveryId ∉ mailbox.rows.map CredentialDeliveryRow.deliveryId
  ∧ row.seq ∉ mailbox.rows.map CredentialDeliveryRow.seq

instance (issuers : List IssuerRow) (mailbox : Mailbox) (row : CredentialDeliveryRow)
    : Decidable (Admits issuers mailbox row) :=
  inferInstanceAs (Decidable (_ ∧ _))

/-- A committed `INSERT`. -/
def insertDelivery (mailbox : Mailbox) (row : CredentialDeliveryRow)
    (fresh : row.deliveryId ∉ mailbox.rows.map CredentialDeliveryRow.deliveryId)
    : Mailbox where
  rows := mailbox.rows ++ [row]
  unique := by
    rw [List.map_append, List.map_singleton]
    exact mailbox.unique.append (List.nodup_singleton _) (by simpa using fresh)

-----------------------------------------------------------------------------------------
-- claim_delivery
-----------------------------------------------------------------------------------------

/-- The path and the body of a claim. -/
structure ClaimRequest where
  deliveryId : Nat
  claimToken : String
  deriving DecidableEq

/-- The checks of `claim_delivery` before its first query, and the hash it presents. -/
def presentedHash (req : ClaimRequest) : Except ApiError (List UInt8) := do
  let token ← decodeField env "claim_token" req.claimToken
  if token.isEmpty ∨ 128 < token.length then
    .error (.badRequest "claim_token size out of bounds")
  else .ok (env.sha256 token)

/-- `SELECT claim_token_hash, claimed_at ... WHERE delivery_id = $1`. -/
def selectDelivery (mailbox : Mailbox) (deliveryId : Nat) : Option CredentialDeliveryRow :=
  mailbox.rows.find? (fun row => row.deliveryId == deliveryId)

/-- What `claim_delivery` makes of the row it has read. -/
def authorize (found : Option CredentialDeliveryRow) (presented : List UInt8)
    : Except ApiError Unit :=
  match found with
  | none => .error (.notFound "unknown delivery")
  | some row =>
      if row.claimedAt.isSome then .error (.conflict "delivery already claimed")
      else if row.claimTokenHash = some presented then .ok ()
      else .error (.forbidden "claim token does not match")

/-- The rows the guarded `UPDATE` of `claim_delivery` matches. -/
def claimable (deliveryId : Nat) (row : CredentialDeliveryRow) : Bool :=
  row.deliveryId == deliveryId && row.claimedAt.isNone

/-- `UPDATE ... SET claimed_at = now() WHERE delivery_id = $1 AND claimed_at IS NULL`. -/
def claimDelivery (mailbox : Mailbox) (deliveryId : Nat) (now : Int) : Mailbox where
  rows := mailbox.rows.map
    (fun row => if claimable deliveryId row then { row with claimedAt := some now } else row)
  unique := by
    have same : CredentialDeliveryRow.deliveryId
          ∘ (fun row =>
              if claimable deliveryId row then { row with claimedAt := some now } else row)
        = CredentialDeliveryRow.deliveryId := by
      funext row
      simp only [Function.comp_apply]
      split <;> rfl
    rw [List.map_map, same]
    exact mailbox.unique

/-- `rows_affected()` of the `UPDATE`. -/
def rowsAffected (mailbox : Mailbox) (deliveryId : Nat) : Nat :=
  mailbox.rows.countP (claimable deliveryId)

/-- What `claim_delivery` makes of the number of updated rows. -/
def claimResult (rowsAffected : Nat) : Except ApiError Unit :=
  if rowsAffected = 0 then .error (.conflict "delivery already claimed") else .ok ()

-----------------------------------------------------------------------------------------
-- list_deliveries
-----------------------------------------------------------------------------------------

/-- `DELIVERIES_PAGE_SIZE`. -/
def deliveriesPageSize : Nat := 200

/-- The columns a recipient gets to see. -/
structure ListedDelivery where
  seq : Int
  deliveryId : Nat
  issuerId : String
  recipientHint : String
  ciphertext : List UInt8
  issuerSignature : List UInt8
  createdAt : Int
  deriving DecidableEq

def listed (row : CredentialDeliveryRow) : ListedDelivery where
  seq := row.seq
  deliveryId := row.deliveryId
  issuerId := row.issuerId
  recipientHint := row.recipientHint
  ciphertext := row.ciphertext
  issuerSignature := row.issuerSignature
  createdAt := row.createdAt

structure DeliveriesPage where
  deliveries : List ListedDelivery
  nextCursor : Option Int
  deriving DecidableEq

/-- The rows a page selects from: `WHERE recipient_hint = $1 AND claimed_at IS NULL AND
seq > $2`.
-/
def waiting (recipientHint : String) (since : Int) (row : CredentialDeliveryRow) : Bool :=
  row.recipientHint == recipientHint && row.claimedAt.isNone && decide (since < row.seq)

/-- `SELECT ... ORDER BY seq`, without its limit. -/
def selectWaiting (mailbox : Mailbox) (recipientHint : String) (since : Int)
    : List CredentialDeliveryRow :=
  (mailbox.rows.filter (waiting recipientHint since)).insertionSort (fun a b => a.seq ≤ b.seq)

def listDeliveries (mailbox : Mailbox) (recipientHint : String) (sinceCursor : Option Int)
    : DeliveriesPage :=
  let deliveries := (selectWaiting mailbox recipientHint (sinceCursor.getD 0)).take
    deliveriesPageSize
  { deliveries := deliveries.map listed
    nextCursor :=
      if deliveries.length = deliveriesPageSize then
        deliveries.getLast?.map CredentialDeliveryRow.seq
      else none }

-----------------------------------------------------------------------------------------
-- What the statements do to the table
-----------------------------------------------------------------------------------------

variable {mailbox : Mailbox} {deliveryId : Nat} {row : CredentialDeliveryRow}

/-- The row an `UPDATE` leaves behind. -/
theorem mem_claimDelivery {now : Int}
    : row ∈ (claimDelivery mailbox deliveryId now).rows
      ↔ (row ∈ mailbox.rows ∧ claimable deliveryId row = false)
        ∨ ∃ old ∈ mailbox.rows, claimable deliveryId old = true
            ∧ row = { old with claimedAt := some now } := by
  simp only [claimDelivery, List.mem_map]
  constructor
  · intro h
    obtain ⟨old, member, rfl⟩ := h
    cases hit : claimable deliveryId old with
    | true => exact Or.inr ⟨old, member, hit, by simp⟩
    | false => exact Or.inl ⟨by simpa using member, by simpa using hit⟩
  · intro h
    rcases h with same | changed
    · exact ⟨row, same.1, by simp [same.2]⟩
    · obtain ⟨old, member, hit, rfl⟩ := changed
      exact ⟨old, member, by simp [hit]⟩

theorem mem_insertDelivery {new : CredentialDeliveryRow}
    (fresh : new.deliveryId ∉ mailbox.rows.map CredentialDeliveryRow.deliveryId)
    : row ∈ (insertDelivery mailbox new fresh).rows ↔ row ∈ mailbox.rows ∨ row = new := by
  simp [insertDelivery]

theorem mem_of_delete {chosen : List CredentialDeliveryRow}
    (h : row ∈ (mailbox.delete chosen).rows)
    : row ∈ mailbox.rows :=
  List.mem_of_mem_filter h

theorem claimable_iff
    : claimable deliveryId row = true ↔ row.deliveryId = deliveryId ∧ row.claimedAt = none := by
  simp [claimable]

theorem rowsAffected_ne_zero
    : rowsAffected mailbox deliveryId ≠ 0
      ↔ ∃ row ∈ mailbox.rows, row.deliveryId = deliveryId ∧ row.claimedAt = none := by
  simp only [rowsAffected, ← Nat.pos_iff_ne_zero, List.countP_pos_iff, claimable_iff]

/-- A claim is only let through with the hash stored in the row, as long as it is unclaimed. -/
theorem authorize_eq_ok {found : Option CredentialDeliveryRow} {presented : List UInt8}
    : authorize found presented = .ok ()
      ↔ ∃ row, found = some row ∧ row.claimedAt = none ∧ row.claimTokenHash = some presented := by
  cases found with
  | none => simp [authorize]
  | some row => cases claimed : row.claimedAt <;> simp [authorize, claimed]

theorem presentedHash_eq_ok {env : Env} {req : ClaimRequest} {presented : List UInt8}
    (h : presentedHash env req = .ok presented)
    : ∃ token, env.base64Decode req.claimToken = some token ∧ presented = env.sha256 token := by
  simp only [presentedHash, decodeField, bind, Except.bind] at h
  split at h
  · cases h
  next token decoded =>
    split at h
    · cases h
    · split at decoded
      next bytes found =>
        cases decoded
        exact ⟨token, found, (Except.ok.inj h).symm⟩
      · cases decoded

variable {hint : String} {since : Int} {sinceCursor : Option Int}

theorem waiting_iff
    : waiting hint since row = true
      ↔ row.recipientHint = hint ∧ row.claimedAt = none ∧ since < row.seq := by
  simp [waiting, and_assoc]

theorem mem_selectWaiting
    : row ∈ selectWaiting mailbox hint since
      ↔ row ∈ mailbox.rows ∧ waiting hint since row = true := by
  simp [selectWaiting, List.mem_insertionSort]

/-- Every delivery on a page is stored and waits past the cursor. -/
theorem exists_of_mem_listDeliveries {item : ListedDelivery}
    (h : item ∈ (listDeliveries mailbox hint sinceCursor).deliveries)
    : ∃ row ∈ mailbox.rows, waiting hint (sinceCursor.getD 0) row = true ∧ listed row = item := by
  obtain ⟨row, member, same⟩ := List.mem_map.mp h
  obtain ⟨stored, waits⟩ := mem_selectWaiting.mp (List.mem_of_mem_take member)
  exact ⟨row, stored, waits, same⟩

theorem increasing_selectWaiting (distinct : (mailbox.rows.map CredentialDeliveryRow.seq).Nodup)
    : Feed.Increasing CredentialDeliveryRow.seq (selectWaiting mailbox hint since) := by
  have sorted := List.pairwise_insertionSort (fun a b : CredentialDeliveryRow => a.seq ≤ b.seq)
    (mailbox.rows.filter (waiting hint since))
  have perm := List.perm_insertionSort (fun a b : CredentialDeliveryRow => a.seq ≤ b.seq)
    (mailbox.rows.filter (waiting hint since))
  have apart : ((selectWaiting mailbox hint since).map CredentialDeliveryRow.seq).Nodup :=
    (perm.map _).nodup_iff.mpr (distinct.sublist (List.filter_sublist.map _))
  refine sorted.imp₂ ?_ (List.pairwise_map.mp apart)
  exact fun _ _ le ne => lt_of_le_of_ne le ne

/-- A page lists its deliveries by strictly increasing sequence values. -/
theorem increasing_listDeliveries
    (distinct : (mailbox.rows.map CredentialDeliveryRow.seq).Nodup)
    : Feed.Increasing ListedDelivery.seq (listDeliveries mailbox hint sinceCursor).deliveries := by
  have sorted
      : Feed.Increasing CredentialDeliveryRow.seq
          (selectWaiting mailbox hint (sinceCursor.getD 0)) :=
    increasing_selectWaiting distinct
  exact List.pairwise_map.mpr (sorted.sublist (List.take_sublist _ _))

/-- A waiting delivery is on the page, or past all of a full page. -/
theorem listDeliveries_covers (distinct : (mailbox.rows.map CredentialDeliveryRow.seq).Nodup)
    (stored : row ∈ mailbox.rows) (waits : waiting hint (sinceCursor.getD 0) row = true)
    : listed row ∈ (listDeliveries mailbox hint sinceCursor).deliveries
      ∨ (∀ item ∈ (listDeliveries mailbox hint sinceCursor).deliveries, item.seq < row.seq)
        ∧ (listDeliveries mailbox hint sinceCursor).nextCursor ≠ none := by
  have sorted
      : Feed.Increasing CredentialDeliveryRow.seq
          (selectWaiting mailbox hint (sinceCursor.getD 0)) :=
    increasing_selectWaiting distinct
  have member := mem_selectWaiting.mpr ⟨stored, waits⟩
  rcases sorted.mem_take_or_lt deliveriesPageSize member with here | later
  · exact Or.inl (List.mem_map_of_mem here)
  · by_cases here : row ∈ (selectWaiting mailbox hint (sinceCursor.getD 0)).take deliveriesPageSize
    · exact Or.inl (List.mem_map_of_mem here)
    · refine Or.inr ⟨?_, ?_⟩
      · intro item listedThere
        obtain ⟨other, first, rfl⟩ := List.mem_map.mp listedThere
        exact later other first
      · have full : deliveriesPageSize
            < (selectWaiting mailbox hint (sinceCursor.getD 0)).length := by
          by_contra short
          rw [List.take_of_length_le (Nat.not_lt.mp short)] at here
          exact here member
        simp only [listDeliveries, List.length_take_of_le full.le, if_true, ne_eq,
          Option.map_eq_none_iff, List.getLast?_eq_none_iff]
        intro empty
        have length := congrArg List.length empty
        rw [List.length_take_of_le full.le] at length
        cases length

end Attesta.Api.Issuer
