import Attesta.Api.Issuer
import Attesta.Foundation.Machine

/-! The credential mailbox as a machine. Requests of all kinds are numbered and take their
steps in any order; a statement either executes or fails without effect, and `LostReplies` adds
those that are executed without a reply. An `INSERT` draws its sequence value and its timestamp
in one step and becomes visible in a later one.
-/

namespace Attesta.Api.MailboxService

open Issuer
open Attesta.Api.Retention (Mailbox Kind asI32 cutoffAt Batch)

/-- Where a `deliver_credential` request is. -/
inductive DeliverPhase
  | checkingIssuer (delivery : Delivery)
  | counting (delivery : Delivery)
  | inserting (delivery : Delivery)
  /-- The `INSERT` has been executed and is not visible yet. -/
  | committing (row : CredentialDeliveryRow)
  | answered (result : Except ApiError Nat)
  deriving DecidableEq

/-- Where a `claim_delivery` request is; `.ok` stands for a 204. -/
inductive ClaimPhase
  | selecting (presented : List UInt8)
  | updating (presented : List UInt8)
  | answered (result : Except ApiError Unit)
  deriving DecidableEq

structure Claim where
  request : ClaimRequest
  phase : ClaimPhase
  deriving DecidableEq

/-- A client that pages through the mailbox of one hint. -/
structure Recipient where
  recipientHint : String
  /-- Everything it has received so far, from the first page on. -/
  received : List ListedDelivery
  /-- Its last page had no `next_cursor`. -/
  complete : Bool

/-- The highest sequence value received, which the client passes as `since_cursor`. -/
def Recipient.cursor (recipient : Recipient) : Option Int :=
  (recipient.received.map ListedDelivery.seq).max?

structure State where
  mailbox : Mailbox
  /-- The last value drawn from the sequence of `credential_deliveries.seq`. -/
  lastSeq : Int
  issuers : List IssuerRow
  now : Int
  deliveries : Nat → Option DeliverPhase
  claims : Nat → Option Claim
  recipients : Nat → Recipient
  /-- Every `delivery_id` generated so far; nothing reads it. -/
  drawn : List Nat
  /-- Every row as it was when its insert became visible; nothing reads it. -/
  accepted : List CredentialDeliveryRow
  /-- Every row the sweeper has deleted; nothing reads it. -/
  swept : List CredentialDeliveryRow

inductive Action
  /-- A delivery arrives and is validated. -/
  | deliver (i : Nat) (req : DeliverCredentialRequest)
  /-- The query for the active issuer. -/
  | checkIssuer (i : Nat) (ok : Bool)
  /-- The query for the quota. -/
  | count (i : Nat) (ok : Bool)
  /-- `Uuid::new_v4` and the `INSERT`, up to its commit. -/
  | insert (i deliveryId : Nat)
  /-- The insert becomes visible, or else it is undone. -/
  | commit (i : Nat) (ok : Bool)
  /-- A claim arrives and is validated. -/
  | claim (i : Nat) (req : ClaimRequest)
  /-- The `SELECT` of a claim. -/
  | select (i : Nat) (ok : Bool)
  /-- The guarded `UPDATE` of a claim. -/
  | update (i : Nat) (ok : Bool)
  /-- A recipient fetches its next page. -/
  | page (i : Nat)
  /-- One `DELETE` of the retention sweeper. -/
  | sweep (kind : Kind) (chosen : List CredentialDeliveryRow)
  /-- The indexer writes to the issuer mirror. -/
  | mirror (issuers : List IssuerRow)
  | tick (now : Int)

/-- An empty mailbox and no requests; each recipient knows its hint. -/
def State.init (hints : Nat → String) (now : Int) : State where
  mailbox := ⟨[], List.nodup_nil⟩
  lastSeq := 0
  issuers := []
  now := now
  deliveries _ := none
  claims _ := none
  recipients i := ⟨hints i, [], false⟩
  drawn := []
  accepted := []
  swept := []

def State.setDelivery (s : State) (i : Nat) (phase : DeliverPhase) : State :=
  { s with deliveries := fun j => if j = i then some phase else s.deliveries j }

def State.setClaim (s : State) (i : Nat) (claim : Claim) : State :=
  { s with claims := fun j => if j = i then some claim else s.claims j }

/-- The page a recipient gets if it asks now. -/
def State.nextPage (s : State) (i : Nat) : DeliveriesPage :=
  listDeliveries s.mailbox (s.recipients i).recipientHint (s.recipients i).cursor

def State.receive (s : State) (i : Nat) : State :=
  { s with
    recipients := fun j =>
      if j = i then
        { s.recipients i with
          received := (s.recipients i).received ++ (s.nextPage i).deliveries
          complete := (s.nextPage i).nextCursor.isNone }
      else s.recipients j }

/-- An `INSERT` has drawn a sequence value and a delivery id. -/
def State.draw (s : State) (deliveryId : Nat) : State :=
  { s with lastSeq := s.lastSeq + 1, drawn := s.drawn ++ [deliveryId] }

/-- An `INSERT` has become visible. -/
def State.accept (s : State) (row : CredentialDeliveryRow)
    (fresh : row.deliveryId ∉ s.mailbox.rows.map CredentialDeliveryRow.deliveryId)
    : State :=
  { s with
    mailbox := insertDelivery s.mailbox row fresh
    accepted := s.accepted ++ [row] }

/-- The `UPDATE` of a claim has been executed. -/
def State.markClaimed (s : State) (deliveryId : Nat) : State :=
  { s with mailbox := claimDelivery s.mailbox deliveryId s.now }

/-- A `DELETE` of the sweeper has been executed. -/
def State.discard (s : State) (chosen : List CredentialDeliveryRow) : State :=
  { s with mailbox := s.mailbox.delete chosen, swept := s.swept ++ chosen }

variable (env : Env)

/-- The code of `deliver_credential` after a query: go on, or answer with the error. -/
def proceed (next : DeliverPhase) : Except ApiError Unit → DeliverPhase
  | .ok () => next
  | .error e => .answered (.error e)

/-- One step; an action that is not enabled has no successor. -/
def step (s : State) : Action → Option State
  | .deliver i req =>
      match s.deliveries i with
      | none =>
          some (s.setDelivery i
            (match validateDelivery env req with
            | .ok delivery => .checkingIssuer delivery
            | .error e => .answered (.error e)))
      | some _ => none
  | .checkIssuer i ok =>
      match s.deliveries i with
      | some (.checkingIssuer delivery) =>
          -- A quota of zero is no quota.
          let next : DeliverPhase :=
            if env.issuerDeliveriesPerHour = 0 then .inserting delivery else .counting delivery
          some (s.setDelivery i (proceed next
            (if ok then checkIssuer s.issuers delivery.issuerId else .error .internal)))
      | _ => none
  | .count i ok =>
      match s.deliveries i with
      | some (.counting delivery) =>
          some (s.setDelivery i (proceed (.inserting delivery)
            (if ok then checkQuota env (delivered s.mailbox delivery.issuerId s.now)
            else .error .internal)))
      | _ => none
  | .insert i deliveryId =>
      match s.deliveries i with
      | some (.inserting delivery) =>
          let seq := s.lastSeq + 1
          some (if seq < 2 ^ 63 then
              (s.draw deliveryId).setDelivery i
                (.committing (deliveryRow seq deliveryId s.now delivery))
            else s.setDelivery i (.answered (.error .internal)))
      | _ => none
  | .commit i ok =>
      match s.deliveries i with
      | some (.committing row) =>
          some (if h : ok = true ∧ Admits s.issuers s.mailbox row then
              (s.accept row h.2.2.1).setDelivery i (.answered (.ok row.deliveryId))
            else s.setDelivery i (.answered (.error .internal)))
      | _ => none
  | .claim i req =>
      match s.claims i with
      | none =>
          some (s.setClaim i ⟨req,
            match presentedHash env req with
            | .ok presented => .selecting presented
            | .error e => .answered (.error e)⟩)
      | some _ => none
  | .select i ok =>
      match s.claims i with
      | some ⟨req, .selecting presented⟩ =>
          some (s.setClaim i ⟨req,
            match (if ok then authorize (selectDelivery s.mailbox req.deliveryId) presented
              else .error .internal) with
            | .ok () => .updating presented
            | .error e => .answered (.error e)⟩)
      | _ => none
  | .update i ok =>
      match s.claims i with
      | some ⟨req, .updating _⟩ =>
          some (if ok then
              (s.markClaimed req.deliveryId).setClaim i
                ⟨req, .answered (claimResult (rowsAffected s.mailbox req.deliveryId))⟩
            else s.setClaim i ⟨req, .answered (.error .internal)⟩)
      | _ => none
  | .page i => some (s.receive i)
  | .sweep kind chosen =>
      if env.retention.days kind = 0 then none
      else
        match cutoffAt s.now (asI32 (env.retention.days kind)) with
        | some cutoff =>
            if Batch (s.mailbox.matching cutoff kind) chosen then
              some (s.discard chosen)
            else none
        | none => none
  | .mirror issuers => some { s with issuers }
  | .tick now => if s.now ≤ now then some { s with now } else none

-----------------------------------------------------------------------------------------
-- Every way a step can go
-----------------------------------------------------------------------------------------

/-- The steps of the machine as a relation, with everything a step knows about its start. -/
inductive Effect (s : State) : Action → State → Prop
  | delivering {action : Action} {i : Nat} {phase : DeliverPhase}
    (other : ∀ row, phase ≠ .committing row)
    (counted
      : ∀ delivery, phase = .inserting delivery
          → env.issuerDeliveriesPerHour = 0
            ∨ checkQuota env (delivered s.mailbox delivery.issuerId s.now) = .ok ())
    : Effect s action (s.setDelivery i phase)
  | inserted {i deliveryId : Nat} {delivery : Delivery}
    (phase : s.deliveries i = some (.inserting delivery))
    : Effect s (.insert i deliveryId)
        ((s.draw deliveryId).setDelivery i
          (.committing (deliveryRow (s.lastSeq + 1) deliveryId s.now delivery)))
  | committed {i : Nat} {row : CredentialDeliveryRow}
    (phase : s.deliveries i = some (.committing row)) (admits : Admits s.issuers s.mailbox row)
    : Effect s (.commit i true)
        ((s.accept row admits.2.1).setDelivery i (.answered (.ok row.deliveryId)))
  | claimStarted {i : Nat} {req : ClaimRequest} {presented : List UInt8} (new : s.claims i = none)
    (hash : presentedHash env req = .ok presented)
    : Effect s (.claim i req) (s.setClaim i ⟨req, .selecting presented⟩)
  | claimAuthorized {i : Nat} {req : ClaimRequest} {presented : List UInt8}
    (phase : s.claims i = some ⟨req, .selecting presented⟩)
    (authorized : authorize (selectDelivery s.mailbox req.deliveryId) presented = .ok ())
    : Effect s (.select i true) (s.setClaim i ⟨req, .updating presented⟩)
  | claimRefused {action : Action} {i : Nat} {req : ClaimRequest} {e : ApiError}
    (pending : ∀ claim result, s.claims i = some claim → claim.phase ≠ .answered result)
    : Effect s action (s.setClaim i ⟨req, .answered (.error e)⟩)
  | claimed {i : Nat} {req : ClaimRequest} {presented : List UInt8}
    (phase : s.claims i = some ⟨req, .updating presented⟩)
    (affected : rowsAffected s.mailbox req.deliveryId ≠ 0)
    : Effect s (.update i true)
        ((s.markClaimed req.deliveryId).setClaim i ⟨req, .answered (.ok ())⟩)
  | paged (i : Nat) : Effect s (.page i) (s.receive i)
  | swept {kind : Kind} {cutoff : Int} {chosen : List CredentialDeliveryRow}
    (batch : Batch (s.mailbox.matching cutoff kind) chosen)
    : Effect s (.sweep kind chosen) (s.discard chosen)
  | mirrored (issuers : List IssuerRow) : Effect s (.mirror issuers) { s with issuers }
  | ticked {now : Int} (later : s.now ≤ now) : Effect s (.tick now) { s with now }

/-- An `UPDATE` without a match leaves the table as it is. -/
theorem claimDelivery_eq_self {mailbox : Mailbox} {deliveryId : Nat} (now : Int)
    (none : rowsAffected mailbox deliveryId = 0)
    : claimDelivery mailbox deliveryId now = mailbox := by
  have unmatched := List.countP_eq_zero.mp none
  rw [claimDelivery, Mailbox.mk.injEq]
  refine (List.map_congr_left ?_).trans (List.map_id mailbox.rows)
  intro row member
  rw [if_neg (unmatched row member)]
  rfl

variable {env}

theorem step_effect {s t : State} {action : Action} (h : step env s action = some t)
    : Effect env s action t := by
  cases action with
  | deliver i req =>
      simp only [step] at h
      split at h
      · cases h
        cases validateDelivery env req <;> exact .delivering (by simp) (by simp)
      · cases h
  | checkIssuer i ok =>
      simp only [step] at h
      split at h
      next delivery _ =>
        cases h
        cases (if ok then checkIssuer s.issuers delivery.issuerId else .error .internal) with
        | error e => exact .delivering (by simp [proceed]) (by simp [proceed])
        | ok _ =>
            by_cases unlimited : env.issuerDeliveriesPerHour = 0
            · refine .delivering (by simp [proceed, unlimited]) ?_
              exact fun _ _ => Or.inl unlimited
            · exact .delivering (by simp [proceed, unlimited]) (by simp [proceed, unlimited])
      · cases h
  | count i ok =>
      simp only [step] at h
      split at h
      next delivery _ =>
        cases h
        cases ok with
        | false => exact .delivering (by simp [proceed]) (by simp [proceed])
        | true =>
            rw [if_pos rfl]
            cases passed : checkQuota env (delivered s.mailbox delivery.issuerId s.now) with
            | error e => exact .delivering (by simp [proceed]) (by simp [proceed])
            | ok _ =>
                refine .delivering (by simp [proceed]) ?_
                intro other same
                cases same
                exact Or.inr passed
      · cases h
  | insert i deliveryId =>
      simp only [step] at h
      split at h
      next delivery phase =>
        split at h
        · cases h
          exact .inserted phase
        · cases h
          exact .delivering (by simp) (by simp)
      · cases h
  | commit i ok =>
      simp only [step] at h
      split at h
      next row phase =>
        split at h
        next both =>
          cases h
          obtain ⟨rfl, admits⟩ := both
          exact .committed phase admits
        · cases h
          exact .delivering (by simp) (by simp)
      · cases h
  | claim i req =>
      simp only [step] at h
      split at h
      next new =>
        cases h
        cases hash : presentedHash env req with
        | ok presented => exact .claimStarted new hash
        | error e => exact .claimRefused (by simp [new])
      · cases h
  | select i ok =>
      simp only [step] at h
      split at h
      next req presented phase =>
        cases h
        have pending : ∀ claim result, s.claims i = some claim
            → claim.phase ≠ .answered result := by
          intro claim result here
          cases phase.symm.trans here
          simp
        cases ok with
        | false => exact .claimRefused pending
        | true =>
            simp only [if_true]
            cases authorized : authorize (selectDelivery s.mailbox req.deliveryId) presented with
            | ok _ => exact .claimAuthorized phase authorized
            | error e => exact .claimRefused pending
      · cases h
  | update i ok =>
      simp only [step] at h
      split at h
      next req presented phase =>
        have pending : ∀ claim result, s.claims i = some claim
            → claim.phase ≠ .answered result := by
          intro claim result here
          cases phase.symm.trans here
          simp
        cases ok with
        | false =>
            cases h
            exact .claimRefused pending
        | true =>
            cases h
            by_cases none : rowsAffected s.mailbox req.deliveryId = 0
            · rw [if_pos rfl, State.markClaimed, claimDelivery_eq_self s.now none, claimResult,
                if_pos none]
              exact .claimRefused pending
            · rw [if_pos rfl, claimResult, if_neg none]
              exact .claimed phase none
      · cases h
  | page i =>
      cases h
      exact .paged i
  | sweep kind chosen =>
      simp only [step] at h
      split at h
      · cases h
      · split at h
        · split at h
          next batch =>
            cases h
            exact .swept batch
          · cases h
        · cases h
  | mirror issuers =>
      cases h
      exact .mirrored issuers
  | tick now =>
      simp only [step] at h
      split at h
      next later =>
        cases h
        exact .ticked later
      · cases h

/-- What the sweeper does is a step of this machine, or nothing to the table. -/
theorem sweeper_step {before after : Retention.State} {action : Retention.Action}
    (own : action.IsOwn) (stepped : Retention.step env.retention before action = some after)
    (enabled : ∀ kind, before.phase = .sweeping kind → env.retention.days kind ≠ 0) {s : State}
    (same : before.mailbox = s.mailbox) (clock : before.now = s.now)
    : after.mailbox = s.mailbox ∧ after.deleted = before.deleted
      ∨ ∃ kind chosen,
          step env s (.sweep kind chosen) = some (s.discard chosen)
          ∧ after.mailbox = s.mailbox.delete chosen
          ∧ after.deleted = before.deleted ++ chosen.map (fun row => (row, s.now)) := by
  cases Retention.step_effect stepped with
  | moved => exact Or.inl ⟨same, rfl⟩
  | others => cases own
  | @executed kind cutoff chosen reported phase sweeping found batch next =>
      rw [clock] at found
      rw [same] at batch
      refine Or.inr ⟨kind, chosen, ?_, congrArg (fun m => Mailbox.delete m chosen) same, ?_⟩
      · simp only [step, if_neg (enabled kind sweeping), found, if_pos batch]
      · rw [clock]

/-- The SHA-256 of a single byte one. -/
def sampleHash : List UInt8 :=
  [75, 245, 18, 47, 52, 69, 84, 197, 59, 222, 46, 187, 140, 210, 183, 227, 209, 96, 10, 214, 49,
    195, 133, 165, 215, 204, 226, 60, 119, 133, 69, 154]

def sampleHash64 : String := "S/USLzRFVMU73i67jNK349FgCtYxw4Wl18ziPHeFRZo="

def sampleEnv (issuerDeliveriesPerHour : UInt32) : Env where
  base64Decode s :=
    if s = "AQ==" then some [1] else if s = sampleHash64 then some sampleHash else none
  sha256 bytes := if bytes = [1] then sampleHash else []
  issuerDeliveriesPerHour := issuerDeliveriesPerHour
  retention := .fromEnv none none

def sampleRequest : DeliverCredentialRequest :=
  ⟨"issuer", "hint", "AQ==", "AQ==", some sampleHash64⟩

def sampleIssuer : IssuerRow := ⟨"issuer", "Issuer", [1], [], "active", 1⟩

/-- A delivery up to its insert. -/
def deliverUpToInsert (i deliveryId : Nat) : List Action :=
  [.deliver i sampleRequest, .checkIssuer i true, .count i true, .insert i deliveryId]

end Attesta.Api.MailboxService
