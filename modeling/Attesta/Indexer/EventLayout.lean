import Mathlib.Data.List.Forall2
import Mathlib.Data.List.Nodup
import Attesta.Indexer.Events

/-! The event layout from the contract's side: which fields each event publishes and the ways
a value may be written. The decoder reads every layout back, whatever the order of the entries
and whatever stands beside them.
-/

namespace Attesta.Indexer

open Attesta.Merkle

/-- The bytes of a text, as XDR strings and symbols hold them. -/
def utf8 (text : String) : List UInt8 := text.toUTF8.data.toList

/-- An amount as `Int128Parts`: `hi` is `amount >> 64` and `lo` its low 64 bits. -/
def amountParts (amount : Int) : ScVal :=
  .i128 (Int64.ofInt (amount >>> (64 : Nat))) (UInt64.ofInt amount)

/-- A leaf index in any of the integer types that can hold it. -/
inductive WrittenIndex (index : Int) : ScVal → Prop
  | u32 (n : UInt32) (same : (n.toNat : Int) = index) : WrittenIndex index (.u32 n)
  | u64 (n : UInt64) (same : (n.toNat : Int) = index) (signed : index < 2 ^ 63)
    : WrittenIndex index (.u64 n)
  | i64 (n : Int64) (same : n.toInt = index) : WrittenIndex index (.i64 n)

inductive WrittenText (text : String) : ScVal → Prop
  | string : WrittenText text (.string (utf8 text))
  | symbol : WrittenText text (.symbol (utf8 text))

inductive WrittenTexts (texts : List String) : ScVal → Prop
  | vec (items : List ScVal) (each : List.Forall₂ WrittenText texts items)
    : WrittenTexts texts (.vec (some items))

/-- A named field of a payload map and the values that carry it. -/
structure Field where
  name : String
  Written : ScVal → Prop

namespace PoolEvent

/-- The topic under which an event is published. -/
def topic : PoolEvent → String
  | newCommitment .. => "new_commitment"
  | nullifierSpent .. => "nullifier"
  | encryptedNote .. => "note"
  | withdrawal .. => "withdrawal"
  | issuerUpdated .. => "issuer"

/-- The field names of an event's kind, those of absent optional fields included. -/
def fieldNames : PoolEvent → List String
  | newCommitment .. => ["commitment", "leaf_index", "deposit_amount", "asset"]
  | nullifierSpent .. => ["nullifier"]
  | encryptedNote .. => ["commitment", "ephemeral_pubkey", "ciphertext"]
  | withdrawal .. => ["amount", "asset"]
  | issuerUpdated .. => ["issuer_id", "name", "public_key", "claim_types", "status"]

/-- The fields an event publishes. -/
def fields : PoolEvent → List Field
  | newCommitment commitment leafIndex depositAmount asset =>
      [⟨"commitment", (· = .bytes commitment.bytes)⟩, ⟨"leaf_index", WrittenIndex leafIndex⟩]
        ++ depositAmount.toList.map (fun n => ⟨"deposit_amount", (· = amountParts n)⟩)
        ++ asset.toList.map (fun asset => ⟨"asset", WrittenText asset⟩)
  | nullifierSpent nullifier => [⟨"nullifier", (· = .bytes nullifier.bytes)⟩]
  | encryptedNote commitment ephemeralPubkey ciphertext =>
      [⟨"commitment", (· = .bytes commitment.bytes)⟩,
        ⟨"ephemeral_pubkey", (· = .bytes ephemeralPubkey)⟩,
        ⟨"ciphertext", (· = .bytes ciphertext)⟩]
  | withdrawal amount asset =>
      [⟨"amount", (· = amountParts amount)⟩, ⟨"asset", WrittenText asset⟩]
  | issuerUpdated issuerId name publicKey claimTypes status =>
      [⟨"issuer_id", WrittenText issuerId⟩, ⟨"name", WrittenText name⟩,
        ⟨"public_key", (· = .bytes publicKey)⟩, ⟨"claim_types", WrittenTexts claimTypes⟩,
        ⟨"status", WrittenText status⟩]

/-- The texts that stand in an event. -/
def texts : PoolEvent → List String
  | newCommitment _ _ _ asset => asset.toList
  | nullifierSpent _ => []
  | encryptedNote _ _ _ => []
  | withdrawal _ asset => [asset]
  | issuerUpdated issuerId name _ claimTypes status => issuerId :: name :: status :: claimTypes

/-- Public amounts lie in the range of `i128`. -/
def InRange : PoolEvent → Prop
  | newCommitment _ _ depositAmount _ => ∀ n ∈ depositAmount, -2 ^ 127 ≤ n ∧ n < 2 ^ 127
  | withdrawal n _ => -2 ^ 127 ≤ n ∧ n < 2 ^ 127
  | _ => True

end PoolEvent

namespace Codec

variable (codec : Codec)

/-- A key that does not name the field: no symbol, or a symbol with another text. -/
def OtherKey (name : String) (key : ScVal) : Prop :=
  ∀ sym, key = .symbol sym → codec.display sym ≠ name

/-- A map whose entries are the event's fields, in any order, among entries under other keys.
-/
def Carries (event : PoolEvent) (entries : List (ScVal × ScVal)) : Prop :=
  ∃ written others, entries.Perm (written ++ others)
    ∧ List.Forall₂
        (fun field entry => entry.1 = .symbol (utf8 field.name) ∧ field.Written entry.2)
        event.fields written
    ∧ ∀ entry ∈ others, ∀ name ∈ event.fieldNames, codec.OtherKey name entry.1

/-- The payloads that publish an event: a map of its fields, or the bytes of a nullifier alone.
-/
inductive Publishes : PoolEvent → ScVal → Prop
  | fields (event : PoolEvent) (entries : List (ScVal × ScVal))
      (carries : codec.Carries event entries)
    : Publishes event (.map (some entries))
  | bare (nullifier : Node) : Publishes (.nullifierSpent nullifier) (.bytes nullifier.bytes)

end Codec

/-- The bitwise or of the two words is their sum, since they do not overlap. -/
theorem int128Parts_eq (hi : Int64) (lo : UInt64)
    : int128Parts hi lo = 2 ^ 64 * hi.toInt + lo.toNat := by
  have words : (hi.toBitVec.signExtend 128 <<< 64) ||| lo.toBitVec.setWidth 128
      = hi.toBitVec ++ lo.toBitVec := by
    apply BitVec.eq_of_getLsbD_eq
    intro i bound
    simp only [BitVec.getLsbD_or, BitVec.getLsbD_shiftLeft, BitVec.getLsbD_signExtend,
      BitVec.getLsbD_setWidth, BitVec.getLsbD_append]
    by_cases low : i < 64
    · simp [low]
      omega
    · have high : i - 64 < 64 := by omega
      have outside : lo.toBitVec.getLsbD i = false := BitVec.getLsbD_of_ge _ _ (by omega)
      simp [low, high, bound, outside]
      omega
  rw [int128Parts, words, BitVec.toInt_append]
  rfl

/-- The two words of an amount give back the amount, by division with remainder. -/
theorem int128_amountParts {amount : Int} (range : -2 ^ 127 ≤ amount ∧ amount < 2 ^ 127)
    : int128 (amountParts amount) = some amount := by
  have shifted : amount >>> (64 : Nat) = amount / 2 ^ 64 := Int.shiftRight_eq_div_pow amount 64
  have high : (Int64.ofInt (amount >>> (64 : Nat))).toInt = amount / 2 ^ 64 := by
    rw [shifted]
    exact Int64.toInt_ofInt_of_le (by omega) (by omega)
  have low : ((UInt64.ofInt amount).toNat : Int) = amount % 2 ^ 64 := by
    have small : (amount % 2 ^ 64).toNat < UInt64.size := by
      rw [UInt64.size]
      omega
    rw [UInt64.ofInt, UInt64.toNat_ofNat_of_lt' small]
    omega
  rw [amountParts, int128, int128Parts_eq, high, low]
  have division := Int.mul_ediv_add_emod amount (2 ^ 64)
  rw [division]

theorem int64_writtenIndex {index : Int} {v : ScVal} (written : WrittenIndex index v)
    : int64 v = some index := by
  cases written with
  | u32 n same => rw [int64, same]
  | u64 n same signed =>
      have inside : n.toNat < 2 ^ 63 := by omega
      rw [int64, if_pos inside, same]
  | i64 n same => rw [int64, same]

namespace Codec

variable {codec : Codec}

theorem text_writtenText {text : String} {v : ScVal} (written : WrittenText text v)
    (renders : codec.display (utf8 text) = text)
    : codec.text v = some text := by
  cases written <;> rw [Codec.text, renders]

theorem textVec_writtenTexts {texts : List String} {v : ScVal} (written : WrittenTexts texts v)
    (renders : ∀ text ∈ texts, codec.display (utf8 text) = text)
    : codec.textVec v = some texts := by
  obtain ⟨items, each⟩ := written
  rw [Codec.textVec]
  induction each with
  | nil => rfl
  | @cons text item texts items here _ ih =>
      have first := text_writtenText here (renders text (by simp))
      have others := ih (fun text member => renders text (List.mem_cons_of_mem _ member))
      simp [List.mapM_cons, first, others]

-----------------------------------------------------------------------------------------
-- Fields
-----------------------------------------------------------------------------------------

/-- The entry a lookup of `name` stops at. -/
def Names (codec : Codec) (name : String) (entry : ScVal × ScVal) : Prop :=
  ∃ sym, entry.1 = .symbol sym ∧ codec.display sym = name

theorem otherKey_iff {name : String} {entry : ScVal × ScVal}
    : codec.OtherKey name entry.1 ↔ ¬ codec.Names name entry := by
  simp [OtherKey, Names]

theorem mapGet_cons_of_names {name : String} {entry : ScVal × ScVal}
    (named : codec.Names name entry) (rest : List (ScVal × ScVal))
    : codec.mapGet (entry :: rest) name = some entry.2 := by
  obtain ⟨sym, key, text⟩ := named
  simp [mapGet, key, text]

theorem mapGet_cons_of_otherKey {name : String} {entry : ScVal × ScVal}
    (other : codec.OtherKey name entry.1) (rest : List (ScVal × ScVal))
    : codec.mapGet (entry :: rest) name = codec.mapGet rest name := by
  obtain ⟨key, value⟩ := entry
  cases key with
  | symbol sym => simp [mapGet, other sym rfl]
  | _ => rfl

/-- A lookup finds a value as soon as some entry has the name, and what all the entries of
that name satisfy is true of the value found.
-/
theorem mapGet_of_names {map : List (ScVal × ScVal)} {name : String} {good : ScVal → Prop}
    (present : ∃ entry ∈ map, codec.Names name entry)
    (all : ∀ entry ∈ map, codec.Names name entry → good entry.2)
    : ∃ v, codec.mapGet map name = some v ∧ good v := by
  induction map with
  | nil => simp at present
  | cons entry rest ih =>
      by_cases here : codec.Names name entry
      · exact ⟨entry.2, mapGet_cons_of_names here rest, all entry (by simp) here⟩
      · obtain ⟨found, member, named⟩ := present
        have later : found ∈ rest := by
          rcases List.mem_cons.mp member with same | later
          · exact absurd (same ▸ named) here
          · exact later
        rw [mapGet_cons_of_otherKey (otherKey_iff.mpr here)]
        exact ih ⟨found, later, named⟩ (fun e inside => all e (List.mem_cons_of_mem _ inside))

theorem mapGet_of_otherKeys {map : List (ScVal × ScVal)} {name : String}
    (others : ∀ entry ∈ map, codec.OtherKey name entry.1)
    : codec.mapGet map name = none := by
  induction map with
  | nil => rfl
  | cons entry rest ih =>
      rw [mapGet_cons_of_otherKey (others entry (by simp))]
      exact ih (fun e inside => others e (List.mem_cons_of_mem _ inside))

end Codec

namespace PoolEvent

/-- An event publishes some of the fields of its kind, in the order of the kind. -/
theorem fields_sublist (event : PoolEvent)
    : (event.fields.map Field.name).Sublist event.fieldNames := by
  cases event with
  | newCommitment commitment leafIndex depositAmount asset =>
      cases depositAmount <;> cases asset <;> simp [fields, fieldNames]
  | _ => exact List.Sublist.refl _

theorem nodup_fieldNames (event : PoolEvent) : event.fieldNames.Nodup := by
  cases event <;> simp [fieldNames]

/-- Two fields of one event with the same name are the same field. -/
theorem field_of_name {event : PoolEvent} {left right : Field} (inLeft : left ∈ event.fields)
    (inRight : right ∈ event.fields) (same : left.name = right.name)
    : left = right :=
  List.inj_on_of_nodup_map (event.nodup_fieldNames.sublist event.fields_sublist) inLeft inRight
    same

end PoolEvent

namespace Codec

variable {codec : Codec} {event : PoolEvent} {entries : List (ScVal × ScVal)}

theorem exists_left_of_forall₂ {α β : Type} {R : α → β → Prop} {left : List α}
    {right : List β} (h : List.Forall₂ R left right) {y : β} (member : y ∈ right)
    : ∃ x ∈ left, R x y := by
  induction h with
  | nil => cases member
  | @cons x z left right here _ ih =>
      rcases List.mem_cons.mp member with rfl | later
      · exact ⟨x, by simp, here⟩
      · obtain ⟨x, inside, related⟩ := ih later
        exact ⟨x, List.mem_cons_of_mem _ inside, related⟩

theorem display_field (renders : ∀ name ∈ event.fieldNames, codec.display (utf8 name) = name)
    {field : Field} (member : field ∈ event.fields)
    : codec.display (utf8 field.name) = field.name :=
  renders _ (event.fields_sublist.subset (List.mem_map_of_mem member))

/-- A published field is read back in one of the ways it may be written. The entry found is
one of the event's own, because the others have other keys.
-/
theorem Carries.mapGet (carries : codec.Carries event entries)
    (renders : ∀ name ∈ event.fieldNames, codec.display (utf8 name) = name) (field : Field)
    (member : field ∈ event.fields)
    : ∃ v, codec.mapGet entries field.name = some v ∧ field.Written v := by
  obtain ⟨written, others, order, each, foreign⟩ := carries
  apply mapGet_of_names
  · obtain ⟨entry, inside, key, _⟩ := exists_left_of_forall₂ each.flip member
    exact ⟨entry, order.mem_iff.mpr (List.mem_append_left _ inside), _, key,
      display_field renders member⟩
  · intro entry inside named
    obtain ⟨sym, key, text⟩ := named
    rcases List.mem_append.mp (order.mem_iff.mp inside) with own | other
    · obtain ⟨found, inFields, foundKey, value⟩ := exists_left_of_forall₂ each own
      have same : found.name = field.name := by
        rw [← display_field renders inFields, ← text,
          ScVal.symbol.inj (key.symm.trans foundKey)]
      exact PoolEvent.field_of_name inFields member same ▸ value
    · have known := event.fields_sublist.subset (List.mem_map_of_mem member)
      exact absurd text (foreign entry other field.name known sym key)

/-- An optional field that the event does not publish is not found. -/
theorem Carries.mapGet_absent (carries : codec.Carries event entries)
    (renders : ∀ name ∈ event.fieldNames, codec.display (utf8 name) = name) (name : String)
    (known : name ∈ event.fieldNames) (absent : ∀ field ∈ event.fields, field.name ≠ name)
    : codec.mapGet entries name = none := by
  obtain ⟨written, others, order, each, foreign⟩ := carries
  apply mapGet_of_otherKeys
  intro entry inside sym key
  rcases List.mem_append.mp (order.mem_iff.mp inside) with own | other
  · obtain ⟨field, inFields, fieldKey, _⟩ := exists_left_of_forall₂ each own
    rw [ScVal.symbol.inj (key.symm.trans fieldKey), display_field renders inFields]
    exact absent field inFields
  · exact foreign entry other name known sym key

-----------------------------------------------------------------------------------------
-- Events
-----------------------------------------------------------------------------------------

theorem bytes32_bytes (node : Node) : bytes32 (.bytes node.bytes) = some node := by
  rw [bytes32, bytes, Option.bind_some, Node.ofBytes?_bytes]

variable {raw : RawEvent}

theorem decodeNewCommitment_carries {commitment : Node} {leafIndex : Int}
    {depositAmount : Option Int} {asset : Option String}
    (payload : codec.valueMap raw = some entries)
    (carries : codec.Carries (.newCommitment commitment leafIndex depositAmount asset) entries)
    (inRange : (PoolEvent.newCommitment commitment leafIndex depositAmount asset).InRange)
    (renders : ∀ name ∈ ["commitment", "leaf_index", "deposit_amount", "asset"],
      codec.display (utf8 name) = name)
    (text : ∀ text ∈ asset, codec.display (utf8 text) = text)
    : codec.decodeNewCommitment raw
      = some (.newCommitment commitment leafIndex depositAmount asset) := by
  have read := carries.mapGet renders
  have absent := carries.mapGet_absent renders
  obtain ⟨_, foundCommitment, rfl⟩ :=
    read ⟨"commitment", (· = .bytes commitment.bytes)⟩ (by simp [PoolEvent.fields])
  obtain ⟨v, foundIndex, index⟩ :=
    read ⟨"leaf_index", WrittenIndex leafIndex⟩ (by simp [PoolEvent.fields])
  have amount : (codec.mapGet entries "deposit_amount").bind int128 = depositAmount := by
    cases depositAmount with
    | none =>
        rw [absent "deposit_amount" (by simp [PoolEvent.fieldNames])
          (by cases asset <;> simp [PoolEvent.fields])]
        rfl
    | some n =>
        obtain ⟨_, found, rfl⟩ :=
          read ⟨"deposit_amount", (· = amountParts n)⟩ (by simp [PoolEvent.fields])
        rw [found, Option.bind_some, int128_amountParts (inRange n rfl)]
  have label : (codec.mapGet entries "asset").bind codec.text = asset := by
    cases asset with
    | none =>
        rw [absent "asset" (by simp [PoolEvent.fieldNames])
          (by cases depositAmount <;> simp [PoolEvent.fields])]
        rfl
    | some label =>
        obtain ⟨v, found, written⟩ :=
          read ⟨"asset", WrittenText label⟩ (by simp [PoolEvent.fields])
        rw [found, Option.bind_some, text_writtenText written (text label rfl)]
  simp only [decodeNewCommitment, payload, foundCommitment, foundIndex, amount, label]
  simp [bytes32_bytes, int64_writtenIndex index]

theorem decodeNullifier_carries {nullifier : Node}
    (payload : codec.fromXdrBase64 raw.value = some (.map (some entries)))
    (carries : codec.Carries (.nullifierSpent nullifier) entries)
    (renders : ∀ name ∈ ["nullifier"], codec.display (utf8 name) = name)
    : codec.decodeNullifier raw = some (.nullifierSpent nullifier) := by
  obtain ⟨_, found, rfl⟩ := carries.mapGet renders
    ⟨"nullifier", (· = .bytes nullifier.bytes)⟩ (by simp [PoolEvent.fields])
  simp [decodeNullifier, payload, found, bytes32_bytes]

theorem decodeNote_carries {commitment : Node} {ephemeralPubkey ciphertext : List UInt8}
    (payload : codec.valueMap raw = some entries)
    (carries : codec.Carries (.encryptedNote commitment ephemeralPubkey ciphertext) entries)
    (renders : ∀ name ∈ ["commitment", "ephemeral_pubkey", "ciphertext"],
      codec.display (utf8 name) = name)
    : codec.decodeNote raw = some (.encryptedNote commitment ephemeralPubkey ciphertext) := by
  have read := carries.mapGet renders
  obtain ⟨_, foundCommitment, rfl⟩ :=
    read ⟨"commitment", (· = .bytes commitment.bytes)⟩ (by simp [PoolEvent.fields])
  obtain ⟨_, foundKey, rfl⟩ :=
    read ⟨"ephemeral_pubkey", (· = .bytes ephemeralPubkey)⟩
      (by simp [PoolEvent.fields])
  obtain ⟨_, foundText, rfl⟩ :=
    read ⟨"ciphertext", (· = .bytes ciphertext)⟩ (by simp [PoolEvent.fields])
  simp only [decodeNote, payload, foundCommitment, foundKey, foundText]
  simp [bytes32_bytes, bytes]

theorem decodeWithdrawal_carries {amount : Int} {asset : String}
    (payload : codec.valueMap raw = some entries)
    (carries : codec.Carries (.withdrawal amount asset) entries)
    (inRange : -2 ^ 127 ≤ amount ∧ amount < 2 ^ 127)
    (renders : ∀ name ∈ ["amount", "asset"], codec.display (utf8 name) = name)
    (text : codec.display (utf8 asset) = asset)
    : codec.decodeWithdrawal raw = some (.withdrawal amount asset) := by
  have read := carries.mapGet renders
  obtain ⟨_, foundAmount, rfl⟩ :=
    read ⟨"amount", (· = amountParts amount)⟩ (by simp [PoolEvent.fields])
  obtain ⟨v, foundAsset, label⟩ :=
    read ⟨"asset", WrittenText asset⟩ (by simp [PoolEvent.fields])
  simp only [decodeWithdrawal, payload, foundAmount, foundAsset]
  simp [int128_amountParts inRange, text_writtenText label text]

theorem decodeIssuer_carries {issuerId name : String} {publicKey : List UInt8}
    {claimTypes : List String} {status : String} (payload : codec.valueMap raw = some entries)
    (carries : codec.Carries (.issuerUpdated issuerId name publicKey claimTypes status) entries)
    (renders : ∀ name ∈ ["issuer_id", "name", "public_key", "claim_types", "status"],
      codec.display (utf8 name) = name)
    (text : ∀ text ∈ issuerId :: name :: status :: claimTypes, codec.display (utf8 text) = text)
    : codec.decodeIssuer raw
      = some (.issuerUpdated issuerId name publicKey claimTypes status) := by
  have read := carries.mapGet renders
  obtain ⟨id, foundId, idText⟩ :=
    read ⟨"issuer_id", WrittenText issuerId⟩ (by simp [PoolEvent.fields])
  obtain ⟨label, foundName, nameText⟩ :=
    read ⟨"name", WrittenText name⟩ (by simp [PoolEvent.fields])
  obtain ⟨_, foundKey, rfl⟩ :=
    read ⟨"public_key", (· = .bytes publicKey)⟩ (by simp [PoolEvent.fields])
  obtain ⟨types, foundTypes, typeTexts⟩ :=
    read ⟨"claim_types", WrittenTexts claimTypes⟩ (by simp [PoolEvent.fields])
  obtain ⟨state, foundStatus, statusText⟩ :=
    read ⟨"status", WrittenText status⟩ (by simp [PoolEvent.fields])
  have allTypes := textVec_writtenTexts typeTexts (fun t member => text t (by simp [member]))
  simp only [decodeIssuer, payload, foundId, foundName, foundKey, foundTypes, foundStatus]
  simp [text_writtenText idText (text issuerId (by simp)),
    text_writtenText nameText (text name (by simp)),
    text_writtenText statusText (text status (by simp)), allTypes, bytes]

/-- Decoding undoes encoding over the whole layout: a raw event with the topic of its kind and
a payload that publishes it decodes to exactly that event. Of the two libraries it needs only
that the topic and the payload are read back and that the texts in them render as themselves.
-/
theorem decode_published {payload : ScVal} (toXdrBase64 : ScVal → String)
    (inRange : event.InRange) (published : codec.Publishes event payload)
    (inverts : ∀ v, v = .symbol (utf8 event.topic) ∨ v = payload →
      codec.fromXdrBase64 (toXdrBase64 v) = some v)
    (renders : ∀ text ∈ event.topic :: event.fieldNames ++ event.texts,
      codec.display (utf8 text) = text)
    (id : String) (ledger : UInt64) (txHash : String) (moreTopics : List String)
    : codec.decode ⟨id, ledger, txHash, toXdrBase64 (.symbol (utf8 event.topic)) :: moreTopics,
        toXdrBase64 payload⟩
      = some event := by
  have topic := inverts _ (Or.inl rfl)
  have value := inverts payload (Or.inr rfl)
  generalize raw : RawEvent.mk id ledger txHash
    (toXdrBase64 (.symbol (utf8 event.topic)) :: moreTopics) (toXdrBase64 payload) = r
  have name : codec.eventName r = some event.topic := by
    subst raw
    simp [eventName, topic, renders event.topic (by simp)]
  have read : codec.fromXdrBase64 r.value = some payload := by rw [← raw, value]
  have names : ∀ name ∈ event.fieldNames, codec.display (utf8 name) = name := fun name member =>
    renders name (by simp [member])
  have texts : ∀ text ∈ event.texts, codec.display (utf8 text) = text := fun text member =>
    renders text (by simp [member])
  cases published with
  | bare nullifier =>
      simp [decode, name, PoolEvent.topic, decodeNullifier, read]
  | fields _ entries carries =>
      have map : codec.valueMap r = some entries := by simp [valueMap, read]
      cases event with
      | newCommitment commitment leafIndex depositAmount asset =>
          simp only [decode, name, PoolEvent.topic, Option.bind_eq_bind, Option.bind_some, if_true]
          exact decodeNewCommitment_carries map carries inRange names
            (fun text member => texts text (by simpa [PoolEvent.texts] using member))
      | nullifierSpent nullifier =>
          simpa [decode, name, PoolEvent.topic] using
            decodeNullifier_carries read carries names
      | encryptedNote commitment ephemeralPubkey ciphertext =>
          simpa [decode, name, PoolEvent.topic] using decodeNote_carries map carries names
      | withdrawal amount asset =>
          simpa [decode, name, PoolEvent.topic] using
            decodeWithdrawal_carries map carries inRange names
              (texts asset (by simp [PoolEvent.texts]))
      | issuerUpdated issuerId label publicKey claimTypes status =>
          simpa [decode, name, PoolEvent.topic] using
            decodeIssuer_carries map carries names texts

/-- A withdrawal of -1 XLM, its fields in reverse order after an entry under another key. -/
def sampleWithdrawal : ScVal :=
  .map (some [(.u32 7, .symbol (utf8 "x")), (.symbol (utf8 "asset"), .symbol (utf8 "XLM")),
    (.symbol (utf8 "amount"), amountParts (-1))])

/-- `to_xdr_base64` on the topic of a withdrawal and on the sample payload. -/
def sampleXdrBase64 : ScVal → String
  | .symbol _ => "AAAADwAAAAp3aXRoZHJhd2FsAAA="
  | _ => "AAAAEQAAAAEAAAADAAAAAwAAAAcAAAAPAAAAAXgAAAAAAAAPAAAABWFzc2V0AAAAAAAADwAAAANYTE0A"
      ++ "AAAADwAAAAZhbW91bnQAAAAAAAr/////////////////////"

/-- The codec as it behaves on the sample withdrawal and on printable texts. -/
def sampleXdr : Codec :=
  { Codec.plainText [] [] with
    fromXdrBase64 := fun s =>
      if s = sampleXdrBase64 (.symbol (utf8 "withdrawal")) then some (.symbol (utf8 "withdrawal"))
      else if s = sampleXdrBase64 sampleWithdrawal then some sampleWithdrawal
      else none
    display := fun bytes => String.ofList (bytes.map (fun b => Char.ofNat b.toNat)) }

theorem decode_published_sample
    : sampleXdr.decode ⟨"evt-1", 42, "abc",
        [sampleXdrBase64 (.symbol (utf8 (PoolEvent.withdrawal (-1) "XLM").topic))],
        sampleXdrBase64 sampleWithdrawal⟩
      = some (.withdrawal (-1) "XLM") := by
  refine decode_published sampleXdrBase64 (by simp [PoolEvent.InRange]) ?_ ?_ ?_ _ _ _ []
  · refine .fields _ _ ⟨_, [(.u32 7, .symbol (utf8 "x"))],
      (List.Perm.cons _ (.swap _ _ _)).trans (List.perm_append_singleton _ _).symm, ?_, ?_⟩
    · exact .cons ⟨rfl, rfl⟩ (.cons ⟨rfl, .symbol⟩ .nil)
    · intro entry member name _ sym key
      rw [List.mem_singleton.mp member] at key
      cases key
  · intro v either
    rcases either with rfl | rfl
    · simp [sampleXdr, PoolEvent.topic]
    · have other : sampleXdrBase64 sampleWithdrawal
          ≠ sampleXdrBase64 (.symbol (utf8 "withdrawal")) := by
        decide +kernel
      simp [sampleXdr, other]
  · decide +kernel

end Codec

end Attesta.Indexer
