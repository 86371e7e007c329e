import Synapse.EventAuth.Events

/-!
# Redaction

`prune_event_dict` keeps some keys of an event and, depending on its type and on the room version, some
fields of its content.  Whatever it keeps it keeps again, so that an event and its redacted copy have the
same reference hash and the same signatures (`pruneEventDict_idempotent`).
-/

namespace Synapse.EventAuth

open Synapse.Util List

/-- An event as a dictionary; `fields` are the keys other than `type`, `content` and `unsigned`. -/
structure EventDict where
  type : PyValue
  content : PyDict
  unsigned : Option PyDict
  fields : PyDict

def RoomVersion.restrictedJoinRuleFix : RoomVersion → Bool
  | v9 | v10 | msc1767v10 | v11 => true
  | _ => false

/-- No version has it. -/
def RoomVersion.msc3389RelationRedactions (_ : RoomVersion) : Bool := false

variable (v : RoomVersion)

/-- `allowed_keys`. -/
def allowedKeys : List String :=
  ["event_id", "sender", "room_id", "hashes", "signatures", "content", "type", "state_key", "depth",
    "prev_events", "auth_events", "origin_server_ts"] ++
    if v.updatedRedactionRules then [] else ["prev_state", "membership", "origin"]

/-- `add_fields`: those of the fields that are there. -/
def addFields (d : PyDict) (fields : List String) : PyDict :=
  fields.filterMap fun field => (d.lookup field).map (field, ·)

/-- The fields that `add_fields` is called with for a type of event. -/
def keptFields (type : PyValue) : List String :=
  if type.isStr EventTypes.member then
    "membership" :: if v.restrictedJoinRuleFix then [EventContentFields.authorisingUser] else []
  else if type.isStr EventTypes.create then if v.implicitRoomCreator then [] else ["creator"]
  else if type.isStr EventTypes.joinRules then
    "join_rule" :: if v.restrictedJoinRule then ["allow"] else []
  else if type.isStr EventTypes.powerLevels then
    ["users", "users_default", "events", "events_default", "state_default", "ban", "kick", "redact"] ++
      if v.updatedRedactionRules then ["invite"] else []
  else if type.isStr EventTypes.aliases && v.specialCaseAliasesAuth then ["aliases"]
  else if type.isStr "m.room.history_visibility" then ["history_visibility"]
  else if type.isStr EventTypes.redaction && v.updatedRedactionRules then ["redacts"]
  else []

/-- Of `third_party_invite` only `signed` is kept. -/
def prunedInvite (content : PyDict) : PyDict :=
  match content.lookup "third_party_invite" with
  | some (.dict invite) => [("third_party_invite", .dict (addFields invite ["signed"]))]
  | _ => []

/-- `new_content`, but for `m.relates_to`. -/
def newContent (type : PyValue) (content : PyDict) : PyDict :=
  if type.isStr EventTypes.create && v.updatedRedactionRules then content
  else addFields content (keptFields v type) ++
    if type.isStr EventTypes.member && v.updatedRedactionRules then prunedInvite content else []

/-- Protects the relation. -/
def withRelatesTo (content new : PyDict) : PyDict :=
  match v.msc3389RelationRedactions, content.lookup "m.relates_to" with
  | true, some (.dict relatesTo) =>
    let newRelatesTo := addFields relatesTo ["rel_type", "event_id"]
    if newRelatesTo.isEmpty then new else new.set "m.relates_to" (.dict newRelatesTo)
  | _, _ => new

/-- `prune_event_dict`. -/
def pruneEventDict (e : EventDict) : EventDict where
  type := e.type
  content := withRelatesTo v e.content (newContent v e.type e.content)
  unsigned := some (addFields (e.unsigned.getD []) ["age_ts", "replaces_state"])
  fields := e.fields.filter fun field => field.1 ∈ allowedKeys v

/-- `compute_event_reference_hash`; `digest` is the hash of the canonical JSON. -/
def computeEventReferenceHash {δ : Type} (digest : EventDict → δ) (v : RoomVersion) (e : EventDict) : δ :=
  let pruned := pruneEventDict v e
  digest { pruned with
    unsigned := none
    fields := pruned.fields.filter fun field => field.1 ∉ ["signatures", "age_ts"] }

/-- `compute_event_signature`; `signJson` is the signing of the JSON. -/
def computeEventSignature {σ : Type} (signJson : EventDict → σ) (v : RoomVersion) (e : EventDict) : σ :=
  let pruned := pruneEventDict v e
  signJson { pruned with
    unsigned := none
    fields := pruned.fields.filter fun field => field.1 ≠ "age_ts" }

section
variable {d d' : PyDict} {fields : List String}

theorem lookup_addFields {key : String} :
    (addFields d fields).lookup key = if key ∈ fields then d.lookup key else none := by
  induction fields with
  | nil => rfl
  | cons field fields ih =>
    have hcons : addFields d (field :: fields) =
        ((d.lookup field).map (field, ·)).toList ++ addFields d fields := by
      unfold addFields
      rw [filterMap_cons]
      cases d.lookup field <;> rfl
    rw [hcons, lookup_append, ih]
    by_cases hkey : key = field
    · subst hkey
      cases d.lookup key <;> simp
    · cases d.lookup field <;> simp [hkey, lookup_cons, beq_false_of_ne]

theorem addFields_congr (h : ∀ key ∈ fields, d.lookup key = d'.lookup key) :
    addFields d fields = addFields d' fields := filterMap_congr fun key hkey => by rw [h key hkey]

theorem addFields_addFields : addFields (addFields d fields) fields = addFields d fields :=
  addFields_congr fun key hkey => by rw [lookup_addFields, if_pos hkey]

end

variable (v : RoomVersion) (type : PyValue) (content : PyDict)

theorem notMem_keptFields : "third_party_invite" ∉ keptFields v type := by
  unfold keptFields
  split_ifs <;> decide

/-- The pruned content has the fields that are kept, as they were. -/
theorem newContent_newContent :
    newContent v type (newContent v type content) = newContent v type content := by
  unfold newContent
  by_cases hcreate : (type.isStr EventTypes.create && v.updatedRedactionRules) = true
  · simp only [if_pos hcreate]
  simp only [if_neg hcreate]
  have hnot := notMem_keptFields v type
  cases (type.isStr EventTypes.member && v.updatedRedactionRules) with
  | false => simp only [Bool.false_eq_true, if_false, append_nil, addFields_addFields]
  | true =>
    simp only [if_true]
    -- `third_party_invite` is not among the fields, and none of them is in what is kept of it
    have hinvite : ∀ key ∈ keptFields v type, (prunedInvite content).lookup key = none := by
      intro key hkey
      have hne : key ≠ "third_party_invite" := fun h => hnot (h ▸ hkey)
      unfold prunedInvite
      split
      · rw [lookup_cons, beq_false_of_ne hne, lookup_nil]
      · rfl
    refine congrArg₂ _ (addFields_congr fun key hkey => ?_) ?_
    · rw [lookup_append, lookup_addFields, if_pos hkey, hinvite key hkey, Option.or_none]
    · rw [prunedInvite, lookup_append, lookup_addFields, if_neg hnot, Option.none_or]
      cases hlookup : content.lookup "third_party_invite" with
      | none => simp [prunedInvite, hlookup]
      | some invite => cases invite <;> simp [prunedInvite, hlookup, addFields_addFields]

theorem withRelatesTo_eq (new : PyDict) : withRelatesTo v content new = new := rfl

variable {δ σ : Type}

/-- **Redaction is idempotent and preserves identity**: an event and its redacted copy have the same
reference hash and the same signed form. -/
theorem pruneEventDict_idempotent (e : EventDict) (digest : EventDict → δ) (signJson : EventDict → σ) :
    pruneEventDict v (pruneEventDict v e) = pruneEventDict v e ∧
      computeEventReferenceHash digest v (pruneEventDict v e) = computeEventReferenceHash digest v e ∧
      computeEventSignature signJson v (pruneEventDict v e) = computeEventSignature signJson v e := by
  have hprune : pruneEventDict v (pruneEventDict v e) = pruneEventDict v e := by
    unfold pruneEventDict
    simp only [withRelatesTo_eq, newContent_newContent, Option.getD_some, addFields_addFields,
      filter_filter, Bool.and_self]
  refine ⟨hprune, ?_, ?_⟩
  · unfold computeEventReferenceHash
    rw [hprune]
  · unfold computeEventSignature
    rw [hprune]

end Synapse.EventAuth
