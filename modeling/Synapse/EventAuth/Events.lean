import Synapse.Util.Dict
import Synapse.Util.Loops
import Synapse.Util.PyValue

/-!
# Events, room versions and exceptions

What the rules of `synapse/event_auth.py` read of an event, the room versions
with the properties that the rules depend on, and the exceptions that the
rules raise: `AuthError`, `SynapseError`, or an exception of Python where the
content of an event is not what the code expects.
-/

namespace Synapse.EventAuth

open Synapse.Util

/-! ## Constants -/

namespace EventTypes

def member : String := "m.room.member"
def create : String := "m.room.create"
def joinRules : String := "m.room.join_rules"
def powerLevels : String := "m.room.power_levels"
def aliases : String := "m.room.aliases"
def redaction : String := "m.room.redaction"
def thirdPartyInvite : String := "m.room.third_party_invite"

end EventTypes

namespace Membership

def invite : String := "invite"
def join : String := "join"
def knock : String := "knock"
def leave : String := "leave"
def ban : String := "ban"

end Membership

namespace JoinRules

def publicRule : String := "public"
def knock : String := "knock"
def invite : String := "invite"
def restricted : String := "restricted"
def knockRestricted : String := "knock_restricted"

end JoinRules

namespace EventContentFields

def federate : String := "m.federate"
def roomCreator : String := "creator"
def authorisingUser : String := "join_authorised_via_users_server"

end EventContentFields

/-- The `Codes` that the auth rules use. -/
inductive Codes where
  | forbidden
  | alreadyJoined
  | notJoined
  | insufficientPower
  | unknown
deriving DecidableEq

/-! ## Room versions -/

/-- `EventFormatVersions`. -/
inductive EventFormatVersion where
  | roomV1V2
  | roomV3
  | roomV4Plus
deriving DecidableEq

/-- `RoomVersions`. -/
inductive RoomVersion where
  | v1
  | v2
  | v3
  | v4
  | v5
  | v6
  | v7
  | v8
  | v9
  | v10
  | msc1767v10
  | v11
deriving DecidableEq

namespace RoomVersion

def eventFormat : RoomVersion → EventFormatVersion
  | v1 | v2 => .roomV1V2
  | v3 => .roomV3
  | _ => .roomV4Plus

def specialCaseAliasesAuth : RoomVersion → Bool
  | v1 | v2 | v3 | v4 | v5 => true
  | _ => false

def limitNotificationsPowerLevels : RoomVersion → Bool
  | v1 | v2 | v3 | v4 | v5 => false
  | _ => true

def implicitRoomCreator : RoomVersion → Bool
  | v11 => true
  | _ => false

def updatedRedactionRules : RoomVersion → Bool
  | v11 => true
  | _ => false

def knockJoinRule : RoomVersion → Bool
  | v1 | v2 | v3 | v4 | v5 | v6 => false
  | _ => true

def restrictedJoinRule : RoomVersion → Bool
  | v8 | v9 | v10 | msc1767v10 | v11 => true
  | _ => false

def knockRestrictedJoinRule : RoomVersion → Bool
  | v10 | msc1767v10 | v11 => true
  | _ => false

def enforceIntPowerLevels : RoomVersion → Bool
  | v10 | msc1767v10 | v11 => true
  | _ => false

/-- A version that knows `knock_restricted` knows `restricted`. -/
theorem restrictedJoinRule_of_knockRestrictedJoinRule :
    ∀ v : RoomVersion, v.knockRestrictedJoinRule = true → v.restrictedJoinRule = true := by
  intro v
  cases v <;> decide

end RoomVersion

/-! ## Exceptions -/

/-- How a check fails. A message is kept as its format with the arguments; an
event among the arguments is represented by its ID. -/
inductive AuthException where
  | authError (code : ℕ) (msg : String) (args : List PyValue) (errcode : Codes)
  | synapseError (code : ℕ) (msg : String) (args : List PyValue) (errcode : Codes)
  | python (error : PyError)

abbrev Check (α : Type) := Except AuthException α

instance (x : Check Unit) : Decidable (x = .ok ()) :=
  match x with
  | .ok () => .isTrue rfl
  | .error _ => .isFalse (by simp)

variable {α : Type} (msg : String) (args : List PyValue)

/-- `AuthError(403, msg)`. -/
def forbidden : Check α := .error (.authError 403 msg args .forbidden)

/-- `UnstableSpecAuthError(403, msg, errcode)`. -/
def unstableSpecAuthError (errcode : Codes) : Check α := .error (.authError 403 msg args errcode)

/-- `SynapseError(400, msg)`. -/
def badRequest : Check α := .error (.synapseError 400 msg args .unknown)

/-- An operation of Python whose exceptions nobody catches. -/
def uncaught {α : Type} : Except PyError α → Check α
  | .ok a => .ok a
  | .error e => .error (.python e)

theorem uncaught_eq_ok {α : Type} {x : Except PyError α} {a : α} : uncaught x = .ok a ↔ x = .ok a := by
  cases x with
  | ok b => exact ⟨fun h => congrArg _ (Except.ok.inj h), fun h => congrArg _ (Except.ok.inj h)⟩
  | error e => exact ⟨fun h => absurd h (by simp [uncaught]), nofun⟩

/-! ## Events -/

/-- What the rules read of an event. `stateKey` is `none` if the event has no
`state_key`, and `some none` if it is `null`. -/
structure Event where
  eventId : String
  type : String
  stateKey : Option (Option String)
  sender : String
  roomId : String
  content : PyDict
  prevEventIds : List String
  /-- The top-level field `redacts`. -/
  redactsField : PyValue
  roomVersion : RoomVersion
  rejected : Bool
  /-- The domains with signatures on the event. -/
  signatures : List String

/-- A key of a state map. -/
abbrev AuthKey := String × Option String

/-- A state map, as far as it is looked up. -/
abbrev AuthState := AuthKey → Option Event

namespace Event
variable (event : Event)

/-- `event.state_key`: an `AttributeError` if there is none. -/
def getStateKeyAttr : Check (Option String) :=
  match event.stateKey with
  | some k => .ok k
  | none => .error (.python .attributeError)

/-- `event.get_state_key()`. -/
def getStateKey : Option String := event.stateKey.join

/-- `event.membership`. -/
def membership : Check PyValue := uncaught (PyDict.index event.content "membership")

/-- `event.redacts`. -/
def redacts : PyValue :=
  if event.roomVersion.updatedRedactionRules then PyDict.getD event.content "redacts" .none
  else event.redactsField

end Event

/-- A string or `None`, as a value. -/
def keyValue : Option String → PyValue
  | some s => .str s
  | none => .none

/-- `get_domain_from_id`. -/
def getDomainFromId (string : String) : Check String :=
  match string.toList.dropWhile (· ≠ ':') with
  | [] => badRequest "Invalid ID: %r" [.str string]
  | _ :: domain => .ok (String.ofList domain)

/-- Whether `UserID.from_string` accepts the text: a sigil, and a colon after
it. -/
def isUserId (s : String) : Bool :=
  match s.toList with
  | '@' :: rest => rest.contains ':'
  | _ => false

end Synapse.EventAuth
