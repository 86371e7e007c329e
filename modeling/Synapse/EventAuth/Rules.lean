import Synapse.EventAuth.Events

/-!
# The auth rules

`check_state_dependent_auth_rules` of `synapse/event_auth.py` with everything
it calls, and `auth_types_for_event`, which names the keys of the state that an
event may be checked against. The rules look the state up by key only, so the
state is a function from keys to events here; `checkStateDependentAuthRules`
builds it from the list of events that it is given.

Reading and verifying signatures is a parameter, `verifySigned`; so is the
order in which sets are walked.
-/

namespace Synapse.EventAuth

open Synapse.Util
open PyDict (getD has index keys)

/-! ## Power levels -/

def createKey : AuthKey := (EventTypes.create, some "")

def powerLevelsKey : AuthKey := (EventTypes.powerLevels, some "")

def joinRulesKey : AuthKey := (EventTypes.joinRules, some "")

def memberKey (userId : String) : AuthKey := (EventTypes.member, some userId)

/-- `get_power_level_event`. -/
def getPowerLevelEvent (auth : AuthState) : Option Event := auth powerLevelsKey

/-- The creator of a room: its sender, or the field of its content. -/
def creatorOf (implicitRoomCreator : Bool) (create : Event) : Check PyValue :=
  if implicitRoomCreator then .ok (.str create.sender)
  else uncaught (index create.content EventContentFields.roomCreator)

/-- `get_user_power_level`. -/
def getUserPowerLevel (userId : String) (auth : AuthState) : Check ℤ :=
  match getPowerLevelEvent auth with
  | some powerLevelEvent => do
    let users ← uncaught (getD powerLevelEvent.content "users" (.dict [])).asDict
    let level := getD users userId .none
    let level :=
      if level.isNone then getD powerLevelEvent.content "users_default" (.int 0) else level
    if level.isNone then .ok 0 else uncaught level.toInt
  | none =>
    match auth createKey with
    | some create => do
      let creator ← creatorOf create.roomVersion.implicitRoomCreator create
      .ok (if creator.isStr userId then 100 else 0)
    | none => .ok 0

/-- `get_named_level`. -/
def getNamedLevel (auth : AuthState) (name : String) (default : ℤ) : Check ℤ :=
  match getPowerLevelEvent auth with
  | none => .ok default
  | some powerLevelEvent =>
    let level := getD powerLevelEvent.content name .none
    if level.isNone then .ok default else uncaught level.toInt

/-- `get_send_level`. -/
def getSendLevel (etype : String) (stateKey : Option String) (powerLevelsEvent : Option Event) :
    Check ℤ := do
  let content : PyDict :=
    match powerLevelsEvent with
    | some event => event.content
    | none => []
  let events ← uncaught (getD content "events" (.dict [])).asDict
  let sendLevel := getD events etype .none
  let sendLevel :=
    if sendLevel.isNone then
      if stateKey.isSome then getD content "state_default" (.int 50)
      else getD content "events_default" (.int 0)
    else sendLevel
  uncaught sendLevel.toInt

variable (event : Event)

/-- `_can_send_event`. A `state_key` of `null` is an attribute that has no
method `startswith`. -/
def canSendEvent (auth : AuthState) : Check Unit := do
  let sendLevel ← getSendLevel event.type event.getStateKey (getPowerLevelEvent auth)
  let userLevel ← getUserPowerLevel event.sender auth
  if userLevel < sendLevel then
    unstableSpecAuthError
      "You don't have permission to post that to the room. user_level (%d) < send_level (%d)"
      [.int userLevel, .int sendLevel] .insufficientPower
  else
    match event.stateKey with
    | none => .ok ()
    | some none => .error (.python .attributeError)
    | some (some stateKey) =>
      if stateKey.toList.head? = some '@' ∧ stateKey ≠ event.sender then
        forbidden "You are not allowed to set others state" []
      else .ok ()

/-- `check_redaction`: whether the sender may redact the event only if it is
their own. -/
def checkRedaction (auth : AuthState) : Check Bool := do
  let userLevel ← getUserPowerLevel event.sender auth
  let redactLevel ← getNamedLevel auth "redact" 50
  if redactLevel ≤ userLevel then .ok false
  else if event.roomVersion.eventFormat = .roomV1V2 then do
    let redacterDomain ← getDomainFromId event.eventId
    match event.redacts with
    | .str redacts => do
      let redacteeDomain ← getDomainFromId redacts
      if redacterDomain = redacteeDomain then .ok true
      else forbidden "You don't have permission to redact events" []
    | _ => .ok false
  else .ok true

/-! ## Changes of the power levels -/

/-- The loop that validates `users`. -/
def validateUsers : PyDict → Check Unit
  | [] => .ok ()
  | (k, v) :: rest =>
    if !isUserId k then badRequest "Not a valid user_id: %s" [.str k]
    else
      match v.toInt with
      | .error _ => badRequest "Not a valid power level: %s" [v]
      | .ok _ => validateUsers rest

def namedLevels : List String :=
  ["users_default", "events_default", "state_default", "ban", "redact", "kick", "invite"]

/-- Whether a value is a dictionary of integers. -/
def isDictOfInts : PyValue → Bool
  | .dict fields => fields.all fun field => field.2.isInt
  | _ => false

/-- The loop that rejects levels which are not integers, for the room versions
that require it. -/
def enforceInts : PyDict → Check Unit
  | [] => .ok ()
  | (k, v) :: rest =>
    if k ∈ namedLevels ∧ v.isInt = false then badRequest "%r must be an integer." [v]
    else if k ∈ ["events", "notifications", "users"] ∧ isDictOfInts v = false then
      badRequest "%r must be a dict wherein all the values are integers." [v]
    else enforceInts rest

/-- "Reject events with stringy power levels if required by room version". -/
def rejectStringyLevels : Check Unit :=
  if event.type = EventTypes.powerLevels ∧ event.roomVersion.enforceIntPowerLevels then
    enforceInts event.content
  else .ok ()

variable (o : IterOrder)

/-- The entries of two dictionaries, as a set. -/
def entriesOf (oldList newList : PyValue) : Check (List PyValue) := do
  let old ← uncaught oldList.iter
  let new ← uncaught newList.iter
  let entries ← uncaught (PyValue.toSet (old ++ new))
  .ok (o.order entries)

/-- The level of an entry at its location, if there is one. -/
def levelAt (loc level : PyValue) : Check (Option ℤ) := do
  let present ← uncaught (loc.contains level)
  if present then do
    let v ← uncaught (loc.item level)
    let n ← uncaught v.toInt
    .ok (some n)
  else .ok none

/-- The body of the loop over `levels_to_check`. `dir` is `None` or the name of
the dictionary that the entry belongs to. -/
def checkLevel (userLevel : ℤ) (oldState newState : PyDict) (entry : PyValue × Option String) :
    Check Unit := do
  let oldLoc :=
    match entry.2 with
    | some dir => getD oldState dir (.dict [])
    | none => .dict oldState
  let newLoc :=
    match entry.2 with
    | some dir => getD newState dir (.dict [])
    | none => .dict newState
  let oldLevel ← levelAt oldLoc entry.1
  let newLevel ← levelAt newLoc entry.1
  if newLevel.isSome ∧ newLevel = oldLevel then .ok ()
  else if entry.2 = some "users" ∧ !entry.1.isStr event.sender ∧ oldLevel = some userLevel then
    forbidden "You don't have permission to remove ops level equal to your own" []
  else if oldLevel.any (userLevel < ·) ∨ newLevel.any (userLevel < ·) then
    forbidden "You don't have permission to add ops level greater than your own" []
  else .ok ()

variable (roomVersion : RoomVersion) (oldState newState : PyDict)

/-- The entries of `notifications`, for the room versions that check them. -/
def notificationEntries : Check (List PyValue) :=
  if roomVersion.limitNotificationsPowerLevels then
    entriesOf o (getD oldState "notifications" (.dict []))
      (getD newState "notifications" (.dict []))
  else .ok []

/-- `levels_to_check`. -/
def levelsToCheck : Check (List (PyValue × Option String)) := do
  let users ← entriesOf o (getD oldState "users" (.dict []))
    (getD newState "users" (.dict []))
  let events ← entriesOf o (getD oldState "events" (.dict []))
    (getD newState "events" (.dict []))
  let notifications ← notificationEntries o roomVersion oldState newState
  .ok (namedLevels.map (fun name => (.str name, none)) ++ users.map (·, some "users") ++
    events.map (·, some "events") ++ notifications.map (·, some "notifications"))

/-- A loop that runs a check for every element. -/
def checkAll {α : Type} (check : α → Check Unit) : List α → Check Unit
  | [] => .ok ()
  | x :: xs => do
    check x
    checkAll check xs

/-- `_check_power_levels`. -/
def checkPowerLevels (event : Event) (auth : AuthState) : Check Unit := do
  let userList ← uncaught (getD event.content "users" (.dict [])).asDict
  validateUsers userList
  rejectStringyLevels event
  let stateKey ← event.getStateKeyAttr
  match auth (event.type, stateKey) with
  | none => .ok ()
  | some currentState => do
    let userLevel ← getUserPowerLevel event.sender auth
    let levels ← levelsToCheck o event.roomVersion currentState.content event.content
    checkAll (checkLevel event userLevel currentState.content event.content) levels

/-! ## Third party invites -/

/-- How verifying a signature may fail: with an exception that the code
catches, `KeyError` or `SignatureVerifyException`, or with another one. -/
inductive VerifyFailure where
  | caught
  | python (error : PyError)

/-- `decode_verify_key_bytes`, `decode_base64` and `verify_signed_json` for the
signed object, the server, the name of the key and the public key. -/
abbrev VerifySigned := PyDict → String → String → PyValue → Except VerifyFailure Unit

/-- An operation of Python inside the `try` block. -/
def guarded {α : Type} : Except PyError α → Except VerifyFailure α
  | .ok a => .ok a
  | .error .keyError => .error .caught
  | .error e => .error (.python e)

/-- The loop over the names of the keys of a server. -/
def verifyNames (verify : String → Except VerifyFailure Unit) : List String → Except VerifyFailure Bool
  | [] => .ok false
  | keyName :: names =>
    if "ed25519:".toList.isPrefixOf keyName.toList then do
      verify keyName
      .ok true
    else verifyNames verify names

def verifyServers (verify : String → String → Except VerifyFailure Unit) :
    PyDict → Except VerifyFailure Bool
  | [] => .ok false
  | (server, signatureBlock) :: rest => do
    let names ← guarded signatureBlock.asDict
    let verified ← verifyNames (verify server) (keys names)
    if verified then .ok true else verifyServers verify rest

/-- The loop over the public keys of the invite. -/
def verifyKeys (verifySigned : VerifySigned) (signed : PyDict) : List PyValue → Check Bool
  | [] => .ok false
  | publicKeyObject :: rest => do
    let publicKey ← uncaught (publicKeyObject.item (.str "public_key"))
    let attempt : Except VerifyFailure Bool := do
      let signatures ← guarded (index signed "signatures")
      let servers ← guarded signatures.asDict
      verifyServers (fun server keyName => verifySigned signed server keyName publicKey) servers
    match attempt with
    | .ok true => .ok true
    | .ok false => verifyKeys verifySigned signed rest
    | .error .caught => verifyKeys verifySigned signed rest
    | .error (.python e) => .error (.python e)

/-- `get_public_keys`. -/
def getPublicKeys (inviteEvent : Event) : Check (List PyValue) := do
  let first : List PyValue :=
    match inviteEvent.content.lookup "public_key" with
    | some publicKey =>
      match inviteEvent.content.lookup "key_validity_url" with
      | some url => [.dict [("public_key", publicKey), ("key_validity_url", url)]]
      | none => [.dict [("public_key", publicKey)]]
    | none => []
  let rest ← uncaught (getD inviteEvent.content "public_keys" (.list [])).iter
  .ok (first ++ rest)

/-- The invite that a token stands for. A key of a state map is a string or
`None`, so that no other token finds one; a token that cannot be hashed raises. -/
def findInvite (token : PyValue) (auth : AuthState) : Check (Option Event) :=
  match token with
  | .str token => .ok (auth (EventTypes.thirdPartyInvite, some token))
  | .none => .ok (auth (EventTypes.thirdPartyInvite, none))
  | token => if token.hashable then .ok none else .error (.python .typeError)

/-- `_verify_third_party_invite`. -/
def verifyThirdPartyInvite (verifySigned : VerifySigned) (event : Event) (auth : AuthState) :
    Check Bool :=
  match event.content.lookup "third_party_invite" with
  | some (.dict thirdPartyInvite) =>
    match thirdPartyInvite.lookup "signed" with
    | some (.dict signed) =>
      match signed.lookup "mxid", signed.lookup "token", signed.lookup "signatures" with
      | some mxid, some token, some _ => do
        let inviteEvent ← findInvite token auth
        match inviteEvent with
        | none => .ok false
        | some inviteEvent =>
          if inviteEvent.sender ≠ event.sender then .ok false
          else do
            let stateKey ← event.getStateKeyAttr
            if !PyValue.scalarEq (keyValue stateKey) mxid then .ok false
            else do
              let keys ← getPublicKeys inviteEvent
              verifyKeys verifySigned signed keys
      | _, _, _ => .ok false
    | _ => .ok false
  | _ => .ok false

/-! ## Changes of membership -/

/-- `_can_federate`. -/
def canFederate (auth : AuthState) : Bool :=
  match auth createKey with
  | none => false
  | some creation =>
    (getD creation.content EventContentFields.federate (.bool true)).isTrue

/-- `_check_joined_room`. -/
def checkJoinedRoom (member : Option Event) (userId roomId : String) : Check Unit :=
  let notInRoom := forbidden "User %s not in room %s (%s)"
    [.str userId, .str roomId, keyValue (member.map Event.eventId)]
  match member with
  | none => notInRoom
  | some event => do
    let membership ← event.membership
    if membership.isStr Membership.join then .ok () else notInRoom

/-- `member and member.membership == membership`. -/
def hasMembership (member : Option Event) (membership : String) : Check Bool :=
  match member with
  | none => .ok false
  | some event => do
    let m ← event.membership
    .ok (m.isStr membership)

/-- `caller and room_version.knock_join_rule and caller.membership == Membership.KNOCK`. -/
def hasKnocked (roomVersion : RoomVersion) (caller : Option Event) : Check Bool :=
  if roomVersion.knockJoinRule then hasMembership caller Membership.knock else .ok false

variable (membership : PyValue)

/-- Whether the event is the creator's join, the first event after the create
event. -/
def isCreatorJoining (auth : AuthState) : Check Bool :=
  if event.prevEventIds.length = 1 ∧ membership.isStr Membership.join then
    match auth createKey with
    | some create =>
      if event.prevEventIds.head? = some create.eventId then do
        let creator ← creatorOf event.roomVersion.implicitRoomCreator create
        let stateKey ← event.getStateKeyAttr
        .ok (PyValue.scalarEq (keyValue stateKey) creator)
      else .ok false
    | none => .ok false
  else .ok false

/-- What `_is_membership_change_allowed` finds out before it decides. -/
structure MembershipInfo where
  targetUserId : String
  callerInRoom : Bool
  callerInvited : Bool
  callerKnocked : Bool
  targetInRoom : Bool
  targetBanned : Bool
  joinRule : PyValue
  userLevel : ℤ
  targetLevel : ℤ
  inviteLevel : ℤ
  banLevel : ℤ

/-- `target_user_id`, whose domain has to be allowed in the room. -/
def federatedTarget (auth : AuthState) : Check String := do
  let targetUserId ← event.getStateKeyAttr
  let creatingDomain ← getDomainFromId event.roomId
  match targetUserId with
  | none => .error (.python .attributeError)
  | some targetUserId => do
    let targetDomain ← getDomainFromId targetUserId
    if creatingDomain ≠ targetDomain ∧ !canFederate auth then
      forbidden "This room has been marked as unfederatable." []
    else .ok targetUserId

/-- `join_rule`. -/
def joinRuleOf (auth : AuthState) : PyValue :=
  match auth joinRulesKey with
  | some joinRuleEvent => getD joinRuleEvent.content "join_rule" (.str JoinRules.invite)
  | none => .str JoinRules.invite

def membershipInfo (auth : AuthState) : Check MembershipInfo := do
  let targetUserId ← federatedTarget event auth
  let caller := auth (memberKey event.sender)
  let callerInRoom ← hasMembership caller Membership.join
  let callerInvited ← hasMembership caller Membership.invite
  let callerKnocked ← hasKnocked event.roomVersion caller
  let target := auth (memberKey targetUserId)
  let targetInRoom ← hasMembership target Membership.join
  let targetBanned ← hasMembership target Membership.ban
  let userLevel ← getUserPowerLevel event.sender auth
  let targetLevel ← getUserPowerLevel targetUserId auth
  let inviteLevel ← getNamedLevel auth "invite" 0
  let banLevel ← getNamedLevel auth "ban" 50
  .ok ⟨targetUserId, callerInRoom, callerInvited, callerKnocked, targetInRoom, targetBanned,
    joinRuleOf auth, userLevel, targetLevel, inviteLevel, banLevel⟩

def checkThirdPartyInvite (verifySigned : VerifySigned) (event : Event) (info : MembershipInfo)
    (auth : AuthState) : Check Unit := do
  let verified ← verifyThirdPartyInvite verifySigned event auth
  if !verified then forbidden "You are not invited to this room." []
  else if info.targetBanned then
    forbidden "%s is banned from the room" [.str info.targetUserId]
  else .ok ()

variable (info : MembershipInfo)

def checkInvite : Check Unit :=
  if info.targetBanned then forbidden "%s is banned from the room" [.str info.targetUserId]
  else if info.targetInRoom then
    unstableSpecAuthError "%s is already in the room." [.str info.targetUserId] .alreadyJoined
  else if info.userLevel < info.inviteLevel then
    unstableSpecAuthError "You don't have permission to invite users" [] .insufficientPower
  else .ok ()

/-- The user who authorised a restricted join has to be in the room, with the
power to invite. -/
def checkAuthorisingUser (auth : AuthState) : Check Unit :=
  match getD event.content EventContentFields.authorisingUser .none with
  | .none => forbidden "Join event is missing authorising user." []
  | .str authorisingUser => do
    checkJoinedRoom (auth (memberKey authorisingUser)) authorisingUser event.roomId
    let authorisingUserLevel ← getUserPowerLevel authorisingUser auth
    if authorisingUserLevel < info.inviteLevel then
      forbidden "Join event authorised by invalid server." []
    else .ok ()
  | authorisingUser =>
    if authorisingUser.hashable then
      forbidden "User %s not in room %s (%s)" [authorisingUser, .str event.roomId, .none]
    else .error (.python .typeError)

def checkJoin (auth : AuthState) : Check Unit :=
  let v := event.roomVersion
  if event.sender ≠ info.targetUserId then forbidden "Cannot force another user to join." []
  else if info.targetBanned then forbidden "You are banned from this room" []
  else if info.joinRule.isStr JoinRules.publicRule then .ok ()
  else if (v.restrictedJoinRule ∧ info.joinRule.isStr JoinRules.restricted) ∨
      (v.knockRestrictedJoinRule ∧ info.joinRule.isStr JoinRules.knockRestricted) then
    if !info.callerInRoom ∧ !info.callerInvited then checkAuthorisingUser event info auth
    else .ok ()
  else if info.joinRule.isStr JoinRules.invite ∨
      (v.knockJoinRule ∧ info.joinRule.isStr JoinRules.knock) ∨
      (v.knockRestrictedJoinRule ∧ info.joinRule.isStr JoinRules.knockRestricted) then
    if !info.callerInRoom ∧ !info.callerInvited then
      forbidden "You are not invited to this room." []
    else .ok ()
  else forbidden "You are not allowed to join this room" []

def checkLeave (auth : AuthState) : Check Unit :=
  if info.targetBanned ∧ info.userLevel < info.banLevel then
    unstableSpecAuthError "You cannot unban user %s." [.str info.targetUserId] .insufficientPower
  else if info.targetUserId ≠ event.sender then do
    let kickLevel ← getNamedLevel auth "kick" 50
    if info.userLevel < kickLevel ∨ info.userLevel ≤ info.targetLevel then
      unstableSpecAuthError "You cannot kick user %s." [.str info.targetUserId] .insufficientPower
    else .ok ()
  else .ok ()

def checkBan : Check Unit :=
  if info.userLevel < info.banLevel then
    unstableSpecAuthError "You don't have permission to ban" [] .insufficientPower
  else if info.userLevel ≤ info.targetLevel then
    unstableSpecAuthError "You don't have permission to ban this user" [] .insufficientPower
  else .ok ()

def checkKnock : Check Unit :=
  if !info.joinRule.isStr JoinRules.knock ∧ (!event.roomVersion.knockRestrictedJoinRule ∨
      !info.joinRule.isStr JoinRules.knockRestricted) then
    forbidden "You don't have permission to knock" []
  else if info.targetUserId ≠ event.sender then forbidden "You cannot knock for other users" []
  else if info.targetInRoom then
    unstableSpecAuthError "You cannot knock on a room you are already in" [] .alreadyJoined
  else if info.callerInvited then forbidden "You are already invited to this room" []
  else if info.targetBanned then forbidden "You are banned from this room" []
  else .ok ()

/-- The decision of `_is_membership_change_allowed`. -/
def decideMembership (verifySigned : VerifySigned) (event : Event) (membership : PyValue)
    (info : MembershipInfo) (auth : AuthState) : Check Unit :=
  let joinOrKnock := membership.isStr Membership.join || membership.isStr Membership.knock
  if membership.isStr Membership.invite ∧ has event.content "third_party_invite" then
    checkThirdPartyInvite verifySigned event info auth
  else if !joinOrKnock ∧ (info.callerInvited || info.callerKnocked) ∧
      membership.isStr Membership.leave ∧ info.targetUserId = event.sender then .ok ()
  else if !joinOrKnock ∧ !info.callerInRoom then
    unstableSpecAuthError "%s not in room %s." [.str event.sender, .str event.roomId] .notJoined
  else if membership.isStr Membership.invite then checkInvite info
  else if membership.isStr Membership.join then checkJoin event info auth
  else if membership.isStr Membership.leave then checkLeave event info auth
  else if membership.isStr Membership.ban then checkBan info
  else if event.roomVersion.knockJoinRule ∧ membership.isStr Membership.knock then
    checkKnock event info
  else .error (.authError 500 "Unknown membership %s" [membership] .forbidden)

/-- `_is_membership_change_allowed`. -/
def isMembershipChangeAllowed (verifySigned : VerifySigned) (event : Event) (auth : AuthState) :
    Check Unit := do
  let membership ← event.membership
  let creatorJoining ← isCreatorJoining event membership auth
  if creatorJoining then .ok ()
  else do
    let info ← membershipInfo event auth
    decideMembership verifySigned event membership info auth

/-! ## The rules -/

/-- The check for `m.federate`. -/
def checkFederate (auth : AuthState) : Check Unit := do
  let creatingDomain ← getDomainFromId event.roomId
  let originatingDomain ← getDomainFromId event.sender
  if creatingDomain ≠ originatingDomain ∧ !canFederate auth then
    forbidden "This room has been marked as unfederatable." []
  else .ok ()

/-- Rule 4, for the room versions that have it. -/
def checkAliases : Check Unit :=
  match event.getStateKey with
  | none => forbidden "Alias event must be a state event" []
  | some stateKey =>
    if stateKey = "" then forbidden "Alias event must have non-empty state_key" []
    else do
      let senderDomain ← getDomainFromId event.sender
      if stateKey ≠ senderDomain then
        forbidden "Alias event's state_key does not match sender's domain" []
      else .ok ()

/-- The special case for `m.room.third_party_invite`. -/
def checkMayInvite (auth : AuthState) : Check Unit := do
  let userLevel ← getUserPowerLevel event.sender auth
  let inviteLevel ← getNamedLevel auth "invite" 0
  if userLevel < inviteLevel then
    unstableSpecAuthError "You don't have permission to invite users" [] .insufficientPower
  else .ok ()

/-- The rules for power levels and redactions. -/
def checkSpecial (event : Event) (auth : AuthState) : Check Unit :=
  if event.type = EventTypes.powerLevels then checkPowerLevels o event auth
  else if event.type = EventTypes.redaction then do
    let _ ← checkRedaction event auth
    .ok ()
  else .ok ()

/-- The rules for events that do not change a membership. -/
def checkSend (event : Event) (auth : AuthState) : Check Unit := do
  checkJoinedRoom (auth (memberKey event.sender)) event.sender event.roomId
  if event.type = EventTypes.thirdPartyInvite then checkMayInvite event auth
  else do
    canSendEvent event auth
    checkSpecial o event auth

/-- The rules against a state, for an event that does not create the room. -/
def checkAgainst (verifySigned : VerifySigned) (event : Event) (auth : AuthState) : Check Unit := do
  checkFederate event auth
  if event.type = EventTypes.aliases ∧ event.roomVersion.specialCaseAliasesAuth then
    checkAliases event
  else if event.type = EventTypes.member then isMembershipChangeAllowed verifySigned event auth
  else checkSend o event auth

/-- `{(e.type, e.state_key): e for e in auth_events}`. -/
def authDict (authEvents : List Event) : Check (Dict AuthKey Event) := do
  let pairs ← authEvents.mapM fun e => do
    let stateKey ← e.getStateKeyAttr
    .ok ((e.type, stateKey), e)
  .ok (Dict.update ∅ pairs)

/-- `check_state_dependent_auth_rules`. -/
def checkStateDependentAuthRules (verifySigned : VerifySigned) (event : Event)
    (authEvents : List Event) : Check Unit :=
  if event.type = EventTypes.create then .ok ()
  else do
    let auth ← authDict authEvents
    checkAgainst o verifySigned event fun key => auth.lookup key

/-! ## The keys that an event is checked against -/

/-- A key that is computed from the content of an event. `set.add` raises for a
value that cannot be hashed; a value that is not a string names no event. -/
def contentKey (type : String) (v : PyValue) : Check (List AuthKey) :=
  match v with
  | .str s => .ok [(type, some s)]
  | .none => .ok [(type, none)]
  | v => if v.hashable then .ok [] else .error (.python .typeError)

/-- `event.content["third_party_invite"]["signed"]["token"]`. -/
def inviteToken (thirdPartyInvite : PyValue) : Check PyValue := do
  let signed ← uncaught (thirdPartyInvite.item (.str "signed"))
  uncaught (signed.item (.str "token"))

/-- The key of the invite that an invitation of a third party refers to. -/
def inviteKeys : Check (List AuthKey) :=
  match membership.isStr Membership.invite, event.content.lookup "third_party_invite" with
  | true, some thirdPartyInvite => do
    let token ← inviteToken thirdPartyInvite
    contentKey EventTypes.thirdPartyInvite token
  | _, _ => .ok []

/-- The key of the user who authorised a restricted join. -/
def authoriserKeys : Check (List AuthKey) :=
  match event.roomVersion.restrictedJoinRule && membership.isStr Membership.join,
    event.content.lookup EventContentFields.authorisingUser with
  | true, some authorisingUser => contentKey EventTypes.member authorisingUser
  | _, _ => .ok []

/-- `auth_types_for_event`. -/
def authTypesForEvent : Check (List AuthKey) :=
  if event.type = EventTypes.create then .ok []
  else
    let common := [powerLevelsKey, memberKey event.sender, createKey]
    if event.type = EventTypes.member then do
      let membership ← event.membership
      let joinRules :=
        if membership.isStr Membership.join || membership.isStr Membership.invite ||
            membership.isStr Membership.knock then [joinRulesKey] else []
      let stateKey ← event.getStateKeyAttr
      let invites ← inviteKeys event membership
      let authorisers ← authoriserKeys event membership
      .ok (common ++ joinRules ++ [(EventTypes.member, stateKey)] ++ invites ++ authorisers)
    else .ok common

/-! ## Reading an outcome back -/

section
variable {o : IterOrder} {verifySigned : VerifySigned} {event : Event}

theorem checkAll_ok_iff {α : Type} {check : α → Check Unit} :
    ∀ {l : List α}, checkAll check l = .ok () ↔ ∀ x ∈ l, check x = .ok ()
  | [] => ⟨fun _ _ hx => absurd hx List.not_mem_nil, fun _ => rfl⟩
  | x :: l => by
    rw [List.forall_mem_cons, ← checkAll_ok_iff]
    refine bind_eq_ok.trans ?_
    exact ⟨fun ⟨_, hx, hl⟩ => ⟨hx, hl⟩, fun ⟨hx, hl⟩ => ⟨(), hx, hl⟩⟩

variable {k : Option String}

theorem stateKey_of_attr (h : event.getStateKeyAttr = .ok k) :
    event.stateKey = some k := by
  unfold Event.getStateKeyAttr at h
  split at h
  next k' hk => rw [hk, Except.ok.inj h]
  · exact nomatch h

/-! The state is looked up by key, so a list of events is as good as the map
that it stands for. -/

/-- The events of a state of the event's room. -/
structure RoomState (event : Event) (authEvents : List Event) : Prop where
  roomId : ∀ e ∈ authEvents, e.roomId = event.roomId
  roomVersion : ∀ e ∈ authEvents, e.roomVersion = event.roomVersion
  isState : ∀ e ∈ authEvents, e.stateKey.isSome = true

variable {authEvents : List Event} {e : Event}

theorem RoomState.append (h : RoomState event authEvents)
    (hroom : e.roomId = event.roomId) (hversion : e.roomVersion = event.roomVersion)
    (hstate : e.stateKey.isSome = true) : RoomState event (authEvents ++ [e]) := by
  have hmem : ∀ {P : Event → Prop}, (∀ e ∈ authEvents, P e) → P e → ∀ e' ∈ authEvents ++ [e], P e' :=
    fun hall he => List.forall_mem_append.mpr ⟨hall, List.forall_mem_singleton.mpr he⟩
  exact ⟨hmem h.roomId hroom, hmem h.roomVersion hversion, hmem h.isState hstate⟩

/-- The map that a list of events stands for. -/
def authMap (authEvents : List Event) : AuthState := fun key =>
  match authDict authEvents with
  | .ok auth => auth.lookup key
  | .error _ => none

theorem authDict_ok (h : ∀ e ∈ authEvents, e.stateKey.isSome = true) :
    ∃ auth, authDict authEvents = .ok auth := by
  have hkeys : ∀ e ∈ authEvents, ∃ p,
      (do let stateKey ← e.getStateKeyAttr
          .ok ((e.type, stateKey), e)) = .ok p ∧ True := by
    intro e he
    obtain ⟨k, hk⟩ := Option.isSome_iff_exists.mp (h e he)
    refine ⟨((e.type, k), e), ?_, trivial⟩
    unfold Event.getStateKeyAttr
    rw [hk]
    rfl
  obtain ⟨pairs, hpairs, _⟩ := mapM_ok_of_forall authEvents hkeys
  exact ⟨_, bind_eq_ok.mpr ⟨pairs, hpairs, rfl⟩⟩

theorem authMap_of_authDict {d : Dict AuthKey Event} (h : authDict authEvents = .ok d) :
    authMap authEvents = fun key => d.lookup key := by
  unfold authMap
  rw [h]

/-- The check of an event, in terms of the map. -/
theorem checkStateDependentAuthRules_eq (hcreate : event.type ≠ EventTypes.create)
    (hstate : ∀ e ∈ authEvents, e.stateKey.isSome = true) :
    checkStateDependentAuthRules o verifySigned event authEvents =
      checkAgainst o verifySigned event (authMap authEvents) := by
  obtain ⟨d, hd⟩ := authDict_ok hstate
  unfold checkStateDependentAuthRules
  rw [if_neg hcreate, authMap_of_authDict hd, hd]
  rfl

/-- Only a list of state events is a state. -/
theorem isState_of_checkStateDependentAuthRules (hcreate : event.type ≠ EventTypes.create)
    (h : checkStateDependentAuthRules o verifySigned event authEvents = .ok ()) :
    ∀ e ∈ authEvents, e.stateKey.isSome = true := by
  unfold checkStateDependentAuthRules at h
  rw [if_neg hcreate] at h
  obtain ⟨d, hd, _⟩ := bind_eq_ok.mp h
  obtain ⟨pairs, hpairs, _⟩ := bind_eq_ok.mp hd
  intro e he
  obtain ⟨p, _, hp⟩ := exists_right_of_forall₂ (forall₂_of_mapM_ok hpairs) he
  obtain ⟨k, hk, _⟩ := bind_eq_ok.mp hp
  rw [stateKey_of_attr hk]
  rfl

/-- A later event of a list replaces what the state has at its key. -/
theorem authMap_append
    (hstate : ∀ e ∈ authEvents, e.stateKey.isSome = true) (hk : e.stateKey = some k) (key : AuthKey) :
    authMap (authEvents ++ [e]) key = if key = (e.type, k) then some e else authMap authEvents key := by
  obtain ⟨d, hd⟩ := authDict_ok hstate
  have happend : authDict (authEvents ++ [e]) = .ok (d.insert (e.type, k) e) := by
    obtain ⟨pairs, hpairs, hd⟩ := bind_eq_ok.mp hd
    obtain rfl := Except.ok.inj hd
    refine bind_eq_ok.mpr ⟨pairs ++ [((e.type, k), e)], ?_, ?_⟩
    · rw [List.mapM_append, hpairs]
      unfold Event.getStateKeyAttr
      simp [hk]
      rfl
    · unfold Dict.update
      rw [List.foldl_append]
      rfl
  rw [authMap_of_authDict hd, authMap_of_authDict happend]
  exact Dict.lookup_insert_ite

end
end Synapse.EventAuth
