import Synapse.Util.Dict
import Synapse.Util.Loops
import Synapse.Util.PyValue

/-!
# Who may see an event

The checks of `synapse/visibility.py` for one event and one user: whether the event is sent to clients at
all, whether the history visibility of the room lets everybody see it, and whether the membership of the
user does.  They read the state of the room at the event, which is looked up in the storage.

The content of events is any JSON.  Where the code meets an event that is not as it expects, such as a
membership event without a membership, it raises.
-/

namespace Synapse.Visibility

open Synapse.Util

/-! ## Events -/

namespace EventTypes

def member : String := "m.room.member"
def aliases : String := "m.room.aliases"
def roomHistoryVisibility : String := "m.room.history_visibility"
def dummy : String := "org.matrix.dummy_event"

end EventTypes

/-- An exception that leaves one of the functions. -/
inductive Raised where
  | python (error : PyError)
  | nameError (name : String)
  | exception (msg : String)
  | synapseError (code : ℕ) (msg : String) (string : String)

/-- What is read of an event.  `stateKey` is `none` if the event has no `state_key`, and `some none` if it
is `null`. -/
structure Event where
  eventId : String
  type : String
  roomId : String
  sender : String
  stateKey : Option (Option String)
  content : PyDict
  unsigned : PyDict
  originServerTs : ℤ
  outlier : Bool
  softFailed : Bool

/-- `(type, state_key)`. -/
abbrev StateKey := String × String

abbrev StateMap (ε : Type) := Dict StateKey ε

/-- `_HISTORY_VIS_KEY`. -/
def historyVisKey : StateKey := (EventTypes.roomHistoryVisibility, "")

namespace Event
variable (event : Event)

/-- `event.is_state()`. -/
def isState : Bool := event.stateKey.join.isSome

/-- `event.state_key`: an `AttributeError` if there is none. -/
def getStateKeyAttr : Except Raised (Option String) :=
  match event.stateKey with
  | some key => .ok key
  | none => .error (.python .attributeError)

/-- `event.membership`. -/
def membership : Except Raised PyValue :=
  match event.content.lookup "membership" with
  | some value => .ok value
  | none => .error (.python .keyError)

/-- `event.unsigned.get("prev_content", {})`, which is then asked for its fields. -/
def prevContent : Except Raised PyDict :=
  match PyDict.getD event.unsigned "prev_content" (.dict []) with
  | .dict fields => .ok fields
  | _ => .error (.python .attributeError)

/-- `event.type == EventTypes.Member and event.state_key == user_id`. -/
def isMembershipOf (userId : String) : Except Raised Bool :=
  if event.type = EventTypes.member then do
    return decide ((← event.getStateKeyAttr) = some userId)
  else
    return false

end Event

/-! ## The storage -/

/-- A retention policy; `min_lifetime` is not read here. -/
structure RetentionPolicy where
  maxLifetime : Option ℤ
deriving DecidableEq

/-- What the functions read from the database. -/
structure Storage where
  /-- The state at an event; there is none for outliers and unknown events. -/
  stateIds : String → Option (StateMap String)
  /-- The events that `get_events` finds. -/
  getEvent : String → Option Event
  /-- The table `ignored_users`: `ignorer_user_id` and `ignored_user_id`. -/
  ignoredUsersTable : List (String × String)
  erasedUsers : List String
  /-- `get_retention_policy_for_room`. -/
  retentionPolicy : String → RetentionPolicy
  /-- `clock.time_msec()`. -/
  timeMsec : ℤ

namespace Storage
variable (s : Storage)

/-- `ignored_users`. -/
def ignoredUsers (userId : String) : List String :=
  (s.ignoredUsersTable.filter fun row => row.1 = userId).map Prod.snd

/-- `ignored_by`. -/
def ignoredBy (userId : String) : List String :=
  (s.ignoredUsersTable.filter fun row => row.2 = userId).map Prod.fst

/-- `are_users_erased`. -/
def areUsersErased (userIds : List String) : Dict String Bool :=
  Dict.ofKeys userIds fun userId => decide (userId ∈ s.erasedUsers)

variable (eventIds : List String) (admits : StateKey → Bool)

/-- `get_state_ids_for_events`, for the keys that the state filter admits. -/
def getStateIdsForEvents : Except Raised (Dict String (StateMap String)) :=
  if eventIds.all fun id => (s.stateIds id).isSome then
    .ok (Dict.ofKeys eventIds fun id => ((s.stateIds id).getD ∅).filterItems fun key _ => admits key)
  else
    .error (.python .runtimeError)

/-- The events of a state, as far as they are found. -/
def foundEvents (state : StateMap String) : StateMap Event :=
  state.filterMapItems fun _ id => s.getEvent id

/-- `get_state_for_events`. -/
def getStateForEvents : Except Raised (Dict String (StateMap Event)) := do
  let eventToStateIds ← s.getStateIdsForEvents eventIds admits
  return eventToStateIds.filterMapItems fun _ state => some (s.foundEvents state)

theorem getStateIdsForEvents_eq_ok_iff {s : Storage} {eventIds : List String} {admits : StateKey → Bool}
    {result : Dict String (StateMap String)} : s.getStateIdsForEvents eventIds admits = .ok result ↔
      (∀ id ∈ eventIds, (s.stateIds id).isSome = true) ∧
        (Dict.ofKeys eventIds fun id => ((s.stateIds id).getD ∅).filterItems fun key _ => admits key) =
          result := by
  unfold getStateIdsForEvents
  split
  next h => exact ⟨fun hok => ⟨List.all_eq_true.mp h, Except.ok.inj hok⟩, fun hok => congrArg _ hok.2⟩
  next h => exact ⟨(nomatch ·), fun hok => absurd (List.all_eq_true.mpr hok.1) h⟩

theorem mem_ignoredUsers_iff_mem_ignoredBy {s : Storage} {userId sender : String} :
    sender ∈ s.ignoredUsers userId ↔ userId ∈ s.ignoredBy sender := by
  unfold ignoredUsers ignoredBy
  simp

end Storage

/-! ## Checks -/

inductive HistoryVisibility where
  | worldReadable
  | shared
  | invited
  | joined
deriving DecidableEq

namespace HistoryVisibility

/-- The visibilities in `VISIBILITY_PRIORITY`. -/
def ofValue : PyValue → Option HistoryVisibility
  | .str "world_readable" => some worldReadable
  | .str "shared" => some shared
  | .str "invited" => some invited
  | .str "joined" => some joined
  | _ => none

/-- `VISIBILITY_PRIORITY.index`. -/
def priority : HistoryVisibility → ℕ
  | worldReadable => 0
  | shared => 1
  | invited => 2
  | joined => 3

end HistoryVisibility

inductive Membership where
  | join
  | invite
  | knock
  | leave
  | ban
deriving DecidableEq

namespace Membership

/-- The memberships in `MEMBERSHIP_PRIORITY`. -/
def ofValue : PyValue → Option Membership
  | .str "join" => some join
  | .str "invite" => some invite
  | .str "knock" => some knock
  | .str "leave" => some leave
  | .str "ban" => some ban
  | _ => none

/-- `MEMBERSHIP_PRIORITY.index`. -/
def priority : Membership → ℕ
  | join => 0
  | invite => 1
  | knock => 2
  | leave => 3
  | ban => 4

end Membership

/-- `get_effective_room_visibility_from_state`. -/
def getEffectiveRoomVisibilityFromState (state : StateMap Event) : HistoryVisibility :=
  match state.lookup historyVisKey with
  | none => .shared
  | some visibilityEvent =>
    (HistoryVisibility.ofValue
      (PyDict.getD visibilityEvent.content "history_visibility" (.str "shared"))).getD .shared

/-- `_CheckFilter`. -/
inductive CheckFilter where
  | maybeAllowed
  | denied
deriving DecidableEq

/-- `event.origin_server_ts < oldest_allowed_ts`. -/
def expired (timeMsec : ℤ) (retentionPolicy : RetentionPolicy) (event : Event) : Bool :=
  retentionPolicy.maxLifetime.any fun maxLifetime => event.originServerTs < timeMsec - maxLifetime

/-- `_check_filter_send_to_client`. -/
def checkFilterSendToClient (event : Event) (timeMsec : ℤ) (retentionPolicy : RetentionPolicy)
    (senderIgnored : Bool) : CheckFilter :=
  if event.type = EventTypes.dummy then .denied
  else if !event.isState && senderIgnored then .denied
  else if event.type = EventTypes.aliases then .denied
  -- retention is only considered for events that are not state
  else if !event.isState && expired timeMsec retentionPolicy event then .denied
  else .maybeAllowed

/-- `_CheckVisibility`. -/
inductive CheckVisibility where
  | allowed
  | maybeDenied
deriving DecidableEq

variable (event : Event) (visibility : HistoryVisibility)

/-- The least restrictive of the old and the new visibility, where the event changes it. -/
def boundaryVisibility : Except Raised HistoryVisibility :=
  if event.type = EventTypes.roomHistoryVisibility then do
    let prevContent ← event.prevContent
    let prevVisibility :=
      (HistoryVisibility.ofValue (PyDict.getD prevContent "history_visibility" .none)).getD .shared
    return if prevVisibility.priority < visibility.priority then prevVisibility else visibility
  else
    return visibility

/-- `_check_history_visibility`. -/
def checkHistoryVisibility (isPeeking : Bool) : Except Raised CheckVisibility := do
  let visibility ← boundaryVisibility event visibility
  return match visibility with
  | .shared => if isPeeking then .maybeDenied else .allowed
  | .worldReadable => .allowed
  | _ => .maybeDenied

/-- `_CheckMembershipReturn`. -/
structure CheckMembershipReturn where
  allowed : Bool
  joined : Bool

/-- What a membership allows, by the visibility of the room. -/
def allowedByMembership (membership : Option Membership) (visibility : HistoryVisibility)
    (isPeeking : Bool) : CheckMembershipReturn :=
  if membership = some .join then ⟨true, true⟩
  else
    match visibility with
    | .joined => ⟨false, false⟩
    | .invited => ⟨decide (membership = some .invite), false⟩
    | .shared => if isPeeking then ⟨false, false⟩ else ⟨true, false⟩
    | .worldReadable => ⟨true, false⟩

/-- `_check_membership`.  Memberships other than those of `MEMBERSHIP_PRIORITY` are like none. -/
def checkMembership (userId : String) (event : Event) (visibility : HistoryVisibility)
    (state : StateMap Event) (isPeeking : Bool) : Except Raised CheckMembershipReturn := do
  if ← event.isMembershipOf userId then
    let membership := (Membership.ofValue (PyDict.getD event.content "membership" .none)).getD .leave
    let prevContent ← event.prevContent
    let prevMembership := (Membership.ofValue (PyDict.getD prevContent "membership" .none)).getD .leave
    -- users see their own leave events
    if membership = .leave ∧ (prevMembership = .join ∨ prevMembership = .invite) then
      return ⟨true, decide (membership = .join)⟩
    else
      let membership := if prevMembership.priority < membership.priority then prevMembership else membership
      return allowedByMembership (some membership) visibility isPeeking
  else
    match state.lookup (EventTypes.member, userId) with
    | none => return allowedByMembership none visibility isPeeking
    | some membershipEvent =>
      let membership ← membershipEvent.membership
      return allowedByMembership (Membership.ofValue membership) visibility isPeeking

/-- The check that spares the check of the membership; it is not made if the sender has been erased. -/
def checkLaxVisibility (senderErased : Bool) (event : Event) (visibility : HistoryVisibility)
    (isPeeking : Bool) : Except Raised CheckVisibility :=
  if senderErased then .ok .maybeDenied else checkHistoryVisibility event visibility isPeeking

variable (pruneEvent : Event → Event) (userId : String) (event : Event)

/-- What `_check_client_allowed_to_see_event` does after the checks for events that are sent to clients. -/
def checkVisible (isPeeking : Bool) (alwaysIncludeIds : List String)
    (state : Option (StateMap Event)) (senderErased : Bool) : Except Raised (Option Event) := do
  if event.eventId ∈ alwaysIncludeIds then
    return some event
  else if event.outlier then
    -- only out-of-band memberships of the user
    if ← event.isMembershipOf userId then return some event else return none
  else
    match state with
    | none => .error (.exception "Missing state for non-outlier event")
    | some state =>
      let visibility := getEffectiveRoomVisibilityFromState state
      let lax ← checkLaxVisibility senderErased event visibility isPeeking
      if lax = .allowed then
        return some event
      else
        let membershipResult ← checkMembership userId event visibility state isPeeking
        if !membershipResult.allowed then return none
        else if senderErased && !membershipResult.joined then return some (pruneEvent event)
        else return some event

/-- `_check_client_allowed_to_see_event`. -/
def checkClientAllowedToSeeEvent (timeMsec : ℤ) (filterSendToClient isPeeking : Bool)
    (alwaysIncludeIds : List String) (senderIgnored : Bool) (retentionPolicy : RetentionPolicy)
    (state : Option (StateMap Event)) (senderErased : Bool) : Except Raised (Option Event) :=
  if filterSendToClient ∧ checkFilterSendToClient event timeMsec retentionPolicy senderIgnored = .denied then
    .ok none
  else
    checkVisible pruneEvent userId event isPeeking alwaysIncludeIds state senderErased

/-! ## Checks that return

The checks raise for a membership event without a state key or, if it is in the state, without a
membership, and for a previous content that is not a dictionary. -/

/-- An event as the checks expect it. -/
structure Event.WellFormed (event : Event) : Prop where
  stateKey : event.type = EventTypes.member → event.stateKey.isSome = true
  prevContent : ∃ fields, event.prevContent = .ok fields

/-- A state in which the user has a membership, if they have a membership event. -/
def HasMembership (state : StateMap Event) (userId : String) : Prop :=
  ∀ event, state.lookup (EventTypes.member, userId) = some event → ∃ value, event.membership = .ok value

variable {event : Event}

theorem Event.WellFormed.isMembershipOf (h : event.WellFormed) (userId : String) :
    ∃ own, event.isMembershipOf userId = .ok own := by
  unfold Event.isMembershipOf
  split
  next hmember =>
    obtain ⟨key, hkey⟩ := Option.isSome_iff_exists.mp (h.stateKey hmember)
    unfold Event.getStateKeyAttr
    rw [hkey]
    exact ⟨_, rfl⟩
  · exact ⟨_, rfl⟩

theorem Event.WellFormed.checkHistoryVisibility (h : event.WellFormed)
    (visibility : HistoryVisibility) (isPeeking : Bool) :
    ∃ result, checkHistoryVisibility event visibility isPeeking = .ok result := by
  obtain ⟨fields, hfields⟩ := h.prevContent
  unfold Visibility.checkHistoryVisibility boundaryVisibility
  rw [hfields]
  split
  · exact ⟨_, rfl⟩
  · exact ⟨_, rfl⟩

variable {userId : String}

theorem Event.WellFormed.checkMembership (h : event.WellFormed) {state : StateMap Event}
    (hstate : HasMembership state userId) (visibility : HistoryVisibility)
    (isPeeking : Bool) : ∃ result, checkMembership userId event visibility state isPeeking = .ok result := by
  obtain ⟨own, hown⟩ := h.isMembershipOf userId
  obtain ⟨fields, hfields⟩ := h.prevContent
  unfold Visibility.checkMembership
  rw [hown]
  cases own with
  | true =>
    rw [hfields]
    dsimp only [bind, Except.bind]
    split
    · split
      · exact ⟨_, rfl⟩
      · exact ⟨_, rfl⟩
    · contradiction
  | false =>
    cases hmember : state.lookup (EventTypes.member, userId) with
    | none => exact ⟨_, rfl⟩
    | some membershipEvent =>
      obtain ⟨value, hvalue⟩ := hstate membershipEvent hmember
      dsimp only
      rw [hvalue]
      exact ⟨_, rfl⟩

theorem Event.WellFormed.checkVisible (h : event.WellFormed)
    {state : Option (StateMap Event)} (hknown : event.outlier = false → state.isSome = true)
    (hstate : ∀ state' ∈ state, HasMembership state' userId) (prune : Event → Event) (isPeeking : Bool)
    (alwaysIncludeIds : List String) (senderErased : Bool) :
    ∃ shown, checkVisible prune userId event isPeeking alwaysIncludeIds state senderErased = .ok shown := by
  unfold Visibility.checkVisible
  split
  · exact ⟨_, rfl⟩
  · split
    · obtain ⟨own, hown⟩ := h.isMembershipOf userId
      rw [hown]
      cases own with
      | true => exact ⟨_, rfl⟩
      | false => exact ⟨_, rfl⟩
    next houtlier =>
      obtain ⟨state', hstate'⟩ := Option.isSome_iff_exists.mp (hknown (Bool.eq_false_iff.mpr houtlier))
      rw [hstate']
      dsimp only
      obtain ⟨lax, hlax⟩ : ∃ lax, checkLaxVisibility senderErased event
          (getEffectiveRoomVisibilityFromState state') isPeeking = .ok lax := by
        unfold checkLaxVisibility
        split
        · exact ⟨_, rfl⟩
        · exact h.checkHistoryVisibility _ _
      obtain ⟨result, hresult⟩ := h.checkMembership (hstate state' hstate')
        (getEffectiveRoomVisibilityFromState state') isPeeking
      rw [hlax, hresult]
      dsimp only [bind, Except.bind]
      split
      · exact ⟨_, rfl⟩
      · split
        · exact ⟨_, rfl⟩
        · split
          · exact ⟨_, rfl⟩
          · exact ⟨_, rfl⟩

end Synapse.Visibility
