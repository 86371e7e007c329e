import Mathlib.Data.List.Dedup
import Synapse.Visibility.Clients

/-!
# One event for several users

`filter_event_for_clients_with_state` decides for all users of a set whether they see an event which need
not be stored yet.  It takes the state before the event from the event's context and adds the event to it,
where `filter_events_for_client` looks up the state after the event.  The two go through the same checks in
a different order, and fetch different parts of the state; for the keys that the checks read, these are the
same (`lookup_getStateMap`, `lookup_stateFor`).  So they agree on who sees the event
(`mem_filterEventForClientsWithState_iff`).
-/

namespace Synapse.Visibility

open Synapse.Util List
open Option (some.inj)

/-! ## The code -/

variable (s : Storage) (event : Event) (prevStateIds : StateMap String)

/-- `_get_state_map`, with `context.get_prev_state_ids` and the keys that the state filter admits. -/
def getStateMap (admits : StateKey → Bool) : StateMap Event :=
  let updatedStateMap := s.foundEvents (prevStateIds.filterItems fun key _ => admits key)
  match event.stateKey.join with
  | some stateKey => updatedStateMap.insert (event.type, stateKey) event
  | none => updatedStateMap

/-- `allowed_user_ids` after the checks for events that are sent to clients. -/
def allowedUserIds (s : Storage) (userIds : List String) (event : Event) (filterSendToClient : Bool) :
    List String :=
  if filterSendToClient then
    userIds.dedup.filter fun userId =>
      checkFilterSendToClient event s.timeMsec (s.retentionPolicy event.roomId)
        (decide (userId ∈ s.ignoredBy event.sender)) ≠ .denied
  else userIds.dedup

/-- The users who see an outlier. -/
def outlierUserIds (event : Event) (allowedUserIds : List String) : Except Raised (List String) :=
  if event.type = EventTypes.member then do
    let stateKey ← event.getStateKeyAttr
    return match stateKey with
    | some userId => if userId ∈ allowedUserIds then [userId] else []
    | none => []
  else
    return []

/-- The users whose membership lets them see the event. -/
def memberUserIds (event : Event) (visibility : HistoryVisibility) (stateMap : StateMap Event)
    (isPeeking : Bool) (allowedUserIds : List String) : Except Raised (List String) := do
  let checked ← allowedUserIds.mapM fun userId => do
    let result ← checkMembership userId event visibility stateMap isPeeking
    return if result.allowed then some userId else none
  return checked.reduceOption

/-- The history visibility, and the members of the allowed users. -/
def membersAndVisibility (allowedUserIds : List String) (key : StateKey) : Bool :=
  key ∈ allowedUserIds.map (fun userId => (EventTypes.member, userId)) || key = historyVisKey

/-- The users who see an event that is not an outlier. -/
def stateUserIds (isPeeking : Bool) (allowedUserIds : List String) : Except Raised (List String) := do
  let visibilityStateMap := getStateMap s event prevStateIds fun key => key = historyVisKey
  let visibility := getEffectiveRoomVisibilityFromState visibilityStateMap
  let lax ← checkHistoryVisibility event visibility isPeeking
  if lax = .allowed then
    return allowedUserIds
  else
    let stateMap := getStateMap s event prevStateIds (membersAndVisibility allowedUserIds)
    memberUserIds event visibility stateMap isPeeking allowedUserIds

/-- Sets of users are lists of their members. -/
def filterEventForClientsWithState (s : Storage) (userIds : List String) (event : Event)
    (prevStateIds : StateMap String) (isPeeking filterSendToClient : Bool) : Except Raised (List String) :=
  if event.softFailed then .ok []
  else if userIds = [] then .ok []
  else if event.outlier then
    outlierUserIds event (allowedUserIds s userIds event filterSendToClient)
  else
    stateUserIds s event prevStateIds isPeeking (allowedUserIds s userIds event filterSendToClient)

/-! ## The state -/

def stateIdsAfter (event : Event) (prevStateIds : StateMap String) : StateMap String :=
  match event.stateKey.join with
  | some stateKey => prevStateIds.insert (event.type, stateKey) event.eventId
  | none => prevStateIds

/-- The event under a key of the state after an event. -/
def eventAfter (key : StateKey) : Option Event :=
  if event.stateKey.join = some key.2 ∧ event.type = key.1 then some event
  else (prevStateIds.lookup key).bind s.getEvent

section
variable {s : Storage} {event : Event} {prevStateIds : StateMap String} {key : StateKey}
  {admits : StateKey → Bool}

theorem lookup_foundEvents {state : StateMap String} (hkey : admits key = true) :
    (s.foundEvents (state.filterItems fun key _ => admits key)).lookup key =
      (state.lookup key).bind s.getEvent := by
  unfold Storage.foundEvents
  rw [Dict.lookup_filterMapItems, Dict.lookup_filterItems]
  cases state.lookup key with
  | none => rfl
  | some id => rw [Option.filter_some, if_pos hkey]

theorem lookup_insert_stateKey {ν : Type} {d : StateMap ν} {type stateKey : String} {v : ν} :
    (d.insert (type, stateKey) v).lookup key =
      if some stateKey = some key.2 ∧ type = key.1 then some v else d.lookup key := by
  refine Dict.lookup_insert_ite.trans (if_congr ?_ rfl rfl)
  rw [Option.some.injEq, Prod.ext_iff, and_comm]
  exact and_congr eq_comm eq_comm

/-- What `_get_state_map` has under the keys of its filter. -/
theorem lookup_getStateMap (hkey : admits key = true) :
    (getStateMap s event prevStateIds admits).lookup key = eventAfter s event prevStateIds key := by
  unfold getStateMap eventAfter
  cases event.stateKey.join with
  | none => exact lookup_foundEvents hkey
  | some stateKey =>
    dsimp only
    rw [lookup_insert_stateKey, lookup_foundEvents hkey]

variable {userId : String} {state : StateMap Event}

/-- The state that is fetched after the event has been stored has the same under the keys of a user. -/
theorem lookup_stateFor (hids : s.stateIds event.eventId = some (stateIdsAfter event prevStateIds))
    (hevent : event.isState = true → s.getEvent event.eventId = some event)
    (hstate : stateFor s userId event = some state) (hkey : clientKeys userId key = true) :
    state.lookup key = eventAfter s event prevStateIds key := by
  unfold stateFor at hstate
  rw [hids] at hstate
  rw [← some.inj hstate, lookup_foundEvents hkey]
  unfold stateIdsAfter eventAfter
  cases hstateKey : event.stateKey.join with
  | none => rw [if_neg (by simp)]
  | some stateKey =>
    dsimp only
    rw [lookup_insert_stateKey]
    split
    · refine hevent ?_
      unfold Event.isState
      rw [hstateKey]
      rfl
    · rfl

/-! ## What the checks read of it -/

variable {state state' : StateMap Event}

theorem getEffectiveRoomVisibilityFromState_congr
    (h : state.lookup historyVisKey = state'.lookup historyVisKey) :
    getEffectiveRoomVisibilityFromState state = getEffectiveRoomVisibilityFromState state' := by
  unfold getEffectiveRoomVisibilityFromState
  rw [h]

variable {isPeeking : Bool} {visibility : HistoryVisibility}

theorem checkMembership_congr
    (h : state.lookup (EventTypes.member, userId) = state'.lookup (EventTypes.member, userId)) :
    checkMembership userId event visibility state isPeeking =
      checkMembership userId event visibility state' isPeeking := by
  unfold checkMembership
  rw [h]

/-- The history visibility of the room, or the membership of the user, lets the user see the event. -/
def SeesByState (event : Event) (state : StateMap Event) (isPeeking : Bool) (userId : String) : Prop :=
  ∃ lax, checkHistoryVisibility event (getEffectiveRoomVisibilityFromState state) isPeeking = .ok lax ∧
    (lax = .allowed ∨ ∃ result, checkMembership userId event (getEffectiveRoomVisibilityFromState state)
      state isPeeking = .ok result ∧ result.allowed = true)

variable {prune : Event → Event}

/-- The check of a single user, for a sender who has not been erased. -/
theorem checkVisible_eq_some_iff (houtlier : event.outlier = false) :
    checkVisible prune userId event isPeeking [] (some state) false = .ok (some event) ↔
      SeesByState event state isPeeking userId := by
  unfold checkVisible SeesByState
  rw [if_neg not_mem_nil, houtlier, if_neg Bool.false_ne_true]
  rw [bind_eq_ok]
  refine exists_congr fun lax => and_congr_right fun _ => ?_
  split
  next hlax => exact iff_of_true rfl (.inl hlax)
  next hlax =>
    rw [bind_eq_ok, or_iff_right hlax]
    refine exists_congr fun result => and_congr_right fun _ => ?_
    cases result.allowed with
    | true => exact iff_of_true rfl rfl
    | false => exact iff_of_false (nofun) Bool.false_ne_true

/-- The same for an outlier. -/
theorem checkVisible_outlier_eq_some_iff
    {state : Option (StateMap Event)} (houtlier : event.outlier = true) :
    checkVisible prune userId event isPeeking [] state false = .ok (some event) ↔
      event.type = EventTypes.member ∧ event.stateKey = some (some userId) := by
  unfold checkVisible Event.isMembershipOf Event.getStateKeyAttr
  rw [if_neg not_mem_nil, houtlier, if_pos rfl]
  by_cases htype : event.type = EventTypes.member
  · rw [if_pos htype]
    cases event.stateKey with
    | none => exact iff_of_false (nofun) (fun h => nomatch h.2)
    | some key =>
      by_cases hkey : key = some userId
      · simp [htype, hkey, bind, Except.bind, pure, Except.pure]
      · simp [htype, hkey, bind, Except.bind, pure, Except.pure]
  · rw [if_neg htype]
    exact iff_of_false (nofun) fun h => htype h.1

/-! ## The users -/

variable {userIds users : List String} {isPeeking : Bool}

theorem mem_allowedUserIds : userId ∈ allowedUserIds s userIds event true ↔ userId ∈ userIds ∧
      checkFilterSendToClient event s.timeMsec (s.retentionPolicy event.roomId)
        (decide (event.sender ∈ s.ignoredUsers userId)) ≠ .denied := by
  have hignored : decide (event.sender ∈ s.ignoredUsers userId) =
      decide (userId ∈ s.ignoredBy event.sender) :=
    decide_eq_decide.mpr Storage.mem_ignoredUsers_iff_mem_ignoredBy
  unfold allowedUserIds
  rw [if_pos rfl, mem_filter, mem_dedup, decide_eq_true_iff, hignored]

variable {allowed : List String}

theorem mem_outlierUserIds (h : outlierUserIds event allowed = .ok users) (userId : String) :
    userId ∈ users ↔ userId ∈ allowed ∧ event.type = EventTypes.member ∧
      event.stateKey = some (some userId) := by
  unfold outlierUserIds at h
  split at h
  next htype =>
    obtain ⟨stateKey, hstateKey, h⟩ := bind_eq_ok.mp h
    have hkey : event.stateKey = some stateKey := by
      unfold Event.getStateKeyAttr at hstateKey
      split at hstateKey
      next hsome => rw [hsome, Except.ok.inj hstateKey]
      · exact nomatch hstateKey
    rw [← Except.ok.inj h, hkey]
    cases stateKey with
    | none => simp
    | some key =>
      dsimp only
      split
      next hmem =>
        rw [mem_singleton]
        constructor
        · intro heq
          exact ⟨heq ▸ hmem, htype, by rw [heq]⟩
        · intro heq
          exact (some.inj (some.inj heq.2.2)).symm
      next hmem =>
        refine iff_of_false not_mem_nil fun heq => hmem ?_
        rw [some.inj (some.inj heq.2.2)]
        exact heq.1
  next htype =>
    rw [← Except.ok.inj h]
    exact iff_of_false not_mem_nil fun heq => htype heq.2.1

theorem mem_memberUserIds
    (h : memberUserIds event visibility state isPeeking allowed = .ok users) (userId : String) :
    userId ∈ users ↔ userId ∈ allowed ∧ ∃ result,
      checkMembership userId event visibility state isPeeking = .ok result ∧ result.allowed = true := by
  obtain ⟨hok, hresult⟩ := mapM_reduceOption_eq_ok_iff.mp h
  rw [← hresult, mem_filterMap]
  -- a user is kept under their own name only
  have hkept : ∀ other, ((do
      let result ← checkMembership other event visibility state isPeeking
      return if result.allowed then some other else none).toOption.join =
        some userId) ↔ other = userId ∧ ∃ result,
          checkMembership other event visibility state isPeeking = .ok result ∧ result.allowed = true := by
    intro other
    cases checkMembership other event visibility state isPeeking with
    | error raised => exact iff_of_false (nofun) fun h => nomatch h.2.choose_spec.1
    | ok result =>
      show (if result.allowed then some other else none) = some userId ↔ _
      cases hallowed : result.allowed with
      | true => simp [hallowed]
      | false => simp [hallowed]
  constructor
  · intro h
    obtain ⟨other, hother, hfound⟩ := h
    obtain ⟨rfl, hallowed⟩ := (hkept other).mp hfound
    exact ⟨hother, hallowed⟩
  · exact fun h => ⟨userId, h.1, (hkept userId).mpr ⟨rfl, h.2⟩⟩

theorem membersAndVisibility_member (hmem : userId ∈ allowed) :
    membersAndVisibility allowed (EventTypes.member, userId) = true := by
  unfold membersAndVisibility
  rw [Bool.or_eq_true, decide_eq_true_iff]
  exact .inl (mem_map_of_mem hmem)

/-- The users who see an event that is not an outlier, in terms of the state that is fetched for each of
them. -/
theorem mem_stateUserIds (h : stateUserIds s event prevStateIds isPeeking allowed = .ok users)
    (hstate : ∀ key, clientKeys userId key = true → state.lookup key = eventAfter s event prevStateIds key) :
    userId ∈ users ↔ userId ∈ allowed ∧ SeesByState event state isPeeking userId := by
  have hvisibility : getEffectiveRoomVisibilityFromState
      (getStateMap s event prevStateIds fun key => key = historyVisKey) =
        getEffectiveRoomVisibilityFromState state := by
    refine getEffectiveRoomVisibilityFromState_congr ?_
    rw [lookup_getStateMap (decide_eq_true rfl), hstate historyVisKey (by simp [clientKeys])]
  unfold stateUserIds at h
  dsimp only at h
  rw [hvisibility] at h
  obtain ⟨lax, hlax, h⟩ := bind_eq_ok.mp h
  unfold SeesByState
  rw [hlax]
  split at h
  next hallowed =>
    rw [← Except.ok.inj h]
    exact (and_iff_left ⟨lax, rfl, .inl hallowed⟩).symm
  next hallowed =>
    rw [mem_memberUserIds h userId]
    refine and_congr_right fun hmem => ?_
    have hmember : (getStateMap s event prevStateIds (membersAndVisibility allowed)).lookup
        (EventTypes.member, userId) = state.lookup (EventTypes.member, userId) := by
      rw [lookup_getStateMap (membersAndVisibility_member hmem), hstate _ (by simp [clientKeys])]
    rw [checkMembership_congr hmember]
    constructor
    · exact fun h => ⟨lax, rfl, .inr h⟩
    · intro h
      obtain ⟨lax', hlax', h⟩ := h
      rw [← Except.ok.inj hlax'] at h
      exact h.resolve_left hallowed

/-! ## Both checks -/

/-- The check of a single user, on the event alone. -/
theorem filterEventsForClient_event_iff {pruning : Pruning} {order : IterOrder}
    (hsoft : event.softFailed = false) (herased : event.sender ∉ s.erasedUsers) :
    filterEventsForClient pruning order s ⟨userId, isPeeking, [], true⟩ [event] = .ok [event] ↔
      StateKnown s event ∧ checkFilterSendToClient event s.timeMsec (s.retentionPolicy event.roomId)
          (decide (event.sender ∈ s.ignoredUsers userId)) ≠ .denied ∧
        checkVisible pruning.prune userId event isPeeking [] (stateFor s userId event) false =
          .ok (some event) := by
  have hshown : ∀ shown, [event] = shown.toList ↔ shown = some event := by
    intro shown
    cases shown with
    | none => simp
    | some shown => simp [eq_comm]
  rw [filterEventsForClient_singleton, hsoft]
  simp only [Bool.false_eq_true, false_and, false_or, true_and, hshown]
  refine and_congr_right fun _ => ?_
  unfold decideEvent checkClientAllowedToSeeEvent
  rw [decide_eq_false herased]
  split
  next h =>
    refine iff_of_false (fun hok => ?_) fun hne => hne.1 h.2
    obtain ⟨shown, hok, hsome⟩ := hok
    rw [hsome] at hok
    exact nomatch hok
  next h =>
    rw [and_iff_right fun heq => h ⟨rfl, heq⟩]
    constructor
    · intro hok
      obtain ⟨shown, hok, hsome⟩ := hok
      rw [hok, hsome]
    · exact fun hok => ⟨some event, hok, rfl⟩

theorem Event.WellFormed.outlierUserIds (h : event.WellFormed) (allowed : List String) :
    ∃ users, outlierUserIds event allowed = .ok users := by
  unfold Visibility.outlierUserIds
  split
  next hmember =>
    obtain ⟨key, hkey⟩ := Option.isSome_iff_exists.mp (h.stateKey hmember)
    unfold Event.getStateKeyAttr
    rw [hkey]
    exact ⟨_, rfl⟩
  · exact ⟨_, rfl⟩

theorem Event.WellFormed.stateUserIds (h : event.WellFormed) (hmembers : ∀ userId ∈ allowed, ∀ member,
      eventAfter s event prevStateIds (EventTypes.member, userId) = some member →
        ∃ value, member.membership = .ok value) :
    ∃ users, stateUserIds s event prevStateIds isPeeking allowed = .ok users := by
  unfold Visibility.stateUserIds
  dsimp only
  obtain ⟨lax, hlax⟩ := h.checkHistoryVisibility (getEffectiveRoomVisibilityFromState
    (getStateMap s event prevStateIds fun key => key = historyVisKey)) isPeeking
  rw [hlax]
  dsimp only [bind, Except.bind]
  split
  · exact ⟨_, rfl⟩
  · refine ⟨_, mapM_reduceOption_eq_ok_iff.mpr ⟨fun userId hmem => ?_, rfl⟩⟩
    have hhas : HasMembership (getStateMap s event prevStateIds (membersAndVisibility allowed)) userId := by
      intro member hmember
      rw [lookup_getStateMap (membersAndVisibility_member hmem)] at hmember
      exact hmembers userId hmem member hmember
    obtain ⟨result, hresult⟩ := h.checkMembership hhas (getEffectiveRoomVisibilityFromState
      (getStateMap s event prevStateIds fun key => key = historyVisKey)) isPeeking
    rw [hresult]
    exact ⟨_, rfl⟩

/-- **The two checks agree.**  A user is in the set exactly if they see the event; and for a well-formed
event in a state with memberships there is a set. -/
theorem mem_filterEventForClientsWithState_iff (pruning : Pruning) (order : IterOrder) (s : Storage)
    (userIds : List String) (event : Event) (prevStateIds : StateMap String) (isPeeking : Bool)
    (hsoft : event.softFailed = false) (herased : event.sender ∉ s.erasedUsers)
    (hstate : event.outlier = false → s.stateIds event.eventId = some (stateIdsAfter event prevStateIds))
    (hevent : event.outlier = false → event.isState = true → s.getEvent event.eventId = some event) :
    (∀ users, filterEventForClientsWithState s userIds event prevStateIds isPeeking true = .ok users →
      ∀ userId, userId ∈ users ↔ userId ∈ userIds ∧
        filterEventsForClient pruning order s ⟨userId, isPeeking, [], true⟩ [event] = .ok [event]) ∧
      (event.WellFormed → (∀ userId ∈ userIds, ∀ member,
          eventAfter s event prevStateIds (EventTypes.member, userId) = some member →
            ∃ value, member.membership = .ok value) →
        ∃ users, filterEventForClientsWithState s userIds event prevStateIds isPeeking true =
          .ok users) := by
  constructor
  · intro users h userId
    rw [filterEventsForClient_event_iff hsoft herased]
    unfold filterEventForClientsWithState at h
    rw [hsoft, if_neg Bool.false_ne_true] at h
    split at h
    next hnone =>
      rw [← Except.ok.inj h, hnone]
      exact iff_of_false not_mem_nil fun hmem => not_mem_nil hmem.1
    · split at h
      next houtlier =>
        have hknown : StateKnown s event := fun hnot => absurd houtlier (Bool.eq_false_iff.mp hnot)
        rw [mem_outlierUserIds h, mem_allowedUserIds, checkVisible_outlier_eq_some_iff houtlier,
          and_iff_right hknown, and_assoc]
      next houtlier =>
        have hnot : event.outlier = false := Bool.eq_false_iff.mpr houtlier
        have hids := hstate hnot
        have hknown : StateKnown s event := fun _ => by rw [hids]; rfl
        obtain ⟨state, hfor⟩ : ∃ state, stateFor s userId event = some state := by
          unfold stateFor
          rw [hids]
          exact ⟨_, rfl⟩
        rw [mem_stateUserIds h fun key hkey => lookup_stateFor hids (hevent hnot) hfor hkey,
          mem_allowedUserIds, hfor, checkVisible_eq_some_iff hnot, and_iff_right hknown, and_assoc]
  · intro hwell hmembers
    unfold filterEventForClientsWithState
    rw [hsoft, if_neg Bool.false_ne_true]
    split
    · exact ⟨_, rfl⟩
    · split
      · exact hwell.outlierUserIds _
      · refine hwell.stateUserIds fun userId hmem => hmembers userId ?_
        exact (mem_allowedUserIds.mp hmem).1

end

/-! ## A room for its members -/

def membersOnly : Event :=
  ⟨"$visibility", EventTypes.roomHistoryVisibility, "!room", "@alice:hs", some (some ""),
    [("history_visibility", .str "joined")], [], 2, false, false⟩

def membersRoomState : StateMap String :=
  AList.insert (EventTypes.member, "@alice:hs") "$alice" (Dict.single historyVisKey "$visibility")

/-- A room whose history only members see; Alice is one. -/
def membersRoom : Storage where
  stateIds := fun _ => some membersRoomState
  getEvent := fun id => [aliceJoins "$alice" "!room", membersOnly].find? fun event => event.eventId = id
  ignoredUsersTable := []
  erasedUsers := []
  retentionPolicy := fun _ => ⟨none⟩
  timeMsec := 100

/-- Of Alice and Bob, Alice sees a message. -/
theorem membersRoom_agree :
    filterEventForClientsWithState membersRoom ["@alice:hs", "@bob:hs"] (message "$message" "!room" 50)
        membersRoomState false true = .ok ["@alice:hs"] ∧
      ∀ userId, userId ∈ ["@alice:hs"] ↔ userId ∈ ["@alice:hs", "@bob:hs"] ∧
        filterEventsForClient noPruning .insertion membersRoom ⟨userId, false, [], true⟩
          [message "$message" "!room" 50] = .ok [message "$message" "!room" 50] :=
  ⟨rfl, (mem_filterEventForClientsWithState_iff noPruning .insertion membersRoom ["@alice:hs", "@bob:hs"]
    (message "$message" "!room" 50) membersRoomState false rfl not_mem_nil (fun _ => rfl)
    fun _ h => absurd h Bool.false_ne_true).1 _ rfl⟩

end Synapse.Visibility
