import Mathlib.Data.List.Dedup
import Synapse.Visibility.Checks

/-!
# Events of several rooms for one client

`filter_events_for_client` looks up what the checks need for all events at once, then checks event by event.
So its result should be what it returns for the events one by one.

The state and the erasure of the sender are looked up by event and by sender (`allowed_eq`).  The retention
policy is not looked up by the room of the event: `allowed` reads `retention_policies[room_id]`, where
`room_id` is the variable of the loop that has filled the map, so it is the policy of the room which came
last in that loop; and without `filter_send_to_client` neither name is bound.  Hence the result is the one
for the single events only if all events are checked with the policy of that room as with the policy of
their own (`filterEventsForClient_iff`).
-/

namespace Synapse.Visibility

open Synapse.Util List
open Event (eventId sender)

/-! ## The code -/

/-- The arguments beside the events. -/
structure ClientRequest where
  userId : String
  isPeeking : Bool
  alwaysIncludeIds : List String
  filterSendToClient : Bool

/-- `prune_event`; a redacted event has the ID of the event. -/
structure Pruning where
  prune : Event → Event
  eventId_prune : ∀ event, (prune event).eventId = event.eventId

/-- The keys of the state that are fetched for a user. -/
def clientKeys (userId : String) (key : StateKey) : Bool :=
  key = historyVisKey || key = (EventTypes.member, userId)

/-- `{e.room_id for e in events}`, in the order of the loop. -/
def loopRoomIds (order : IterOrder) (events : List Event) : List String :=
  order.order (events.map Event.roomId).dedup

/-- `retention_policies[room_id]`, with the two names as they are after the loop. -/
def closureRetentionPolicy (order : IterOrder) (s : Storage) (request : ClientRequest)
    (events : List Event) : Except Raised RetentionPolicy :=
  if request.filterSendToClient then
    let retentionPolicies := Dict.ofKeys (loopRoomIds order events) s.retentionPolicy
    match (loopRoomIds order events).getLast? with
    | none => .error (.nameError "room_id")
    | some roomId =>
      match retentionPolicies.lookup roomId with
      | none => .error (.python .keyError)
      | some retentionPolicy => .ok retentionPolicy
  else
    .error (.nameError "retention_policies")

variable (pruning : Pruning) (order : IterOrder) (s : Storage) (request : ClientRequest)
  (events : List Event)

/-- `allowed`, with the names of the enclosing function. -/
def allowed (eventIdToState : Dict String (StateMap Event)) (ignoreList : List String)
    (erasedSenders : Dict String Bool) (event : Event) : Except Raised (Option Event) := do
  let retentionPolicy ← closureRetentionPolicy order s request events
  checkClientAllowedToSeeEvent pruning.prune request.userId event s.timeMsec request.filterSendToClient
    request.isPeeking request.alwaysIncludeIds (decide (event.sender ∈ ignoreList)) retentionPolicy
    (eventIdToState.lookup event.eventId) (erasedSenders.getD event.sender false)

/-- The rest of `filter_events_for_client`, on the events that are not soft-failed. -/
def filterNotSoftFailed : Except Raised (List Event) := do
  let eventIdToState ← s.getStateForEvents ((events.filter fun e => !e.outlier).map eventId)
    (clientKeys request.userId)
  let ignoreList := s.ignoredUsers request.userId
  let erasedSenders := s.areUsersErased (events.map sender)
  let filteredEvents ←
    events.mapM (allowed pruning order s request events eventIdToState ignoreList erasedSenders)
  return filteredEvents.reduceOption

def filterEventsForClient : Except Raised (List Event) :=
  filterNotSoftFailed pruning order s request (events.filter fun e => !e.softFailed)

/-! ## Event by event -/

/-- Events with one ID are one event. -/
def EventIds (events : List Event) : Prop :=
  ∀ event ∈ events, ∀ event' ∈ events, event.eventId = event'.eventId → event = event'

/-- The function returns the concatenation of its results for the single events. -/
def EventByEvent : Prop := ∃ results : List (List Event),
    List.Forall₂ (fun event result => filterEventsForClient pruning order s request [event] = .ok result)
        events results ∧
      filterEventsForClient pruning order s request events = .ok results.flatten

/-- The state at an event, as it is fetched for a user. -/
def stateFor (s : Storage) (userId : String) (event : Event) : Option (StateMap Event) :=
  (s.stateIds event.eventId).map fun state =>
    s.foundEvents (state.filterItems fun key _ => clientKeys userId key)

/-- The check of an event with what belongs to it, and some retention policy. -/
def decideEvent (pruning : Pruning) (s : Storage) (request : ClientRequest)
    (retentionPolicy : RetentionPolicy) (event : Event) : Except Raised (Option Event) :=
  checkClientAllowedToSeeEvent pruning.prune request.userId event s.timeMsec request.filterSendToClient
    request.isPeeking request.alwaysIncludeIds (decide (event.sender ∈ s.ignoredUsers request.userId))
    retentionPolicy (stateFor s request.userId event) (decide (event.sender ∈ s.erasedUsers))

/-- The state at the event is known, unless it is an outlier. -/
def StateKnown (s : Storage) (event : Event) : Prop :=
  event.outlier = false → (s.stateIds event.eventId).isSome = true

/-- With the policy of its own room and with the policy of the room that comes last, the check of the event
returns the same. -/
def DecidedAlike (event : Event) : Prop :=
  ∃ roomId ∈ (loopRoomIds order (events.filter fun e => !e.softFailed)).getLast?, ∃ shown,
    decideEvent pruning s request (s.retentionPolicy event.roomId) event = .ok shown ∧
      decideEvent pruning s request (s.retentionPolicy roomId) event = .ok shown

section
variable {pruning : Pruning} {order : IterOrder} {s : Storage} {request : ClientRequest}

/-! ## What is looked up -/

theorem Storage.getStateForEvents_eq_ok_iff {eventIds : List String} {admits : StateKey → Bool}
    {result : Dict String (StateMap Event)} : s.getStateForEvents eventIds admits = .ok result ↔
      (∀ id ∈ eventIds, (s.stateIds id).isSome = true) ∧
        (Dict.ofKeys eventIds fun id =>
          ((s.stateIds id).getD ∅).filterItems fun key _ => admits key).filterMapItems
          (fun _ state => some (s.foundEvents state)) = result := by
  unfold Storage.getStateForEvents
  rw [bind_eq_ok]
  constructor
  · intro h
    obtain ⟨stateIds, hids, hresult⟩ := h
    obtain ⟨hall, rfl⟩ := Storage.getStateIdsForEvents_eq_ok_iff.mp hids
    exact ⟨hall, Except.ok.inj hresult⟩
  · intro h
    exact ⟨_, Storage.getStateIdsForEvents_eq_ok_iff.mpr ⟨h.1, rfl⟩, congrArg _ h.2⟩

variable {event : Event} {alwaysIncludeIds : List String} {senderErased : Bool} {isPeeking : Bool}
  {userId : String}

theorem checkVisible_of_outlier {prune : Event → Event}
    (houtlier : event.outlier = true) (state state' : Option (StateMap Event)) :
    checkVisible prune userId event isPeeking alwaysIncludeIds state senderErased =
      checkVisible prune userId event isPeeking alwaysIncludeIds state' senderErased := by
  unfold checkVisible
  rw [houtlier]
  rfl

variable {events : List Event}

/-- **Everything but the retention policy is looked up for the event itself.** -/
theorem allowed_eq (hevent : event ∈ events) (hknown : StateKnown s event) :
    allowed pruning order s request events
        ((Dict.ofKeys ((events.filter fun e => !e.outlier).map eventId) fun id =>
          ((s.stateIds id).getD ∅).filterItems fun key _ => clientKeys request.userId key).filterMapItems
            fun _ state => some (s.foundEvents state))
        (s.ignoredUsers request.userId) (s.areUsersErased (events.map sender)) event =
      closureRetentionPolicy order s request events >>= fun retentionPolicy =>
        decideEvent pruning s request retentionPolicy event := by
  have herased : (s.areUsersErased (events.map sender)).getD event.sender false =
      decide (event.sender ∈ s.erasedUsers) := by
    refine Dict.getD_of_lookup ?_
    unfold Storage.areUsersErased
    rw [Dict.lookup_ofKeys, if_pos (mem_map_of_mem hevent)]
  unfold allowed decideEvent checkClientAllowedToSeeEvent
  rw [herased]
  by_cases houtlier : event.outlier = true
  · rw [checkVisible_of_outlier houtlier _ (stateFor s request.userId event)]
  · have hnot : event.outlier = false := Bool.eq_false_iff.mpr houtlier
    obtain ⟨state, hstate⟩ := Option.isSome_iff_exists.mp (hknown hnot)
    have hmem : event.eventId ∈ (events.filter fun e => !e.outlier).map eventId :=
      mem_map_of_mem (mem_filter.mpr ⟨hevent, by rw [hnot]; rfl⟩)
    rw [Dict.lookup_filterMapItems, Dict.lookup_ofKeys, if_pos hmem]
    unfold stateFor
    rw [hstate]
    rfl

theorem filterNotSoftFailed_eq_ok_iff {events result : List Event} :
    filterNotSoftFailed pruning order s request events = .ok result ↔
      (∀ event ∈ events, StateKnown s event) ∧
        (∀ event ∈ events, ∃ shown, (closureRetentionPolicy order s request events >>=
          fun retentionPolicy => decideEvent pruning s request retentionPolicy event) = .ok shown) ∧
        events.filterMap (fun event => (closureRetentionPolicy order s request events >>=
          fun retentionPolicy => decideEvent pruning s request retentionPolicy event).toOption.join) =
            result := by
  have hknown : (∀ id ∈ (events.filter fun e => !e.outlier).map eventId,
      (s.stateIds id).isSome = true) ↔ ∀ event ∈ events, StateKnown s event := by
    constructor
    · intro h event hevent hnot
      exact h _ (mem_map_of_mem (mem_filter.mpr ⟨hevent, by rw [hnot]; rfl⟩))
    · intro h id hid
      obtain ⟨event, hevent, rfl⟩ := mem_map.mp hid
      obtain ⟨hevent, hnot⟩ := mem_filter.mp hevent
      exact h event hevent (by simpa using hnot)
  unfold filterNotSoftFailed
  rw [bind_eq_ok]
  constructor
  · intro h
    obtain ⟨states, hstates, h⟩ := h
    obtain ⟨hall, rfl⟩ := Storage.getStateForEvents_eq_ok_iff.mp hstates
    have hall := hknown.mp hall
    obtain ⟨hok, hresult⟩ := mapM_reduceOption_eq_ok_iff.mp h
    refine ⟨hall, fun event hevent => ?_, ?_⟩
    · rw [← allowed_eq hevent (hall event hevent)]
      exact hok event hevent
    · rw [← hresult]
      exact filterMap_congr fun event hevent => by rw [allowed_eq hevent (hall event hevent)]
  · intro h
    obtain ⟨hall, hok, hresult⟩ := h
    refine ⟨_, Storage.getStateForEvents_eq_ok_iff.mpr ⟨hknown.mpr hall, rfl⟩, ?_⟩
    refine mapM_reduceOption_eq_ok_iff.mpr ⟨fun event hevent => ?_, ?_⟩
    · rw [allowed_eq hevent (hall event hevent)]
      exact hok event hevent
    · rw [← hresult]
      exact filterMap_congr fun event hevent => by rw [allowed_eq hevent (hall event hevent)]

/-! ## The retention policy -/

variable {retentionPolicy : RetentionPolicy}

/-- The policy is that of the room which comes last. -/
theorem closureRetentionPolicy_eq_ok_iff :
    closureRetentionPolicy order s request events = .ok retentionPolicy ↔
      request.filterSendToClient = true ∧
        ∃ roomId ∈ (loopRoomIds order events).getLast?, s.retentionPolicy roomId = retentionPolicy := by
  unfold closureRetentionPolicy
  split
  next hsend =>
    cases hlast : (loopRoomIds order events).getLast? with
    | none => exact ⟨(nomatch ·), fun h => absurd h.2 (by simp [Option.mem_def])⟩
    | some roomId =>
      dsimp only
      rw [Dict.lookup_ofKeys, if_pos (mem_of_getLast? hlast)]
      simp [hsend]
  next hsend => exact ⟨(nomatch ·), fun h => absurd h.1 hsend⟩

/-- For one event it is that of its own room. -/
theorem loopRoomIds_singleton (order : IterOrder) (event : Event) :
    loopRoomIds order [event] = [event.roomId] := by
  exact perm_singleton.mp (order.perm _)

/-! ## One event -/

variable {event shown : Event}

theorem eventId_of_checkVisible {state : Option (StateMap Event)}
    (h : checkVisible pruning.prune userId event isPeeking alwaysIncludeIds state senderErased =
      .ok (some shown)) : shown.eventId = event.eventId := by
  have hself : ∀ {event' : Event}, (.ok (some event') : Except Raised (Option Event)) = .ok (some shown) →
      event'.eventId = event.eventId → shown.eventId = event.eventId := fun heq hid => by
    rw [← hid, Option.some.inj (Except.ok.inj heq)]
  unfold checkVisible at h
  split at h
  · exact hself h rfl
  · split at h
    · obtain ⟨own, _, h⟩ := bind_eq_ok.mp h
      split at h
      · exact hself h rfl
      · exact nomatch h
    · cases state with
      | none => exact nomatch h
      | some state =>
        obtain ⟨lax, _, h⟩ := bind_eq_ok.mp h
        split at h
        · exact hself h rfl
        · obtain ⟨membershipResult, _, h⟩ := bind_eq_ok.mp h
          split at h
          · exact nomatch h
          · split at h
            · exact hself h (pruning.eventId_prune event)
            · exact hself h rfl

theorem eventId_of_decideEvent
    (h : decideEvent pruning s request retentionPolicy event = .ok (some shown)) :
    shown.eventId = event.eventId := by
  unfold decideEvent checkClientAllowedToSeeEvent at h
  split at h
  · exact nomatch h
  · exact eventId_of_checkVisible h

theorem filterEventsForClient_singleton {result : List Event} :
    filterEventsForClient pruning order s request [event] = .ok result ↔
      (event.softFailed = true ∧ result = []) ∨
        (event.softFailed = false ∧ request.filterSendToClient = true ∧ StateKnown s event ∧
          ∃ shown, decideEvent pruning s request (s.retentionPolicy event.roomId) event = .ok shown ∧
            result = shown.toList) := by
  have hclosure : ∀ shown, (closureRetentionPolicy order s request [event] >>= fun retentionPolicy =>
      decideEvent pruning s request retentionPolicy event) = .ok shown ↔
        request.filterSendToClient = true ∧
          decideEvent pruning s request (s.retentionPolicy event.roomId) event = .ok shown := by
    intro shown
    rw [bind_eq_ok]
    simp only [closureRetentionPolicy_eq_ok_iff, loopRoomIds_singleton]
    simp [and_assoc]
  unfold filterEventsForClient
  cases hsoft : event.softFailed with
  | true =>
    rw [filter_cons_of_neg (by simp [hsoft]), filter_nil, filterNotSoftFailed_eq_ok_iff]
    constructor
    · exact fun h => .inl ⟨rfl, h.2.2.symm⟩
    · intro h
      rcases h with ⟨_, rfl⟩ | ⟨hfalse, _⟩
      · exact ⟨fun _ h => absurd h not_mem_nil, fun _ h => absurd h not_mem_nil, rfl⟩
      · exact absurd hfalse Bool.noConfusion
  | false =>
    rw [filter_cons_of_pos (by simp [hsoft]), filter_nil, filterNotSoftFailed_eq_ok_iff,
      forall_mem_singleton, forall_mem_singleton]
    constructor
    · intro h
      obtain ⟨hknown, ⟨shown, hshown⟩, hresult⟩ := h
      rw [filterMap_cons, hshown] at hresult
      obtain ⟨hsend, hshown⟩ := (hclosure shown).mp hshown
      refine .inr ⟨rfl, hsend, hknown, shown, hshown, ?_⟩
      rw [← hresult]
      cases shown with
      | none => rfl
      | some shown => rfl
    · intro h
      rcases h with ⟨hfalse, _⟩ | ⟨_, hsend, hknown, shown, hshown, rfl⟩
      · exact absurd hfalse Bool.noConfusion
      · have hok := (hclosure shown).mpr ⟨hsend, hshown⟩
        refine ⟨hknown, ⟨shown, hok⟩, ?_⟩
        rw [filterMap_cons, hok]
        cases shown with
        | none => rfl
        | some shown => rfl

/-! ## All events -/

/-- What is shown of an event that is not soft-failed, with some retention policy. -/
def shownWith (pruning : Pruning) (s : Storage) (request : ClientRequest)
    (retentionPolicy : RetentionPolicy) (event : Event) : Option Event :=
  (decideEvent pruning s request retentionPolicy event).toOption.join

variable {shown : Option Event}

theorem shownWith_of_eq_ok (h : decideEvent pruning s request retentionPolicy event = .ok shown) :
    shownWith pruning s request retentionPolicy event = shown := by
  unfold shownWith
  rw [h]
  rfl

theorem flatten_map_filter {p : Event → Bool} {f : Event → Option Event} : ∀ events : List Event,
    (events.map fun event => if p event then (f event).toList else []).flatten =
      (events.filter p).filterMap f
  | [] => rfl
  | event :: events => by
    rw [map_cons, flatten_cons, flatten_map_filter events]
    by_cases hp : p event = true
    · rw [if_pos hp, filter_cons_of_pos hp, filterMap_cons]
      cases f event with
      | none => rfl
      | some shown => rfl
    · rw [if_neg hp, filter_cons_of_neg hp]
      rfl

/-- The check of an event in the list returns what it returns with the policy of the last room. -/
theorem exists_policy_of_eq_ok
    (h : (closureRetentionPolicy order s request events >>= fun retentionPolicy =>
      decideEvent pruning s request retentionPolicy event) = .ok shown) :
    ∃ roomId ∈ (loopRoomIds order events).getLast?,
      decideEvent pruning s request (s.retentionPolicy roomId) event = .ok shown := by
  obtain ⟨retentionPolicy, hpolicy, hshown⟩ := bind_eq_ok.mp h
  obtain ⟨_, roomId, hroom, rfl⟩ := closureRetentionPolicy_eq_ok_iff.mp hpolicy
  exact ⟨roomId, hroom, hshown⟩

/-- If the result is that for the single events, the policy of the last room makes no difference. -/
theorem EventByEvent.decidedAlike (hids : EventIds events)
    (h : EventByEvent pruning order s request events) (hevent : event ∈ events)
    (hsoft : event.softFailed = false) : request.filterSendToClient = true ∧ StateKnown s event ∧
      DecidedAlike pruning order s request events event := by
  obtain ⟨results, hsingles, hbatch⟩ := h
  -- the result for a single event that is not soft-failed
  have hsingle : ∀ {event result}, event.softFailed = false →
      filterEventsForClient pruning order s request [event] = .ok result →
      request.filterSendToClient = true ∧ StateKnown s event ∧ ∃ shown,
        decideEvent pruning s request (s.retentionPolicy event.roomId) event = .ok shown ∧
          result = shown.toList := by
    intro event result hsoft h
    rcases filterEventsForClient_singleton.mp h with ⟨htrue, _⟩ | ⟨_, h⟩
    · rw [hsoft] at htrue
      exact absurd htrue Bool.false_ne_true
    · exact h
  obtain ⟨result, hresult, hown⟩ := exists_right_of_forall₂ hsingles hevent
  obtain ⟨hsend, hknown, shown, hshown, rfl⟩ := hsingle hsoft hown
  have hmem : event ∈ events.filter fun e => !e.softFailed := mem_filter.mpr ⟨hevent, by rw [hsoft]; rfl⟩
  obtain ⟨_, hok, hresults⟩ := filterNotSoftFailed_eq_ok_iff.mp hbatch
  obtain ⟨shown', hshown'⟩ := hok event hmem
  obtain ⟨roomId, hroom, hlast⟩ := exists_policy_of_eq_ok hshown'
  refine ⟨hsend, hknown, roomId, hroom, shown, hshown, ?_⟩
  -- the event that is shown is found in both results, and belongs to this event by its ID
  have hiff : ∀ v, shown = some v ↔ shown' = some v := by
    intro v
    constructor
    · intro hv
      have hin : v ∈ results.flatten := mem_flatten.mpr ⟨_, hresult, by rw [hv]; exact mem_singleton_self v⟩
      rw [← hresults] at hin
      obtain ⟨event', hevent', hv'⟩ := mem_filterMap.mp hin
      obtain ⟨shown'', hshown''⟩ := hok event' hevent'
      rw [hshown''] at hv'
      obtain rfl : shown'' = some v := hv'
      obtain ⟨roomId', _, hlast'⟩ := exists_policy_of_eq_ok hshown''
      rw [hv] at hshown
      have hid : event'.eventId = event.eventId :=
        (eventId_of_decideEvent hlast').symm.trans (eventId_of_decideEvent hshown)
      obtain rfl := hids event' (mem_filter.mp hevent').1 event hevent hid
      rw [hshown'] at hshown''
      exact Except.ok.inj hshown''
    · intro hv
      have hin : v ∈ results.flatten := by
        rw [← hresults]
        exact mem_filterMap.mpr ⟨event, hmem, by rw [hshown', hv]; rfl⟩
      obtain ⟨result, hresult, hvin⟩ := mem_flatten.mp hin
      obtain ⟨event', hevent', hown'⟩ := exists_left_of_forall₂ hsingles hresult
      rcases filterEventsForClient_singleton.mp hown' with ⟨_, rfl⟩ | ⟨_, _, _, shown'', hshown'', rfl⟩
      · exact nomatch hvin
      · obtain rfl : shown'' = some v := Option.mem_toList.mp hvin
        rw [hv] at hlast
        have hid : event'.eventId = event.eventId :=
          (eventId_of_decideEvent hshown'').symm.trans (eventId_of_decideEvent hlast)
        obtain rfl := hids event' hevent' event hevent hid
        rw [hshown] at hshown''
        exact Except.ok.inj hshown''
  rw [hlast, Option.ext hiff]

theorem eventByEvent_of_decidedAlike (h : ∀ event ∈ events, event.softFailed = false →
      request.filterSendToClient = true ∧ StateKnown s event ∧
        DecidedAlike pruning order s request events event) :
    EventByEvent pruning order s request events := by
  refine ⟨events.map fun event => if !event.softFailed then
    (shownWith pruning s request (s.retentionPolicy event.roomId) event).toList else [], ?_, ?_⟩
  · refine forall₂_map_right_iff.mpr (forall₂_same.mpr fun event hevent => ?_)
    rw [filterEventsForClient_singleton]
    cases hsoft : event.softFailed with
    | true => exact .inl ⟨rfl, rfl⟩
    | false =>
      obtain ⟨hsend, hknown, _, _, shown, hshown, _⟩ := h event hevent hsoft
      refine .inr ⟨rfl, hsend, hknown, shown, hshown, ?_⟩
      rw [shownWith_of_eq_ok hshown]
      rfl
  · -- every check in the list returns what it returns for the event alone
    have hclosure : ∀ event ∈ events.filter fun e => !e.softFailed,
        (closureRetentionPolicy order s request (events.filter fun e => !e.softFailed) >>=
          fun retentionPolicy => decideEvent pruning s request retentionPolicy event) =
            .ok (shownWith pruning s request (s.retentionPolicy event.roomId) event) := by
      intro event hevent
      obtain ⟨hevent, hsoft⟩ := mem_filter.mp hevent
      obtain ⟨hsend, _, roomId, hroom, shown, hshown, hlast⟩ := h event hevent (by simpa using hsoft)
      rw [shownWith_of_eq_ok hshown]
      exact bind_eq_ok.mpr ⟨_, closureRetentionPolicy_eq_ok_iff.mpr ⟨hsend, roomId, hroom, rfl⟩, hlast⟩
    rw [flatten_map_filter]
    refine filterNotSoftFailed_eq_ok_iff.mpr ⟨fun event hevent => ?_, fun event hevent => ?_, ?_⟩
    · obtain ⟨hevent, hsoft⟩ := mem_filter.mp hevent
      exact (h event hevent (by simpa using hsoft)).2.1
    · exact ⟨_, hclosure event hevent⟩
    · exact filterMap_congr fun event hevent => by
        rw [hclosure event hevent]
        rfl

/-- **Visibility is decided event by event** exactly if events are filtered for clients, their states are
known, and for every event the policy of the room that comes last decides like that of its own room. -/
theorem filterEventsForClient_iff (pruning : Pruning) (order : IterOrder) (s : Storage)
    (request : ClientRequest) (events : List Event) (hids : EventIds events) :
    EventByEvent pruning order s request events ↔ ∀ event ∈ events, event.softFailed = false →
        request.filterSendToClient = true ∧ StateKnown s event ∧
          DecidedAlike pruning order s request events event := by
  constructor
  · exact fun h event hevent hsoft => h.decidedAlike hids hevent hsoft
  · exact eventByEvent_of_decidedAlike

/-! ## When the policy makes no difference -/

/-- A policy matters for events that are not state, and only by whether they have expired. -/
theorem decideEvent_congr {retentionPolicy retentionPolicy' : RetentionPolicy} (h : event.isState = true ∨
      expired s.timeMsec retentionPolicy event = expired s.timeMsec retentionPolicy' event) :
    decideEvent pruning s request retentionPolicy event =
      decideEvent pruning s request retentionPolicy' event := by
  have hfilter : ∀ senderIgnored, checkFilterSendToClient event s.timeMsec retentionPolicy senderIgnored =
      checkFilterSendToClient event s.timeMsec retentionPolicy' senderIgnored := by
    intro senderIgnored
    unfold checkFilterSendToClient
    rcases h with hstate | hexpired
    · rw [hstate]
      rfl
    · rw [hexpired]
  unfold decideEvent checkClientAllowedToSeeEvent
  rw [hfilter]

/-- **Well-formed events that the policy of the last room treats like that of their own are decided event by
event**; so are those of rooms with one policy.  Nothing is asked of soft-failed events. -/
theorem eventByEvent_of_expired (hsend : request.filterSendToClient = true)
    (hevents : ∀ event ∈ events, event.softFailed = false → event.WellFormed ∧ StateKnown s event ∧
      (∀ state ∈ stateFor s request.userId event, HasMembership state request.userId) ∧
      (event.isState = true ∨
        ∀ roomId ∈ (loopRoomIds order (events.filter fun e => !e.softFailed)).getLast?,
          expired s.timeMsec (s.retentionPolicy event.roomId) event =
            expired s.timeMsec (s.retentionPolicy roomId) event)) :
    EventByEvent pruning order s request events := by
  apply eventByEvent_of_decidedAlike
  intro event hevent hsoft
  obtain ⟨hwell, hknown, hstate, hexpired⟩ := hevents event hevent hsoft
  -- the loop has visited a room, that of this event
  obtain ⟨roomId, hroom⟩ : ∃ roomId,
      (loopRoomIds order (events.filter fun e => !e.softFailed)).getLast? = some roomId := by
    have hin : event.roomId ∈ loopRoomIds order (events.filter fun e => !e.softFailed) :=
      order.mem_order.mpr (mem_dedup.mpr (mem_map_of_mem (mem_filter.mpr ⟨hevent, by rw [hsoft]; rfl⟩)))
    exact ⟨_, getLast?_eq_some_getLast (ne_nil_of_mem hin)⟩
  obtain ⟨shown, hshown⟩ : ∃ shown,
      decideEvent pruning s request (s.retentionPolicy event.roomId) event = .ok shown := by
    unfold decideEvent checkClientAllowedToSeeEvent
    split
    · exact ⟨none, rfl⟩
    · refine hwell.checkVisible (fun hnot => ?_) hstate _ _ _ _
      unfold stateFor
      rw [Option.isSome_map]
      exact hknown hnot
  refine ⟨hsend, hknown, roomId, hroom, shown, hshown, ?_⟩
  rw [← decideEvent_congr (hexpired.imp_right fun h => h roomId hroom)]
  exact hshown

end

/-! ## Two rooms

The events of a room are kept for ten milliseconds, those of another one forever. -/

def noPruning : Pruning := ⟨id, fun _ => rfl⟩

def aliceJoins (eventId roomId : String) : Event :=
  ⟨eventId, EventTypes.member, roomId, "@alice:hs", some (some "@alice:hs"),
    [("membership", .str "join")], [], 1, false, false⟩

/-- Rooms without history visibility, of which Alice is a member, seen at time 100; `$old` and `$recent` are
of the one, `$new` and `$expired` of the other. -/
def twoRooms : Storage where
  stateIds eventId := some (.single (EventTypes.member, "@alice:hs")
    (if eventId = "$old" ∨ eventId = "$recent" then "$long" else "$short"))
  getEvent := fun id => [aliceJoins "$long" "!long", aliceJoins "$short" "!short"].find? fun event =>
    event.eventId = id
  ignoredUsersTable := []
  erasedUsers := []
  retentionPolicy roomId := if roomId = "!short" then ⟨some 10⟩ else ⟨none⟩
  timeMsec := 100

def message (eventId roomId : String) (originServerTs : ℤ) : Event :=
  ⟨eventId, "m.room.message", roomId, "@bob:hs", none, [], [], originServerTs, false, false⟩

def alicesRequest (filterSendToClient : Bool) : ClientRequest := ⟨"@alice:hs", false, [], filterSendToClient⟩

/-- An old event of the room without a limit is shown alone, but not together with an event of the other
room; and when events are not about to be sent to a client, the function raises. -/
theorem twoRooms_notEventByEvent :
    (filterEventsForClient noPruning .insertion twoRooms (alicesRequest true)
        [message "$old" "!long" 5]).toOption.map (List.map eventId) = some ["$old"] ∧
      (filterEventsForClient noPruning .insertion twoRooms (alicesRequest true)
        [message "$old" "!long" 5, message "$new" "!short" 95]).toOption.map (List.map eventId) =
          some ["$new"] ∧
      ¬EventByEvent noPruning .insertion twoRooms (alicesRequest true)
        [message "$old" "!long" 5, message "$new" "!short" 95] ∧
      filterEventsForClient noPruning .insertion twoRooms (alicesRequest false) [message "$old" "!long" 5] =
        .error (.nameError "retention_policies") := by
  refine ⟨by decide +kernel, by decide +kernel, fun h => ?_, rfl⟩
  obtain ⟨_, _, roomId, hroom, shown, hown, hlast⟩ := h.decidedAlike
    (fun event hevent event' hevent' => inj_on_of_nodup_map (by decide) hevent hevent') mem_cons_self rfl
  obtain rfl := Option.some.inj hroom
  -- with the policy of `!long` the old event is shown, with that of `!short` it is not
  have hsome : some (message "$old" "!long" 5) = shown := Except.ok.inj hown
  have hnone : none = shown := Except.ok.inj hlast
  exact nomatch hsome.trans hnone.symm

/-- Events that the policy of `!short`, the last room, treats like that of their own room. -/
def decidedAlike : List Event :=
  [message "$recent" "!long" 95, message "$expired" "!short" 5, message "$new" "!short" 95]

theorem twoRooms_eventByEvent :
    EventByEvent noPruning .insertion twoRooms (alicesRequest true) decidedAlike := by
  refine (filterEventsForClient_iff _ _ _ _ _ fun event hevent event' hevent' =>
    inj_on_of_nodup_map (by decide) hevent hevent').mpr fun event hevent _ => ?_
  simp only [decidedAlike, mem_cons, not_mem_nil, or_false] at hevent
  rcases hevent with rfl | rfl | rfl
  · exact ⟨rfl, fun _ => rfl, "!short", rfl, some (message "$recent" "!long" 95), rfl, rfl⟩
  · exact ⟨rfl, fun _ => rfl, "!short", rfl, none, rfl, rfl⟩
  · exact ⟨rfl, fun _ => rfl, "!short", rfl, some (message "$new" "!short" 95), rfl, rfl⟩

theorem eventByEvent_twoRooms :
    EventByEvent noPruning .insertion twoRooms (alicesRequest true) decidedAlike ∧
      (filterEventsForClient noPruning .insertion twoRooms (alicesRequest true) decidedAlike).toOption.map
        (List.map eventId) = some ["$recent", "$new"] := by
  refine ⟨eventByEvent_of_expired rfl fun event hevent _ => ?_, by decide +kernel⟩
  simp only [decidedAlike, mem_cons, not_mem_nil, or_false] at hevent
  rcases hevent with rfl | rfl | rfl
  all_goals
    refine ⟨⟨fun _ => by contradiction, _, rfl⟩, fun _ => rfl, fun state hstate event hmember => ?_,
      .inr fun roomId hroom => ?_⟩
    · obtain rfl := Option.some.inj hstate
      obtain rfl := Option.some.inj hmember
      exact ⟨_, rfl⟩
    · obtain rfl := Option.some.inj hroom
      rfl

end Synapse.Visibility
