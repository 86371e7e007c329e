import Synapse.State.LexicalSort
import Synapse.State.StateMap
import Synapse.Util.ReadThrough

/-!
# State resolution, version 2

`synapse/state/v2.py` resolves a list of state sets, maps from `(type, state_key)` to event ids.  The
keys on which the sets agree are kept.  The events of the other keys and those that are in the auth
chains of some of the sets only are the *full conflicted set*.  Its power events are sorted with their
auth events and checked one after the other against the state so far; then the rest is sorted by the
power events that it was sent under and checked too.

All functions look events up in `event_map` and, if it does not have them, ask the store and keep the
answer.  They are written here over an `Access`, the ways in which the code looks events up and raises
exceptions, so that the same text is the code over the cache (`cachedAccess`) and the code over a fixed
set of events (`viewAccess`).

The auth rules, `check_state_dependent_auth_rules`, are a parameter: a predicate of the event and of its
auth events by `(type, state_key)`.  So is how each set is walked, `ResolveOrders`.  The functions that
loop along auth events take the number of rounds that they may take; no run needs more than `rounds`
unless auth events form a cycle.

Every event here is a state event, as those of state sets and of auth chains are.
-/

namespace Synapse.State

open Synapse.Util

/-! ## Events -/

inductive Membership where
  | join
  | invite
  | knock
  | leave
  | ban
  | other (name : String)
  deriving DecidableEq

/-- A power level in the content of an event: `null`, something that `int()` accepts, or something that
it does not. -/
inductive Level where
  | null
  | int (level : ℤ)
  | invalid
  deriving DecidableEq

/-- What the code reads of an event: its envelope and these parts of its content. -/
structure Event (ε ρ : Type) where
  eventId : ε
  roomId : ρ
  type : EventType
  stateKey : String
  sender : String
  originServerTs : ℤ
  authEventIds : List ε
  /-- Whether `rejected_reason` is set. -/
  rejected : Bool
  /-- `content["membership"]`. -/
  membership : Option Membership
  /-- `content["creator"]`. -/
  creator : Option String
  /-- `content["users"]`, empty if it is absent; `none` if it is not a dictionary. -/
  users : Option (Dict String Level)
  /-- `content["users_default"]`. -/
  usersDefault : Option Level
  /-- `content["third_party_invite"]`, with `["signed"]["token"]` if it has one. -/
  thirdPartyInvite : Option (Option String)
  /-- `content["join_authorised_via_users_server"]`. -/
  authorisingUser : Option String

abbrev powerLevelsKey : StateKey := (.powerLevels, "")

variable {ε ρ : Type}

def Event.key (event : Event ε ρ) : StateKey := (event.type, event.stateKey)

/-- `event_map`. -/
abbrev EventMap (ε ρ : Type) : Type := Dict ε (Event ε ρ)

/-- The events that can be found. -/
abbrev View (ε ρ : Type) : Type := ε → Option (Event ε ρ)

inductive ResolveError (ε ρ : Type) where
  /-- "Unknown event %s". -/
  | unknownEvent (eventId : ε)
  /-- "In state res for room %s, event %s is in %s". -/
  | inStateRes (roomId : ρ) (eventId : ε) (eventRoomId : ρ)
  /-- "Attempting to state-resolve for room %s with event %s which is in %s". -/
  | stateResolve (roomId : ρ) (eventId : ε) (eventRoomId : ρ)
  /-- `event_map[event_id]` or a missing part of the content of an event. -/
  | keyError
  /-- `int(level)`, or `users` is not a dictionary. -/
  | valueError
  /-- `unpersisted_set_ids[0]`. -/
  | indexError
  /-- A loop along the auth events would go on. -/
  | outOfRounds

/-- `StateResolutionStore`. -/
structure StateResolutionStore (ε ρ : Type) where
  /-- What `get_events` finds, rejected events included. -/
  events : EventMap ε ρ
  /-- `get_auth_chain_difference`. -/
  getAuthChainDifference : List (List ε) → List ε

/-- How the code walks the sets and dictionaries that it meets. -/
structure ResolveOrders (ε : Type) extends SortOrders ε where
  /-- The keys of all state sets. -/
  keys : IterOrder
  /-- `event_map.values()`. -/
  eventMap : IterOrder
  /-- The full conflicted set, for the power events. -/
  powerEvents : IterOrder
  /-- The graph, for the power levels of the senders. -/
  nodes : IterOrder
  /-- The auth types of an event. -/
  authTypes : ε → IterOrder
  /-- The full conflicted set, for the events that are left over. -/
  leftover : IterOrder

/-- How the code looks events up and raises exceptions. -/
structure Access (m : Type → Type) (ε ρ : Type) where
  /-- `event_map.get(event_id)` after the store was asked, if it had to be. -/
  find : ε → m (Option (Event ε ρ))
  /-- `event_map[event_id]`. -/
  index : ε → m (Event ε ρ)
  raise : ∀ {α : Type}, ResolveError ε ρ → m α

def Access.ofOption {m : Type → Type} [Monad m] (access : Access m ε ρ) {α : Type}
    (error : ResolveError ε ρ) : Option α → m α
  | some a => pure a
  | none => access.raise error

/-- `event_map`, filled from the store. -/
def cachedAccess [DecidableEq ε] (events : View ε ρ) :
    Access (StateT (EventMap ε ρ) (Except (ResolveError ε ρ))) ε ρ where
  find := fetchThrough events
  index := indexCache .keyError
  raise error := fun _ => .error error

/-- How a run over a fixed set of events can stop. -/
inductive Stop where
  | raised
  | outOfRounds
  deriving DecidableEq

def ResolveError.stop : ResolveError ε ρ → Stop
  | .outOfRounds => .outOfRounds
  | _ => .raised

/-- A fixed set of events. -/
def viewAccess (view : View ε ρ) : Access (Except Stop) ε ρ where
  find eventId := .ok (view eventId)
  index eventId :=
    match view eventId with
    | some event => .ok event
    | none => .error .raised
  raise error := .error error.stop

/-! ## What the code reads of the content of events -/

/-- The end of `_get_power_level_for_sender`: the level of a user in a power levels event. -/
def Event.levelOf (pl : Event ε ρ) (user : String) : Option ℤ := do
  let users ← pl.users
  let level :=
    match users.lookup user with
    | none | some .null => pl.usersDefault.getD (.int 0)
    | some level => level
  match level with
  | .null => some 0
  | .int level => some level
  | .invalid => none

/-- `_is_power_event`; `none` is a `KeyError`. -/
def isPowerEvent (event : Event ε ρ) : Option Bool :=
  if event.key ∈ [powerLevelsKey, (.joinRules, ""), (.create, "")] then some true
  else if event.type = .member then do
    let membership ← event.membership
    if membership ∈ [.leave, .ban] then some (event.sender ≠ event.stateKey) else some false
  else some false

/-- `auth_types_for_event`; `none` is a `KeyError`. -/
def authTypesForEvent (restrictedJoinRule : Bool) (event : Event ε ρ) : Option (List StateKey) :=
  if event.type = .create then some []
  else
    let authTypes := (([powerLevelsKey].insert (.member, event.sender)).insert (.create, ""))
    if event.type = .member then do
      let membership ← event.membership
      let authTypes :=
        if membership ∈ [.join, .invite, .knock] then authTypes.insert (.joinRules, "") else authTypes
      let authTypes := authTypes.insert (.member, event.stateKey)
      let authTypes ←
        match event.thirdPartyInvite with
        | some token =>
          if membership = .invite then do some (authTypes.insert (.thirdPartyInvite, ← token))
          else some authTypes
        | none => some authTypes
      match event.authorisingUser with
      | some user =>
        if restrictedJoinRule ∧ membership = .join then some (authTypes.insert (.member, user))
        else some authTypes
      | none => some authTypes
    else some authTypes

/-! ## Looking events up -/

section
variable {m : Type → Type} [Monad m] (access : Access m ε ρ)

section
variable [DecidableEq ρ] (roomId : ρ)

/-- `_get_event` with `allow_none`. -/
def getEventOrNone (eventId : ε) : m (Option (Event ε ρ)) := do
  match ← access.find eventId with
  | none => pure none
  | some event =>
    if event.roomId = roomId then pure (some event)
    else access.raise (.inStateRes roomId eventId event.roomId)

/-- `_get_event`. -/
def getEvent (eventId : ε) : m (Event ε ρ) := do
  match ← getEventOrNone access roomId eventId with
  | none => access.raise (.unknownEvent eventId)
  | some event => pure event

/-- The loops that look for the first auth event with a given `(type, state_key)`. -/
def findAuthEvent (key : StateKey) : List ε → m (Option (ε × Event ε ρ))
  | [] => pure none
  | aid :: aids => do
    match ← getEventOrNone access roomId aid with
    | none => findAuthEvent key aids
    | some aev => if aev.key = key then pure (some (aid, aev)) else findAuthEvent key aids

/-- `_get_power_level_for_sender`. -/
def getPowerLevelForSender (eventId : ε) : m ℤ := do
  let event ← getEvent access roomId eventId
  match ← findAuthEvent access roomId powerLevelsKey event.authEventIds with
  | some pl => access.ofOption .valueError (pl.2.levelOf event.sender)
  | none =>
    match ← findAuthEvent access roomId (.create, "") event.authEventIds with
    | some create => pure (if create.2.creator = some event.sender then 100 else 0)
    | none => pure 0

end

variable [LinearOrder ε] [DecidableEq ρ] (roomId : ρ)

/-! ## The power events -/

/-- The generator `power_events`.  The code runs it while it builds the graph; running it first can only
change which exception is raised. -/
def powerEventsOf (eventIds : List ε) : m (List ε) := eventIds.foldlM (fun powerEvents eventId => do
    let event ← access.index eventId
    let isPower ← access.ofOption .keyError (isPowerEvent event)
    pure (if isPower then powerEvents ++ [eventId] else powerEvents)) []

/-- The loop body for one auth event in `_add_event_and_auth_chain_to_graph`. -/
def addEdge (fullConflictedSet : List ε) (eid : ε) (acc : Dict ε (List ε) × List ε) (aid : ε) :
    Dict ε (List ε) × List ε :=
  if aid ∈ fullConflictedSet then
    (acc.1.insert eid ((acc.1.getD eid []).insert aid), if aid ∈ acc.1 then acc.2 else aid :: acc.2)
  else acc

/-- The loop of `_add_event_and_auth_chain_to_graph`; the head of `state` is its end in the code. -/
def addEventAndAuthChainToGraph (fullConflictedSet : List ε) :
    ℕ → Dict ε (List ε) → List ε → m (Dict ε (List ε))
  | _, graph, [] => pure graph
  | 0, _, _ :: _ => access.raise .outOfRounds
  | rounds + 1, graph, eid :: state => do
    let event ← getEvent access roomId eid
    let acc := event.authEventIds.foldl (addEdge fullConflictedSet eid)
      (graph.insert eid (graph.getD eid []), state)
    addEventAndAuthChainToGraph fullConflictedSet rounds acc.1 acc.2

/-- `event_to_pl`, and what `_get_power_order` makes of it for each event of the graph.  The sort asks for
these keys one by one; the last part of a key, the event id, is left out here. -/
def getPowerOrder (o : ResolveOrders ε) (nodes : List ε) : m (Dict ε (ℤ ×ₗ ℤ)) := do
  let eventToPl ← Dict.ofKeysM (o.nodes.order nodes) (getPowerLevelForSender access roomId)
  Dict.ofKeysM nodes fun eventId => do
    let ev ← access.index eventId
    pure (toLex (-eventToPl.getD eventId 0, ev.originServerTs))

/-- `_reverse_topological_power_sort`. -/
def reverseTopologicalPowerSort (o : ResolveOrders ε) (rounds : ℕ) (eventIds fullConflictedSet : List ε) :
    m (List ε) := do
  let graph ← eventIds.foldlM (fun graph eventId =>
    addEventAndAuthChainToGraph access roomId fullConflictedSet rounds graph [eventId]) ∅
  let powerOrder ← getPowerOrder access roomId o graph.keys
  pure (lexicographicalTopologicalSort o.toSortOrders graph fun eventId =>
    (toLex (powerOrder.getD eventId (toLex (0, 0)), eventId) : (ℤ ×ₗ ℤ) ×ₗ ε))

/-! ## The auth checks -/

/-- Whether an event is accepted against a state. -/
abbrev AuthCheck (ε ρ : Type) := Event ε ρ → (StateKey → Option (Event ε ρ)) → Bool

section
variable (restrictedJoinRule : Bool)
  (checkStateDependentAuthRules : AuthCheck ε ρ)

/-- The auth events of an event that are known and not rejected. -/
def ownAuthEvents (event : Event ε ρ) : m (Dict StateKey (Event ε ρ)) :=
  event.authEventIds.foldlM (fun authEvents aid => do
    match ← getEventOrNone access roomId aid with
    | none => pure authEvents
    | some ev => pure (if ev.rejected then authEvents else authEvents.insert ev.key ev)) ∅

/-- The auth events that the state so far gives for some keys. -/
def overlayState (resolvedState : StateMap ε) (authTypes : List StateKey)
    (authEvents : Dict StateKey (Event ε ρ)) : m (Dict StateKey (Event ε ρ)) :=
  authTypes.foldlM (fun authEvents key => do
    match resolvedState.lookup key with
    | none => pure authEvents
    | some evId => do
      -- `event_map[ev_id]`, which the code puts into the dictionary, is what it has just been given.
      let ev ← getEvent access roomId evId
      pure (if ev.rejected then authEvents else authEvents.insert key ev)) authEvents

/-- The loop body of `_iterative_auth_checks`. -/
def applyEvent (o : ResolveOrders ε) (resolvedState : StateMap ε) (eventId : ε) : m (StateMap ε) := do
  let event ← access.index eventId
  let authEvents ← ownAuthEvents access roomId event
  let authTypes ← access.ofOption .keyError (authTypesForEvent restrictedJoinRule event)
  let authEvents ← overlayState access roomId resolvedState ((o.authTypes eventId).order authTypes)
    authEvents
  pure (
    if event.rejected then resolvedState
    else if checkStateDependentAuthRules event authEvents.lookup then
      resolvedState.insert event.key eventId
    else resolvedState)

/-- `_iterative_auth_checks`. -/
def iterativeAuthChecks (o : ResolveOrders ε) (eventIds : List ε) (baseState : StateMap ε) :
    m (StateMap ε) :=
  eventIds.foldlM (applyEvent access roomId restrictedJoinRule checkStateDependentAuthRules o) baseState

end

/-! ## The mainline -/

/-- The loop that builds the mainline, from a power levels event back. -/
def mainlineFrom : ℕ → Option ε → m (List ε)
  | _, none => pure []
  | 0, some _ => access.raise .outOfRounds
  | rounds + 1, some pl => do
    let plEv ← getEvent access roomId pl
    let next ← findAuthEvent access roomId powerLevelsKey plEv.authEventIds
    let rest ← mainlineFrom rounds (next.map (·.1))
    pure (pl :: rest)

/-- `{ev_id: i + 1 for i, ev_id in enumerate(reversed(mainline))}`. -/
def mainlineMapOf (mainline : List ε) : Dict ε ℕ :=
  Dict.update ∅ (mainline.reverse.zipIdx.map fun p => (p.1, p.2 + 1))

/-- The loop of `_get_mainline_depth_for_event`. -/
def getMainlineDepthForEvent (mainlineMap : Dict ε ℕ) : ℕ → Option (Event ε ρ) → m ℕ
  | _, none => pure 0
  | 0, some _ => access.raise .outOfRounds
  | rounds + 1, some tmpEvent =>
    match mainlineMap.lookup tmpEvent.eventId with
    | some depth => pure depth
    | none => do
      let next ← findAuthEvent access roomId powerLevelsKey tmpEvent.authEventIds
      getMainlineDepthForEvent mainlineMap rounds (next.map (·.2))

/-- `_mainline_sort`. -/
def mainlineSort (rounds : ℕ) (eventIds : List ε) (resolvedPowerEventId : Option ε) : m (List ε) :=
  if eventIds = [] then pure []
  else do
    let mainline ← mainlineFrom access roomId rounds resolvedPowerEventId
    let orderMap ← Dict.ofKeysM eventIds fun evId => do
      let event ← access.index evId
      let depth ← getMainlineDepthForEvent access event.roomId (mainlineMapOf mainline) rounds
        (some event)
      pure (toLex (depth, event.originServerTs))
    let order := fun evId =>
      (toLex (orderMap.getD evId (toLex (0, 0)), evId) : (ℕ ×ₗ ℤ) ×ₗ ε)
    pure (eventIds.insertionSort fun a b => order a ≤ order b)

/-! ## The whole -/

/-- The part of `resolve_events_with_store` after the full conflicted set is known. -/
def resolveConflicted (restrictedJoinRule : Bool)
    (checkStateDependentAuthRules : AuthCheck ε ρ)
    (o : ResolveOrders ε) (rounds : ℕ) (fullConflictedSet : List ε) (unconflictedState : StateMap ε) :
    m (StateMap ε) := do
  let powerEvents ← powerEventsOf access (o.powerEvents.order fullConflictedSet)
  let sortedPowerEvents ← reverseTopologicalPowerSort access roomId o rounds powerEvents
    fullConflictedSet
  let resolvedState ← iterativeAuthChecks access roomId restrictedJoinRule
    checkStateDependentAuthRules o sortedPowerEvents unconflictedState
  let leftoverEvents := (o.leftover.order fullConflictedSet).filter (· ∉ sortedPowerEvents)
  let leftoverEvents ← mainlineSort access roomId rounds leftoverEvents
    (resolvedState.lookup powerLevelsKey)
  let resolvedState ← iterativeAuthChecks access roomId restrictedJoinRule
    checkStateDependentAuthRules o leftoverEvents resolvedState
  pure (resolvedState.update unconflictedState.items)

end

section
variable [LinearOrder ε]

/-- `_seperate`. -/
def seperate (o : ResolveOrders ε) (stateSets : List (StateMap ε)) :
    StateMap ε × Dict StateKey (List ε) :=
  (o.keys.order (stateSets.flatMap (·.keys)).dedup).foldl (fun acc key =>
    match (stateSets.map (·.lookup key)).dedup with
    | [some eventId] => (acc.1.insert key eventId, acc.2)
    | eventIds => (acc.1, acc.2.insert key (eventIds.filterMap id))) (∅, ∅)

def StateMap.values (stateSet : StateMap ε) : List ε := stateSet.items.map Prod.snd

/-- The `while to_search` loop of `_get_auth_chain_difference`; the head of `toSearch` is its end in the
code.  Nothing stops the loop from searching an event again, so it is given a bound. -/
def searchChain (unpersistedEvents : EventMap ε ρ) : ℕ → List ε → List (Event ε ρ) → Option (List ε)
  | _, chain, [] => some chain
  | 0, _, _ :: _ => none
  | rounds + 1, chain, event :: toSearch =>
    searchChain unpersistedEvents rounds
      (event.authEventIds.foldl (fun chain authId => chain.insert authId) chain)
      ((event.authEventIds.filterMap unpersistedEvents.lookup).reverse ++ toSearch)

/-- A bound for the search: the number of paths along auth events, if these form no cycle. -/
def searchRounds (unpersistedEvents : EventMap ε ρ) : ℕ :=
  ((unpersistedEvents.items.map fun entry => entry.2.authEventIds.length).sum + 1) ^
    unpersistedEvents.keys.length

/-- `events_to_auth_chain`. -/
def eventsToAuthChain (unpersistedEvents : EventMap ε ρ) :
    Except (ResolveError ε ρ) (Dict ε (List ε)) :=
  (unpersistedEvents.items.map Prod.snd).foldlM (fun eventsToAuthChain event =>
    match searchChain unpersistedEvents (searchRounds unpersistedEvents) [event.eventId] [event] with
    | some chain => .ok (eventsToAuthChain.insert event.eventId chain)
    | none => .error .outOfRounds) ∅

/-- The loop body for one state set: the event ids to ask the store about, and those that are
unpersisted. -/
def splitStateSet (unpersistedEvents : EventMap ε ρ) (eventsToAuthChain : Dict ε (List ε))
    (stateSet : StateMap ε) : List ε × List ε :=
  stateSet.values.foldl (fun acc eventId =>
    match eventsToAuthChain.lookup eventId with
    | some eventChain =>
      (acc.1 ∪ eventChain.filter (· ∉ unpersistedEvents),
        acc.2 ∪ eventChain.filter (· ∈ unpersistedEvents))
    | none => (acc.1.insert eventId, acc.2)) ([], [])

/-- `_get_auth_chain_difference`. -/
def getAuthChainDifference (stateSets : List (StateMap ε)) (unpersistedEvents : EventMap ε ρ)
    (stateResStore : StateResolutionStore ε ρ) : Except (ResolveError ε ρ) (List ε) := do
  let eventsToAuthChain ← eventsToAuthChain unpersistedEvents
  if unpersistedEvents.keys = [] then
    .ok (stateResStore.getAuthChainDifference (stateSets.map StateMap.values))
  else
    let parts := stateSets.map (splitStateSet unpersistedEvents eventsToAuthChain)
    match parts.map Prod.snd with
    | [] => .error .indexError
    | first :: others =>
      let union := others.foldl (· ∪ ·) first
      let intersection := others.foldl (· ∩ ·) first
      .ok (stateResStore.getAuthChainDifference (parts.map Prod.fst) ∪ union.filter (· ∉ intersection))

/-- The events that the code can look up. -/
def knownEvents (eventMap : EventMap ε ρ) (stateResStore : StateResolutionStore ε ρ) :
    EventMap ε ρ := stateResStore.events.update eventMap.items

/-- A bound for the loops along auth events. -/
def roundsFor (events : EventMap ε ρ) : ℕ :=
  1 + (events.items.map fun entry => 1 + entry.2.authEventIds.length).sum

section
variable [DecidableEq ρ] (o : ResolveOrders ε) (roomId : ρ) (restrictedJoinRule : Bool)
  (checkStateDependentAuthRules : AuthCheck ε ρ)

/-- The part of `resolve_events_with_store` after the events of the full conflicted set were fetched. -/
def resolveFetched (rounds : ℕ) (stateResStore : StateResolutionStore ε ρ)
    (eventMap : EventMap ε ρ) (fullConflictedSet : List ε) (unconflictedState : StateMap ε) :
    Except (ResolveError ε ρ) (StateMap ε) :=
  match (o.eventMap.order eventMap.items).find? fun entry => entry.2.roomId ≠ roomId with
  | some entry => .error (.stateResolve roomId entry.2.eventId entry.2.roomId)
  | none => do
    let (resolvedState, _) ← resolveConflicted (cachedAccess stateResStore.events.lookup) roomId
      restrictedJoinRule checkStateDependentAuthRules o rounds
      (fullConflictedSet.filter (· ∈ eventMap)) unconflictedState eventMap
    .ok resolvedState

/-- `event_map.update(events)` with the events of the full conflicted set that it does not have. -/
def fetchMissing (stateResStore : StateResolutionStore ε ρ) (eventMap : EventMap ε ρ)
    (fullConflictedSet : List ε) : EventMap ε ρ :=
  eventMap.update ((fullConflictedSet.filter (· ∉ eventMap)).filterMap fun eid =>
    (stateResStore.events.lookup eid).map (eid, ·))

/-- `resolve_events_with_store`. -/
def resolveEventsWithStore (stateSets : List (StateMap ε)) (eventMap : Option (EventMap ε ρ))
    (stateResStore : StateResolutionStore ε ρ) : Except (ResolveError ε ρ) (StateMap ε) :=
  let eventMap := eventMap.getD ∅
  let separated := seperate o stateSets
  if separated.2.keys = [] then .ok separated.1
  else do
    let authDiff ← getAuthChainDifference stateSets eventMap stateResStore
    let fullConflictedSet := ((separated.2.items.map Prod.snd).flatten ++ authDiff).dedup
    resolveFetched o roomId restrictedJoinRule checkStateDependentAuthRules
      (roundsFor (knownEvents eventMap stateResStore)) stateResStore
      (fetchMissing stateResStore eventMap fullConflictedSet) fullConflictedSet separated.1

end
end
end Synapse.State
