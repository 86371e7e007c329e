import Mathlib.Data.Finset.Option
import Mathlib.Data.Finset.Sort
import Mathlib.Order.Lattice.Nat
import Synapse.Storage.Extremities
import Synapse.Util.Reach

/-!
# The current state after a batch

`_calculate_new_forward_extremities_and_state_delta` finds the forward extremities that a batch of
events leaves and how the current state changes.  The current state is meant to be the resolution of
the state groups of the forward extremities; most of the code is about not computing it: nothing is
computed when the extremities, or their state groups, are the same as before, a difference between two
state groups that some context knows already is used as it is, and a resolution that gives one of the
groups may drop the extremities that have another.

Every one of these shortcuts is right but the first one, for a batch of events that are not state
events and have one prev event each: it takes for granted that the batch sits on the old extremity.
`calculate_follows_iff` says exactly when the current state follows the forward extremities.
-/

namespace Synapse.Storage

open Synapse.Util Relation List Finset Dict
open Finset (Subset.refl singleton_inj)
open Option (ext some.inj)

/-- Two dictionaries with the same content. -/
def SameState {κ ε : Type} [DecidableEq κ] (s t : Dict κ ε) : Prop := ∀ k, s.lookup k = t.lookup k

/-! ## The code -/

structure RoomDb (ε δ κ : Type) extends EventGraph ε δ where
  eventToStateGroups : Dict ε ℕ
  currentState : Dict κ ε

/-- `DeltaState`. -/
structure DeltaState (ε κ : Type) where
  toDelete : List κ
  toInsert : Dict κ ε
  noLongerInRoom : Bool

/-- `_StateCacheEntry`. -/
structure StateCacheEntry (ε κ : Type) where
  state : Option (Dict κ ε)
  stateGroup : Option ℕ
  prevGroup : Option ℕ
  deltaIds : Option (Dict κ ε)

/-- What the code asks other parts of the server. -/
structure StateEnv (ε δ κ : Type) where
  serverName : δ
  /-- `self._clock.time_msec()`. -/
  now : ℤ
  /-- The order in which sets are walked. -/
  iterOrder : IterOrder
  /-- `_get_state_for_groups`. -/
  groupState : ℕ → Dict κ ε
  /-- State resolution between the states of a set of groups. -/
  resolve : Finset ℕ → Dict κ ε
  /-- `_state_cache` of the resolution handler. -/
  stateCache : Finset ℕ → Option (StateCacheEntry ε κ)
  /-- A key of a membership event of a local user. -/
  localMember : κ → Bool
  /-- `get_membership_from_event_ids` says that the event is a join. -/
  isJoin : ε → Bool
  /-- `is_local_host_in_room_ignoring_users`, for the users of the given keys. -/
  localHostInRoomIgnoring : List κ → Bool

/-- The exceptions of the code; `outOfRounds` is a walk that does not end. -/
inductive StateDeltaError
  | noStateGroup
  | unknownStateGroup
  | noForwardExtremities
  | cacheEntry
  | emptyBatch
  | outOfRounds
  deriving DecidableEq

variable {ε δ κ : Type} [DecidableEq ε] [DecidableEq δ] [DecidableEq κ]

/-- `_StateCacheEntry.get_state`. -/
def StateCacheEntry.getState (env : StateEnv ε δ κ) (entry : StateCacheEntry ε κ) :
    Except StateDeltaError (Dict κ ε) :=
  match entry.state, entry.stateGroup, entry.prevGroup, entry.deltaIds with
  | some state, _, _, _ => .ok state
  | none, some group, _, _ => .ok (env.groupState group)
  | none, none, some prevGroup, some deltaIds =>
    .ok ((env.groupState prevGroup).update deltaIds.items)
  | none, none, _, _ => .error .cacheEntry

variable (env : StateEnv ε δ κ) (newState : Dict κ ε)

/-- A group with exactly the events of the resolved state. -/
def exactMatch (group : ℕ) : Bool :=
  let newIds := (newState.items.map Prod.snd).toFinset
  let state := env.groupState group
  newIds.card = state.keys.length ∧ newIds = (state.items.map Prod.snd).toFinset

/-- `{k: v for k, v in new_state.items() if old_state.get(k) != v}`. -/
def changedIds (newState oldState : Dict κ ε) : Dict κ ε :=
  update ∅ (newState.items.filter fun kv => oldState.lookup kv.1 ≠ some kv.2)

/-- The loop body that looks for the group with the smallest difference to the resolved state. -/
def closerMatch (best : Option (ℕ × Dict κ ε)) (oldGroup : ℕ) : Option (ℕ × Dict κ ε) :=
  let oldState := env.groupState oldGroup
  if oldState.keys.any fun k => k ∉ newState then best
  else
    let nDeltaIds := changedIds newState oldState
    match best with
    | none => some (oldGroup, nDeltaIds)
    | some (_, deltaIds) =>
      if deltaIds.keys = [] ∨ nDeltaIds.keys.length < deltaIds.keys.length then
        some (oldGroup, nDeltaIds)
      else best

/-- `_make_state_cache_entry`. -/
def makeStateCacheEntry (groups : List ℕ) : StateCacheEntry ε κ :=
  match groups.find? (exactMatch env newState) with
  | some group => ⟨none, some group, none, none⟩
  | none =>
    match groups.foldl (closerMatch env newState) none with
    | some (prevGroup, deltaIds) => ⟨none, none, some prevGroup, some deltaIds⟩
    | none => ⟨some newState, none, none, none⟩

/-- `resolve_state_groups`. -/
def resolveStateGroups (env : StateEnv ε δ κ) (groups : Finset ℕ) : StateCacheEntry ε κ :=
  match env.stateCache groups with
  | some entry => entry
  | none =>
    makeStateCacheEntry env (env.resolve groups) (env.iterOrder.order (groups.sort (· ≤ ·)))

/-- The events with the given IDs that are in the database. -/
def EventGraph.getEvents (G : EventGraph ε δ) (eventIds : List ε) : List (Event ε δ) :=
  eventIds.dedup.filterMap fun e => (G.events.lookup e).map (·.event)

/-- The inner loop of `_prune_extremities`: whether there is an event of this server that is not a
dummy event, among the given events or behind dummy events of this server. -/
def ownEventBelow (env : StateEnv ε δ κ) (G : EventGraph ε δ) :
    ℕ → List (Event ε δ) → Except StateDeltaError Bool
  | _, [] => .ok false
  | 0, _ :: _ => .error .outOfRounds
  | rounds + 1, event :: events =>
    let own := (event :: events).filter fun e => e.domain = env.serverName
    if own.any fun e => !e.dummy then .ok true
    else ownEventBelow env G rounds (G.getEvents (own.flatMap (·.prevEventIds)))

def mayDrop (env : StateEnv ε δ κ) (G : EventGraph ε δ) (newSenders : List δ) (currentDepth : ℤ)
    (event : Event ε δ) : Except StateDeltaError Bool := do
  if ← ownEventBelow env G (G.events.keys.length + 1) [event] then return false
  return (event.originServerTs < env.now - 24 * 60 * 60 * 1000 ∧ event.depth < currentDepth - 100) ∨
    (event.domain ∈ newSenders ∧ event.depth < currentDepth - 20)

/-- `_prune_extremities`. -/
def pruneExtremities (env : StateEnv ε δ κ) (G : EventGraph ε δ)
    (batch : Batch ε δ κ ℕ) (eventIdToStateGroup : ε → Option ℕ)
    (newLatest : Finset ε) (resolvedGroup : ℕ) : Except StateDeltaError (Finset ε) := do
  let newNewExtrems := newLatest.filter fun e => eventIdToStateGroup e = some resolvedGroup
  let droppedExtrems := newLatest \ newNewExtrems
  if batch.any fun ec => ec.1.eventId ∈ droppedExtrems then return newLatest
  let droppedEvents := (G.events.entries.filter fun row => row.1 ∈ droppedExtrems).map (·.2.event)
  match (batch.map fun ec => ec.1.depth).max? with
  | none => throw .emptyBatch
  | some currentDepth =>
    let newSenders := batch.map fun ec => ec.1.domain
    if ← droppedEvents.allM (mayDrop env G newSenders currentDepth) then return newNewExtrems
    return newLatest

variable (batch : Batch ε δ κ ℕ)

/-- The state group in the context of an event of the batch. -/
def contextGroup (e : ε) : Option ℕ :=
  batch.findSome? fun ec => if ec.1.eventId = e then ec.2.stateGroup else none

/-- `event_id_to_state_group`, for the old and the new forward extremities. -/
def eventIdToStateGroup (db : RoomDb ε δ κ) (batch : Batch ε δ κ ℕ) (e : ε) :
    Option ℕ :=
  if e ∈ db.forwardExtremities then db.eventToStateGroups.lookup e
  else (contextGroup batch e).or (db.eventToStateGroups.lookup e)

/-- `state_group_deltas`. -/
def stateGroupDeltas : Dict (ℕ × ℕ) (Dict κ ε) := batch.foldl (fun d ec =>
    if ec.2.stateGroup.isSome then d.update ec.2.stateGroupDeltas.items else d) ∅

variable (env : StateEnv ε δ κ) (db : RoomDb ε δ κ) (batch : Batch ε δ κ ℕ)
  (newLatest : Finset ε)

/-- The end of `_get_new_state_after_events`: resolve the state of several groups. -/
def resolveNewState (newStateGroups : Finset ℕ) :
    Except StateDeltaError (Option (Dict κ ε) × Option (Dict κ ε) × Finset ε) := do
  let entry := resolveStateGroups env newStateGroups
  let kept ← match entry.stateGroup with
    | some resolvedGroup =>
      if resolvedGroup ≠ 0 ∧ resolvedGroup ∈ newStateGroups then
        pruneExtremities env db.toEventGraph batch (eventIdToStateGroup db batch) newLatest
          resolvedGroup
      else .ok newLatest
    | none => .ok newLatest
  let fullState ← entry.getState env
  return (some fullState, none, kept)

/-- The part of `_get_new_state_after_events` after the state groups have been found. -/
def newStateOfGroups (oldStateGroups newStateGroups : Finset ℕ) :
    Except StateDeltaError (Option (Dict κ ε) × Option (Dict κ ε) × Finset ε) :=
  if oldStateGroups = newStateGroups then .ok (none, none, newLatest)
  else
    match newStateGroups.sort (· ≤ ·), oldStateGroups.sort (· ≤ ·) with
    | [newGroup], [oldGroup] =>
      match (stateGroupDeltas batch).lookup (oldGroup, newGroup) with
      | some deltaIds => .ok (none, some deltaIds, newLatest)
      | none => .ok (some (env.groupState newGroup), none, newLatest)
    | [newGroup], _ => .ok (some (env.groupState newGroup), none, newLatest)
    | _, _ => resolveNewState env db batch newLatest newStateGroups

/-- `_get_new_state_after_events`: the new current state or the difference to the old one, if known,
and the forward extremities that are kept. -/
def getNewStateAfterEvents : Except StateDeltaError (Option (Dict κ ε) × Option (Dict κ ε) × Finset ε) :=
  let group := eventIdToStateGroup db batch
  if batch.any fun ec => ec.2.stateGroup.isNone && !ec.1.outlier then .error .noStateGroup
  else if ¬ ∀ e ∈ db.forwardExtremities ∪ newLatest, (group e).isSome then
    .error .unknownStateGroup
  else
    newStateOfGroups env db batch newLatest
      (db.forwardExtremities.biUnion fun e => (group e).toFinset)
      (newLatest.biUnion fun e => (group e).toFinset)

/-- `_calculate_state_delta`. -/
def calculateStateDelta (existing current : Dict κ ε) : DeltaState ε κ :=
  ⟨existing.keys.filter (· ∉ current), changedIds current existing, false⟩

/-- `_is_server_still_joined`. -/
def isServerStillJoined (env : StateEnv ε δ κ) (batch : Batch ε δ κ ℕ)
    (delta : DeltaState ε κ) : Bool :=
  let changed := (delta.toInsert.keys ++ delta.toDelete).filter env.localMember
  let inserted := (delta.toInsert.items.filter fun kv => env.localMember kv.1).map Prod.snd
  changed = [] ∨ (inserted.any fun e => batch.any fun ec => ec.1.eventId = e ∧ ec.1.join) ∨
    inserted.any env.isJoin ∨ env.localHostInRoomIgnoring changed

/-- The change of the current state that the answer of `_get_new_state_after_events` calls for. -/
def deltaOf (currentState deltaIds : Option (Dict κ ε)) : Option (DeltaState ε κ) :=
  let delta : Option (DeltaState ε κ) := match deltaIds, currentState with
    | some deltaIds, _ => some ⟨[], deltaIds, false⟩
    | none, some currentState => some (calculateStateDelta db.currentState currentState)
    | none, none => none
  delta.map fun d => { d with noLongerInRoom := !isServerStillJoined env batch d }

/-- `_calculate_new_forward_extremities_and_state_delta`. -/
def calculateNewForwardExtremitiesAndStateDelta :
    Except StateDeltaError (Option (Finset ε) × Option (DeltaState ε κ)) :=
  match calculateNewExtremities db.toEventGraph batch with
  | none => .error .outOfRounds
  | some newLatest =>
    if newLatest = db.forwardExtremities then .ok (none, none)
    else if newLatest = ∅ then .error .noForwardExtremities
    else if db.forwardExtremities.card = 1 ∧ newLatest.card = 1 ∧
        batch.all fun ec => ec.1.prevEventIds.length = 1 ∧ ¬ ec.1.isState then
      .ok (some newLatest, none)
    else do
      let (currentState, deltaIds, kept) ← getNewStateAfterEvents env db batch newLatest
      if kept = ∅ then throw .noForwardExtremities
      return (some kept, deltaOf env db batch currentState deltaIds)

/-- The current state after a change. -/
def DeltaState.apply (delta : DeltaState ε κ) (state : Dict κ ε) : Dict κ ε :=
  (state.eraseAll delta.toDelete).update delta.toInsert.items

/-! ## The parts of the answer -/

namespace SameState
variable {s t u : Dict κ ε}

omit [DecidableEq ε]

theorem symm (h : SameState s t) : SameState t s := fun k => (h k).symm

theorem trans (h : SameState s t) (h' : SameState t u) : SameState s u := fun k => (h k).trans (h' k)

end SameState

section
variable {s t : Dict κ ε} {k : κ} {e : ε}

theorem lookup_changedIds :
    (changedIds s t).lookup k = some e ↔ s.lookup k = some e ∧ t.lookup k ≠ some e := by
  have hnodup : ((s.items.filter fun kv => t.lookup kv.1 ≠ some kv.2).map Prod.fst).Nodup := by
    refine Nodup.sublist (filter_sublist.map _) ?_
    rw [map_fst_items]
    exact s.keys_nodup
  rw [changedIds, lookup_update hnodup, mem_filter, mem_items, decide_eq_true_eq]
  simp

theorem lookup_eq_of_not_changed (h : (changedIds s t).lookup k = none) (hk : k ∈ s) :
    t.lookup k = s.lookup k := by
  obtain ⟨e, he⟩ := exists_lookup hk
  by_contra hne
  rw [lookup_changedIds.mpr ⟨he, fun ht => hne (ht.trans he.symm)⟩] at h
  exact nomatch h

/-- Applying the difference to a state gives the new state. -/
theorem apply_calculateStateDelta : SameState ((calculateStateDelta s t).apply s) t := by
  intro k
  show ((s.eraseAll _).update (changedIds t s).items).lookup k = _
  rw [lookup_update_items, lookup_eraseAll]
  cases hchanged : (changedIds t s).lookup k with
  | some e => exact (lookup_changedIds.mp hchanged).1.symm
  | none =>
    by_cases ht : k ∈ t
    · rw [if_neg fun hmem => (of_decide_eq_true (mem_filter.mp hmem).2) ht]
      exact lookup_eq_of_not_changed hchanged ht
    · rw [AList.lookup_eq_none.mpr ht]
      split
      · rfl
      next hnot =>
        refine AList.lookup_eq_none.mpr fun hs => hnot ?_
        exact mem_filter.mpr ⟨AList.mem_keys.mp hs, decide_eq_true ht⟩

end

/-! ## State resolution -/

/-- A cache entry for the resolution of some groups. -/
structure StateCacheEntry.Resolved (env : StateEnv ε δ κ) (groups : Finset ℕ)
    (entry : StateCacheEntry ε κ) : Prop where
  state : ∃ s, entry.getState env = .ok s ∧ SameState s (env.resolve groups)
  group : ∀ {g}, entry.stateGroup = some g → SameState (env.groupState g) (env.resolve groups)

/-- What is assumed of the rest of the server: the resolution of one group is its state, an event
sits under its own type and state key, and the cache holds resolutions. -/
structure StateEnv.Lawful (env : StateEnv ε δ κ) (keyOf : ε → κ) : Prop where
  single : ∀ g, SameState (env.resolve {g}) (env.groupState g)
  groupKey : ∀ {g k e}, (env.groupState g).lookup k = some e → keyOf e = k
  resolveKey : ∀ {groups k e}, (env.resolve groups).lookup k = some e → keyOf e = k
  cached : ∀ {groups entry}, env.stateCache groups = some entry → entry.Resolved env groups

variable {env : StateEnv ε δ κ} {keyOf : ε → κ} {db : RoomDb ε δ κ}
  {batch : Batch ε δ κ ℕ} {groupOf : ε → ℕ} {newLatest : Finset ε}

section
variable {s t : Dict κ ε} {groups : List ℕ}

omit [DecidableEq δ]

/-- States with the same events are the same. -/
theorem sameState_of_values (hs : ∀ {k e}, s.lookup k = some e → keyOf e = k)
    (ht : ∀ {k e}, t.lookup k = some e → keyOf e = k)
    (h : (s.items.map Prod.snd).toFinset = (t.items.map Prod.snd).toFinset) : SameState s t := by
  have hmem : ∀ {u : Dict κ ε} {e}, e ∈ (u.items.map Prod.snd).toFinset ↔ ∃ k, u.lookup k = some e := by
    intro u e
    simp only [mem_toFinset, List.mem_map, Prod.exists, exists_eq_right, mem_items]
  refine fun k => ext fun e => ⟨fun he => ?_, fun he => ?_⟩
  · obtain ⟨k', he'⟩ := hmem.mp (h ▸ hmem.mpr ⟨k, he⟩)
    rwa [← hs he, ht he']
  · obtain ⟨k', he'⟩ := hmem.mp (h ▸ hmem.mpr ⟨k, he⟩)
    rwa [← ht he, hs he']

/-- A state with no keys beyond the new ones, and what has changed, make up the new state. -/
theorem sameState_update_changedIds (h : ∀ k ∈ t, k ∈ s) :
    SameState (t.update (changedIds s t).items) s := by
  intro k
  rw [lookup_update_items]
  cases hchanged : (changedIds s t).lookup k with
  | some e => exact (lookup_changedIds.mp hchanged).1.symm
  | none =>
    show t.lookup k = s.lookup k
    by_cases hs : k ∈ s
    · exact lookup_eq_of_not_changed hchanged hs
    · rw [AList.lookup_eq_none.mpr hs, AList.lookup_eq_none.mpr fun ht => hs (h k ht)]

/-- The closest group has no keys beyond the new ones, and the difference is what has changed. -/
theorem closerMatch_inv {prevGroup : ℕ} {deltaIds : Dict κ ε}
    (h : groups.foldl (closerMatch env s) none = some (prevGroup, deltaIds)) :
    (∀ k ∈ env.groupState prevGroup, k ∈ s) ∧ deltaIds = changedIds s (env.groupState prevGroup) := by
  refine foldlRecOn (motive := fun best => ∀ g d, best = some (g, d) → (∀ k ∈ env.groupState g, k ∈ s) ∧
    d = changedIds s (env.groupState g)) groups _ ?_ ?_ prevGroup deltaIds h
  · exact nofun
  intro best hbest oldGroup _ g d hgd
  unfold closerMatch at hgd
  dsimp only at hgd
  split at hgd
  · exact hbest g d hgd
  next hkeys =>
    have hnew : (∀ k ∈ env.groupState oldGroup, k ∈ s) := by
      intro k hk
      by_contra hnot
      exact hkeys (any_eq_true.mpr ⟨k, AList.mem_keys.mp hk, decide_eq_true hnot⟩)
    split at hgd
    · obtain ⟨rfl, rfl⟩ := Prod.mk.inj (some.inj hgd)
      exact ⟨hnew, rfl⟩
    · split at hgd
      · obtain ⟨rfl, rfl⟩ := Prod.mk.inj (some.inj hgd)
        exact ⟨hnew, rfl⟩
      · exact hbest g d hgd

theorem makeStateCacheEntry_resolved (h : env.Lawful keyOf) (groups : Finset ℕ) (l : List ℕ) :
    (makeStateCacheEntry env (env.resolve groups) l).Resolved env groups := by
  unfold makeStateCacheEntry
  split
  next g hg =>
    have hsame : SameState (env.groupState g) (env.resolve groups) := by
      have hmatch := find?_some hg
      rw [exactMatch, decide_eq_true_eq] at hmatch
      exact (sameState_of_values h.resolveKey h.groupKey hmatch.2).symm
    refine ⟨⟨_, rfl, hsame⟩, fun hgroup => ?_⟩
    rwa [← some.inj hgroup]
  · split
    next prevGroup deltaIds hbest =>
      obtain ⟨hkeys, rfl⟩ := closerMatch_inv hbest
      exact ⟨⟨_, rfl, sameState_update_changedIds hkeys⟩, nofun⟩
    · exact ⟨⟨_, rfl, fun _ => rfl⟩, nofun⟩

theorem resolveStateGroups_resolved (h : env.Lawful keyOf) (groups : Finset ℕ) :
    (resolveStateGroups env groups).Resolved env groups := by
  unfold resolveStateGroups
  split
  next hcached => exact h.cached hcached
  · exact makeStateCacheEntry_resolved h groups _

end

/-! ## Pruning -/

/-- The events of the database form a graph without cycles, each stored under its own ID. -/
structure EventGraph.Dag (G : EventGraph ε δ) : Prop where
  ids : ∀ {e row}, G.events.lookup e = some row → row.event.eventId = e
  acyclic : Acyclic fun a b => ∃ row, G.events.lookup a = some row ∧ b ∈ row.event.prevEventIds

section
variable {G : EventGraph ε δ}

omit [DecidableEq κ]

variable (env) in
/-- The walk below an extremity ends: every round is lower in the graph. -/
theorem ownEventBelow_ok (hG : G.Dag) {rounds : ℕ} {events : List (Event ε δ)}
    (hstored : ∀ e ∈ events, ∃ row, G.events.lookup e.eventId = some row ∧ row.event = e)
    (hrounds : ∀ e ∈ events, height (fun a b => ∃ row, G.events.lookup a = some row ∧
      b ∈ row.event.prevEventIds) G.events.keys.toFinset e.eventId < rounds) :
    ∃ own, ownEventBelow env G rounds events = .ok own := by
  induction rounds generalizing events with
  | zero =>
    cases events with
    | nil => exact ⟨false, rfl⟩
    | cons e events => exact absurd (hrounds e mem_cons_self) (Nat.not_lt_zero _)
  | succ rounds ih =>
    cases events with
    | nil => exact ⟨false, rfl⟩
    | cons e events =>
      unfold ownEventBelow
      dsimp only
      split
      · exact ⟨true, rfl⟩
      · -- an event of the next round is a prev event of one of this round
        have hnext : ∀ x ∈ G.getEvents (((e :: events).filter fun x =>
            x.domain = env.serverName).flatMap (·.prevEventIds)), ∃ row,
            G.events.lookup x.eventId = some row ∧ row.event = x ∧
              ∃ y ∈ e :: events, x.eventId ∈ y.prevEventIds := by
          intro x hx
          obtain ⟨a, ha, hrow⟩ := mem_filterMap.mp hx
          obtain ⟨row, hlook, rfl⟩ := Option.map_eq_some_iff.mp hrow
          obtain ⟨y, hy, hay⟩ := mem_flatMap.mp (mem_dedup.mp ha)
          rw [hG.ids hlook]
          exact ⟨row, hlook, rfl, y, mem_of_mem_filter hy, hay⟩
        refine ih (fun x hx => ?_) (fun x hx => ?_)
        · obtain ⟨row, hlook, hevent, _⟩ := hnext x hx
          exact ⟨row, hlook, hevent⟩
        · obtain ⟨row, hlook, _, y, hy, hxy⟩ := hnext x hx
          obtain ⟨row', hlook', rfl⟩ := hstored y hy
          have hlt := height_lt_of_edge hG.acyclic
            (mem_toFinset.mpr (AList.mem_keys.mp (mem_of_lookup hlook)))
            ⟨row', hlook', hxy⟩
          have := hrounds row'.event hy
          omega

theorem mayDrop_ok (hG : G.Dag) {event : Event ε δ} {row : StoredEvent ε δ}
    (hrow : G.events.lookup event.eventId = some row) (hevent : row.event = event)
    (newSenders : List δ) (currentDepth : ℤ) :
    ∃ drop, mayDrop env G newSenders currentDepth event = .ok drop := by
  obtain ⟨own, hown⟩ : ∃ own, ownEventBelow env G (G.events.keys.length + 1) [event] = .ok own := by
    refine ownEventBelow_ok env hG (forall_mem_singleton.mpr ⟨row, hrow, hevent⟩)
      (forall_mem_singleton.mpr ?_)
    have hlt := height_lt_card hG.acyclic (mem_toFinset.mpr (AList.mem_keys.mp (mem_of_lookup hrow)))
    exact Nat.lt_succ_of_lt (hlt.trans_le (toFinset_card_le _))
  unfold mayDrop
  rw [hown]
  cases own <;> exact ⟨_, rfl⟩

variable (env) in
/-- `_prune_extremities` keeps all extremities, or those of the resolved group. -/
theorem pruneExtremities_spec (hG : G.Dag) (hbatch : batch ≠ []) (group : ε → Option ℕ)
    (newLatest : Finset ε) (g : ℕ) : ∃ kept, pruneExtremities env G batch group newLatest g = .ok kept ∧
      (kept = newLatest ∨ kept = newLatest.filter fun e => group e = some g) := by
  unfold pruneExtremities
  dsimp only
  split
  · exact ⟨newLatest, rfl, .inl rfl⟩
  · obtain ⟨currentDepth, _, hdepth, _⟩ := exists_max? (l := batch.map fun ec => ec.1.depth)
      (mt map_eq_nil_iff.mp hbatch)
    rw [hdepth]
    dsimp only
    obtain ⟨all, hall⟩ : ∃ all, ((G.events.entries.filter fun row => row.1 ∈ newLatest \
        newLatest.filter fun e => group e = some g).map (·.2.event)).allM
        (mayDrop env G (batch.map fun ec => ec.1.domain) currentDepth) = .ok all := by
      refine allM_ok fun event hevent => ?_
      obtain ⟨⟨e, row⟩, hrow, rfl⟩ := mem_map.mp hevent
      have hlook := AList.mem_lookup_iff.mpr (mem_of_mem_filter hrow)
      exact mayDrop_ok hG (by rwa [hG.ids hlook]) rfl _ _
    rw [hall]
    cases all with
    | true => exact ⟨_, rfl, .inr rfl⟩
    | false => exact ⟨_, rfl, .inl rfl⟩

end

/-! ## The new state -/

/-- What is assumed of a batch: `groupOf` is the state group of every event, in the database and in
the contexts, events that are not outliers have one, and the differences in the contexts are right. -/
structure BatchLawful (env : StateEnv ε δ κ) (db : RoomDb ε δ κ)
    (batch : Batch ε δ κ ℕ) (groupOf : ε → ℕ) : Prop where
  nonempty : batch ≠ []
  extremity : ∀ e ∈ db.forwardExtremities, e ∈ db.eventToStateGroups
  stored : ∀ {e g}, db.eventToStateGroups.lookup e = some g → groupOf e = g
  given : ∀ ec ∈ batch, ec.1.outlier = false → ec.2.stateGroup ≠ none
  context : ∀ ec ∈ batch, ∀ g, ec.2.stateGroup = some g → groupOf ec.1.eventId = g
  deltas : ∀ ec ∈ batch, ∀ g g' d, ec.2.stateGroupDeltas.lookup (g, g') = some d →
    SameState ((env.groupState g).update d.items) (env.groupState g')

section

omit [DecidableEq δ] in
/-- Every extremity, old or new, gets its state group. -/
theorem BatchLawful.eventIdToStateGroup (h : BatchLawful env db batch groupOf) {e : ε}
    (he : e ∈ db.forwardExtremities ∨ ∃ n ∈ newEvents batch, n.eventId = e) :
    eventIdToStateGroup db batch e = some (groupOf e) := by
  unfold Storage.eventIdToStateGroup
  split
  next hold =>
    obtain ⟨g, hg⟩ := exists_lookup (h.extremity e hold)
    rw [hg, h.stored hg]
  next hold =>
    obtain ⟨n, hn, rfl⟩ := he.resolve_left hold
    obtain ⟨ctx, hmem, hout, _⟩ := mem_newEvents.mp hn
    have hsome : contextGroup batch n.eventId ≠ none := by
      intro hnone
      have hctx := findSome?_eq_none_iff.mp hnone (n, ctx) hmem
      rw [if_pos rfl] at hctx
      exact h.given (n, ctx) hmem hout hctx
    obtain ⟨g, hg⟩ := Option.ne_none_iff_exists'.mp hsome
    obtain ⟨ec, hec, hgroup⟩ := exists_of_findSome?_eq_some hg
    obtain ⟨hid, hgroup⟩ := Option.ite_none_right_eq_some.mp hgroup
    rw [hg, Option.some_or, ← hid, h.context ec hec g hgroup]

variable {d : Dict κ ε}

omit [DecidableEq δ] in
theorem BatchLawful.stateGroupDeltas (h : BatchLawful env db batch groupOf) {g g' : ℕ}
    (hd : (stateGroupDeltas batch).lookup (g, g') = some d) :
    SameState ((env.groupState g).update d.items) (env.groupState g') := by
  refine foldlRecOn (motive := fun deltas : Dict (ℕ × ℕ) (Dict κ ε) => ∀ d,
    deltas.lookup (g, g') = some d → SameState ((env.groupState g).update d.items) (env.groupState g'))
    batch _ ?_ ?_ d hd
  · exact nofun
  intro deltas hdeltas ec hec d hd
  split at hd
  · rw [lookup_update_items, Option.or_eq_some_iff] at hd
    rcases hd with hd | ⟨_, hd⟩
    · exact h.deltas ec hec g g' d hd
    · exact hdeltas d hd
  · exact hdeltas d hd

/-- The state that the answer of `_get_new_state_after_events` stands for. -/
def stateAfter (db : RoomDb ε δ κ) : Option (Dict κ ε) → Option (Dict κ ε) → Dict κ ε
  | _, some deltaIds => db.currentState.update deltaIds.items
  | some state, none => state
  | none, none => db.currentState

omit [DecidableEq δ] [DecidableEq κ] in
theorem biUnion_eventIdToStateGroup {S : Finset ε}
    (h : ∀ e ∈ S, eventIdToStateGroup db batch e = some (groupOf e)) :
    (S.biUnion fun e => (eventIdToStateGroup db batch e).toFinset) = S.image groupOf := by
  ext g
  simp only [mem_biUnion, mem_image, Option.mem_toFinset, Option.mem_def]
  refine exists_congr fun e => and_congr_right fun he => ?_
  rw [h e he, Option.some.injEq]

theorem singleton_of_sort {S : Finset ℕ} {g : ℕ} (h : S.sort (· ≤ ·) = [g]) : S = {g} := by
  ext x
  rw [← mem_sort (· ≤ ·), h, List.mem_singleton, Finset.mem_singleton]

section
variable (henv : env.Lawful keyOf) (h : BatchLawful env db batch groupOf)
include henv h

omit [DecidableEq δ] in
/-- One new group: its state, or the difference that a context knows. -/
theorem stateAfter_single {oldGroup newGroup : ℕ}
    (hd : (stateGroupDeltas batch).lookup (oldGroup, newGroup) = some d)
    (hcurrent : SameState db.currentState (env.resolve {oldGroup})) :
    SameState (stateAfter db none (some d)) (env.resolve {newGroup}) := by
  refine SameState.trans (fun k => ?_) (henv.single newGroup).symm
  rw [← h.stateGroupDeltas hd k]
  refine lookup_update_items.trans ?_
  rw [lookup_update_items, hcurrent.trans (henv.single oldGroup) k]

/-- Several new groups: the resolution, which is that of the extremities that are kept. -/
theorem resolveNewState_spec (hG : db.toEventGraph.Dag) (hne : newLatest ≠ ∅)
    (hgroup : ∀ e ∈ newLatest, eventIdToStateGroup db batch e = some (groupOf e)) :
    ∃ state kept, resolveNewState env db batch newLatest (newLatest.image groupOf) =
        .ok (some state, none, kept) ∧ kept ≠ ∅ ∧ kept ⊆ newLatest ∧
      SameState state (env.resolve (kept.image groupOf)) := by
  have hentry := resolveStateGroups_resolved henv (newLatest.image groupOf)
  obtain ⟨state, hstate, hsame⟩ := hentry.state
  unfold resolveNewState
  dsimp only
  split
  next g hg =>
    split
    next hmem =>
      obtain ⟨kept, hkept, hcases⟩ := pruneExtremities_spec env hG h.nonempty
        (eventIdToStateGroup db batch) newLatest g
      rw [hkept, hstate]
      refine ⟨state, kept, rfl, ?_⟩
      rcases hcases with rfl | rfl
      · exact ⟨hne, Subset.refl _, hsame⟩
      · -- the extremities that are left all have the group whose state is the resolution
        have hkeep : (newLatest.filter fun e => eventIdToStateGroup db batch e = some g) =
            newLatest.filter fun e => groupOf e = g :=
          filter_congr fun e he => by rw [hgroup e he, Option.some.injEq]
        obtain ⟨e, he, rfl⟩ := mem_image.mp hmem.2
        rw [hkeep]
        have hmemKept : e ∈ newLatest.filter fun x => groupOf x = groupOf e :=
          mem_filter.mpr ⟨he, rfl⟩
        have himage : (newLatest.filter fun x => groupOf x = groupOf e).image groupOf = {groupOf e} := by
          refine eq_singleton_iff_unique_mem.mpr ⟨mem_image_of_mem _ hmemKept, ?_⟩
          exact forall_mem_image.mpr fun x hx => (mem_filter.mp hx).2
        refine ⟨ne_empty_of_mem hmemKept, filter_subset _ _, ?_⟩
        rw [himage]
        exact (hsame.trans (hentry.group hg).symm).trans (henv.single _).symm
    · rw [hstate]
      exact ⟨state, newLatest, rfl, hne, Subset.refl _, hsame⟩
  · rw [hstate]
    exact ⟨state, newLatest, rfl, hne, Subset.refl _, hsame⟩

/-- `_get_new_state_after_events` gives the resolution of the state groups of the extremities that it
keeps. -/
theorem getNewStateAfterEvents_spec (hG : db.toEventGraph.Dag) (hne : newLatest ≠ ∅)
    (hnew : ∀ e ∈ newLatest, e ∈ db.forwardExtremities ∨ ∃ n ∈ newEvents batch, n.eventId = e)
    (hcurrent : SameState db.currentState (env.resolve (db.forwardExtremities.image groupOf))) :
    ∃ state deltaIds kept, getNewStateAfterEvents env db batch newLatest =
        .ok (state, deltaIds, kept) ∧ kept ≠ ∅ ∧ kept ⊆ newLatest ∧
      SameState (stateAfter db state deltaIds) (env.resolve (kept.image groupOf)) := by
  have hgiven : (batch.any fun ec => ec.2.stateGroup.isNone && !ec.1.outlier) = false := by
    refine any_eq_false.mpr fun ec hec hcontra => ?_
    rw [Bool.and_eq_true, Option.isNone_iff_eq_none, Bool.not_eq_true'] at hcontra
    exact h.given ec hec hcontra.2 hcontra.1
  have hgroupNew : ∀ e ∈ newLatest, eventIdToStateGroup db batch e = some (groupOf e) :=
    fun e he => h.eventIdToStateGroup (hnew e he)
  have hgroupOld : ∀ e ∈ db.forwardExtremities, eventIdToStateGroup db batch e = some (groupOf e) :=
    fun e he => h.eventIdToStateGroup (.inl he)
  have hall : ∀ e ∈ db.forwardExtremities ∪ newLatest,
      (eventIdToStateGroup db batch e).isSome = true := fun e he =>
    Option.isSome_of_eq_some ((mem_union.mp he).elim (hgroupOld e) (hgroupNew e))
  unfold getNewStateAfterEvents
  rw [hgiven, if_neg Bool.false_ne_true, if_neg (not_not.mpr hall),
    biUnion_eventIdToStateGroup hgroupNew, biUnion_eventIdToStateGroup hgroupOld]
  unfold newStateOfGroups
  split
  next heq =>
    exact ⟨none, none, newLatest, rfl, hne, Subset.refl _, heq ▸ hcurrent⟩
  · split
    next newGroup oldGroup hsortNew hsortOld =>
      rw [singleton_of_sort hsortOld] at hcurrent
      split
      next d hd =>
        refine ⟨none, some d, newLatest, rfl, hne, Subset.refl _, ?_⟩
        rw [singleton_of_sort hsortNew]
        exact stateAfter_single henv h hd hcurrent
      · refine ⟨_, none, newLatest, rfl, hne, Subset.refl _, ?_⟩
        rw [singleton_of_sort hsortNew]
        exact (henv.single newGroup).symm
    next _ newGroup hsortNew _ =>
      refine ⟨_, none, newLatest, rfl, hne, Subset.refl _, ?_⟩
      rw [singleton_of_sort hsortNew]
      exact (henv.single newGroup).symm
    · obtain ⟨state, kept, hrun, hrest⟩ := resolveNewState_spec henv h hG hne hgroupNew
      exact ⟨some state, none, kept, hrun, hrest⟩

end

/-- The current state after the answer of
`_calculate_new_forward_extremities_and_state_delta` has been applied. -/
def currentStateAfter (db : RoomDb ε δ κ) (delta : Option (DeltaState ε κ)) : Dict κ ε :=
  match delta with
  | some delta => delta.apply db.currentState
  | none => db.currentState

omit [DecidableEq δ] in
/-- Applying the change gives the state that the answer stands for. -/
theorem currentStateAfter_deltaOf (state deltaIds : Option (Dict κ ε)) :
    SameState (currentStateAfter db (deltaOf env db batch state deltaIds))
      (stateAfter db state deltaIds) := by
  match state, deltaIds with
  | _, some deltaIds => exact fun _ => rfl
  | some state, none => exact apply_calculateStateDelta
  | none, none => exact fun _ => rfl

/-- The forward extremities after the answer has been stored. -/
def extremitiesAfter (db : RoomDb ε δ κ) (ext : Option (Finset ε)) : Finset ε :=
  ext.getD db.forwardExtremities

variable (env db batch groupOf)

/-- The shortcut for a batch of events that are not state events and have one prev event each goes
wrong: the state at the new forward extremity is not that at the old one. -/
def StaleShortcut : Prop := (∀ ec ∈ batch, ec.1.prevEventIds.length = 1 ∧ ec.1.isState = false) ∧
  ∃ old new, db.forwardExtremities = {old} ∧ new ≠ old ∧
    calculateNewExtremities db.toEventGraph batch = some {new} ∧
    ¬ SameState (env.groupState (groupOf old)) (env.groupState (groupOf new))

variable {env db batch groupOf}

/-- **The current state follows the forward extremities**, but for that shortcut. -/
theorem calculate_follows_iff (henv : env.Lawful keyOf) (hG : db.toEventGraph.Dag)
    (h : BatchLawful env db batch groupOf)
    (hcurrent : SameState db.currentState (env.resolve (db.forwardExtremities.image groupOf)))
    (hleft : calculateNewExtremities db.toEventGraph batch = some ∅ → db.forwardExtremities = ∅) :
    ∃ ext delta, calculateNewForwardExtremitiesAndStateDelta env db batch = .ok (ext, delta) ∧
      (SameState (currentStateAfter db delta) (env.resolve ((extremitiesAfter db ext).image groupOf)) ↔
        ¬ StaleShortcut env db batch groupOf) := by
  obtain ⟨newLatest, hcalc, hmem⟩ := calculateNewExtremities_spec db.toEventGraph batch
  have hall : (batch.all fun ec => ec.1.prevEventIds.length = 1 ∧ ¬ ec.1.isState) = true ↔
      ∀ ec ∈ batch, ec.1.prevEventIds.length = 1 ∧ ec.1.isState = false := by
    simp
  -- the shortcut is taken whenever it would go wrong
  have hstale : StaleShortcut env db batch groupOf → newLatest ≠ db.forwardExtremities ∧
      db.forwardExtremities.card = 1 ∧ newLatest.card = 1 ∧
      (batch.all fun ec => ec.1.prevEventIds.length = 1 ∧ ¬ ec.1.isState) = true := by
    rintro ⟨hchain, old, new, hold, hne, hnew, _⟩
    obtain rfl := some.inj (hcalc.symm.trans hnew)
    rw [hold]
    exact ⟨fun heq => hne (singleton_inj.mp heq), card_singleton _, card_singleton _, hall.mpr hchain⟩
  unfold calculateNewForwardExtremitiesAndStateDelta
  rw [hcalc]
  dsimp only
  split
  next heq =>
    exact ⟨none, none, rfl, iff_of_true hcurrent fun hs => (hstale hs).1 heq⟩
  next hchanged =>
    have hne : newLatest ≠ ∅ := by
      rintro rfl
      exact hchanged (hleft hcalc).symm
    rw [if_neg hne]
    split
    next hshort =>
      obtain ⟨hone, hone', hchain⟩ := hshort
      obtain ⟨old, hold⟩ := card_eq_one.mp hone
      obtain ⟨new, rfl⟩ := card_eq_one.mp hone'
      rw [hold, image_singleton] at hcurrent
      refine ⟨some {new}, none, rfl, ?_⟩
      show SameState db.currentState (env.resolve (image groupOf {new})) ↔ _
      have hold' := hcurrent.trans (henv.single (groupOf old))
      constructor
      · rintro hsame ⟨_, old', new', hold'', _, hnew, hdiff⟩
        obtain rfl := singleton_inj.mp (hold.symm.trans hold'')
        obtain rfl := singleton_inj.mp (some.inj (hcalc.symm.trans hnew))
        exact hdiff ((hold'.symm.trans hsame).trans (henv.single (groupOf new)))
      · intro hfine
        by_contra hdiff
        refine hfine ⟨hall.mp hchain, old, new, hold, ?_, hcalc, fun hsame => hdiff ?_⟩
        · rintro rfl
          exact hchanged hold.symm
        · exact (hold'.trans hsame).trans (henv.single (groupOf new)).symm
    next hlong =>
      obtain ⟨state, deltaIds, kept, hrun, hkept, _, hsame⟩ :=
        getNewStateAfterEvents_spec henv h hG hne (fun e he => ((hmem e).mp he).1) hcurrent
      rw [hrun]
      refine ⟨some kept, _, if_neg hkept, iff_of_true ?_ ?_⟩
      · exact (currentStateAfter_deltaOf state deltaIds).trans hsame
      · exact fun hs => hlong (hstale hs).2

end

/-! ## A soft-failed state event below the batch

Event 1 is the forward extremity, event 2 a soft-failed state event on top of it, and event 3 a message
on top of event 2. -/

def softFailedRoomEvent (e : ℕ) (isState softFailed : Bool) : Event ℕ Unit :=
  ⟨e, [e - 1], isState, false, softFailed, (), false, e, 0, false⟩

/-- Group 1 has event 1, under key 1, and group 2 has event 2 as well. -/
def softFailedRoomState (group : ℕ) : Dict ℕ ℕ :=
  if group = 0 then ∅ else if group = 1 then update ∅ [(1, 1)]
  else update ∅ [(1, 1), (2, 2)]

def softFailedRoomEnv : StateEnv ℕ Unit ℕ where
  serverName := ()
  now := 0
  iterOrder := .insertion
  groupState := softFailedRoomState
  resolve groups := softFailedRoomState (groups.sup id)
  stateCache _ := none
  localMember _ := false
  isJoin _ := false
  localHostInRoomIgnoring _ := false

def softFailedRoom : RoomDb ℕ Unit ℕ where
  events := update ∅ [(1, ⟨softFailedRoomEvent 1 true false, false, false⟩),
    (2, ⟨softFailedRoomEvent 2 true true, false, false⟩)]
  eventEdges := [(1, 0), (2, 1)]
  forwardExtremities := {1}
  eventToStateGroups := update ∅ [(1, 1), (2, 2)]
  currentState := softFailedRoomState 1

def softFailedRoomBatch : List (Event ℕ Unit × EventContext ℕ ℕ ℕ) :=
  [(softFailedRoomEvent 3 false false, ⟨some 2, some 2, false, ∅⟩)]

def softFailedRoomGroup (e : ℕ) : ℕ := min e 2

theorem softFailedRoomEnv_lawful : softFailedRoomEnv.Lawful id := by
  have hkey : ∀ {g k e}, (softFailedRoomState g).lookup k = some e → e = k := by
    intro g k e he
    unfold softFailedRoomState at he
    split at he
    · exact nomatch he
    · split at he
      all_goals
        rw [lookup_update (by decide)] at he
        simp at he
        omega
  refine ⟨fun g k => ?_, hkey, hkey, fun h => absurd h (by simp [softFailedRoomEnv])⟩
  show (softFailedRoomState (({g} : Finset ℕ).sup id)).lookup k = _
  rw [sup_singleton]
  rfl

theorem softFailedRoom_dag : softFailedRoom.toEventGraph.Dag := by
  have hrow : ∀ {e row}, softFailedRoom.events.lookup e = some row →
      row.event.eventId = e ∧ row.event.prevEventIds = [e - 1] ∧ 0 < e ∧ e ≤ 2 := by
    intro e row h
    rw [softFailedRoom, lookup_update (by decide)] at h
    simp at h
    rcases h with ⟨rfl, rfl⟩ | ⟨rfl, rfl⟩ <;> decide
  refine ⟨fun h => (hrow h).1, .of_lt (f := fun e => 3 - e) ?_⟩
  rintro a b ⟨row, hlook, hb⟩
  obtain ⟨_, hprevs, hpos, hle⟩ := hrow hlook
  rw [hprevs, List.mem_singleton] at hb
  omega

theorem softFailedRoom_lawful :
    BatchLawful softFailedRoomEnv softFailedRoom softFailedRoomBatch softFailedRoomGroup where
  nonempty := cons_ne_nil _ _
  extremity := by decide
  stored h := by
    rw [softFailedRoom, lookup_update (by decide)] at h
    simp at h
    unfold softFailedRoomGroup
    omega
  given ec hec _ := by
    rw [List.mem_singleton.mp hec]
    exact Option.some_ne_none 2
  context ec hec g hg := by
    rw [List.mem_singleton.mp hec] at hg ⊢
    exact some.inj hg
  deltas ec hec g g' d hd := by
    rw [List.mem_singleton.mp hec] at hd
    exact nomatch hd

theorem softFailedRoom_current : SameState softFailedRoom.currentState
    (softFailedRoomEnv.resolve (softFailedRoom.forwardExtremities.image softFailedRoomGroup)) :=
  fun _ => rfl

/-- The message is the new forward extremity, its state has event 2, and the current state is left as
it is. -/
theorem calculate_softFailedRoom : (softFailedRoomEnv.Lawful id ∧ softFailedRoom.toEventGraph.Dag ∧
      BatchLawful softFailedRoomEnv softFailedRoom softFailedRoomBatch softFailedRoomGroup ∧
      SameState softFailedRoom.currentState (softFailedRoomEnv.resolve
        (softFailedRoom.forwardExtremities.image softFailedRoomGroup))) ∧
    calculateNewForwardExtremitiesAndStateDelta softFailedRoomEnv softFailedRoom
      softFailedRoomBatch = .ok (some {3}, none) ∧
    (currentStateAfter softFailedRoom none).lookup 2 = none ∧
    (softFailedRoomEnv.resolve (({3} : Finset ℕ).image softFailedRoomGroup)).lookup 2 = some 2 := by
  refine ⟨⟨softFailedRoomEnv_lawful, softFailedRoom_dag, softFailedRoom_lawful,
    softFailedRoom_current⟩, ?_, by decide, by decide⟩
  unfold calculateNewForwardExtremitiesAndStateDelta
  rfl

theorem calculate_follows_iff_softFailedRoom :
    ∃ ext delta, calculateNewForwardExtremitiesAndStateDelta softFailedRoomEnv softFailedRoom
        softFailedRoomBatch = .ok (ext, delta) ∧
      (SameState (currentStateAfter softFailedRoom delta) (softFailedRoomEnv.resolve
          ((extremitiesAfter softFailedRoom ext).image softFailedRoomGroup)) ↔
        ¬ StaleShortcut softFailedRoomEnv softFailedRoom softFailedRoomBatch softFailedRoomGroup) :=
  calculate_follows_iff softFailedRoomEnv_lawful softFailedRoom_dag softFailedRoom_lawful
    softFailedRoom_current fun h => by
      exact absurd (some.inj h) (by decide)

end Synapse.Storage
