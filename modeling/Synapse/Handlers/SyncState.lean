import Mathlib.Data.List.Dedup
import Mathlib.Data.List.ProdSigma
import Synapse.State.StateMap
import Synapse.Util.Loops

/-!
# The state block of a sync response

`compute_state_delta` of `synapse.handlers.sync` works out which state events go with a limited
timeline.  A client overlays them onto the state at the previous sync, and then the state events of
the timeline onto that, "to arrive at the state at the end of the timeline".

`_calculate_state` subtracts sets of event ids, not maps.  For a key it may be left with two events,
of which the order of a set chooses one, or with the event of the start of the timeline alone.
`Room.arrives_iff` says for which rooms and timelines the client arrives.
-/

namespace Synapse.Handlers

open Synapse.Util Synapse.State List

variable {ε : Type} [DecidableEq ε]

/-! ## `_calculate_state` -/

section
variable (timelineContains timelineStart timelineEnd previousTimelineEnd : StateMap ε)

/-- `set(state.values())`. -/
def stateIds (state : StateMap ε) : List ε := (state.items.map Prod.snd).dedup

def eventIdToStateKey : Dict ε StateKey :=
  Dict.update ∅ (([timelineContains, timelineStart, timelineEnd, previousTimelineEnd].flatMap
    Dict.items).map Prod.swap)

/-- `state_ids` of `_calculate_state`. -/
def idsToSend (lazyLoadMembers : Bool) : List ε :=
  let previousTimelineEndIds := (stateIds previousTimelineEnd).filter fun e =>
    ¬ (lazyLoadMembers ∧ e ∈ (timelineStart.items.filter fun item => item.1.1 = .member).map Prod.snd)
  (stateIds timelineEnd ∪ stateIds timelineStart).filter fun e =>
    e ∉ previousTimelineEndIds ∧ e ∉ stateIds timelineContains

def calculateState (o : IterOrder) (lazyLoadMembers : Bool) : StateMap ε :=
  let keys := eventIdToStateKey timelineContains timelineStart timelineEnd previousTimelineEnd
  let ids := idsToSend timelineContains timelineStart timelineEnd previousTimelineEnd lazyLoadMembers
  Dict.update ∅ ((o.order ids).filterMap fun e => (keys.lookup e).map (·, e))

end

/-! ## The room -/

/-- Every event stands under its own type and state key. -/
def Keyed (stateKey : ε → Option StateKey) (state : StateMap ε) : Prop :=
  ∀ k e, state.lookup k = some e → stateKey e = some k

/-- Those of the events that are state events, with their keys. -/
def stateItems (stateKey : ε → Option StateKey) (ids : List ε) : List (StateKey × ε) :=
  ids.filterMap fun e => (stateKey e).map (·, e)

/-- A room: its events by stream ordering, each with its prev events, and how the states after
several events are resolved.  Outliers and rejected events are not among the events. -/
structure Room (ε : Type) [DecidableEq ε] where
  stateKey : ε → Option StateKey
  events : List (ε × List ε)
  resolve : List (StateMap ε) → StateMap ε
  keyed_resolve : ∀ states, (∀ state ∈ states, Keyed stateKey state) → Keyed stateKey (resolve states)

namespace Room
variable (room : Room ε)

def withEvent (e : ε) (state : StateMap ε) : StateMap ε :=
  match room.stateKey e with
  | some k => state.insert k e
  | none => state

/-- The state after each event. -/
def states : Dict ε (StateMap ε) := room.events.foldl (fun states event => states.insert event.1
    (room.withEvent event.1 (room.resolve (event.2.filterMap states.lookup)))) ∅

def getStateIdsForEvent (e : ε) : StateMap ε := room.states.getD e ∅

def getStateAfterEvent (e : ε) : StateMap ε := room.withEvent e (room.getStateIdsForEvent e)

/-- A position is the number of the room's events up to it. -/
def getStateAt (position : ℕ) : StateMap ε :=
  match (room.events.take position).getLast? with
  | some event => room.getStateAfterEvent event.1
  | none => ∅

variable (batch : List ε) (since now : ℕ) (fullState : Bool)

def timelineState : StateMap ε := Dict.update ∅ (stateItems room.stateKey batch)

def stateAtTimelineStart : StateMap ε :=
  match batch.head? with
  | some e => room.getStateIdsForEvent e
  | none => room.getStateAt now

def stateAtTimelineEnd : StateMap ε :=
  match batch.getLast? with
  | some e => room.getStateIdsForEvent e
  | none => room.getStateAt now

def previousTimelineEnd : StateMap ε := if fullState then ∅ else room.getStateAt since

/-- `state_ids` of `compute_state_delta` without lazy loading. -/
def computeStateDelta (o : IterOrder) (limited : Bool) : StateMap ε :=
  if fullState ∨ limited then
    calculateState (room.timelineState batch) (room.stateAtTimelineStart batch now)
      (room.stateAtTimelineEnd batch now) (room.previousTimelineEnd since fullState) o false
  else ∅

/-- What a client has after a limited response, if it had the state at the previous sync. -/
def clientState (o : IterOrder) : StateMap ε :=
  ((room.getStateAt since).update (room.computeStateDelta batch since now fullState o true).items).update
    (stateItems room.stateKey batch)

/-- The client arrives at the state at the end of the timeline, however Python walks its sets. -/
structure Arrives : Prop where
  agrees : ∀ o k e, (room.stateAtTimelineEnd batch now).lookup k = some e →
    (room.clientState batch since now fullState o).lookup k = some e
  orderFree : ∀ o o' k, (room.clientState batch since now fullState o).lookup k =
    (room.clientState batch since now fullState o').lookup k

end Room

/-! ## What is sent for a key -/

section
variable {stateKey : ε → Option StateKey} {T S E P : StateMap ε} {o : IterOrder} {k : StateKey} {e : ε}

theorem mem_stateIds {state : StateMap ε} (h : Keyed stateKey state) (hk : stateKey e = some k) :
    e ∈ stateIds state ↔ state.lookup k = some e := by
  unfold stateIds
  rw [mem_dedup, mem_map]
  constructor
  · rintro ⟨⟨k', e⟩, hmem, rfl⟩
    have hlook := Dict.mem_items.mp hmem
    obtain rfl := Option.some.inj ((h k' e hlook).symm.trans hk)
    exact hlook
  · exact fun hlook => ⟨(k, e), Dict.mem_items.mpr hlook, rfl⟩

/-- The final event of a key is the timeline's if that has one, and otherwise the start of the timeline
has no event for the key, the final one or the one of the previous sync. -/
def NoDetour (T S E P : StateMap ε) : Prop := ∀ k e, E.lookup k = some e → T.lookup k = some e ∨
    T.lookup k = none ∧ (S.lookup k = none ∨ S.lookup k = some e ∨ S.lookup k = P.lookup k)

/-- The events that may be sent for a key. -/
def Candidate (T S E P : StateMap ε) (k : StateKey) (e : ε) : Prop :=
  (E.lookup k = some e ∨ S.lookup k = some e) ∧ P.lookup k ≠ some e ∧ T.lookup k ≠ some e

omit [DecidableEq ε] in
theorem mem_stateItems {ids : List ε} :
    (k, e) ∈ stateItems stateKey ids ↔ e ∈ ids ∧ stateKey e = some k := by
  unfold stateItems
  simp only [mem_filterMap, Option.map_eq_some_iff, Prod.mk.injEq]
  constructor
  · rintro ⟨e, he, k, hk, rfl, rfl⟩
    exact ⟨he, hk⟩
  · rintro ⟨he, hk⟩
    exact ⟨e, he, k, hk, rfl, rfl⟩

variable (hkeyed : ∀ m ∈ [T, S, E, P], Keyed stateKey m)
include hkeyed

theorem lookup_eventIdToStateKey {m : StateMap ε} (hm : m ∈ [T, S, E, P]) (hlook : m.lookup k = some e) :
    (eventIdToStateKey T S E P).lookup e = stateKey e := by
  have hmem : ∀ e k, (e, k) ∈ ([T, S, E, P].flatMap Dict.items).map Prod.swap ↔
      ∃ m ∈ [T, S, E, P], m.lookup k = some e := by
    intro e k
    rw [mem_map_swap, mem_flatMap]
    simp only [Dict.mem_items]
  unfold eventIdToStateKey
  rw [hkeyed m hm k e hlook, Dict.lookup_update_of_functional]
  · exact .inl ((hmem e k).mpr ⟨m, hm, hlook⟩)
  · intro e k k' h h'
    obtain ⟨m, hm, h⟩ := (hmem e k).mp h
    obtain ⟨m', hm', h'⟩ := (hmem e k').mp h'
    exact Option.some.inj ((hkeyed m hm k e h).symm.trans (hkeyed m' hm' k' e h'))

theorem calculateState_eq : calculateState T S E P o false =
    Dict.update ∅ (stateItems stateKey (o.order (idsToSend T S E P false))) := by
  refine congrArg _ (filterMap_congr fun e he => congrArg _ ?_)
  have hids : ∀ m ∈ [T, S, E, P], e ∈ stateIds m → (eventIdToStateKey T S E P).lookup e = stateKey e := by
    intro m hm he
    obtain ⟨⟨k, e⟩, hitem, rfl⟩ := mem_map.mp (mem_dedup.mp he)
    exact lookup_eventIdToStateKey hkeyed hm (Dict.mem_items.mp hitem)
  rcases mem_union_iff.mp (mem_of_mem_filter (o.mem_order.mp he)) with he | he
  · exact hids E (by simp) he
  · exact hids S (by simp) he

theorem mem_sent : (k, e) ∈ stateItems stateKey (o.order (idsToSend T S E P false)) ↔
    Candidate T S E P k e := by
  rw [mem_stateItems, o.mem_order]
  have hids : stateKey e = some k → (e ∈ idsToSend T S E P false ↔ Candidate T S E P k e) := by
    intro hk
    have hids : ∀ m ∈ [T, S, E, P], (e ∈ stateIds m ↔ m.lookup k = some e) :=
      fun m hm => mem_stateIds (hkeyed m hm) hk
    unfold idsToSend Candidate
    simp [hids T, hids S, hids E, hids P]
  constructor
  · exact fun h => (hids h.2).mp h.1
  · intro h
    have hk : stateKey e = some k := h.1.elim (hkeyed E (by simp) k e) (hkeyed S (by simp) k e)
    exact ⟨(hids hk).mpr h, hk⟩

theorem candidate_of_lookup (h : (calculateState T S E P o false).lookup k = some e) :
    Candidate T S E P k e := by
  rw [calculateState_eq hkeyed] at h
  rcases Dict.mem_or_lookup_of_lookup_update h with h | h
  · exact (mem_sent hkeyed).mp h
  · exact nomatch h

theorem exists_lookup_of_candidate (h : Candidate T S E P k e) :
    ∃ e', (calculateState T S E P o false).lookup k = some e' := by
  rw [calculateState_eq hkeyed]
  exact Dict.exists_lookup (Dict.mem_update.mpr
    (.inl (mem_map.mpr ⟨(k, e), (mem_sent hkeyed).mpr h, rfl⟩)))

/-- Walked in the order in which they were united, the events of the start of the timeline come
last. -/
theorem lookup_insertion (hs : S.lookup k = some e) (h : Candidate T S E P k e) :
    (calculateState T S E P .insertion false).lookup k = some e := by
  have hS : Keyed stateKey S := hkeyed S (by simp)
  obtain ⟨p, hp⟩ : ∃ p, idsToSend T S E P false = (stateIds E ∪ stateIds S).filter p := ⟨_, rfl⟩
  obtain ⟨early, hearly⟩ := (suffix_union_right (stateIds E) (stateIds S)).filter p
  obtain ⟨hids, hkey⟩ := mem_stateItems.mp ((mem_sent hkeyed (o := .insertion)).mpr h)
  rw [calculateState_eq hkeyed]
  show (Dict.update ∅ (stateItems stateKey (idsToSend T S E P false))).lookup k = some e
  rw [hp, ← hearly, stateItems, filterMap_append, Dict.update_append]
  refine (Dict.lookup_update_of_functional fun k e e' he he' => ?_).mpr
    (.inl (mem_stateItems.mpr ⟨mem_filter.mpr ⟨(mem_stateIds hS hkey).mpr hs, ?_⟩, hkey⟩))
  · obtain ⟨he, hk⟩ := mem_stateItems.mp he
    obtain ⟨he', hk'⟩ := mem_stateItems.mp he'
    exact Option.some.inj (((mem_stateIds hS hk).mp (mem_of_mem_filter he)).symm.trans
      ((mem_stateIds hS hk').mp (mem_of_mem_filter he')))
  · exact (mem_filter.mp (hp ▸ hids)).2

variable {C : StateMap ε}

theorem NoDetour.agrees (h : NoDetour T S E P)
    (hprev : ∀ {k e}, P.lookup k = some e → C.lookup k = some e) (he : E.lookup k = some e) :
    (T.lookup k).or (((calculateState T S E P o false).lookup k).or (C.lookup k)) = some e := by
  rcases h k e he with htimeline | ⟨htimeline, hstart⟩
  · rw [htimeline, Option.some_or]
  rw [htimeline, Option.none_or]
  cases hlook : (calculateState T S E P o false).lookup k with
  | some x =>
    rcases candidate_of_lookup hkeyed hlook with ⟨hx | hx, hnew, _⟩
    · exact hx.symm.trans he
    · rcases hstart with h | h | h
      · exact nomatch hx.symm.trans h
      · exact hx.symm.trans h
      · exact absurd (h.symm.trans hx) hnew
  | none =>
    -- nothing is sent only if the client has the final event already
    by_contra hne
    obtain ⟨x, hx⟩ := exists_lookup_of_candidate hkeyed
      ⟨.inl he, fun h => hne (hprev h), by simp [htimeline]⟩
    exact nomatch hlook.symm.trans hx

theorem noDetour_of_agrees (h : ∀ k e, E.lookup k = some e → (T.lookup k).or
    (((calculateState T S E P .insertion false).lookup k).or (C.lookup k)) = some e) :
    NoDetour T S E P := by
  intro k e he
  have hagrees := h k e he
  cases htimeline : T.lookup k with
  | some t =>
    rw [htimeline, Option.some_or] at hagrees
    exact .inl hagrees
  | none =>
    refine .inr ⟨rfl, ?_⟩
    by_contra hstart
    obtain ⟨hsome, hne, hnew⟩ := not_or.mp hstart |>.imp id not_or.mp
    obtain ⟨s, hs⟩ := Option.ne_none_iff_exists'.mp hsome
    have hsent := lookup_insertion hkeyed hs
      ⟨.inr hs, fun h => hnew (hs.trans h.symm), by simp [htimeline]⟩
    rw [htimeline, hsent] at hagrees
    exact hne (hs.trans hagrees)

/-- What is sent for a key that the final state does not have is the event of the start. -/
theorem lookup_eq_of_final_none (he : E.lookup k = none) (o' : IterOrder) :
    (calculateState T S E P o false).lookup k = (calculateState T S E P o' false).lookup k := by
  have hstart : ∀ {o e}, (calculateState T S E P o false).lookup k = some e → S.lookup k = some e :=
    fun hlook => (candidate_of_lookup hkeyed hlook).1.resolve_left (by simp [he])
  have hsame : ∀ {o o' e}, (calculateState T S E P o false).lookup k = some e →
      (calculateState T S E P o' false).lookup k = some e := by
    intro o o' e hlook
    obtain ⟨e', hlook'⟩ := exists_lookup_of_candidate hkeyed (candidate_of_lookup hkeyed hlook)
    rw [hlook', ← hstart hlook, ← hstart hlook']
  exact Option.ext fun e => ⟨hsame, hsame⟩

end

/-! ## Arriving -/

namespace Room
variable {room : Room ε}

theorem keyed_withEvent {state : StateMap ε} (h : Keyed room.stateKey state) (e : ε) :
    Keyed room.stateKey (room.withEvent e state) := by
  unfold withEvent
  split
  next k hk =>
    intro k' e' hlook
    rcases Dict.lookup_insert_cases hlook with ⟨rfl, rfl⟩ | ⟨_, hlook⟩
    · exact hk
    · exact h k' e' hlook
  · exact h

theorem keyed_empty : Keyed room.stateKey ∅ := nofun

theorem keyed_getStateIdsForEvent (e : ε) : Keyed room.stateKey (room.getStateIdsForEvent e) := by
  have hstates : ∀ e state, room.states.lookup e = some state → Keyed room.stateKey state := by
    refine foldlRecOn (motive := fun states : Dict ε (StateMap ε) => ∀ e state,
      states.lookup e = some state → Keyed room.stateKey state) room.events _ nofun ?_
    intro states h event _ e state hlook
    rcases Dict.lookup_insert_cases hlook with ⟨rfl, rfl⟩ | ⟨_, hlook⟩
    · refine keyed_withEvent (room.keyed_resolve _ fun state hstate => ?_) _
      obtain ⟨x, _, hx⟩ := mem_filterMap.mp hstate
      exact h x state hx
    · exact h e state hlook
  unfold getStateIdsForEvent Dict.getD
  cases hlook : room.states.lookup e with
  | none => exact keyed_empty
  | some state => exact hstates e state hlook

theorem keyed_getStateAt (position : ℕ) : Keyed room.stateKey (room.getStateAt position) := by
  unfold getStateAt
  split
  · exact keyed_withEvent (keyed_getStateIdsForEvent _) _
  · exact keyed_empty

theorem keyed_timelineState {batch : List ε} : Keyed room.stateKey (room.timelineState batch) := by
  intro k e h
  rcases Dict.mem_or_lookup_of_lookup_update h with h | h
  · exact (mem_stateItems.mp h).2
  · exact nomatch h

theorem lookup_clientState (room : Room ε) (batch : List ε) (since now : ℕ) (fullState : Bool)
    (o : IterOrder) (k : StateKey) : (room.clientState batch since now fullState o).lookup k =
      ((room.timelineState batch).lookup k).or (((calculateState (room.timelineState batch)
        (room.stateAtTimelineStart batch now) (room.stateAtTimelineEnd batch now)
        (room.previousTimelineEnd since fullState) o false).lookup k).or
        ((room.getStateAt since).lookup k)) := by
  unfold clientState computeStateDelta
  rw [if_pos (.inr rfl), Dict.lookup_update_eq_or, Dict.lookup_update_items]
  rfl

/-- **Arriving at the state.**  Clients arrive exactly if no key makes a detour. -/
theorem arrives_iff (batch : List ε) (since now : ℕ) (fullState : Bool) :
    room.Arrives batch since now fullState ↔
      NoDetour (room.timelineState batch) (room.stateAtTimelineStart batch now)
        (room.stateAtTimelineEnd batch now) (room.previousTimelineEnd since fullState) := by
  have hkeyed : ∀ m ∈ [room.timelineState batch, room.stateAtTimelineStart batch now,
      room.stateAtTimelineEnd batch now, room.previousTimelineEnd since fullState],
      Keyed room.stateKey m := by
    simp only [forall_mem_cons, not_mem_nil, false_imp_iff, implies_true, and_true]
    unfold stateAtTimelineStart stateAtTimelineEnd previousTimelineEnd
    refine ⟨keyed_timelineState, ?_, ?_, ?_⟩
    all_goals split
    exacts [keyed_getStateIdsForEvent _, keyed_getStateAt now, keyed_getStateIdsForEvent _,
      keyed_getStateAt now, keyed_empty, keyed_getStateAt since]
  have hprev : ∀ {k e}, (room.previousTimelineEnd since fullState).lookup k = some e →
      (room.getStateAt since).lookup k = some e := by
    intro k e
    unfold previousTimelineEnd
    split
    · exact nofun
    · exact id
  have hclient := room.lookup_clientState batch since now fullState
  constructor
  · intro h
    refine noDetour_of_agrees hkeyed (C := room.getStateAt since) fun k e he => ?_
    rw [← hclient]
    exact h.agrees .insertion k e he
  · intro h
    have hagrees : ∀ o k e, (room.stateAtTimelineEnd batch now).lookup k = some e →
        (room.clientState batch since now fullState o).lookup k = some e := by
      intro o k e he
      rw [hclient]
      exact h.agrees hkeyed hprev he
    refine ⟨hagrees, fun o o' k => ?_⟩
    -- a key that the end does not have leaves one candidate, that of the start
    cases he : (room.stateAtTimelineEnd batch now).lookup k with
    | some e => rw [hagrees o k e he, hagrees o' k e he]
    | none => rw [hclient, hclient, lookup_eq_of_final_none hkeyed he o']

/-- Somebody who has not seen the second topic sends a message, and the branches meet again. -/
def forkedRoom : Room ℕ where
  stateKey e := if e < 2 then some (.other "m.room.topic", "") else none
  events := [(0, []), (1, [0]), (2, [1]), (3, [0]), (4, [2, 3])]
  resolve states := states.foldr (fun state resolved => resolved.update state.items) ∅
  keyed_resolve states h := by
    induction states with
    | nil => exact nofun
    | cons state states ih =>
      intro k e hlook
      rw [foldr_cons, Dict.lookup_update_items] at hlook
      rcases Option.or_eq_some_iff.mp hlook with hlook | ⟨_, hlook⟩
      · exact h state mem_cons_self k e hlook
      · exact ih (fun s hs => h s (mem_cons_of_mem _ hs)) k e hlook

/-- A client that has seen the second topic gets the last two of the three events that follow, and is
sent the first topic. -/
theorem not_arrives_forkedRoom : [3, 4].Sublist ((forkedRoom.events.take 5).drop 2 |>.map Prod.fst) ∧
      ¬ forkedRoom.Arrives [3, 4] 2 5 false := by
  refine ⟨by decide, fun h => ?_⟩
  have hsent := h.agrees .insertion (.other "m.room.topic", "") 1 (by decide)
  exact absurd hsent (by decide)

end Room
end Synapse.Handlers
