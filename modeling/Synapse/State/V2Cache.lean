import Synapse.State.V2View

/-!
# State resolution over its cache

`event_map` only ever shows the events that it had at first or that the store has.  So each function
of `synapse.state.v2`, run over the cache, does what the same function does over the fixed view of
these events.  The code indexes `event_map` directly for events of the full conflicted set; those are
in it from the start.
-/

namespace Synapse.State

open Synapse.Util

variable {ε ρ : Type} [LinearOrder ε] [DecidableEq ρ] {events view : View ε ρ}
  {full : List ε} {roomId : ρ}

/-- The code over the cache does what the code over the view does. -/
abbrev CacheReads (events view : View ε ρ) (full : List ε) {α : Type}
    (x : StateT (EventMap ε ρ) (Except (ResolveError ε ρ)) α) (r : Except Stop α) : Prop :=
  Reads ResolveError.stop events view (· ∈ full) x r

variable {α : Type} (error : ResolveError ε ρ)

section

omit [DecidableEq ρ]

theorem reads_raise : CacheReads events view full ((cachedAccess events).raise error : StateT _ _ α)
      ((viewAccess view).raise error) := Reads.raise error

theorem reads_ofOption (x : Option α) :
    CacheReads events view full ((cachedAccess events).ofOption error x)
      ((viewAccess view).ofOption error x) := by
  cases x with
  | some a => exact .pure a
  | none => exact reads_raise error

theorem reads_index {e : ε} {event : Event ε ρ} (he : e ∈ full) (hevent : view e = some event) :
    CacheReads events view full ((cachedAccess events).index e) ((viewAccess view).index e) := by
  rw [viewAccess_index hevent]
  exact Reads.index ResolveError.keyError he hevent

end

theorem reads_getEventOrNone (e : ε) :
    CacheReads events view full (getEventOrNone (cachedAccess events) roomId e)
      (getEventOrNone (viewAccess view) roomId e) := by
  refine .bind (.fetch e) fun found _ => ?_
  cases found with
  | none => exact .pure _
  | some event =>
    dsimp only
    split
    · exact .pure _
    · exact reads_raise _

theorem reads_getEvent (e : ε) : CacheReads events view full (getEvent (cachedAccess events) roomId e)
      (getEvent (viewAccess view) roomId e) := by
  refine .bind (reads_getEventOrNone e) fun found _ => ?_
  cases found with
  | none => exact reads_raise _
  | some event => exact .pure _

theorem reads_findAuthEvent (key : StateKey) : ∀ aids : List ε,
    CacheReads events view full (findAuthEvent (cachedAccess events) roomId key aids)
      (findAuthEvent (viewAccess view) roomId key aids)
  | [] => .pure _
  | aid :: aids => by
    refine .bind (reads_getEventOrNone aid) fun found _ => ?_
    cases found with
    | none => exact reads_findAuthEvent key aids
    | some aev =>
      dsimp only
      split
      · exact .pure _
      · exact reads_findAuthEvent key aids

theorem reads_getPowerLevelForSender (e : ε) :
    CacheReads events view full (getPowerLevelForSender (cachedAccess events) roomId e)
      (getPowerLevelForSender (viewAccess view) roomId e) := by
  refine .bind (reads_getEvent e) fun event _ => .bind (reads_findAuthEvent _ _) fun pl _ => ?_
  cases pl with
  | some pl => exact reads_ofOption _ _
  | none =>
    refine .bind (reads_findAuthEvent _ _) fun create _ => ?_
    cases create with
    | some create => exact .pure _
    | none => exact .pure _

/-! ## The power events -/

variable (hroom : InRoom view roomId full) (eventIds : List ε) (hfull : ∀ e ∈ eventIds, e ∈ full)
include hfull in
include hroom in
omit [DecidableEq ρ] in
theorem reads_powerEventsOf : CacheReads events view full (powerEventsOf (cachedAccess events) eventIds)
      (powerEventsOf (viewAccess view) eventIds) := by
  refine .foldlM eventIds [] fun powerEvents e he => ?_
  obtain ⟨event, hevent, _⟩ := hroom e (hfull e he)
  exact .bind (reads_index (hfull e he) hevent) fun _ _ =>
    .bind (reads_ofOption _ _) fun _ _ => .pure _

theorem reads_addEventAndAuthChainToGraph : ∀ (rounds : ℕ) (graph : Dict ε (List ε)) (state : List ε),
    CacheReads events view full
      (addEventAndAuthChainToGraph (cachedAccess events) roomId full rounds graph state)
      (addEventAndAuthChainToGraph (viewAccess view) roomId full rounds graph state)
  | rounds, graph, [] => by
    unfold addEventAndAuthChainToGraph
    exact .pure _
  | 0, _, _ :: _ => reads_raise _
  | rounds + 1, graph, eid :: state => by
    exact .bind (reads_getEvent eid) fun event _ => reads_addEventAndAuthChainToGraph rounds _ _

variable {o : ResolveOrders ε}
include hroom in
theorem reads_getPowerOrder (nodes : List ε) (hfull : ∀ e ∈ nodes, e ∈ full) :
    CacheReads events view full (getPowerOrder (cachedAccess events) roomId o nodes)
      (getPowerOrder (viewAccess view) roomId o nodes) := by
  refine .bind (.ofKeysM _ fun e _ => reads_getPowerLevelForSender e) fun eventToPl _ =>
    .ofKeysM _ fun e he => ?_
  obtain ⟨event, hevent, _⟩ := hroom e (hfull e he)
  exact .bind (reads_index (hfull e he) hevent) fun _ _ => .pure _

variable {rounds : ℕ}
include hroom in
theorem reads_reverseTopologicalPowerSort {powerEvents : List ε} (hpower : ∀ p ∈ powerEvents, p ∈ full)
    (hrounds : 1 + ∑ n ∈ full.toFinset, authCount view n ≤ rounds) : CacheReads events view full
      (reverseTopologicalPowerSort (cachedAccess events) roomId o rounds powerEvents full)
      (reverseTopologicalPowerSort (viewAccess view) roomId o rounds powerEvents full) := by
  obtain ⟨graph, hgraph, hof⟩ := foldlM_addEventAndAuthChainToGraph hroom hpower hrounds
  refine .bind (.foldlM powerEvents ∅ fun _ p _ => reads_addEventAndAuthChainToGraph _ _ _)
    fun graph' hgraph' => ?_
  obtain rfl : graph = graph' := Except.ok.inj (hgraph.symm.trans hgraph')
  exact .bind (reads_getPowerOrder hroom _ fun e he => hof.full e (AList.mem_keys.mpr he))
    fun powerOrder _ => .pure _

/-! ## The auth checks -/

theorem reads_ownAuthEvents (event : Event ε ρ) :
    CacheReads events view full (ownAuthEvents (cachedAccess events) roomId event)
      (ownAuthEvents (viewAccess view) roomId event) := by
  refine .foldlM _ ∅ fun authEvents aid _ => .bind (reads_getEventOrNone aid) fun found _ => ?_
  cases found with
  | none => exact .pure _
  | some ev => exact .pure _

theorem reads_overlayState (resolvedState : StateMap ε) (authTypes : List StateKey)
    (authEvents : Dict StateKey (Event ε ρ)) : CacheReads events view full
      (overlayState (cachedAccess events) roomId resolvedState authTypes authEvents)
      (overlayState (viewAccess view) roomId resolvedState authTypes authEvents) := by
  refine .foldlM _ _ fun authEvents key _ => ?_
  cases resolvedState.lookup key with
  | none => exact .pure _
  | some evId => exact .bind (reads_getEvent evId) fun ev _ => .pure _

section
variable {restrictedJoinRule : Bool}
  {checkStateDependentAuthRules : AuthCheck ε ρ}
  {o : ResolveOrders ε}
include hfull in
include hroom in
theorem reads_iterativeAuthChecks (baseState : StateMap ε) : CacheReads events view full
      (iterativeAuthChecks (cachedAccess events) roomId restrictedJoinRule
        checkStateDependentAuthRules o eventIds baseState)
      (iterativeAuthChecks (viewAccess view) roomId restrictedJoinRule
        checkStateDependentAuthRules o eventIds baseState) := by
  refine .foldlM eventIds baseState fun resolvedState e he => ?_
  obtain ⟨event, hevent, _⟩ := hroom e (hfull e he)
  exact .bind (reads_index (hfull e he) hevent) fun event _ =>
    .bind (reads_ownAuthEvents event) fun _ _ => .bind (reads_ofOption _ _) fun _ _ =>
      .bind (reads_overlayState _ _ _) fun _ _ => .pure _

end

/-! ## The mainline -/

theorem reads_mainlineFrom : ∀ (rounds : ℕ) (pl : Option ε),
    CacheReads events view full (mainlineFrom (cachedAccess events) roomId rounds pl)
      (mainlineFrom (viewAccess view) roomId rounds pl)
  | rounds, none => by
    unfold mainlineFrom
    exact .pure _
  | 0, some _ => reads_raise _
  | rounds + 1, some pl => by
    exact .bind (reads_getEvent pl) fun plEv _ => .bind (reads_findAuthEvent _ _) fun next _ =>
      .bind (reads_mainlineFrom rounds _) fun rest _ => .pure _

theorem reads_getMainlineDepthForEvent (mainlineMap : Dict ε ℕ) :
    ∀ (rounds : ℕ) (tmpEvent : Option (Event ε ρ)), CacheReads events view full
        (getMainlineDepthForEvent (cachedAccess events) roomId mainlineMap rounds tmpEvent)
        (getMainlineDepthForEvent (viewAccess view) roomId mainlineMap rounds tmpEvent)
  | rounds, none => by
    unfold getMainlineDepthForEvent
    exact .pure _
  | 0, some _ => reads_raise _
  | rounds + 1, some tmpEvent => by
    unfold getMainlineDepthForEvent
    cases mainlineMap.lookup tmpEvent.eventId with
    | some depth => exact .pure _
    | none =>
      exact .bind (reads_findAuthEvent _ _) fun next _ =>
        reads_getMainlineDepthForEvent mainlineMap rounds _

include hfull in
include hroom in
theorem reads_mainlineSort (pl : Option ε) :
    CacheReads events view full (mainlineSort (cachedAccess events) roomId rounds eventIds pl)
      (mainlineSort (viewAccess view) roomId rounds eventIds pl) := by
  unfold mainlineSort
  split
  · exact .pure _
  · refine .bind (reads_mainlineFrom rounds pl) fun mainline _ =>
      .bind (.ofKeysM _ fun e he => ?_) fun orderMap _ => .pure _
    obtain ⟨event, hevent, _⟩ := hroom e (hfull e he)
    exact .bind (reads_index (hfull e he) hevent) fun event _ =>
      .bind (reads_getMainlineDepthForEvent _ rounds _) fun depth _ => .pure _

/-! ## The whole -/

include hroom in
theorem reads_resolveConflicted {restrictedJoinRule : Bool}
    {checkStateDependentAuthRules : AuthCheck ε ρ}
    (hrounds : 1 + ∑ n ∈ full.toFinset, authCount view n ≤ rounds) (unconflictedState : StateMap ε) :
    CacheReads events view full
      (resolveConflicted (cachedAccess events) roomId restrictedJoinRule checkStateDependentAuthRules
        o rounds full unconflictedState)
      (resolveConflicted (viewAccess view) roomId restrictedJoinRule checkStateDependentAuthRules
        o rounds full unconflictedState) := by
  have horder : ∀ e ∈ o.powerEvents.order full, e ∈ full := fun e => o.powerEvents.mem_order.mp
  refine .bind (reads_powerEventsOf hroom _ horder) fun powerEvents hpower => ?_
  have hpowerFull : ∀ p ∈ powerEvents, p ∈ full := fun p hp =>
    horder p (((powerEventsOf_view hroom _ horder).of_eq_ok hpower p).mp hp).1
  refine .bind (reads_reverseTopologicalPowerSort hroom hpowerFull hrounds) fun sorted hsorted => ?_
  obtain ⟨nodes, _, hnodesFull, hkahn⟩ :=
    (reverseTopologicalPowerSort_view hroom o hpowerFull hrounds).of_eq_ok hsorted
  refine .bind (reads_iterativeAuthChecks hroom sorted
    (fun e he => hnodesFull e (hkahn.mem_left e he)) _) fun resolvedState _ => ?_
  have hleft : ∀ e ∈ (o.leftover.order full).filter (· ∉ sorted), e ∈ full :=
    fun e he => o.leftover.mem_order.mp (List.mem_of_mem_filter he)
  refine .bind (reads_mainlineSort hroom _ hleft _) fun leftover hleftover => ?_
  exact .bind (reads_iterativeAuthChecks hroom leftover
    (fun e he => hleft e ((mainlineSort_perm hleftover).mem_iff.mp he)) _) fun _ _ => .pure _

end Synapse.State
